import SelectorCheck.Command.Request
import SelectorCheck.Json
import SelectorCheck.Rule

/-
  What the commands print.
-/

namespace SelectorCheck.Command

def escapeStart : String := "\x1b["

def colourEnd : String := escapeStart ++ "0m"

/-- Terminal colours by their number. -/
def coloured (number : Nat) (text : String) : String :=
  escapeStart ++ toString number ++ "m" ++ text ++ colourEnd

def severityColour : Severity → Nat
  | .error => 31
  | .warning => 33
  | .info => 34

/-- The line that counts the violations. Its colour is that of the gravest among
errors and warnings, and green if there are none. -/
def summary (r : Report) : String :=
  let errors := r.count .error
  let warnings := r.count .warning
  let infos := r.count .info
  let colour := if 0 < errors then 31 else if 0 < warnings then 33 else 32
  coloured colour
    s!"Found {errors} error(s), {warnings} warning(s), {infos} info(s) in {r.filesChecked} file(s)"
    ++ "\n"

def textOutput (r : Report) : String :=
  String.join (r.violations.map fun v =>
    v.linesWith (coloured (severityColour v.severity) v.severity.word) ++ "\n") ++ summary r

def jsonOutput (r : Report) : String := r.json.indented 0 ++ "\n"

def compactOutput (r : Report) : String :=
  String.join (r.violations.map fun v => v.oneLine ++ "\n")

/-- A line of a text, counted from one. -/
def sourceLine (source : String) (number : Nat) : String :=
  ((Text.pieces '\n' source)[number - 1]?).getD ""

/-- A violation beside its source line. -/
def annotated (v : Violation) (source : String) : String :=
  let l := v.listing
  s!"{l.severity}: {l.message}\n --> {v.place}\n  | {sourceLine source v.location.line.toNat}\n"
    ++ String.join (l.labels.map fun a => s!"  = {a.label}\n")
    ++ match l.help with
      | some help => s!"  = help: {help}\n"
      | none => ""

/-- The report with source lines. A violation whose file is empty or cannot be read
is shown in words. -/
def prettyOutput (r : Report) (sourceOf : Path → Option String) : String :=
  String.join (r.violations.map fun v =>
    let source := (sourceOf v.location.file).getD ""
    (if source = "" then v.lines else annotated v source) ++ "\n") ++ summary r

/-- The report in a format, given the texts of the files it names. -/
def reportOutput (format : Format) (r : Report) (sourceOf : Path → Option String) : String :=
  match format with
  | .text => textOutput r
  | .json => jsonOutput r
  | .compact => compactOutput r
  | .pretty => prettyOutput r sourceOf

/-- The lines on a rule: its own, and one for each diagnostic if there are several. -/
def ruleLines (r : Rule) : List String :=
  (Text.padEnd 10 r.code ++ " " ++ Text.padEnd 30 r.name ++ " " ++ r.description) ::
    if r.diagnostics.length ≤ 1 then []
    else r.diagnostics.map fun d =>
      "  " ++ Text.padEnd 8 d.code ++ " " ++ Text.padEnd 30 "" ++ s!" selector unusable {d.concern}"

def printLines (lines : List String) : String := String.join (lines.map (· ++ "\n"))

def rulesOutput : String :=
  printLines <|
    ["Available rules:", "",
      Text.padEnd 10 "Code" ++ " " ++ Text.padEnd 30 "Name" ++ " Description",
      String.ofList (List.replicate 100 '-')]
    ++ Rule.builtIn.flatMap ruleLines
    ++ ["", "Use --rules to filter specific rules, e.g.:",
      "  selector-lint check --rules incorrect-ignore-expression",
      "  selector-lint check --rules TH1001,TH1002"]

/-- The configuration file that `init` writes. -/
def configTemplate : String :=
  printLines
    ["# selector-lint configuration",
     "",
     "# Exit with a failure status when a violation reaches this severity",
     "fail_on = \"error\"",
     "",
     "[analyzer]",
     "# Root directory to analyze (default: current directory)",
     "# root = \"./src\"",
     "",
     "# Glob patterns to exclude from analysis",
     "exclude = [",
     "    \"**/bin/**\",",
     "    \"**/obj/**\",",
     "]",
     "",
     "# Glob patterns to include (empty: every .cs file)",
     "# include = [\"src/**\"]",
     "",
     "# Respect .gitignore files",
     "respect_gitignore = true",
     "",
     "# Worker threads (default: available parallelism)",
     "# parallelism = 4",
     "",
     "# Additional watched methods, e.g. the same methods on another type",
     "# [[methods]]",
     "# name = \"Ignore\"",
     "# declaring_type = \"MyMapExtensions\"",
     "# receiver_parameter = \"map\"",
     "# parameters = [\"selector\"]",
     "",
     "# Rule configurations",
     "# Each rule can be enabled/disabled and have its severity overridden",
     "",
     "[rules.incorrect-link-and-ignore]",
     "enabled = true",
     "# severity = \"warning\"  # Override default severity",
     "max_chain_depth = 1",
     "",
     "[rules.incorrect-ignore-expression]",
     "enabled = true",
     "max_chain_depth = 1"]

/-- What `init` says when it has written a file. -/
def initOutput (file : String) : String :=
  printLines
    [s!"Created {file}", "", "Next steps:", s!"  1. Edit {file} to configure rules",
     "  2. Run: selector-lint check"]

def versionOutput : String := "selector-lint 0.1.0\n"

def usageOutput : String :=
  printLines
    ["Checks the selector lambdas passed to transformation map configuration", "",
     "Usage: selector-lint [OPTIONS] <COMMAND>", "", "Commands:",
     "  check [PATH] [-f text|json|compact|pretty] [--rules RULES] [-e PATTERN]...",
     "  list-rules", "  init [--force]", "  help [COMMAND]", "", "Options:",
     "  -v, --verbose", "  -c, --config <CONFIG>", "  -h, --help", "  -V, --version"]

end SelectorCheck.Command
