import SelectorCheck.Command.ConfigSource
import SelectorCheck.Command.Output
import SelectorCheck.Config.Reading
import SelectorCheck.Project
import SelectorCheck.Tree.Calls

/-
  Running the commands.

  A run sees a file system, the directory it starts in, the variables of the
  environment and a grammar for C#. It ends with an exit status, what it printed,
  a failure if there was one, and the file system as it leaves it.
-/

namespace SelectorCheck.Command

/-- What a run sees. -/
structure Surroundings extends Machine where
  /-- The syntax tree of a C# text. -/
  grammar : String → Option Node := fun _ => none
  /-- How many files are analyzed at the same time by default. -/
  processors : Nat := 1

/-- Why a command fails. -/
inductive Failure where
  | config (file : Path)
  | build
  | analysis
  /-- The configuration file to be written is there already. -/
  | configExists (file : String)
  /-- The configuration file cannot be written. -/
  | write (error : SystemError)
deriving DecidableEq

def Failure.message : Failure → String
  | config file => s!"Failed to load config: {file.text}"
  | build => "Failed to build analyzer"
  | analysis => "Analysis failed"
  | configExists file =>
    s!"Configuration file already exists at {file}. Use --force to overwrite."
  | write error => error.message

structure Outcome where
  exit : Nat
  out : String := ""
  failure : Option Failure := none
  disk : FileTree

def loadConfig (s : Surroundings) (source : ConfigSource) : Except Failure Config :=
  match source.file? with
  | none => .ok {}
  | some p =>
    match (s.read? p).map Config.ofBytes with
    | some (.ok c) => .ok c
    | _ => .error (.config p)

/-- The keys in a list with commas between them. -/
def keysOf (list : String) : List String := (Text.pieces ',' list).map Text.trim

/-- The configured built-in rules that some key names. -/
def selectedRules (c : Config) (keys : List String) : List Rule :=
  let wanted := keys.filterMap fun key => (Rule.find? key).map (·.name)
  c.builtInRules.filter fun r => wanted.contains r.name

def rulesOf (c : Config) (filter : Option String) : List Rule :=
  match filter with
  | some list => selectedRules c (keysOf list)
  | none => c.builtInRules

/-- What a check is set up from, under a configuration. -/
def setupOf (s : Surroundings) (r : CheckRequest) (c : Config) : Analyzer.Setup :=
  { root := some r.path, rules := rulesOf c r.rules, frontEnds := [.csharp s.grammar]
    excluded := r.excluded, config := c }

def analyzerOf (s : Surroundings) (r : CheckRequest) (c : Config) :
    Except AnalysisError Analyzer :=
  (setupOf s r c).build s.current s.processors

/-- The text of a file that a report names. -/
def sourceOf (m : Machine) (root file : Path) : Option String :=
  (m.read? (root.join file)).bind fun bytes => String.fromUTF8? bytes

/-- The exit status for a report: 1 if a violation reaches the threshold. -/
def exitStatus (c : Config) (r : Report) : Nat := if r.reaches c.threshold then 1 else 0

/-- A check under a configuration that has been loaded. -/
def checkUnder (s : Surroundings) (r : CheckRequest) (c : Config) : Outcome :=
  match analyzerOf s r c with
  | .error _ => { exit := 1, failure := some .build, disk := s.disk }
  | .ok a =>
    match a.analyze s.toMachine with
    | .error _ => { exit := 1, failure := some .analysis, disk := s.disk }
    | .ok report =>
      { exit := exitStatus c report
        out := reportOutput r.format report (sourceOf s.toMachine a.root)
        disk := s.disk }

def runCheck (s : Surroundings) (r : CheckRequest) : Outcome :=
  match loadConfig s (s.sourceFor r.path r.config (globalDirectory? s.environment)) with
  | .error e => { exit := 1, failure := some e, disk := s.disk }
  | .ok c => checkUnder s r c

def initFile : String := "selector-lint.toml"

/-- Writes a configuration file to the current directory. -/
def runInit (s : Surroundings) (force : Bool) : Outcome :=
  let failed (f : Failure) : Outcome := { exit := 1, failure := some f, disk := s.disk }
  if s.present ⟨initFile⟩ && !force then failed (.configExists initFile)
  else
    match s.trail ⟨initFile⟩ true with
    | .error e => failed (.write e)
    | .ok trail =>
      if (trail.target s.disk).isDirectory then failed (.write .isDirectory)
      else
        { exit := 0, out := initOutput initFile
          disk := .put (.ofBytes configTemplate.toUTF8) trail.names s.disk }

def run (s : Surroundings) (args : List String) : Outcome :=
  match readRequest args with
  | .error .help => { exit := 0, out := usageOutput, disk := s.disk }
  | .error .version => { exit := 0, out := versionOutput, disk := s.disk }
  | .error .misuse => { exit := 2, disk := s.disk }
  | .ok (.check r) => runCheck s r
  | .ok .listRules => { exit := 0, out := rulesOutput, disk := s.disk }
  | .ok (.init force) => runInit s force

end SelectorCheck.Command
