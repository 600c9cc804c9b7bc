import SelectorCheck.Command.Switch
import SelectorCheck.Path

/-
  What the command line asks for.

    check [PATH] [-f FORMAT] [--rules KEYS] [-e PATTERN]...
    list-rules
    init [--force]
    help [COMMAND]

  `-v` and `-c PATH` may stand before and after the command; after it they count
  more.
-/

namespace SelectorCheck.Command

/-- How a report is printed. -/
inductive Format where
  | text
  | json
  | compact
  | pretty
deriving DecidableEq

def Format.ofWord? : String → Option Format
  | "text" => some .text
  | "json" => some .json
  | "compact" => some .compact
  | "pretty" => some .pretty
  | _ => none

/-- What to check, and how. -/
structure CheckRequest where
  path : Path := ⟨"."⟩
  format : Format := .text
  /-- Keys of the rules to run, with commas between them. -/
  rules : Option String := none
  /-- Patterns of files that are left out. -/
  excluded : List String := []
  /-- The configuration file. -/
  config : Option Path := none

/-- What the command line asks for. -/
inductive Request where
  | check (r : CheckRequest)
  | listRules
  | init (force : Bool)

def isPath (text : String) : Bool := text ≠ ""

def commonSwitches : List Switch :=
  [{ name := "verbose", short := some 'v', kind := .flag },
   { name := "config", short := some 'c', kind := .single isPath },
   { name := "help", short := some 'h', kind := .help }]

/-- The commands with a level of their own. -/
def commandNames : List String := ["check", "list-rules", "init"]

def topLevel : Level where
  switches := { name := "version", short := some 'V', kind := .version } :: commonSwitches
  commands := commandNames ++ ["help"]

def checkLevel : Level where
  switches :=
    [{ name := "format", short := some 'f',
       kind := .single fun word => (Format.ofWord? word).isSome },
     { name := "rules", kind := .single fun _ => true },
     { name := "exclude", short := some 'e', kind := .repeated }] ++ commonSwitches
  operand := some { name := "path", kind := .single isPath }

def listRulesLevel : Level where
  switches := commonSwitches

def initLevel : Level where
  switches := { name := "force", kind := .flag } :: commonSwitches

def levelOf : String → Level
  | "check" => checkLevel
  | "init" => initLevel
  | _ => listRulesLevel

/-- How a request for help on the given commands ends. -/
def helpOn : List String → Stop
  | [] => .help
  | [command] => if topLevel.commands.contains command then .help else .misuse
  | _ => .misuse

/-- The request of a command, given what was read before and after it. -/
def requestOf (before after : Reading) : String → Request
  | "check" =>
    let usual : CheckRequest := {}
    .check {
      path := (after.value? "path").elim usual.path Path.mk
      format := ((after.value? "format").bind Format.ofWord?).getD usual.format
      rules := after.value? "rules"
      excluded := after.values "exclude"
      config := ((after.value? "config").or (before.value? "config")).map Path.mk }
  | "init" => .init (after.has "force")
  | _ => .listRules

/-- Reads the arguments. A command is needed. -/
def readRequest (args : List String) : Except Stop Request := do
  let (before, command) ← Reading.arguments topLevel {} args
  match command with
  | none => .error .misuse
  | some ("help", commands) => .error (helpOn commands)
  | some (name, rest) =>
    let (after, _) ← Reading.arguments (levelOf name) {} rest
    let after ← after.settle
    let before ← before.settle
    return requestOf before after name

end SelectorCheck.Command
