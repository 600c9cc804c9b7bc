/-
  Reading command line arguments.

  A level of the command line has switches, at most one operand, and commands that
  open a level below. Arguments are read from the left. `--name=value`,
  `--name value`, `-nvalue`, `-n=value` and `-n value` all give a value, short
  switches without one may stand together, and after `--` every argument is an
  operand. Names are written out in full.

  A value that stands in an argument of its own is judged when the next switch or
  operand is read, or at the end; a command that comes first is read before that.
  Asking for help or for the version ends the reading at once.
-/

namespace SelectorCheck.Command

/-- Why the reading of arguments ends early. -/
inductive Stop where
  | help
  | version
  /-- The arguments make no sense. -/
  | misuse
deriving DecidableEq

/-- What a switch does. -/
inductive SwitchKind where
  | flag
  /-- Takes a value that satisfies a test, once. -/
  | single (accepts : String → Bool)
  /-- Takes any value, any number of times. -/
  | repeated
  | help
  | version

/-- A switch of the command line. -/
structure Switch where
  name : String
  short : Option Char := none
  kind : SwitchKind

def Switch.takesValue (s : Switch) : Bool :=
  match s.kind with
  | .single _ | .repeated => true
  | .flag | .help | .version => false

/-- One level of the command line. -/
structure Level where
  switches : List Switch
  operand : Option Switch := none
  commands : List String := []

/-- Arguments read so far. -/
structure Reading where
  /-- The switches and the operand given, with their values, in order. -/
  given : List (String × String) := []
  /-- A switch whose value is still to come or still to be judged. -/
  pending : Option (Switch × Option String) := none
  /-- Whether the operand was given. -/
  hasOperand : Bool := false
  /-- Whether every further argument is an operand. -/
  plain : Bool := false

namespace Reading

def has (r : Reading) (name : String) : Bool := r.given.any (·.1 == name)

def value? (r : Reading) (name : String) : Option String := r.given.lookup name

def values (r : Reading) (name : String) : List String :=
  (r.given.filter (·.1 == name)).map (·.2)

/-- Takes a switch with its value. -/
def accept (r : Reading) (s : Switch) (value : String) : Except Stop Reading :=
  let taken : Reading := { r with given := r.given ++ [(s.name, value)] }
  match s.kind with
  | .help => .error .help
  | .version => .error .version
  | .repeated => .ok taken
  | .flag => if r.has s.name then .error .misuse else .ok taken
  | .single accepts =>
    if r.has s.name || !accepts value then .error .misuse else .ok taken

/-- Judges the pending value. -/
def settle (r : Reading) : Except Stop Reading :=
  match r.pending with
  | none => .ok r
  | some (_, none) => .error .misuse
  | some (s, some value) => { r with pending := none }.accept s value

/-- Reads a switch, with the value in the same argument if there is one. -/
def switch (r : Reading) (s : Switch) (attached : Option String) : Except Stop Reading := do
  match s.takesValue, attached with
  | true, some value => (← r.settle).accept s value
  | true, none => return { ← r.settle with pending := some (s, none) }
  | false, some _ => .error .misuse
  | false, none => (← r.settle).accept s ""

def operand (level : Level) (r : Reading) (value : String) : Except Stop Reading := do
  match level.operand with
  | none => .error .misuse
  | some s =>
    if r.hasOperand then .error .misuse
    else return { ← r.settle with pending := some (s, some value), hasOperand := true }

/-- Reads the letters after a single dash. -/
def letters (level : Level) (r : Reading) : List Char → Except Stop Reading
  | [] => .ok r
  | c :: rest =>
    match level.switches.find? (·.short == some c) with
    | none => .error .misuse
    | some s =>
      if s.takesValue then
        match rest with
        | [] => r.switch s none
        | '=' :: value => r.switch s (some (String.ofList value))
        | value => r.switch s (some (String.ofList value))
      else do letters level (← r.switch s none) rest

/-- Reads what follows two dashes. -/
def long (level : Level) (r : Reading) (text : List Char) : Except Stop Reading :=
  let name := String.ofList (text.takeWhile (· ≠ '='))
  let attached := match text.dropWhile (· ≠ '=') with
    | [] => none
    | _ :: value => some (String.ofList value)
  match level.switches.find? (·.name == name) with
  | none => .error .misuse
  | some s => r.switch s attached

def argument (level : Level) (r : Reading) (arg : String) : Except Stop Reading :=
  if r.plain then r.operand level arg
  else
    match arg.toList with
    | ['-', '-'] => .ok { r with plain := true }
    | '-' :: '-' :: text => r.long level text
    | '-' :: c :: rest => r.letters level (c :: rest)
    | _ =>
      match r.pending with
      | some (s, none) => .ok { r with pending := some (s, some arg) }
      | _ => r.operand level arg

/-- Whether an argument opens a level below. -/
def opens (level : Level) (r : Reading) (arg : String) : Bool :=
  let waiting := match r.pending with
    | some (_, none) => true
    | _ => false
  !r.plain && !waiting && level.commands.contains arg

/-- Reads arguments up to a command, which is given with the arguments after it. -/
def arguments (level : Level) (r : Reading) :
    List String → Except Stop (Reading × Option (String × List String))
  | [] => .ok (r, none)
  | arg :: rest =>
    if r.opens level arg then .ok (r, some (arg, rest))
    else
      match r.argument level arg with
      | .error stop => .error stop
      | .ok r => arguments level r rest

end Reading

end SelectorCheck.Command
