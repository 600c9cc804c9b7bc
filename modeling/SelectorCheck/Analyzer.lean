import SelectorCheck.Config
import SelectorCheck.FrontEnd
import SelectorCheck.Glob

/-
  Analyzers: rules, front ends and patterns put to work on source files.

  An analyzer runs its enabled rules over the calls of a file, call by call and,
  within a call, rule by rule in the order of registration. The severities that
  the configuration sets take the place of the rules' own.

  Cancellation is asked for from outside. The flag is read before each call, so
  it is given as the sequence of these reads; an analysis that reads it set ends
  with `cancelled` and no violations.
-/

namespace SelectorCheck

/-- Why an analysis fails. -/
inductive AnalysisError where
  /-- A file cannot be read as text. -/
  | unreadable (message : String)
  /-- A front end refuses a file. -/
  | unparsable (path : Path) (cause : ReadError)
  | pattern (cause : Glob.Error)
  /-- The directory cannot be walked. -/
  | walk
  | cancelled
deriving DecidableEq

def AnalysisError.message : AnalysisError → String
  | unreadable message => s!"IO error: {message}"
  | unparsable path cause => s!"Parse error in {path.text}: {cause.message}"
  | pattern cause => s!"Invalid glob pattern: {cause.message}"
  | walk => "Failed to walk directory"
  | cancelled => "analysis cancelled"

def notText : String := "stream did not contain valid UTF-8"

/-- The reads of a cancellation flag, in order. -/
abbrev FlagReads := Nat → Bool

/-- The reads of a flag that does not change. -/
def FlagReads.const (set : Bool) : FlagReads := fun _ => set

/-- An analysis ready to run. -/
structure Analyzer where
  /-- An absolute path. -/
  root : Path
  rules : List Rule
  frontEnds : List FrontEnd
  /-- Patterns of files that are left out. -/
  excluded : List Glob
  /-- Patterns of the files that are taken: all of them if there is no pattern. -/
  included : List Glob
  methods : MethodTable
  config : Config
  /-- Whether a file that a front end refuses makes the analysis fail. -/
  failOnParseError : Bool
  /-- The number of files analyzed at the same time. -/
  workers : Nat

/-- What an analyzer is made from. -/
structure Analyzer.Setup where
  /-- Where to start in place of the configured root. -/
  root : Option Path := none
  rules : List Rule
  frontEnds : List FrontEnd
  /-- Patterns before the configured ones. -/
  excluded : List String := []
  /-- Patterns before the configured ones. -/
  included : List String := []
  /-- The watched methods in place of the configured ones. -/
  methods : Option MethodTable := none
  config : Config := {}
  failOnParseError : Bool := false

namespace Analyzer

/-- Makes an analyzer. A relative root is taken from the current directory;
`processors` is how many files are analyzed at the same time if the configuration
does not say. -/
def Setup.build (s : Setup) (current : Path) (processors : Nat := 1) :
    Except AnalysisError Analyzer :=
  match Glob.parseAll (s.excluded ++ s.config.search.excluded),
    Glob.parseAll (s.included ++ s.config.search.included) with
  | .error e, _ => .error (.pattern e)
  | _, .error e => .error (.pattern e)
  | .ok excluded, .ok included =>
    .ok {
      root := current.join (s.root.getD s.config.search.root)
      rules := s.rules
      frontEnds := s.frontEnds
      excluded, included
      methods := s.methods.getD s.config.methodTable
      config := s.config
      failOnParseError := s.failOnParseError
      workers := max 1 (s.config.search.parallelism.getD processors) }

/-- The front end for a path, by its extension. -/
def frontEnd? (a : Analyzer) (p : Path) : Option FrontEnd :=
  p.extension?.bind fun extension => a.frontEnds.find? (·.handles extension)

def excludes (a : Analyzer) (p : Path) : Bool := a.excluded.any (·.acceptsBelow a.root p)

def includes (a : Analyzer) (p : Path) : Bool :=
  a.included.isEmpty || a.included.any (·.acceptsBelow a.root p)

def enabledRules (a : Analyzer) : List Rule := a.rules.filter (a.config.isEnabled ·.name)

/-- The violation with the severity that the configuration sets for a rule. -/
def withSeverity (a : Analyzer) (rule : String) (v : Violation) : Violation :=
  match a.config.severity? rule with
  | some s => { v with severity := s }
  | none => v

def checkRule (a : Analyzer) (file : SourceFile) (c : Call) (r : Rule) : List Violation :=
  (r.checkCall file c).map (a.withSeverity r.name)

def checkCall (a : Analyzer) (file : SourceFile) (c : Call) : List Violation :=
  a.enabledRules.flatMap (a.checkRule file c)

/-- The violations of calls, the flag being read before each of them. -/
def checkCalls (a : Analyzer) (file : SourceFile) (reads : FlagReads) :
    List Call → Except AnalysisError (List Violation)
  | [] => .ok []
  | c :: rest =>
    if reads 0 then .error .cancelled
    else
      match checkCalls a file (fun i => reads (i + 1)) rest with
      | .ok found => .ok (a.checkCall file c ++ found)
      | .error e => .error e

/-- The log of `checkCalls`, call by call. -/
def checkCallsEvents (a : Analyzer) (file : SourceFile) (reads : FlagReads) :
    List Call → List Event
  | [] => []
  | c :: rest =>
    if reads 0 then []
    else
      a.enabledRules.flatMap (·.checkEvents file c)
        ++ checkCallsEvents a file (fun i => reads (i + 1)) rest

/-- The log lines on rules that are not enabled. -/
def disabledEvents (a : Analyzer) : List Event :=
  (a.rules.filter (!a.config.isEnabled ·.name)).map fun r =>
    ⟨.debug, s!"Skipping disabled rule: {r.name}"⟩

/-- The log of a whole run of `checkCalls`. -/
def callsEvents (a : Analyzer) (file : SourceFile) (reads : FlagReads) (calls : List Call) :
    List Event :=
  a.disabledEvents ++ a.checkCallsEvents file reads calls

def sourceFile (a : Analyzer) (p : Path) (content : String) : SourceFile :=
  .under a.root p content a.methods

/-- The violations of a text that a front end reads. -/
def checkText (a : Analyzer) (front : FrontEnd) (reads : FlagReads) (p : Path)
    (content : String) : Except AnalysisError (List Violation) :=
  match front.read a.methods content with
  | .error e => .error (.unparsable p e)
  | .ok calls => a.checkCalls (a.sourceFile p content) reads calls

def checkTextEvents (a : Analyzer) (front : FrontEnd) (reads : FlagReads) (p : Path)
    (content : String) : List Event :=
  front.readEvents a.methods content ++
    match front.read a.methods content with
    | .error _ => []
    | .ok calls => a.callsEvents (a.sourceFile p content) reads calls

/-- The report on a text under a path. A text that no front end handles has an
empty report and does not count as checked. -/
def analyzeSource (a : Analyzer) (reads : FlagReads) (p : Path) (content : String) :
    Except AnalysisError Report :=
  match a.frontEnd? p with
  | none => .ok {}
  | some front =>
    match a.checkText front reads p content with
    | .error e => .error e
    | .ok violations => .ok (Report.sort { violations, filesChecked := 1 })

def analyzeSourceEvents (a : Analyzer) (reads : FlagReads) (p : Path) (content : String) :
    List Event :=
  match a.frontEnd? p with
  | none => []
  | some front => a.checkTextEvents front reads p content

end Analyzer

end SelectorCheck
