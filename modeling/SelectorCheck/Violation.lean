import SelectorCheck.Path
import SelectorCheck.Severity
import SelectorCheck.Span

/-
  Violations: what the checker reports.
-/

namespace SelectorCheck

structure Location where
  /-- The file, relative to the root of the analysis. -/
  file : Path
  line : UInt64
  column : UInt64
  /-- Byte position in the file. -/
  offset : UInt64
  /-- Length in bytes. -/
  length : UInt64
deriving DecidableEq

def Span.location (s : Span) (file : Path) : Location :=
  { file, line := s.line, column := s.column, offset := s.offset, length := s.length }

/-- A remark about another place. -/
structure Label where
  location : Location
  message : String
deriving DecidableEq

/-- One finding of a rule. -/
structure Violation where
  /-- Identifier of the diagnostic. -/
  code : String
  /-- Name of the rule. -/
  rule : String
  severity : Severity
  location : Location
  message : String
  /-- How to mend it. -/
  suggestion : Option String := none
  labels : List Label := []
deriving DecidableEq

/-- A remark in an annotated listing: its text, and the bytes it is about. -/
structure Annotation where
  label : String
  offset : UInt64
  length : UInt64
  primary : Bool

/-- A violation as shown beside the source. -/
structure Listing where
  message : String
  code : String
  severity : String
  help : Option String
  labels : List Annotation

namespace Violation

def place (v : Violation) : String :=
  s!"{v.location.file.text}:{v.location.line}:{v.location.column}"

def oneLine (v : Violation) : String :=
  s!"{v.place}: {v.severity.word} [{v.code}] {v.message}"

/-- The violation on lines of its own, with the given word for its severity. -/
def linesWith (v : Violation) (severity : String) : String :=
  s!"{v.code} {v.rule} at {v.place}\n  {severity}: {v.message}\n" ++
    match v.suggestion with
    | some help => s!"  = help: {help}\n"
    | none => ""

def lines (v : Violation) : String := v.linesWith v.severity.word

/-- What an annotated listing calls a severity. -/
def listingWord : Severity → String
  | .info => "advice"
  | .warning => "warning"
  | .error => "error"

/-- The violation as shown beside the source: the rule's name stands at the
violation itself, and each label at its own place. -/
def listing (v : Violation) : Listing where
  message := s!"[{v.code}] {v.message}"
  code := v.code
  severity := listingWord v.severity
  help := v.suggestion
  labels :=
    { label := v.rule, offset := v.location.offset, length := v.location.length, primary := true }
      :: v.labels.map fun l =>
        { label := l.message, offset := l.location.offset, length := l.location.length,
          primary := false }

end Violation

end SelectorCheck
