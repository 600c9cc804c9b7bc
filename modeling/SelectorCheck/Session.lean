import SelectorCheck.Analyzer

/-
  Sessions: an analyzer with its cancellation flag.

  The host of an analysis may share a flag with it; then there is one flag for
  both. Otherwise the analyzer has a flag of its own and the host's has no effect.
  A flag that is set stays set.
-/

namespace SelectorCheck

/-- An analyzer with its cancellation flag, beside the flag of the host. -/
structure Session where
  analyzer : Analyzer
  /-- Whether the analyzer uses the host's flag. -/
  shared : Bool
  own : Bool := false
  host : Bool := false

namespace Session

def isCancelled (s : Session) : Bool := if s.shared then s.host else s.own

def cancel (s : Session) : Session :=
  if s.shared then { s with host := true } else { s with own := true }

def cancelHost (s : Session) : Session := { s with host := true }

/-- The flag as the analyzer reads it. -/
def reads (s : Session) : FlagReads := .const s.isCancelled

def analyzeSource (s : Session) (p : Path) (content : String) : Except AnalysisError Report :=
  s.analyzer.analyzeSource s.reads p content

def analyzeSourceEvents (s : Session) (p : Path) (content : String) : List Event :=
  s.analyzer.analyzeSourceEvents s.reads p content

def checkCalls (s : Session) (file : SourceFile) (calls : List Call) :
    Except AnalysisError (List Violation) :=
  s.analyzer.checkCalls file s.reads calls

def checkCallsEvents (s : Session) (file : SourceFile) (calls : List Call) : List Event :=
  s.analyzer.callsEvents file s.reads calls

end Session

end SelectorCheck
