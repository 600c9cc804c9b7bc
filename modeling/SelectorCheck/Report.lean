import SelectorCheck.Violation

/-
  Reports: the violations of an analysis and the number of files it covers.

  A report is ordered by file, line and column. The order is stable, so the
  violations of one place keep the order in which they were raised.
-/

namespace SelectorCheck

/-- The order of places: by file, then line, then column. -/
def Location.compare (a b : Location) : Ordering :=
  ((a.file.compare b.file).then (Ord.compare a.line b.line)).then
    (Ord.compare a.column b.column)

/-- Whether the first violation may stand before the second. -/
def Violation.notAfter (a b : Violation) : Bool :=
  a.location.compare b.location != .gt

structure Report where
  violations : List Violation := []
  filesChecked : Nat := 0
deriving DecidableEq

namespace Report

def sort (r : Report) : Report :=
  { r with violations := r.violations.mergeSort Violation.notAfter }

def append (r s : Report) : Report :=
  { violations := r.violations ++ s.violations, filesChecked := r.filesChecked + s.filesChecked }

def ofSeverity (r : Report) (s : Severity) : List Violation :=
  r.violations.filter (·.severity == s)

def count (r : Report) (s : Severity) : Nat := (r.ofSeverity s).length

def hasErrors (r : Report) : Bool := r.violations.any (·.severity == .error)

/-- Whether any violation is at least as grave as the threshold. -/
def reaches (r : Report) (threshold : Severity) : Bool :=
  r.violations.any (·.severity.atLeast threshold)

end Report

end SelectorCheck
