import SelectorCheck.Text.Blank

/-
  Severities of violations, from the least to the greatest.
-/

namespace SelectorCheck

inductive Severity where
  | info
  | warning
  | error
deriving DecidableEq

namespace Severity

def rank : Severity → Nat
  | info => 0
  | warning => 1
  | error => 2

def atLeast (s threshold : Severity) : Bool :=
  threshold.rank ≤ s.rank

def word : Severity → String
  | info => "info"
  | warning => "warning"
  | error => "error"

/-- The severity with exactly this word. -/
def ofWord? : String → Option Severity
  | "info" => some info
  | "warning" => some warning
  | "error" => some error
  | _ => none

/-- Reads a severity as people type it: in any case, and `warn` for `warning`.
An unknown text is given back in lower case. -/
def parse (text : String) : Except String Severity :=
  let key := Text.lower text
  if key == "warn" then .ok warning
  else
    match ofWord? key with
    | some s => .ok s
    | none => .error key

def unknownMessage (key : String) : String :=
  s!"unknown severity '{key}'"

end Severity

end SelectorCheck
