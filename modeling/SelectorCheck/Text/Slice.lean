/-
  Slices of a text by byte positions.

  Positions come from outside and are not trusted: a slice exists only if both
  ends are character boundaries of the text and stand in order.
-/

namespace SelectorCheck.Text

/-- The text between two byte positions, if both are character boundaries and
the first is not after the second. -/
def slice? (text : String) (start stop : Nat) : Option String :=
  if start ≤ stop then
    match text.pos? ⟨start⟩, text.pos? ⟨stop⟩ with
    | some b, some e => some (text.extract b e)
    | _, _ => none
  else none

/-- The text between two byte positions, or no text where there is no slice. -/
def slice (text : String) (start stop : Nat) : String :=
  (slice? text start stop).getD ""

end SelectorCheck.Text
