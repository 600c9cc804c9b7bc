import SelectorCheck.Toml.Quoted

/-
  Numbers of TOML.

  Underscores may stand between digits. Integers have 64 bits and may be written
  in base 2, 8, 10 or 16. A float is accepted without its value, because no
  setting reads one; a positive one must not be too large for a double.
-/

namespace SelectorCheck.Toml

open Scan

/-- Digits with single underscores between them, without the underscores. -/
def digitRun (p : Char → Bool) : Scan (List Char) := do
  return (← one p) :: (← many (one p <|> (do char '_'; one p)))

def sign : Scan Bool := (do char '+'; return false) <|> (do char '-'; return true) <|> pure false

/-- A decimal integer without leading zeros: its sign and digits. -/
def decimal : Scan (Bool × List Char) := do
  let negative ← sign
  let digits ←
    (do return (← one fun c => c.isDigit && c != '0')
            :: (← many (one Char.isDigit <|> (do char '_'; one Char.isDigit))))
      <|> (do return [← one Char.isDigit])
  return (negative, digits)

def anyInteger : Scan Int :=
  (do word "0x"; return (ofDigits 16 (← digitRun isHexDigit) : Int))
    <|> (do word "0o"; return (ofDigits 8 (← digitRun fun c => '0' ≤ c && c ≤ '7') : Int))
    <|> (do word "0b"; return (ofDigits 2 (← digitRun fun c => c == '0' || c == '1') : Int))
    <|> (do
      let (negative, digits) ← decimal
      let size : Int := ofDigits 10 digits
      return if negative then -size else size)

/-- Integers lie below this and not below its negative. -/
def integerBound : Nat := Nat.pow 2 63

def integer : Scan Int := do
  let n ← anyInteger
  if -(integerBound : Int) ≤ n ∧ n < (integerBound : Int) then return n else failure

/-- The least number that rounds to infinity as a double. -/
def overflowBound : Nat := Nat.pow 2 1024 - Nat.pow 2 970

/-- Whether the number with some decimal digits, times ten to the power of
`exponent`, is too large for a double. The number of digits alone decides unless it
is near that of the bound. -/
def overflows (digits : List Char) (exponent : Int) : Bool :=
  let digits := digits.dropWhile (· == '0')
  let size : Int := digits.length + exponent
  if digits.isEmpty ∨ size ≤ 300 then false
  else if 320 ≤ size then true
  else if 0 ≤ exponent then overflowBound ≤ ofDigits 10 digits * Nat.pow 10 exponent.toNat
  else overflowBound * Nat.pow 10 (-exponent).toNat ≤ ofDigits 10 digits

def exponent : Scan Int := do
  discard (one fun c => c == 'e' || c == 'E')
  let negative ← sign
  let size : Int := ofDigits 10 (← digitRun Char.isDigit)
  return if negative then -size else size

/-- A float with a fraction, an exponent or both. -/
def finiteFloat : Scan Unit := do
  let (negative, whole) ← decimal
  let (fraction, power) ←
    (do return ([], ← exponent))
      <|> (do
        char '.'
        let fraction ← digitRun Char.isDigit
        return (fraction, (← option exponent).getD 0))
  if !negative && overflows (whole ++ fraction) (power - fraction.length) then failure

/-- Infinity or not a number, with or without a sign. -/
def specialFloat : Scan Unit := do
  discard sign
  word "inf" <|> word "nan"

def float : Scan Unit := finiteFloat <|> specialFloat

end SelectorCheck.Toml
