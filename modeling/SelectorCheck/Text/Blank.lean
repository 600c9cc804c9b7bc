/-
  Blank characters and letter case.

  Type names are compared after their blanks are trimmed, and rule codes are
  compared without regard to ASCII case. A blank is any character with the
  Unicode property White_Space; case is folded for the letters A to Z only, so
  every other character keeps its identity.
-/

namespace SelectorCheck.Text

/-- The characters with the Unicode property White_Space. -/
def isBlank (c : Char) : Bool :=
  let n := c.toNat
  (0x09 ≤ n && n ≤ 0x0D) || n == 0x20 || n == 0x85 || n == 0xA0 || n == 0x1680
    || (0x2000 ≤ n && n ≤ 0x200A) || n == 0x2028 || n == 0x2029 || n == 0x202F
    || n == 0x205F || n == 0x3000

def trimEndChars (cs : List Char) : List Char :=
  (cs.reverse.dropWhile isBlank).reverse

def trimChars (cs : List Char) : List Char :=
  trimEndChars (cs.dropWhile isBlank)

def trim (s : String) : String :=
  String.ofList (trimChars s.toList)

def lower (s : String) : String :=
  String.ofList (s.toList.map Char.toLower)

/-- Equality up to the case of the letters A to Z. -/
def sameIgnoringCase (a b : String) : Bool :=
  lower a == lower b

end SelectorCheck.Text
