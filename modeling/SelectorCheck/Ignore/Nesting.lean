import SelectorCheck.Ignore.Pattern

/-
  How deep patterns nest.

  A pattern is a sequence, and these nest within it: every bracket, repetition,
  group of alternatives and choice, and every sequence of more than one part. The
  nesting is limited, so that patterns can be taken apart in bounded space; nothing
  but braces can reach the limit.
-/

namespace SelectorCheck.Ignore

def maxNesting : Nat := 250

/-- One level, if a condition holds. -/
def levelIf (p : Bool) : Nat := if p then 1 else 0

/-- The number of parts that a token is in a sequence. A character is as many as it
has bytes, and alternatives that stand for no text are none. -/
def Token.parts : Token → Nat
  | .literal c => (bytesOf c).length
  | .trailing => 2
  | .alternatives branches => levelIf (!allVoid branches)
  | _ => 1

/-- The number of parts of a sequence. -/
def partsOf : List Token → Nat
  | [] => 0
  | t :: ts => t.parts + partsOf ts

/-- The levels of a bracket: its own, and one for a list of more than one range. -/
def bracketNesting (ranges : List (Char × Char)) : Nat :=
  1 + levelIf (1 < (ranges.flatMap fun (a, b) => byteRanges a b).length)

mutual

def Token.nesting : Token → Nat
  | .literal _ => 0
  | .any => 1
  | .zeroOrMore => 2
  | .leading => 4
  | .trailing => 1
  | .between => 4
  | .oneOf _ ranges => bracketNesting ranges
  | .alternatives branches =>
    if allVoid branches then 0
    else 1 + levelIf (1 < (branches.filter (!isVoidBranch ·)).length) + branchesNesting branches

/-- The levels of the deepest token in a sequence. -/
def sequenceNesting : List Token → Nat
  | [] => 0
  | t :: ts => max t.nesting (sequenceNesting ts)

/-- The levels of the deepest branch. A branch of more than one part is a sequence
of its own. -/
def branchesNesting : List (List Token) → Nat
  | [] => 0
  | b :: bs => max (levelIf (1 < partsOf b) + sequenceNesting b) (branchesNesting bs)

end

def isTooDeep (pattern : List Token) : Bool := maxNesting < 1 + sequenceNesting pattern

end SelectorCheck.Ignore
