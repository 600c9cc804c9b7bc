import SelectorCheck.Path
import SelectorCheck.Text.Marked

/-
  Patterns of paths.

  A pattern is matched against the whole text of a path, character by character:

    `?`       any one character
    `*`       any characters, slashes included
    `**`      nothing, or everything up to some slash, or everything; it must be
              a whole component, and takes the slash after it along
    `[ab-c]`  one of the listed characters or ranges
    `[!ab]`   one character that is not listed

  Every other character stands for itself.
-/

namespace SelectorCheck

/-- The characters from `first` to `last`. -/
structure CharRange where
  first : Char
  last : Char
deriving DecidableEq

def CharRange.contains (r : CharRange) (c : Char) : Bool := r.first ≤ c && c ≤ r.last

namespace Glob

/-- One element of a pattern. -/
inductive Token where
  | char (c : Char)
  | anyChar
  | anySequence
  | anyRecursive
  | within (ranges : List CharRange)
  | except (ranges : List CharRange)
deriving DecidableEq

inductive Fault where
  /-- More than two stars in a row. -/
  | wildcards
  /-- Two stars that are not a whole component. -/
  | recursive
  /-- A bracket that is not closed. -/
  | range
deriving DecidableEq

def Fault.message : Fault → String
  | wildcards => "wildcards are either regular `*` or recursive `**`"
  | recursive => "recursive wildcards must form a single path component"
  | range => "invalid range pattern"

/-- A fault at a position, counted in characters. -/
structure Error where
  position : Nat
  fault : Fault
deriving DecidableEq

def Error.message (e : Error) : String :=
  s!"Pattern syntax error near position {e.position}: {e.fault.message}"

/-- The ranges listed between brackets. A minus between two characters makes a
range. -/
def ranges : List Char → List CharRange
  | a :: '-' :: b :: rest => ⟨a, b⟩ :: ranges rest
  | a :: rest => ⟨a, a⟩ :: ranges rest
  | [] => []

/-- What stands before the first closing bracket, if there is one. -/
def untilBracket? (cs : List Char) : Option (List Char) :=
  if cs.contains ']' then some (cs.takeWhile (· ≠ ']')) else none

/-- The token of a bracket with the given characters after it, and its length.
The first listed character may be a closing bracket. -/
def bracket? : List Char → Option (Token × Nat)
  | [] => none
  | ['!'] => none
  | '!' :: c :: rest =>
    (untilBracket? rest).map fun listed => (.except (ranges (c :: listed)), listed.length + 4)
  | c :: rest =>
    (untilBracket? rest).map fun listed => (.within (ranges (c :: listed)), listed.length + 3)

/-- The token of two stars and its length, given the position of the first star,
the character before it and the characters after the second. -/
def recursiveAt (position : Nat) (before : Option Char) (after : List Char) :
    Except Error (Token × Nat) :=
  if before ≠ none ∧ before ≠ some '/' then .error ⟨position - 1, .recursive⟩
  else
    match after with
    | [] => .ok (.anyRecursive, 2)
    | '/' :: _ => .ok (.anyRecursive, 3)
    | _ => .error ⟨position + 2, .recursive⟩

/-- The token that starts with a character and its length, given the position of
the character, the one before it and those after it. -/
def tokenAt (position : Nat) (before : Option Char) (c : Char) (after : List Char) :
    Except Error (Token × Nat) :=
  if c = '?' then .ok (.anyChar, 1)
  else if c = '*' then
    match after with
    | '*' :: '*' :: _ => .error ⟨position + 2, .wildcards⟩
    | '*' :: rest => recursiveAt position before rest
    | _ => .ok (.anySequence, 1)
  else if c = '[' then
    match bracket? after with
    | some t => .ok t
    | none => .error ⟨position, .range⟩
  else .ok (.char c, 1)

/-- The tokens, last first, with one more. Repeated `**` are one, unless they
start the pattern. -/
def push (t : Token) (tokens : List Token) : List Token :=
  if t = .anyRecursive ∧ 1 < tokens.length ∧ tokens.head? = some .anyRecursive then tokens
  else t :: tokens

/-- The tokens of a text after its first `skip` characters, which belong to the
token read last. -/
def tokensFrom (skip position : Nat) (before : Option Char) (tokens : List Token) :
    List Char → Except Error (List Token)
  | [] => .ok tokens.reverse
  | c :: rest =>
    match skip with
    | skip + 1 => tokensFrom skip (position + 1) (some c) tokens rest
    | 0 =>
      match tokenAt position before c rest with
      | .error e => .error e
      | .ok (t, length) =>
        tokensFrom (length - 1) (position + 1) (some c) (push t tokens) rest

/-- Whether a token for one character accepts it. -/
def Token.accepts (t : Token) (c : Char) : Bool :=
  match t with
  | char d => c == d
  | anyChar => true
  | within rs => rs.any (·.contains c)
  | except rs => !rs.any (·.contains c)
  | anySequence | anyRecursive => false

/-- Marks the rests of a text that a token leads to a marked one. -/
def Token.reach : Token → Text.Marked Char → Text.Marked Char
  | anySequence, text => text.skip fun _ => true
  | anyRecursive, text => (text.either (text.past (· == '/'))).either text.toEnd
  | t, text => text.one t.accepts

/-- Whether the tokens match the whole text. -/
def matchTokens (tokens : List Token) (text : List Char) : Bool :=
  (tokens.foldr Token.reach (Text.Marked.atEnd text)).mark

end Glob

structure Glob where
  tokens : List Glob.Token
deriving DecidableEq

namespace Glob

def parse (pattern : String) : Except Error Glob :=
  match tokensFrom 0 0 none [] pattern.toList with
  | .ok tokens => .ok ⟨tokens⟩
  | .error e => .error e

/-- Reads patterns up to the first that is wrong. -/
def parseAll : List String → Except Error (List Glob)
  | [] => .ok []
  | p :: ps =>
    match parse p with
    | .error e => .error e
    | .ok g =>
      match parseAll ps with
      | .error e => .error e
      | .ok gs => .ok (g :: gs)

def accepts (g : Glob) (p : Path) : Bool := matchTokens g.tokens p.text.toList

/-- Whether the pattern matches a path, or its rest below `root`. -/
def acceptsBelow (g : Glob) (root p : Path) : Bool :=
  g.accepts (p.relativeTo root) || g.accepts p

end Glob

end SelectorCheck
