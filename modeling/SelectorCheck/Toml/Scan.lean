/-
  Scanners: functions that read something from the front of a text.

  A scanner takes the characters that are left and gives a value with the
  characters after it, or nothing. An alternative starts again where its first
  branch started. Repetition ends with the text: it runs at most as often as
  there are characters left, which is no limit for a scanner that consumes.

  The blanks, line ends and comments of TOML follow.
-/

namespace SelectorCheck.Toml

/-- A reader of something at the front of a text. -/
abbrev Scan (α : Type) := StateT (List Char) Option α

namespace Scan

def one (p : Char → Bool) : Scan Char
  | c :: rest => if p c then some (c, rest) else none
  | [] => none

def char (c : Char) : Scan Unit := discard (one (· == c))

def chars : List Char → Scan Unit
  | [] => pure ()
  | c :: cs => do char c; chars cs

def word (w : String) : Scan Unit := chars w.toList

/-- All the characters up to the first that does not satisfy `p`. -/
def span (p : Char → Bool) : Scan (List Char) :=
  fun text => some (text.takeWhile p, text.dropWhile p)

def done : Scan Unit := fun text => if text.isEmpty then some ((), text) else none

def option (s : Scan α) : Scan (Option α) := some <$> s <|> pure none

/-- What `s` reads, at most once for each of some characters. -/
def atMost (s : Scan α) : List Char → Scan (List α)
  | [] => pure []
  | _ :: others => do
    match ← option s with
    | none => return []
    | some a => return a :: (← atMost s others)

def many (s : Scan α) : Scan (List α) := do atMost s (← get)

def many1 (s : Scan α) : Scan (List α) := do return (← s) :: (← many s)

end Scan

open Scan

def isBlank (c : Char) : Bool := c == ' ' || c == '\t'

/-- Characters that may stand in comments and quoted texts: the tab, and all but
the control characters of ASCII. -/
def isPrintable (c : Char) : Bool := c == '\t' || (0x20 ≤ c.toNat && c.toNat ≠ 0x7F)

def blanks : Scan Unit := discard (span isBlank)

/-- A line end: a line feed, which a carriage return may precede. -/
def newline : Scan Unit := char '\n' <|> word "\r\n"

def comment : Scan Unit := do char '#'; discard (span isPrintable)

/-- A line end or the end of the text. -/
def lineEnd : Scan Unit := newline <|> done

/-- What may follow an entry on its line. -/
def lineRest : Scan Unit := do blanks; discard (option comment); lineEnd

/-- Blanks, line ends and comments, if any. -/
def gap : Scan Unit :=
  discard (many (discard (one isBlank) <|> newline <|> (do comment; newline)))

end SelectorCheck.Toml
