import SelectorCheck.Toml.Scan

/-
  Quoted texts and keys of TOML.

  Double quotes admit escapes, single quotes admit none. Three quotes open a
  text of several lines: a line end right after them is dropped, and every other
  line end is a line feed. In such a text one or two quotes in a row stand for
  themselves; the closing run has three to five, and those beyond three belong to
  the text.
-/

namespace SelectorCheck.Toml

open Scan

def hexValue (c : Char) : Nat :=
  if c.isDigit then c.toNat - '0'.toNat
  else if 'a' ≤ c ∧ c ≤ 'f' then c.toNat - 'a'.toNat + 10
  else c.toNat - 'A'.toNat + 10

def isHexDigit (c : Char) : Bool :=
  c.isDigit || ('a' ≤ c && c ≤ 'f') || ('A' ≤ c && c ≤ 'F')

def ofDigits (base : Nat) (digits : List Char) : Nat :=
  digits.foldl (fun n c => n * base + hexValue c) 0

/-- The character with a code of `n` hexadecimal digits. -/
def codePoint (n : Nat) : Scan Char := do
  let digits ← (List.range n).mapM fun _ => one isHexDigit
  let code := ofDigits 16 digits
  if code.isValidChar then return Char.ofNat code else failure

def escape : Scan Char := do
  char '\\'
  match ← one fun _ => true with
  | 'b' => return Char.ofNat 8
  | 't' => return '\t'
  | 'n' => return '\n'
  | 'f' => return Char.ofNat 12
  | 'r' => return '\r'
  | '"' => return '"'
  | '\\' => return '\\'
  | 'u' => codePoint 4
  | 'U' => codePoint 8
  | _ => failure

/-- A character that stands for itself within double quotes. -/
def plainBasic : Scan Char := one fun c => isPrintable c && c != '"' && c != '\\'

/-- A character that stands for itself within single quotes. -/
def plainLiteral : Scan Char := one fun c => isPrintable c && c != '\''

def basicText : Scan (List Char) := do
  char '"'
  let content ← many (plainBasic <|> escape)
  char '"'
  return content

def literalText : Scan (List Char) := do
  char '\''
  let content ← many plainLiteral
  char '\''
  return content

/-- One or two quotes in a row, within a text of several lines. -/
def innerQuotes (quote : Char) : Scan (List Char) := do
  let run ← span (· == quote)
  if 1 ≤ run.length ∧ run.length < 3 then return run else failure

/-- The closing run of a text of several lines, and the quotes in it that belong
to the text. -/
def closingQuotes (quote : Char) : Scan (List Char) := do
  let run ← span (· == quote)
  if 3 ≤ run.length ∧ run.length < 6 then return run.drop 3 else failure

/-- A line end that is left out together with the blanks around it. -/
def foldedLine : Scan Unit := do
  char '\\'
  blanks
  newline
  discard (many (discard (one isBlank) <|> newline))

/-- A text of several lines between runs of `quote`, with the given pieces
besides line ends and quotes. -/
def linesBetween (quote : Char) (piece : Scan (List Char)) : Scan (List Char) := do
  chars [quote, quote, quote]
  discard (option newline)
  let content ← many (piece <|> (do newline; return ['\n']) <|> innerQuotes quote)
  return content.flatten ++ (← closingQuotes quote)

def basicLines : Scan (List Char) :=
  linesBetween '"'
    ((do return [← plainBasic]) <|> (do foldedLine; return []) <|> (do return [← escape]))

def literalLines : Scan (List Char) :=
  linesBetween '\'' (do return [← plainLiteral])

def quotedText : Scan String :=
  String.ofList <$> (basicLines <|> basicText <|> literalLines <|> literalText)

/-- Characters of keys without quotes. -/
def isBare (c : Char) : Bool := c.isAlphanum || c == '-' || c == '_'

def keyPart : Scan String :=
  String.ofList <$> (basicText <|> literalText <|> many1 (one isBare))

/-- Values and keys nest less deep than this. -/
def depthLimit : Nat := 80

/-- A key: parts with dots between them, as the parts before the last and the
last. -/
def key : Scan (List String × String) := do
  let part : Scan String := do
    blanks
    let name ← keyPart
    blanks
    return name
  let parts := (← part) :: (← many (do char '.'; part))
  if parts.length < depthLimit then return (parts.dropLast, parts.getLastD "") else failure

end SelectorCheck.Toml
