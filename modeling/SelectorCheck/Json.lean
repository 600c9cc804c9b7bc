import SelectorCheck.Report

/-
  Reports as JSON text.

  Keys stand in a fixed order. In a string the quotation mark, the backslash
  and the control characters are escaped, the latter by their short form if they
  have one; every other character stands for itself. The compact form has no
  blanks; the indented form puts each member on a line of its own, two blanks
  deeper than its parent, and writes an empty list as `[]`.
-/

namespace SelectorCheck

/-- The values that a report is made of. -/
inductive Json where
  | null
  | number (n : Nat)
  | string (text : String)
  | array (items : List Json)
  | object (fields : List (String × Json))

namespace Json

/-- The digits of a control character's code: four, hexadecimal, lower case. -/
def hexDigits (n : Nat) : List Char :=
  [Nat.digitChar (n / 4096 % 16), Nat.digitChar (n / 256 % 16), Nat.digitChar (n / 16 % 16),
    Nat.digitChar (n % 16)]

/-- A character as it stands inside a quoted string. -/
def escapeChar (c : Char) : List Char :=
  if c == '"' then ['\\', '"']
  else if c == '\\' then ['\\', '\\']
  else if c == '\n' then ['\\', 'n']
  else if c == '\r' then ['\\', 'r']
  else if c == '\t' then ['\\', 't']
  else if c.toNat == 0x08 then ['\\', 'b']
  else if c.toNat == 0x0C then ['\\', 'f']
  else if c.toNat < 0x20 then '\\' :: 'u' :: hexDigits c.toNat
  else [c]

def quote (s : String) : String :=
  "\"" ++ String.ofList (s.toList.flatMap escapeChar) ++ "\""

mutual

def compact : Json → String
  | null => "null"
  | number n => toString n
  | string s => quote s
  | array items => "[" ++ Text.join "," (compactItems items) ++ "]"
  | object fields => "\x7b" ++ Text.join "," (compactFields fields) ++ "\x7d"

def compactItems : List Json → List String
  | [] => []
  | j :: js => compact j :: compactItems js

def compactFields : List (String × Json) → List String
  | [] => []
  | (k, j) :: fs => (quote k ++ ":" ++ compact j) :: compactFields fs

end

def newLine (depth : Nat) : String :=
  "\n" ++ String.ofList (List.replicate (2 * depth) ' ')

/-- Members between brackets, each on a line of its own. -/
def bracket (opening closing : String) (depth : Nat) : List String → String
  | [] => opening ++ closing
  | members =>
    opening ++ newLine (depth + 1) ++ Text.join ("," ++ newLine (depth + 1)) members ++
      newLine depth ++ closing

mutual

/-- The text with every member on a line of its own, at a depth. -/
def indented (depth : Nat) : Json → String
  | null => "null"
  | number n => toString n
  | string s => quote s
  | array items => bracket "[" "]" depth (indentedItems (depth + 1) items)
  | object fields => bracket "\x7b" "\x7d" depth (indentedFields (depth + 1) fields)

def indentedItems (depth : Nat) : List Json → List String
  | [] => []
  | j :: js => indented depth j :: indentedItems depth js

def indentedFields (depth : Nat) : List (String × Json) → List String
  | [] => []
  | (k, j) :: fs => (quote k ++ ": " ++ indented depth j) :: indentedFields depth fs

end

end Json

def Location.json (l : Location) : Json :=
  .object [("file", .string l.file.text), ("line", .number l.line.toNat),
    ("column", .number l.column.toNat), ("offset", .number l.offset.toNat),
    ("length", .number l.length.toNat)]

def Label.json (l : Label) : Json :=
  .object [("location", l.location.json), ("message", .string l.message)]

def Violation.json (v : Violation) : Json :=
  .object [("code", .string v.code), ("rule", .string v.rule),
    ("severity", .string v.severity.word), ("location", v.location.json),
    ("message", .string v.message),
    ("suggestion",
      match v.suggestion with
      | some help => .object [("message", .string help)]
      | none => .null),
    ("labels", .array (v.labels.map Label.json))]

def Report.json (r : Report) : Json :=
  .object [("violations", .array (r.violations.map Violation.json)),
    ("files_checked", .number r.filesChecked)]

end SelectorCheck
