import SelectorCheck.Toml.DateTime
import SelectorCheck.Toml.Table

/-
  TOML documents.

  A document is a sequence of lines: definitions `key = value`, headers `[key]`
  and array headers `[[key]]`. The definitions before the first header belong to
  the document itself, the others to the header before them. `parse` gives the
  entries of the document, or nothing if the text is malformed or a key is defined
  twice.
-/

namespace SelectorCheck.Toml

open Scan

/-- A definition: the parts of its key before the last, the last, and the value. -/
structure Definition where
  path : List String
  key : String
  value : Value

def Entries.defineAll (definitions : List Definition) (t : Entries) : Option Entries :=
  definitions.foldlM (fun t d => t.define d.path d.key d.value) t

/-- A value that contains no other. -/
def scalar : Scan Value :=
  .string <$> quotedText
    <|> (do word "true"; return .boolean true)
    <|> (do word "false"; return .boolean false)
    <|> .dateTime <$> dateTime
    <|> (do float; return .float)
    <|> .integer <$> integer

/-- What `item` reads, with gaps around it. -/
def padded (item : Scan α) : Scan α := do
  gap
  let a ← item
  gap
  return a

/-- An array of what `item` reads. A comma may follow the last item. -/
def arrayOf (item : Scan Value) : Scan Value := do
  char '['
  let items ← match ← option (padded item) with
    | none => pure []
    | some first => do
      let rest ← many (do char ','; padded item)
      discard (option (char ','))
      pure (first :: rest)
  gap
  char ']'
  return .array items

/-- A definition with what `item` reads as its value. -/
def definition (item : Scan Value) : Scan Definition := do
  let (path, key) ← key
  char '='
  blanks
  return { path, key, value := ← item }

/-- A table on one line, with values that `item` reads. -/
def inlineTableOf (item : Scan Value) : Scan Value := do
  char (Char.ofNat 0x7B)
  let entry : Scan Definition := do
    let d ← definition item
    blanks
    return d
  let definitions ← match ← option entry with
    | none => pure []
    | some first => do pure (first :: (← many (do char ','; entry)))
  blanks
  char (Char.ofNat 0x7D)
  match Entries.defineAll definitions [] with
  | some t => return t.finish
  | none => failure

/-- A value that nests at most `depth` deep. -/
def valueWithin : Nat → Scan Value
  | 0 => scalar
  | depth + 1 => scalar <|> arrayOf (valueWithin depth) <|> inlineTableOf (valueWithin depth)

def value : Scan Value := valueWithin (depthLimit - 1)

structure Header where
  path : List String
  key : String
  /-- Whether each use of the header adds a table to an array. -/
  repeats : Bool

def header : Scan Header :=
  (do
    word "[["
    let (path, key) ← key
    word "]]"
    return { path, key, repeats := true })
  <|> (do
    char '['
    let (path, key) ← key
    char ']'
    return { path, key, repeats := false })

inductive Line where
  | empty
  | header (h : Header)
  | definition (d : Definition)

/-- A line, with its end. -/
def line : Scan Line :=
  (do comment; lineEnd; return .empty)
    <|> (do newline; return .empty)
    <|> (do
      let h ← header
      lineRest
      return .header h)
    <|> (do
      let d ← definition value
      lineRest
      return .definition d)

/-- All the lines of a text. A byte order mark may stand at its start. -/
def lines : Scan (List Line) := do
  discard (option (char (Char.ofNat 0xFEFF)))
  blanks
  let ls ← many (do
    let l ← line
    blanks
    return l)
  done
  return ls

/-- The definitions before the first header, and each header with the definitions
that follow it. -/
def sections : List Line → List Definition × List (Header × List Definition)
  | [] => ([], [])
  | .empty :: rest => sections rest
  | .definition d :: rest =>
    let (own, others) := sections rest
    (d :: own, others)
  | .header h :: rest =>
    let (own, others) := sections rest
    ([], (h, own) :: others)

def Entries.addSection (t : Entries) (h : Header) (definitions : List Definition) :
    Option Entries :=
  let fill := Entries.defineAll definitions
  t.within h.path (if h.repeats then Entries.addElement h.key fill
    else Entries.defineTable h.key fill)

def parse (text : String) : Option (List (String × Value)) :=
  match lines text.toList with
  | none => none
  | some (ls, _) =>
    let (own, others) := sections ls
    match Entries.defineAll own [] with
    | none => none
    | some t => (others.foldlM (fun t (h, ds) => Entries.addSection t h ds) t).map finishEntries

end SelectorCheck.Toml
