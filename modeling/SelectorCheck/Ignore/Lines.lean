import SelectorCheck.Ignore.Nesting
import SelectorCheck.Text.Blank
import SelectorCheck.Text.Pieces

/-
  Ignore files: one pattern a line.

  Empty lines and lines that start with `#` say nothing. `!` in front takes paths
  back, a slash at the end restricts the line to directories, and a line with no
  other slash counts at any depth. Of the lines that match a path the last one
  decides. A line with a malformed pattern is left out, and a line that is not
  text ends the file. A file with a pattern that nests too deep says nothing.
-/

namespace SelectorCheck.Ignore

structure Line where
  pattern : List Token
  /-- Whether the line takes paths back. -/
  takesBack : Bool
  /-- Whether the line is about directories alone. -/
  directoriesOnly : Bool
deriving Inhabited

/-- The text of a line without the blanks at its end, which an escaped blank
keeps. -/
def dropEndBlanks (line : List Char) : List Char :=
  if ['\\', ' '].isSuffixOf line then line else Text.trimEndChars line

/-- The line without its marks in front, whether it takes paths back, and whether
it counts in its own directory alone. -/
def dropMarks : List Char → List Char × Bool × Bool
  | '\\' :: '!' :: rest => ('!' :: rest, false, false)
  | '\\' :: '#' :: rest => ('#' :: rest, false, false)
  | '!' :: '/' :: rest => (rest, true, true)
  | '!' :: rest => (rest, true, false)
  | '/' :: rest => (rest, false, true)
  | line => (line, false, false)

/-- The line without a slash at its end and the backslash before that, and whether
there was a slash. -/
def dropEndSlash (line : List Char) : List Char × Bool :=
  match line.reverse with
  | '/' :: '\\' :: before => (before.reverse, true)
  | '/' :: before => (before.reverse, true)
  | _ => (line, false)

def wholePattern (anchored : Bool) (line : List Char) : List Char :=
  let line :=
    if anchored || line.contains '/' || line == ['*', '*'] then line
    else ['*', '*', '/'] ++ line
  if ['/', '*', '*'].isSuffixOf line then line ++ ['/', '*'] else line

def line? (text : List Char) : Option Line :=
  let (text, takesBack, anchored) := dropMarks text
  let (text, directoriesOnly) := dropEndSlash text
  (tokens? (wholePattern anchored text)).map fun pattern =>
    { pattern, takesBack, directoriesOnly }

/-- The lines of an ignore file, and whether something was left out because of a
pattern. -/
structure Lines where
  lines : List Line := []
  faulty : Bool := false
deriving Inhabited

/-- Reads the lines up to the first that is not text. -/
def readLines : List (List UInt8) → Lines
  | [] => {}
  | bytes :: rest =>
    match String.fromUTF8? ⟨bytes.toArray⟩ with
    | none => {}
    | some text =>
      let others := readLines rest
      let pattern := dropEndBlanks text.toList
      if text.toList.head? = some '#' ∨ pattern.isEmpty then others
      else
        match line? pattern with
        | some l => { others with lines := l :: others.lines }
        | none => { others with faulty := true }

/-- The lines of some bytes. A line ends with a line feed, which a carriage return
may precede. -/
def splitLines (bytes : List UInt8) : List (List UInt8) :=
  let pieces := Text.piecesOf (· == 0x0A) bytes
  let ended := pieces.dropLast.map fun line =>
    if line.getLast? = some 0x0D then line.dropLast else line
  match pieces.getLast? with
  | some [] => ended
  | some last => ended ++ [last]
  | none => ended

/-- The bytes without byte order marks at their start. -/
def dropMarkBytes : List UInt8 → List UInt8
  | 0xEF :: 0xBB :: 0xBF :: rest => dropMarkBytes rest
  | bytes => bytes

def ofBytes (content : ByteArray) : Lines :=
  let f := readLines (splitLines (dropMarkBytes content.toList))
  if f.lines.any fun l => isTooDeep l.pattern then { faulty := true } else f

/-- Whether a path is ignored, as far as the lines decide. -/
def Lines.verdict? (f : Lines) (path : List UInt8) (isDirectory : Bool) : Option Bool :=
  (f.lines.reverse.find? fun l =>
    (!l.directoriesOnly || isDirectory) && matchesPath l.pattern path).map (!·.takesBack)

end SelectorCheck.Ignore
