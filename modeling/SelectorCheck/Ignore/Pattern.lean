import SelectorCheck.Text.Marked

/-
  Patterns of ignore files.

  A pattern is matched against the bytes of a path:

    `?`        one byte other than a slash
    `*`        bytes other than a slash
    `**/`      at the start, nothing or everything up to some slash
    `/**/`     a slash, or everything between two slashes
    `/**`      at the end, everything below a directory
    `[a-c]`    one byte of the listed characters and ranges; `!` or `^` in front
               takes the others
    `{a,b}`    one of the alternatives, the empty ones left out
    `\c`       the character itself

  A bracket that is not closed stands for itself, and so do all brackets after
  it. A pattern is malformed if a brace is not matched, a range runs backwards or
  nothing follows a backslash.
-/

namespace SelectorCheck.Ignore

/-- One element of a pattern. -/
inductive Token where
  | literal (c : Char)
  | any
  | zeroOrMore
  /-- `**` with the slash after it at the start. -/
  | leading
  /-- `**` with the slash before it at the end. -/
  | trailing
  /-- `**` with the slashes around it. -/
  | between
  | oneOf (negated : Bool) (ranges : List (Char × Char))
  | alternatives (branches : List (List Token))
deriving Inhabited

/-- The outcome of reading a bracket. -/
inductive Bracket where
  /-- The closing bracket is missing. -/
  | unclosed
  /-- A range runs backwards. -/
  | backwards
  | closed (ranges : List (Char × Char)) (length : Nat)

/-- Reads the listed characters of a bracket. `first` says that none was read,
`waiting` that a minus waits for the end of a range; `ranges` has the last one
first and `length` counts the characters read. -/
def bracketFrom (first waiting : Bool) (ranges : List (Char × Char)) (length : Nat) :
    List Char → Bracket
  | [] => .unclosed
  | c :: rest =>
    if c = ']' ∧ !first then
      .closed (if waiting then ('-', '-') :: ranges else ranges).reverse (length + 1)
    else if c = '-' ∧ !first ∧ !waiting then bracketFrom false true ranges (length + 1) rest
    else
      match waiting, ranges with
      | true, (a, _) :: before =>
        if c < a then .backwards
        else bracketFrom false false ((a, c) :: before) (length + 1) rest
      | _, _ => bracketFrom false false ((c, c) :: ranges) (length + 1) rest

def bracket (after : List Char) : Bool × Bracket :=
  match after with
  | '!' :: rest => (true, bracketFrom true false [] 1 rest)
  | '^' :: rest => (true, bracketFrom true false [] 1 rest)
  | rest => (false, bracketFrom true false [] 0 rest)

/-- A group of alternatives that is being read. -/
structure Group where
  /-- The branches that are complete, the last first. -/
  complete : List (List Token) := []
  /-- The branch being read, its last token first. -/
  current : List Token := []

/-- A pattern that is being read: the innermost group, and those around it. The
outermost group is the pattern itself. -/
structure Draft where
  inner : Group := {}
  outer : List Group := []

namespace Draft

def isNested (d : Draft) : Bool := !d.outer.isEmpty

def push (t : Token) (d : Draft) : Draft :=
  { d with inner := { d.inner with current := t :: d.inner.current } }

def openGroup (d : Draft) : Draft := { inner := {}, outer := d.inner :: d.outer }

def nextBranch (d : Draft) : Draft :=
  { d with inner := { complete := d.inner.current.reverse :: d.inner.complete } }

def closeGroup? (d : Draft) : Option Draft :=
  match d.outer with
  | [] => none
  | g :: gs =>
    let branches := (d.inner.current.reverse :: d.inner.complete).reverse
    some { inner := { g with current := .alternatives branches :: g.current }, outer := gs }

/-- Puts `**` in the place of the slash before it. -/
def joinDirectories (t : Token) (d : Draft) : Draft :=
  match d.inner.current with
  | [] => d.push t
  | .leading :: _ => d
  | .trailing :: _ => d
  | _ :: before => { d with inner := { d.inner with current := t :: before } }

/-- Adds the token of a star, given the characters before and after it, and says
how many more characters belong to it. -/
def pushStar (before : Option Char) (after : List Char) (d : Draft) : Draft × Nat :=
  match after with
  | '*' :: rest =>
    let two := (d.push .zeroOrMore).push .zeroOrMore
    if d.inner.current.isEmpty then
      match rest with
      | [] => (d.push .leading, 1)
      | c :: _ => if c = '/' then (d.push .leading, 2) else (two, 1)
    else if before ≠ some '/' ∧ (!d.isNested ∨ (before ≠ some ',' ∧ before ≠ some '\x7b')) then
      (two, 1)
    else
      match rest with
      | [] => (d.joinDirectories .trailing, 1)
      | c :: _ =>
        if c = '/' then (d.joinDirectories .between, 2)
        else if d.isNested ∧ (c = ',' ∨ c = '\x7d') then (d.joinDirectories .trailing, 1)
        else (two, 1)
  | _ => (d.push .zeroOrMore, 0)

end Draft

/-- Reads a pattern after its first `skip` characters, which belong to the token
read last. `plain` says that brackets stand for themselves. -/
def draftFrom (skip : Nat) (before : Option Char) (plain : Bool) (d : Draft) :
    List Char → Option Draft
  | [] => some d
  | c :: rest =>
    match skip with
    | skip + 1 => draftFrom skip (some c) plain d rest
    | 0 =>
      if c = '?' then draftFrom 0 (some c) plain (d.push .any) rest
      else if c = '*' then
        let (d, more) := d.pushStar before rest
        draftFrom more (some c) plain d rest
      else if c = '[' ∧ !plain then
        match bracket rest with
        | (_, .backwards) => none
        | (_, .unclosed) => draftFrom 0 (some c) true (d.push (.literal c)) rest
        | (negated, .closed ranges length) =>
          draftFrom length (some c) plain (d.push (.oneOf negated ranges)) rest
      else if c = '\x7b' then draftFrom 0 (some c) plain d.openGroup rest
      else if c = '\x7d' then
        match d.closeGroup? with
        | none => none
        | some d => draftFrom 0 (some c) plain d rest
      else if c = ',' ∧ d.isNested then draftFrom 0 (some c) plain d.nextBranch rest
      else if c = '\\' then
        match rest with
        | [] => none
        | e :: _ => draftFrom 1 (some c) plain (d.push (.literal e)) rest
      else draftFrom 0 (some c) plain (d.push (.literal c)) rest

def tokens? (pattern : List Char) : Option (List Token) :=
  match draftFrom 0 none false {} pattern with
  | some d => if d.isNested then none else some d.inner.current.reverse
  | none => none

def slash : UInt8 := 0x2F

def bytesOf (c : Char) : List UInt8 := (String.singleton c).toUTF8.toList

/-- The byte ranges of a range of characters: the bytes count one by one, and only
the last byte of the first character and the first of the last make a range. -/
def byteRanges (a b : Char) : List (UInt8 × UInt8) :=
  let single (x : UInt8) : UInt8 × UInt8 := (x, x)
  if a = b then (bytesOf a).map single
  else
    match (bytesOf a).getLast?, bytesOf b with
    | some low, high :: more =>
      (bytesOf a).dropLast.map single ++ [(low, high)] ++ more.map single
    | _, _ => []

/-- Whether a byte is among the listed ranges of characters. -/
def isListed (ranges : List (Char × Char)) (x : UInt8) : Bool :=
  ranges.any fun (a, b) => (byteRanges a b).any fun (low, high) => low ≤ x && x ≤ high

mutual

/-- Whether a token stands for no text at all. -/
def Token.isVoid : Token → Bool
  | .alternatives branches => allVoid branches
  | _ => false

/-- Whether a branch stands for no text at all. -/
def isVoidBranch : List Token → Bool
  | [] => true
  | t :: ts => t.isVoid && isVoidBranch ts

/-- Whether all branches stand for no text at all. -/
def allVoid : List (List Token) → Bool
  | [] => true
  | b :: bs => isVoidBranch b && allVoid bs

end

/-- A path with marks on its rests. -/
abbrev MarkedPath := Text.Marked UInt8

/-- Marks the rests that are marked, or hold a slash before a marked one. -/
def belowDirectories (path : MarkedPath) : MarkedPath := path.either (path.past (· == slash))

mutual

/-- Marks the rests of a path that a token leads to a marked one. -/
def Token.reach (path : MarkedPath) : Token → MarkedPath
  | .literal c => (bytesOf c).foldr (fun x marked => marked.one (· == x)) path
  | .any => path.one (· != slash)
  | .zeroOrMore => path.skip (· != slash)
  | .leading => belowDirectories path
  | .trailing => (path.skip fun _ => true).one (· == slash)
  | .between => (belowDirectories path).one (· == slash)
  | .oneOf negated ranges => path.one fun x => isListed ranges x != negated
  | .alternatives branches => if allVoid branches then path else reachSome path branches

/-- Marks the rests that tokens lead to a marked one. -/
def reachAll (path : MarkedPath) : List Token → MarkedPath
  | [] => path
  | t :: ts => t.reach (reachAll path ts)

/-- Marks the rests that one of the branches leads to a marked one, leaving out
those branches that stand for no text. -/
def reachSome (path : MarkedPath) : List (List Token) → MarkedPath
  | [] => path.clear
  | b :: bs =>
    if isVoidBranch b then reachSome path bs
    else (reachAll path b).either (reachSome path bs)

end

/-- Whether a pattern matches a whole path. `**` alone matches everything. -/
def matchesPath (pattern : List Token) (path : List UInt8) : Bool :=
  match pattern with
  | [.leading] => true
  | _ => (reachAll (.atEnd path) pattern).mark

end SelectorCheck.Ignore
