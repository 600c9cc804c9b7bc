import SelectorCheck.Text.Pieces

/-
  Paths.

  A path is kept as written. Everything decided about it goes by components:
  the segments between slashes, without the empty ones and without `.`, except
  for a leading `.` of a relative path. Two spellings with the same components
  are the same place, compare equal and are the same prefix, but a path that is
  printed, joined or matched with a pattern keeps its spelling.

    `components`   what the path says
    `relativeTo?`  the rest of a path below another
    `compare`      component by component, the root before `.` before `..`
                   before names, names by code point
    `ancestors`    the path and the directories above it
-/

namespace SelectorCheck

inductive Component where
  /-- The slash that starts an absolute path. -/
  | root
  /-- A leading `.`. -/
  | here
  /-- A segment `..`. -/
  | up
  | name (text : String)
deriving DecidableEq

namespace Component

/-- The component a segment stands for, if any. -/
def ofSegment? (segment : String) : Option Component :=
  if segment = "" ∨ segment = "." then none
  else if segment = ".." then some up
  else some (name segment)

def compare : Component → Component → Ordering
  | root, root => .eq
  | root, _ => .lt
  | here, root => .gt
  | here, here => .eq
  | here, _ => .lt
  | up, root => .gt
  | up, here => .gt
  | up, up => .eq
  | up, name _ => .lt
  | name a, name b => Ord.compare a b
  | name _, _ => .gt

/-- The order of component lists: by the first difference, and a shorter list
before its extensions. -/
def compareList : List Component → List Component → Ordering
  | [], [] => .eq
  | [], _ :: _ => .lt
  | _ :: _, [] => .gt
  | a :: as, b :: bs => (a.compare b).then (compareList as bs)

end Component

structure Path where
  text : String
deriving DecidableEq, Inhabited

namespace Path

def isAbsolute (p : Path) : Bool := p.text.toList.head? == some '/'

/-- How the path starts, and the segments after that. -/
def parts (p : Path) : Option Component × List String :=
  match Text.pieces '/' p.text with
  | "" :: rest => if rest = [] then (none, []) else (some .root, rest)
  | "." :: rest => (some .here, rest)
  | segments => (none, segments)

def components (p : Path) : List Component :=
  p.parts.1.toList ++ p.parts.2.filterMap Component.ofSegment?

def compare (p q : Path) : Ordering :=
  Component.compareList p.components q.components

/-- Whether a segment says nothing. -/
def isIdle (segment : String) : Bool := (Component.ofSegment? segment).isNone

/-- The segments without idle ones at the end. -/
def trimEnd (segments : List String) : List String :=
  (segments.reverse.dropWhile isIdle).reverse

/-- The spelling of a start and the segments after it. -/
def spell : Option Component → List String → Path
  | some .root, segments => ⟨"/" ++ Text.join "/" segments⟩
  | some .here, [] => ⟨"."⟩
  | some .here, segments => ⟨"./" ++ Text.join "/" segments⟩
  | _, segments => ⟨Text.join "/" segments⟩

/-- The segments after those that spell the given components. -/
def dropComponents : List Component → List String → Option (List String)
  | [], segments => some segments
  | _ :: _, [] => none
  | c :: cs, s :: segments =>
    match Component.ofSegment? s with
    | none => dropComponents (c :: cs) segments
    | some d => if c = d then dropComponents cs segments else none

/-- The rest of `p` below `base`, if the components of `base` start those of
`p`. -/
def relativeTo? (p base : Path) : Option Path :=
  let (start, segments) := p.parts
  match base.components, start with
  | [], _ => some (spell start (trimEnd segments))
  | c :: cs, some s =>
    if c = s then (dropComponents cs segments).map rest else none
  | cs, none => (dropComponents cs segments).map rest
where
  /-- What is left, without idle segments at either end. -/
  rest (segments : List String) : Path :=
    spell none (trimEnd (segments.dropWhile isIdle))

/-- The path below `base`, or the path itself if it is not below. -/
def relativeTo (p base : Path) : Path := (p.relativeTo? base).getD p

/-- `q` seen from `p`: an absolute `q` stands for itself. -/
def join (p q : Path) : Path :=
  if q.isAbsolute then q
  else if p.text = "" ∨ p.text.toList.getLast? = some '/' then ⟨p.text ++ q.text⟩
  else ⟨p.text ++ "/" ++ q.text⟩

/-- The entry `name` of the directory `p`. -/
def child (p : Path) (name : String) : Path := p.join ⟨name⟩

def fileName? (p : Path) : Option String :=
  match p.components.getLast? with
  | some (.name n) => some n
  | _ => none

/-- What follows the last dot of a name, unless the name starts with it. -/
def nameExtension? (name : String) : Option String :=
  let cs := name.toList.reverse
  match cs.dropWhile (· ≠ '.') with
  | [] => none
  | [_] => none
  | _ => some (String.ofList (cs.takeWhile (· ≠ '.')).reverse)

def extension? (p : Path) : Option String :=
  p.fileName?.bind nameExtension?

/-- The directories above a path whose segments are given from the last to the
first, from the nearest outward. -/
def above (start : Option Component) : List String → List Path
  | [] => if start = some .here then [⟨""⟩] else []
  | s :: before =>
    if isIdle s then above start before
    else spell start (trimEnd before.reverse) :: above start before

/-- The path and the directories above it, from the path outward. -/
def ancestors (p : Path) : List Path :=
  p :: above p.parts.1 p.parts.2.reverse

/-- The absolute path of a list of names. -/
def ofNames (names : List String) : Path := ⟨"/" ++ Text.join "/" names⟩

end Path

end SelectorCheck
