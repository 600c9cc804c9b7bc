import SelectorCheck.Ignore.Personal

/-
  The ignore files of a directory and of the directories above it.

  Each directory contributes a layer: its `.ignore`, its `.gitignore`, and the
  `info/exclude` of its repository. Layers are asked from the nearest outward.
  `.ignore` files come first. The others count only within a repository, and only
  up to its top directory; `.gitignore` files come before `info/exclude`. The ignore
  file of the user comes last, and counts only within a repository too.
-/

namespace SelectorCheck.Ignore

structure Layer where
  /-- The names that lead to the directory. -/
  directory : List String
  /-- Lines of `.ignore`. -/
  plain : Lines := {}
  /-- Lines of `.gitignore`. -/
  git : Lines := {}
  /-- Lines of `info/exclude`. -/
  exclude : Lines := {}
  /-- Whether the directory is the top of a repository. -/
  isTop : Bool := false
  /-- Whether a file of the layer could not be taken whole. -/
  faulty : Bool := false
deriving Inhabited

/-- How ignore files are looked for. -/
structure Settings extends Machine where
  /-- Whether `.gitignore` files count. -/
  respectGitignore : Bool
  /-- Lines of the ignore file of the user. -/
  personal : Lines := {}

/-- The first line of a file: nothing if the file is empty, an error if the line is
not text. -/
def firstLine (content : ByteArray) : Except Unit (Option String) :=
  match splitLines content.toList with
  | [] => .ok none
  | line :: _ =>
    match String.fromUTF8? ⟨line.toArray⟩ with
    | some text => .ok (some text)
    | none => .error ()

namespace Settings

/-- The lines of the file that a path leads to, if it can be read. -/
def linesAt (s : Settings) (p : Path) : Lines :=
  match s.read? p with
  | some content => ofBytes content
  | none => {}

/-- The repository that a `.git` file names: the directory it gives must name the
common directory in turn, in a file and not in a directory. -/
def commonDirectory (s : Settings) (content : ByteArray) : Except Unit (Option Path) := do
  let some line ← firstLine content | return none
  let some target := Text.afterStart? "gitdir: " line | return none
  let repository : Path := ⟨target⟩
  match s.find? (repository.child "commondir") with
  | some (.directory _ _) => .error ()
  | some (.file (.ok common)) =>
    let some line ← firstLine common | return none
    return some (if line.toList.head? = some '.' then repository.join ⟨line⟩ else ⟨line⟩)
  | _ => return none

/-- The directory of the repository whose top is a directory. A `.git` file that cannot be
read is an error. -/
def repositoryOf (s : Settings) (directory : Path) : Except Unit (Option Path) :=
  match s.find? (directory.child ".git") with
  | some (.file (.ok content)) => s.commonDirectory content
  | some (.file (.error _)) => .error ()
  | _ => .ok (some (directory.child ".git"))

def layer (s : Settings) (names : List String) (directory : Path) : Layer :=
  let plain := s.linesAt (directory.child ".ignore")
  let git := if s.respectGitignore then s.linesAt (directory.child ".gitignore") else {}
  let (exclude, broken) := match s.repositoryOf directory with
    | .ok (some repository) => (s.linesAt (repository.join ⟨"info/exclude"⟩), false)
    | .ok none => ({}, false)
    | .error _ => ({}, true)
  { directory := names, plain, git, exclude
    isTop := s.present (directory.child ".git") || s.present (directory.child ".jj")
    faulty := plain.faulty || git.faulty || exclude.faulty || broken }

/-- The layer of a directory above the one that is searched. Without `.gitignore`
files it does not count as the top of a repository. -/
def layerAbove (s : Settings) (names : List String) : Layer :=
  let l := s.layer names (.ofNames names)
  { l with isTop := l.isTop && s.respectGitignore }

end Settings

/-- The layers up to the first that is the top of a repository. -/
def throughTop : List Layer → List Layer
  | [] => []
  | l :: rest => if l.isTop then [l] else l :: throughTop rest

/-- The layers within the repository: none if no layer is the top of one. -/
def repositoryLayers (layers : List Layer) : List Layer :=
  if layers.any (·.isTop) then throughTop layers else []

/-- The path of names below a layer's directory, as bytes. -/
def Layer.pathOf (l : Layer) (names : List String) : List UInt8 :=
  (Text.join "/" (names.drop l.directory.length)).toUTF8.toList

/-- Whether the entry that names lead to is ignored, as far as some lines of a layer
decide. -/
def Layer.verdict? (l : Layer) (f : Lines) (names : List String) (isDirectory : Bool) :
    Option Bool :=
  if f.lines.isEmpty then none else f.verdict? (l.pathOf names) isDirectory

/-- A path as the ignore file of the user sees it: without the text of the current
directory and a slash after that. -/
def Settings.pathFromCurrent (s : Settings) (p : Path) : List UInt8 :=
  let bytes := p.text.toUTF8.toList
  let start := s.current.text.toUTF8.toList
  if start.isPrefixOf bytes then
    match bytes.drop start.length with
    | x :: rest => if x = slash then rest else x :: rest
    | [] => []
  else bytes

/-- Whether the entry at a path, which names lead to, is ignored, given the layers
from the nearest outward. -/
def Settings.isIgnored (s : Settings) (layers : List Layer) (p : Path) (names : List String)
    (isDirectory : Bool) : Bool :=
  let ask (of : Layer → Lines) (ls : List Layer) : Option Bool :=
    ls.findSome? fun l => l.verdict? (of l) names isDirectory
  let inside := repositoryLayers layers
  let personal := if inside.isEmpty then none
    else s.personal.verdict? (s.pathFromCurrent p) isDirectory
  ((((ask Layer.plain layers).or (ask Layer.git inside)).or (ask Layer.exclude inside)).or
    personal).getD false

end SelectorCheck.Ignore
