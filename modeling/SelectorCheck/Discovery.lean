import SelectorCheck.Analyzer
import SelectorCheck.Ignore.Layer

/-
  The files of an analysis.

  A directory is searched with everything below it, hidden entries included,
  except for what the ignore files leave out. A link to a file is found like a file,
  and a link to a directory is not followed. The place where the search starts is
  never left out; if it is a file, no ignore file counts. Of the files found, those
  are taken that a front end handles and that the patterns admit, in the order of
  their paths.
-/

namespace SelectorCheck

structure FoundFile where
  path : Path
  /-- Its content, or why that cannot be read. -/
  content : Except SystemError ByteArray
deriving Inhabited

/-- The text of a file, or the words for why there is none. -/
def FoundFile.text (f : FoundFile) : Except String String :=
  match f.content with
  | .error e => .error e.message
  | .ok bytes =>
    match String.fromUTF8? bytes with
    | some text => .ok text
    | none => .error notText

namespace Ignore.Settings

def fileAt? (s : Settings) (p : Path) : Option FoundFile :=
  match s.find? p with
  | some (.file content) => some ⟨p, content⟩
  | _ => none

mutual

/-- What a search comes upon in a tree at a path, given the names that lead to it and the
layers above it. A directory must be there under its path and be listed whole. A link
counts as the file that it leads to, and is passed over if it leads to none. -/
def walkAt (s : Settings) (layers : List Layer) (p : Path) (names : List String) :
    FileTree → List (Except AnalysisError FoundFile)
  | .directory es access =>
    if s.present p && access.listed.isNone then
      walkIn s (s.layer names p :: layers) p names es
    else [.error .walk]
  | _ => ((s.fileAt? p).map .ok).toList

/-- What a search comes upon in the entries of a directory, given the layers up to its
own. -/
def walkIn (s : Settings) (layers : List Layer) (p : Path) (names : List String) :
    List (String × FileTree) → List (Except AnalysisError FoundFile)
  | [] => []
  | (name, t) :: rest =>
    let below := names ++ [name]
    if s.isIgnored layers (p.child name) below t.isDirectory then walkIn s layers p names rest
    else walkAt s layers (p.child name) below t ++ walkIn s layers p names rest

end

/-- The layers of the directories above the end of a trail, the nearest first. -/
def layersAbove (s : Settings) : FileTree.Trail → List Layer
  | [] => []
  | _ :: above => s.layerAbove (FileTree.Trail.names above) :: layersAbove s above

/-- The files below a place. There must be something at the place, the ignore files above
it must be in order, and no directory that is searched may fail. -/
def search (s : Settings) (root : Path) : Except AnalysisError (List FoundFile) :=
  match s.trail root with
  | .error _ => .error .walk
  | .ok trail =>
    let start := trail.target s.disk
    let above := if start.isDirectory then s.layersAbove trail else []
    if above.any (·.faulty) then .error .walk
    else (s.walkAt above root trail.names start).mapM id

end Ignore.Settings

namespace Analyzer

def handled (a : Analyzer) (files : List FoundFile) : List FoundFile :=
  files.filter fun f => (a.frontEnd? f.path).isSome

/-- The found files that are analyzed, in the order of their paths. -/
def admitted (a : Analyzer) (files : List FoundFile) : List FoundFile :=
  ((a.handled files).filter fun f => !a.excludes f.path && a.includes f.path).mergeSort
    fun f g => f.path.compare g.path != .gt

/-- How this analysis looks for ignore files. -/
def ignoreSettings (a : Analyzer) (m : Machine) : Ignore.Settings :=
  { toMachine := m, respectGitignore := a.config.search.respectGitignore
    personal := m.personalLines }

def discover (a : Analyzer) (m : Machine) : Except AnalysisError (List FoundFile) :=
  ((a.ignoreSettings m).search a.root).map a.admitted

/-- The log lines on files that patterns leave out. -/
def excludedEvents (a : Analyzer) (files : List FoundFile) : List Event :=
  ((a.handled files).filter fun f => a.excludes f.path).map fun f =>
    ⟨.debug, s!"Excluding: {f.path.text}"⟩

end Analyzer

end SelectorCheck
