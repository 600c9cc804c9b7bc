import SelectorCheck.Command.Run

/-
  The program.

  The part of the file system that a run can see is read first: the whole checked
  directory, the entries of the directories above it and of those that may hold a
  configuration, and the user's own settings and ignore file. Links are kept as
  links, and what they lead to is read as far as it matters; so the reading ends
  even if links lead in a circle. What the system refuses is noted in its place.

  The run itself is `Command.run`. No grammar for C# is linked in, so every C# file
  is refused here; a host with a grammar passes it to `Command.run`.
-/

namespace SelectorCheck.Command

/-- The files outside the checked directory whose content matters. -/
def isSettingsFile (name : String) : Bool :=
  ([".ignore", ".gitignore", ".git", "exclude", ConfigSource.globalName]
    ++ ConfigSource.projectNames).contains name

/-- The error of the system that an operation failed with. -/
def systemError : IO.Error → SystemError
  | .otherError code text | .resourceBusy code text | .resourceVanished code text
  | .unsupportedOperation code text | .hardwareFault code text
  | .unsatisfiedConstraints code text | .illegalOperation code text
  | .protocolError code text | .timeExpired code text => ⟨text, code.toNat⟩
  | .interrupted _ code text | .noFileOrDirectory _ code text => ⟨text, code.toNat⟩
  | .alreadyExists _ code text | .invalidArgument _ code text
  | .permissionDenied _ code text | .resourceExhausted _ code text
  | .inappropriateType _ code text | .noSuchThing _ code text => ⟨text, code.toNat⟩
  | .unexpectedEof => ⟨"unexpected end of file", 0⟩
  | .userError text => ⟨text, 0⟩

def readFile (e : IO.FS.DirEntry) : IO FileTree := do
  try return .ofBytes (← IO.FS.readBinFile e.path)
  catch e => return .file (.error (systemError e))

/-- Reads a link, with the place that it leads to in the end. -/
def readLink (e : IO.FS.DirEntry) : IO FileTree := do
  try return .link ⟨(← IO.FS.realPath e.path).toString⟩
  catch _ => return .link ⟨""⟩

/-- The entries of a directory, as far as they can be listed, and what can be done in it. -/
def readEntries (e : IO.FS.DirEntry) : IO (List IO.FS.DirEntry × Access) := do
  let inside : IO.FS.DirEntry := ⟨e.path, "."⟩
  let search ← inside.path.pathExists
  try return ((← e.path.readDir).toList, { search })
  catch _ => return ([], { search, listed := some 0 })

/-- Whether an entry is a link, wherever it leads. -/
def isLink (e : IO.FS.DirEntry) : IO Bool := do
  try return (← e.path.symlinkMetadata).type == .symlink
  catch _ => return false

/-- Reads an entry with everything below it. -/
partial def readWhole (e : IO.FS.DirEntry) : IO FileTree := do
  if ← isLink e then readLink e
  else if ← e.path.isDir then
    let (entries, access) ← readEntries e
    return .directory (← entries.mapM fun e => do return (e.fileName, ← readWhole e)) access
  else readFile e

/-- Reads an entry, with the content of settings files and nothing below a directory
but the settings of a repository. -/
def readOutline (e : IO.FS.DirEntry) : IO FileTree := do
  if ← isLink e then readLink e
  else if ← e.path.isDir then
    let info : IO.FS.DirEntry := ⟨e.path, "info"⟩
    if e.fileName == ".git" && (← info.path.isDir) then
      return .directory [("info", ← readWhole info)]
    else return .empty
  else if isSettingsFile e.fileName then readFile e
  else return .ofBytes .empty

/-- The names of the place that names lead to in the end. -/
def realNames? (names : List String) : IO (Option (List String)) := do
  try
    let real ← IO.FS.realPath (Path.ofNames names).text
    return some ((Text.pieces '/' real.toString).filter (· ≠ ""))
  catch _ => return none

def entryAt (names : List String) : IO.FS.DirEntry := ⟨"/", Text.join "/" names⟩

/-- The tree with the outline of a directory put in, where its names lead. -/
def addOutline (disk : FileTree) (names : List String) : IO FileTree := do
  let some real ← realNames? names | return disk
  unless ← (entryAt real).path.isDir do return disk
  let (entries, access) ← readEntries (entryAt real)
  let here := ((disk.find? (.ofNames real)).getD .empty).entries
  let added ← (entries.filter fun e => (here.lookup e.fileName).isNone).mapM fun e => do
    return (e.fileName, ← readOutline e)
  return .put (.directory (here ++ added) access) real disk

/-- All the starts of a list, the shortest first. -/
def starts : List String → List (List String)
  | [] => [[]]
  | n :: ns => [] :: (starts ns).map (n :: ·)

/-- The names of a path as written, from the root. -/
def namesFrom (current p : Path) : List String :=
  (current.join p).components.foldl (fun names c =>
    match c with
    | .name n => names ++ [n]
    | .up => names.dropLast
    | .root | .here => names) []

mutual

/-- The links in a tree: their names and where they lead. -/
def linksIn (name : String) : FileTree → List (String × Path)
  | .link target => [(name, target)]
  | .directory es _ => linksAmong es
  | .file _ => []

def linksAmong : List (String × FileTree) → List (String × Path)
  | [] => []
  | (name, t) :: rest => linksIn name t ++ linksAmong rest

end

/-- The tree with what some links lead to, unless that is there already. -/
def addTargets (disk : FileTree) (links : List (String × Path)) (whole : Bool) : IO FileTree :=
  links.foldlM (fun disk (name, target) => do
    let names := (Text.pieces '/' target.text).filter (· ≠ "")
    if names.isEmpty || disk.existsAt target then return disk
    else if ← (entryAt names).path.isDir then return .makeDirectory names disk
    else if whole || isSettingsFile name then return .put (← readFile (entryAt names)) names disk
    else return .put (.ofBytes .empty) names disk) disk

/-- The tree with the file at a path, if there is one, and the outlines of the
directories on the way. -/
def addPath (current : Path) (disk : FileTree) (p : Path) : IO FileTree := do
  let names := namesFrom current p
  let disk ← (starts names).foldlM addOutline disk
  let some real ← realNames? names | return disk
  if ← (entryAt real).path.isDir then return disk
  else return .put (← readFile (entryAt real)) real disk

/-- The part of the file system that matters for a check of a path, with other files. -/
def snapshot (current path : Path) (others : List Path) : IO FileTree := do
  let names := namesFrom current path
  let real := (← realNames? names).getD names
  let mut disk := FileTree.empty
  if ← (entryAt real).path.pathExists then
    disk := .put (← readWhole (entryAt real)) real disk
  disk ← addTargets disk (linksIn "" disk) true
  disk ← ([current, path, .ofNames real] ++ others).foldlM (addPath current) disk
  addTargets disk (linksIn "" disk) false

def readEnvironment : IO (List (String × String)) := do
  (configVariable :: Ignore.Personal.environmentNames).filterMapM fun name => do
    return (← IO.getEnv name).map fun value => (name, value)

/-- Reads what a run with some arguments can see. -/
def readSurroundings (args : List String) : IO Surroundings := do
  let current : Path := ⟨(← IO.currentDir).toString⟩
  let found ← readEnvironment
  let environment := fun name => found.lookup name
  let (path, config) := match readRequest args with
    | .ok (.check r) => (r.path, r.config)
    | _ => (⟨"."⟩, none)
  let global := (globalDirectory? environment).map (·.child ConfigSource.globalName)
  let m : Machine := { disk := .empty, current, environment }
  let disk ← snapshot current path (config.toList ++ global.toList ++ m.gitSettings)
  let m := { m with disk }
  return { m with disk := ← m.personalFile?.toList.foldlM (addPath current) disk }

/-- Writes the file that `init` leaves, if the run wrote it. -/
def writeBack (s : Surroundings) (args : List String) (o : Outcome) : IO Unit := do
  match readRequest args, o.exit, o.disk.read? (s.current.child initFile) with
  | .ok (.init _), 0, some content => IO.FS.writeBinFile (s.current.child initFile).text content
  | _, _, _ => return

end SelectorCheck.Command

open SelectorCheck.Command in
def main (args : List String) : IO UInt32 := do
  let s ← readSurroundings args
  let o := run s args
  writeBack s args o
  (← IO.getStdout).putStr o.out
  match o.failure with
  | some f => (← IO.getStderr).putStrLn s!"Error: {f.message}"
  | none => if o.exit == 2 then (← IO.getStderr).putStr usageOutput
  return UInt32.ofNat o.exit
