import SelectorCheck.Path

/-
  File systems as trees.

  A path is followed from the root segment by segment. Every segment but a last
  name needs a directory to stand in, so a slash after the name of a file leads
  nowhere. `..` goes back to the directory before, and the root is its own
  parent. A link stands for the path that it holds, seen from the directory that
  the link is in, and only so many links are followed in one lookup.

  The system may refuse things: to read a file, to look up names in a directory,
  or to list the entries of a directory, at once or after some of them.
-/

namespace SelectorCheck

/-- Why the system refuses something. -/
structure SystemError where
  text : String
  code : Nat
deriving DecidableEq, Inhabited

namespace SystemError

def missing : SystemError := ⟨"No such file or directory", 2⟩

def refused : SystemError := ⟨"Permission denied", 13⟩

def notDirectory : SystemError := ⟨"Not a directory", 20⟩

def isDirectory : SystemError := ⟨"Is a directory", 21⟩

def tooLong : SystemError := ⟨"File name too long", 36⟩

def tooManyLinks : SystemError := ⟨"Too many levels of symbolic links", 40⟩

def message (e : SystemError) : String := s!"{e.text} (os error {e.code})"

end SystemError

/-- What can be done in a directory. -/
structure Access where
  /-- Whether names can be looked up. -/
  search : Bool := true
  /-- How many entries can be listed, if not all. -/
  listed : Option Nat := none
deriving DecidableEq

inductive FileTree where
  /-- A file, with its content or why that cannot be read. -/
  | file (content : Except SystemError ByteArray)
  | directory (entries : List (String × FileTree)) (access : Access := {})
  | link (target : Path)
deriving Inhabited

namespace FileTree

/-- A directory with nothing in it. -/
def empty : FileTree := directory []

def ofBytes (bytes : ByteArray) : FileTree := file (.ok bytes)

def isDirectory : FileTree → Bool
  | directory _ _ => true
  | _ => false

def isFile : FileTree → Bool
  | file _ => true
  | _ => false

/-- The entries of a directory; nothing else has any. -/
def entries : FileTree → List (String × FileTree)
  | directory es _ => es
  | _ => []

def access : FileTree → Access
  | directory _ access => access
  | _ => {}

/-- The names of the entries, as far as they can be listed. -/
def listing (t : FileTree) : List String :=
  let names := t.entries.map (·.1)
  match t.access.listed with
  | none => names
  | some n => names.take n

/-- The content of a file that can be read. -/
def content? : FileTree → Option ByteArray
  | file content => content.toOption
  | _ => none

def child? (t : FileTree) (name : String) : Option FileTree := t.entries.lookup name

/-- The entries passed on the way from the root to some place, the nearest first. -/
abbrev Trail := List (String × FileTree)

def Trail.target (root : FileTree) (trail : Trail) : FileTree :=
  match trail with
  | [] => root
  | (_, t) :: _ => t

/-- The names on a trail, from the root. -/
def Trail.names (trail : Trail) : List String := (trail.map (·.1)).reverse

/-- Where one segment leads. -/
inductive Step where
  | onward (trail : Trail)
  | link (target : Path)
  /-- The directory has no entry with the name. -/
  | missing
  | refused (error : SystemError)

/-- Where one segment leads from the end of a trail. -/
def step (root : FileTree) (trail : Trail) (s : String) : Step :=
  let here := trail.target root
  if !here.isDirectory then .refused .notDirectory
  else if s = "" then .onward trail
  else if !here.access.search then .refused .refused
  else if s = "." then .onward trail
  else if s = ".." then .onward trail.tail
  else
    match here.child? s with
    | none => .missing
    | some (.link target) => .link target
    | some t => .onward ((s, t) :: trail)

/-- The trail after more segments. A link is left to `atLink`, with the trail to its
directory and the segments after it. With `make`, a last name that is missing is taken for
that of a new file. -/
def followNames (root : FileTree) (make : Bool)
    (atLink : Trail → Path → List String → Except SystemError Trail) (trail : Trail) :
    List String → Except SystemError Trail
  | [] => .ok trail
  | s :: rest =>
    match root.step trail s with
    | .onward trail => followNames root make atLink trail rest
    | .link target => atLink trail target rest
    | .missing =>
      if make && rest.isEmpty then .ok ((s, ofBytes .empty) :: trail) else .error .missing
    | .refused e => .error e

/-- The trail after more segments, with at most `links` links on the way. -/
def follow (root : FileTree) (make : Bool) (links : Nat) (trail : Trail) (segments : List String) :
    Except SystemError Trail :=
  match links with
  | 0 => followNames root make (fun _ _ _ => .error .tooManyLinks) trail segments
  | links + 1 =>
    followNames root make
      (fun trail target rest =>
        if target.text = "" then .error .missing
        else
          follow root make links (if target.isAbsolute then [] else trail)
            (Text.pieces '/' target.text ++ rest))
      trail segments

/-- The number of links that one lookup follows. -/
def maxLinks : Nat := 40

/-- The trail to an absolute path. -/
def trail (root : FileTree) (p : Path) (make : Bool := false) : Except SystemError Trail :=
  match Text.pieces '/' p.text with
  | "" :: s :: rest => root.follow make maxLinks [] (s :: rest)
  | _ => .error .missing

def find? (root : FileTree) (p : Path) : Option FileTree :=
  (root.trail p).toOption.map (·.target root)

def read? (root : FileTree) (p : Path) : Option ByteArray :=
  (root.find? p).bind content?

def existsAt (root : FileTree) (p : Path) : Bool := (root.find? p).isSome

/-- The entries with one replaced or added. -/
def putEntry (name : String) (t : FileTree) :
    List (String × FileTree) → List (String × FileTree)
  | [] => [(name, t)]
  | (n, u) :: rest => if n = name then (n, t) :: rest else (n, u) :: putEntry name t rest

/-- The tree with `t` put at the place that names lead to, with directories made
on the way. -/
def put (t : FileTree) : List String → FileTree → FileTree
  | [], _ => t
  | n :: ns, u => directory (putEntry n (put t ns ((u.child? n).getD empty)) u.entries) u.access

/-- The tree with a directory at the place that names lead to. -/
def makeDirectory : List String → FileTree → FileTree
  | [], u => if u.isDirectory then u else empty
  | n :: ns, u =>
    directory (putEntry n (makeDirectory ns ((u.child? n).getD empty)) u.entries) u.access

end FileTree

end SelectorCheck
