import SelectorCheck.FileTree

/-
  What a program sees of the machine it runs on: a file system, the directory that
  relative paths start from, and the variables of the environment.

  A lookup takes a path as it is written, and no path above a certain length.
-/

namespace SelectorCheck

structure Machine where
  disk : FileTree
  /-- Where relative paths start. -/
  current : Path
  /-- The variables of the environment. -/
  environment : String → Option String := fun _ => none

namespace Machine

/-- The number of bytes that a path may have. -/
def maxPathBytes : Nat := 4095

/-- The trail to a path. The empty path leads nowhere. -/
def trail (m : Machine) (p : Path) (make : Bool := false) : Except SystemError FileTree.Trail :=
  if p.text = "" then .error .missing
  else if maxPathBytes < p.text.utf8ByteSize then .error .tooLong
  else m.disk.trail (m.current.join p) make

def find? (m : Machine) (p : Path) : Option FileTree :=
  (m.trail p).toOption.map (·.target m.disk)

/-- The content of the file that a path leads to. -/
def read? (m : Machine) (p : Path) : Option ByteArray := (m.find? p).bind FileTree.content?

def isFile (m : Machine) (p : Path) : Bool := (m.find? p).any FileTree.isFile

/-- Whether a path leads anywhere. -/
def present (m : Machine) (p : Path) : Bool := (m.find? p).isSome

/-- The names of the entries of a directory, as far as they can be listed. -/
def listing (m : Machine) (p : Path) : List String := ((m.find? p).map FileTree.listing).getD []

/-- The path by names alone, if it leads somewhere. The path itself may have any length,
since it is taken apart before anything is looked up. -/
def canonical? (m : Machine) (p : Path) : Option Path :=
  if p.text = "" then none
  else
    ((m.disk.trail (m.current.join p)).toOption.map fun trail => .ofNames trail.names).filter
      fun q => q.text.utf8ByteSize ≤ maxPathBytes

end Machine

end SelectorCheck
