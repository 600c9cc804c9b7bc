import SelectorCheck.Machine

/-
  Where the configuration of a check comes from.

  A file named on the command line comes first. Otherwise the checked directory
  and those above it are searched, from the nearest outward, up to the first that
  holds a repository or a solution: that one is still searched. Then comes the
  file in the directory for all projects, and last the default.
-/

namespace SelectorCheck

namespace Command

/-- Where the configuration comes from. -/
inductive ConfigSource where
  | explicit (file : Path)
  | project (file : Path)
  | global (file : Path)
  | default
deriving DecidableEq

namespace ConfigSource

def file? : ConfigSource → Option Path
  | explicit p | project p | global p => some p
  | default => none

/-- The names of configuration files in a directory, the preferred one first. -/
def projectNames : List String := ["selector-lint.toml", ".selector-lint.toml"]

def globalName : String := "config.toml"

end ConfigSource

end Command

namespace Machine

open Command

/-- The configuration file that a directory holds. -/
def projectFile? (m : Machine) (directory : Path) : Option Path :=
  (ConfigSource.projectNames.map directory.child).find? m.isFile

/-- Whether the search goes no further than a directory: a repository or a solution is seen
in it. A repository that cannot be looked up and an entry that cannot be listed are not
seen. -/
def isBoundary (m : Machine) (directory : Path) : Bool :=
  m.present (directory.child ".git") ||
    (m.listing directory).any fun name => Path.nameExtension? name == some "sln"

/-- The configuration file that a search through directories finds. -/
def searchIn (m : Machine) : List Path → Option Path
  | [] => none
  | d :: rest =>
    match m.projectFile? d with
    | some p => some p
    | none => if m.isBoundary d then none else searchIn m rest

/-- Where the configuration comes from, for a check that starts at a place. -/
def sourceFrom (m : Machine) (start : Path) (explicit globalDirectory : Option Path) :
    ConfigSource :=
  match explicit with
  | some p => .explicit p
  | none =>
    match m.searchIn start.ancestors with
    | some p => .project p
    | none =>
      match globalDirectory.map (·.child ConfigSource.globalName) with
      | some p => if m.present p then .global p else .default
      | none => .default

/-- Where the configuration comes from, for a check of a path as written. -/
def sourceFor (m : Machine) (path : Path) (explicit globalDirectory : Option Path) : ConfigSource :=
  m.sourceFrom ((m.canonical? path).getD path) explicit globalDirectory

end Machine

namespace Command

def configVariable : String := "SELECTOR_LINT_CONFIG_DIR"

/-- The directory for all projects, given the variables of the environment. -/
def globalDirectory? (environment : String → Option String) : Option Path :=
  match environment configVariable with
  | some directory => some ⟨directory⟩
  | none => (environment "HOME").map fun home => Path.child ⟨home⟩ ".selector-lint"

end Command

end SelectorCheck
