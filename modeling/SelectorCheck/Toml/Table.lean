import SelectorCheck.Toml.Value

/-
  Tables under construction.

  A table comes into being in one of three ways: it is defined by a header, it is
  implied by a longer header, or it is written through dotted keys. Each may be
  completed only in its own way: a header defines a table that is new or implied,
  and dotted keys add to a table that is new or was written through dotted keys.
  A header of an array adds one table to it, and a longer header goes into the
  last one.
-/

namespace SelectorCheck.Toml

/-- How a table came into being. -/
inductive Standing where
  | defined
  | implied
  | dotted
deriving DecidableEq

/-- What a key stands for while a document is read. -/
inductive Item where
  | value (v : Value)
  | table (standing : Standing) (entries : List (String × Item))
  /-- An array of tables that headers add to. -/
  | tables (elements : List (List (String × Item)))

abbrev Entries := List (String × Item)

namespace Entries

/-- The entries with a key's item put in the place of its old one, or at the end. -/
def put (key : String) (item : Item) : Entries → Entries
  | [] => [(key, item)]
  | (k, i) :: rest => if k = key then (k, item) :: rest else (k, i) :: put key item rest

def changeLast (f : α → Option α) : List α → Option (List α)
  | [] => none
  | [a] => (f a).map ([·])
  | a :: b :: rest => (changeLast f (b :: rest)).map (a :: ·)

/-- The entries with a value defined under a key, the parts before its last one
being `path`. -/
def define (path : List String) (key : String) (v : Value) (t : Entries) : Option Entries :=
  match path with
  | [] => if (t.lookup key).isSome then none else some (t.put key (.value v))
  | k :: rest =>
    match t.lookup k with
    | none => (define rest key v []).map fun inner => t.put k (.table .dotted inner)
    | some (.table standing inner) =>
      if standing = .defined ∨ (rest = [] ∧ standing = .implied) then none
      else (define rest key v inner).map fun inner => t.put k (.table standing inner)
    | some (.tables elements) =>
      if rest = [] then none
      else (changeLast (define rest key v) elements).map fun es => t.put k (.tables es)
    | some (.value _) => none

/-- The entries with `f` applied to the table that the parts of a header lead to. -/
def within (path : List String) (f : Entries → Option Entries) (t : Entries) : Option Entries :=
  match path with
  | [] => f t
  | k :: rest =>
    match t.lookup k with
    | none => (within rest f []).map fun inner => t.put k (.table .implied inner)
    | some (.table standing inner) =>
      (within rest f inner).map fun inner => t.put k (.table standing inner)
    | some (.tables elements) =>
      (changeLast (within rest f) elements).map fun es => t.put k (.tables es)
    | some (.value _) => none

/-- The entries with the table under `key` defined and filled. A table that was
implied moves to the end. -/
def defineTable (key : String) (fill : Entries → Option Entries) (t : Entries) :
    Option Entries :=
  match t.lookup key with
  | none => (fill []).map fun inner => t.put key (.table .defined inner)
  | some (.table .implied inner) =>
    (fill inner).map fun inner =>
      (t.filter fun (k, _) => k ≠ key) ++ [(key, .table .defined inner)]
  | some _ => none

/-- The entries with a filled table added to the array under `key`. -/
def addElement (key : String) (fill : Entries → Option Entries) (t : Entries) :
    Option Entries :=
  match t.lookup key with
  | none => (fill []).map fun inner => t.put key (.tables [inner])
  | some (.tables elements) =>
    (fill []).map fun inner => t.put key (.tables (elements ++ [inner]))
  | some _ => none

end Entries

mutual

def Item.finish : Item → Value
  | .value v => v
  | .table _ entries => .table (finishEntries entries)
  | .tables elements => .array (finishTables elements)

def finishEntries : List (String × Item) → List (String × Value)
  | [] => []
  | (k, i) :: rest => (k, i.finish) :: finishEntries rest

def finishTables : List (List (String × Item)) → List Value
  | [] => []
  | t :: rest => .table (finishEntries t) :: finishTables rest

end

def Entries.finish (t : Entries) : Value := .table (finishEntries t)

end SelectorCheck.Toml
