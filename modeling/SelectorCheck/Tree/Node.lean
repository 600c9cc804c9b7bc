import SelectorCheck.Span
import SelectorCheck.Text.Slice

/-
  Syntax trees of C# source.

  A tree is data: its nodes carry the kind the grammar gives them, the byte
  range and the start position, and all their children, punctuation and comments
  included. A child may stand in a field of its parent. The first child in a
  field is the one that counts.

  `visit` goes through a tree with a list of pending nodes: a node is taken from
  the front and its named children are put in its place.
-/

namespace SelectorCheck

/-- A node of a syntax tree, apart from its children. -/
structure Token where
  /-- The kind the grammar gives the node. -/
  kind : String
  /-- Whether the node is more than punctuation or a keyword. -/
  named : Bool
  /-- Whether the text of the node has syntax errors. -/
  hasError : Bool
  /-- The field of the parent that the node stands in. -/
  field : Option String
  /-- Byte position of the first character. -/
  start : UInt64
  /-- Byte position after the last character. -/
  stop : UInt64
  /-- Line of the start, counted from zero. -/
  row : UInt64
  /-- Column of the start in bytes, counted from zero. -/
  column : UInt64
deriving Inhabited

structure Node extends Token where
  children : List Node
deriving Inhabited

namespace Token

def span (t : Token) : Span :=
  { offset := t.start, length := t.stop - t.start, line := t.row + 1, column := t.column + 1 }

/-- The source text of a node, or no text if its range is not a slice. -/
def text (source : String) (t : Token) : String :=
  Text.slice source t.start.toNat t.stop.toNat

def isIn (field : String) (t : Token) : Bool := t.field == some field

end Token

namespace Node

def inField? (field : String) (nodes : List Node) : Option Node :=
  nodes.find? (·.isIn field)

def child? (n : Node) (field : String) : Option Node := inField? field n.children

/-- The children that are more than punctuation. -/
def namedChildren (n : Node) : List Node := n.children.filter (·.named)

mutual

def size : Node → Nat
  | ⟨_, children⟩ => 1 + sizes children

def sizes : List Node → Nat
  | [] => 0
  | n :: rest => size n + sizes rest

end

theorem size_eq (n : Node) : n.size = 1 + sizes n.children := by
  cases n; rfl

theorem sizes_append (ns ms : List Node) : sizes (ns ++ ms) = sizes ns + sizes ms := by
  induction ns with
  | nil => simp [sizes]
  | cons n ns ih => simp [sizes, ih, Nat.add_assoc]

theorem sizes_filter_le (p : Node → Bool) (ns : List Node) : sizes (ns.filter p) ≤ sizes ns := by
  induction ns with
  | nil => simp
  | cons n ns ih =>
    cases h : p n <;> simp [List.filter, h, sizes] <;> omega

/-- The nodes met when the pending nodes are taken from the front one by one and
each is replaced by its named children. -/
def visit : List Node → List Node
  | [] => []
  | n :: pending => n :: visit (n.namedChildren ++ pending)
termination_by pending => sizes pending
decreasing_by
  have h := sizes_filter_le (·.named) n.children
  simp only [sizes_append, sizes, size_eq, namedChildren]
  omega

end Node

end SelectorCheck
