import SelectorCheck.Tree.Calls

/-
  What an expression is read from.

  Expressions are read off a syntax tree by functions that recurse along lists of
  children. Here each reader is said to be a lookup: the first child in a field, the
  first or the last named child. After that the recursion is not opened again:
  `Reading` lists, for the expressions that a selector's path can go through, the
  kind of the node and the children that their parts are read from, and says of all
  the others only that they keep the span of their node.

  What is proved:
    1. `meaning_eq_iff`: which names of kinds have a meaning that paths go through.
    2. `mem_nodes`: the nodes of a tree are itself and the nodes of its children.
    3. `first_eq`, `last_eq`, `listed_eq`: the readers as lookups.
    4. `reading_expr`: the expression of a node is one of those that `Reading` lists.
       So `expr` is inverted by cases on `Reading`.
    5. `mem_arguments`: an argument's value is the expression of a child of a member
       of the argument list.
-/

namespace SelectorCheck

/-! ## Kinds by their names -/

/-- The names of the kinds that a selector's path goes through. -/
def NodeKind.names : NodeKind → List String
  | .identifier => ["identifier"]
  | .genericName => ["generic_name"]
  | .memberAccess => ["member_access_expression"]
  | .cast => ["cast_expression"]
  | .parenthesized => ["parenthesized_expression"]
  | .lambda =>
    ["lambda_expression", "simple_lambda_expression", "parenthesized_lambda_expression"]
  | _ => []

theorem Token.kind_mem_names (t : Token) :
    t.meaning.names = [] ∨ t.kind ∈ t.meaning.names := by
  unfold meaning NodeKind.ofText
  split
  case h_22 =>
    split <;> exact .inl rfl
  all_goals simp_all [NodeKind.names]

theorem Token.meaning_of_kind_mem {t : Token} {k : NodeKind} (h : t.kind ∈ k.names) :
    t.meaning = k := by
  cases k with
  | identifier | genericName | memberAccess | cast | parenthesized =>
    have h : t.kind = _ := List.mem_singleton.mp h
    rw [meaning, h]
    rfl
  | lambda =>
    simp only [NodeKind.names, List.mem_cons, List.not_mem_nil, or_false] at h
    rcases h with h | h | h <;> rw [meaning, h] <;> rfl
  | _ => cases h

theorem Token.meaning_eq_iff {t : Token} {k : NodeKind} (hk : k.names ≠ []) :
    t.meaning = k ↔ t.kind ∈ k.names := by
  refine ⟨fun h => ?_, meaning_of_kind_mem⟩
  subst h
  exact (kind_mem_names t).resolve_left hk

/-! ## Subtrees -/

namespace Node

mutual

/-- The nodes of a tree, punctuation included, itself first. -/
def nodes : Node → List Node
  | ⟨t, children⟩ => ⟨t, children⟩ :: nodesOf children

/-- The nodes of some trees. -/
def nodesOf : List Node → List Node
  | [] => []
  | n :: rest => nodes n ++ nodesOf rest

end

theorem mem_nodesOf {m : Node} {ns : List Node} : m ∈ nodesOf ns ↔ ∃ n ∈ ns, m ∈ n.nodes := by
  induction ns with
  | nil => simp [nodesOf]
  | cons n ns ih => simp [nodesOf, ih]

theorem mem_nodes {m n : Node} : m ∈ n.nodes ↔ m = n ∨ ∃ c ∈ n.children, m ∈ c.nodes := by
  obtain ⟨t, cs⟩ := n
  simp [nodes, mem_nodesOf]

theorem mem_nodes_self (n : Node) : n ∈ n.nodes := mem_nodes.mpr (.inl rfl)

theorem mem_nodes_of_child {m c n : Node} (hc : c ∈ n.children) (hm : m ∈ c.nodes) :
    m ∈ n.nodes :=
  mem_nodes.mpr (.inr ⟨c, hc, hm⟩)

theorem exists_mem_nodes_of_child {P : Node → Prop} {c n : Node} (hc : c ∈ n.children)
    (h : ∃ m ∈ c.nodes, P m) : ∃ m ∈ n.nodes, P m := by
  obtain ⟨m, hm, hp⟩ := h
  exact ⟨m, mem_nodes_of_child hc hm, hp⟩

theorem size_le_sizes {c : Node} {ns : List Node} (hc : c ∈ ns) : c.size ≤ sizes ns := by
  induction ns with
  | nil => simp at hc
  | cons n ns ih =>
    rcases List.mem_cons.mp hc with rfl | hc
    · simp [sizes]
    · have := ih hc
      simp only [sizes]
      omega

theorem induction_children {P : Node → Prop} (step : ∀ n : Node, (∀ c ∈ n.children, P c) → P n)
    (n : Node) : P n := by
  induction hk : n.size using Nat.strongRecOn generalizing n with
  | ind k ih =>
    apply step
    intro c hc
    have hlt : c.size < k := by
      have := size_le_sizes hc
      rw [← hk, size_eq n]
      omega
    exact ih c.size hlt c rfl

theorem mem_nodes_trans {a b c : Node} (hab : a ∈ b.nodes) (hbc : b ∈ c.nodes) : a ∈ c.nodes := by
  induction c using induction_children with
  | step c ih =>
    rcases mem_nodes.mp hbc with rfl | ⟨d, hd, hbd⟩
    · exact hab
    · exact mem_nodes_of_child hd (ih d hd hbd)

theorem mem_nodesOf_of_mem_visit {m : Node} {pending : List Node} (h : m ∈ visit pending) :
    m ∈ nodesOf pending := by
  fun_induction visit pending with
  | case1 => simp at h
  | case2 n pending ih =>
    rw [mem_nodesOf]
    rcases List.mem_cons.mp h with rfl | h
    · exact ⟨m, List.mem_cons_self, mem_nodes_self m⟩
    · obtain ⟨c, hc, hm⟩ := mem_nodesOf.mp (ih h)
      rcases List.mem_append.mp hc with hc | hc
      · exact ⟨n, List.mem_cons_self, mem_nodes_of_child (List.mem_filter.mp hc).1 hm⟩
      · exact ⟨c, List.mem_cons_of_mem n hc, hm⟩

/-- A node of a text of one line. -/
def onLine (kind : String) (field : Option String) (start stop : UInt64)
    (children : List Node) : Node :=
  { kind, named := true, hasError := false, field, start, stop, row := 0, column := start,
    children }

/-- Punctuation in a text of one line. -/
def mark (kind : String) (start stop : UInt64) : Node :=
  { onLine kind none start stop [] with named := false }

/-! ## The children that are read -/

/-- The first child that is more than punctuation. -/
def firstNamed? (n : Node) : Option Node := n.namedChildren.head?

/-- The body of a lambda: the child in the field for it, else the last named child. -/
def body? (n : Node) : Option Node := (n.child? "body").or n.namedChildren.getLast?

theorem child?_mem {n c : Node} {field : String} (h : n.child? field = some c) :
    c ∈ n.children :=
  List.mem_of_find?_eq_some h

theorem firstNamed?_mem {n c : Node} (h : n.firstNamed? = some c) : c ∈ n.children :=
  (List.mem_filter.mp (List.mem_of_head? h)).1

theorem body?_mem {n c : Node} (h : n.body? = some c) : c ∈ n.children := by
  rcases Option.or_eq_some_iff.mp h with h | ⟨_, h⟩
  · exact child?_mem h
  · exact (List.mem_filter.mp (List.mem_of_getLast? h)).1

end Node

namespace Lowering

variable {source : String} {n : Node}

theorem first_eq (source : String) (p : Node → Bool) (ns : List Node) :
    first source p ns = (ns.find? p).map (expr source) := by
  induction ns with
  | nil => simp [first]
  | cons n ns ih => cases h : p n <;> simp [first, List.find?, h, ih]

theorem last_eq (source : String) (p : Node → Bool) (ns : List Node) :
    last source p ns = (ns.filter p).getLast?.map (expr source) := by
  induction ns with
  | nil => simp [last]
  | cons n ns ih =>
    rw [last, ih]
    cases hl : (ns.filter p).getLast? with
    | none =>
      have hnil : ns.filter p = [] := by simpa using hl
      cases hp : p n <;> simp [List.filter, hp, hnil]
    | some m => cases hp : p n <;> simp [List.filter, hp, List.getLast?_cons, hl]

theorem first_field (source field : String) (n : Node) :
    first source (·.isIn field) n.children = (n.child? field).map (expr source) :=
  first_eq source _ _

theorem first_named (source : String) (n : Node) :
    first source (·.named) n.children = n.firstNamed?.map (expr source) := by
  rw [first_eq, Node.firstNamed?, Node.namedChildren, List.head?_filter]

theorem first_body_or_last (source : String) (n : Node) :
    (first source (·.isIn "body") n.children).or (last source (·.named) n.children) =
      n.body?.map (expr source) := by
  rw [first_eq, last_eq, ← Option.map_or]
  rfl

theorem listed_eq (source : String) (ns : List Node) :
    listed source ns =
      match Node.inField? "arguments" ns with
      | some list => arguments source 0 list.children
      | none => [] := by
  induction ns with
  | nil => simp [listed, Node.inField?]
  | cons n ns ih =>
    obtain ⟨t, cs⟩ := n
    cases h : t.isIn "arguments"
    · simpa [listed, h, Node.inField?] using ih
    · simp [listed, h, Node.inField?]

theorem parameterNames_eq (source : String) (n : Node) :
    parameterNames source n.children =
      match (n.child? "parameters").or (n.child? "parameter") with
      | none => []
      | some f =>
        if isBareParameter f then [f.text source]
        else f.namedChildren.filterMap (parameterName? source) := rfl

theorem mem_arguments {x : Argument} {position : Nat} {members : List Node}
    (h : x ∈ arguments source position members) :
    ∃ a ∈ members, ∃ v ∈ a.children, x.value = expr source v := by
  induction members generalizing position with
  | nil => simp [arguments] at h
  | cons a rest ih =>
    obtain ⟨t, cs⟩ := a
    -- every branch but one passes on to the rest of the list
    have later : ∀ k, x ∈ arguments source k rest → ∃ a ∈ (⟨t, cs⟩ : Node) :: rest,
        ∃ v ∈ a.children, x.value = expr source v := by
      intro k hk
      obtain ⟨a, ha, hv⟩ := ih hk
      exact ⟨a, List.mem_cons_of_mem _ ha, hv⟩
    rw [arguments] at h
    split at h
    · split at h
      next value hvalue =>
        rcases List.mem_cons.mp h with rfl | h
        · rw [last_eq, Option.map_eq_some_iff] at hvalue
          obtain ⟨v, hv, rfl⟩ := hvalue
          exact ⟨_, List.mem_cons_self, v,
            (List.mem_filter.mp (List.mem_of_getLast? hv)).1, rfl⟩
        · exact later _ h
      next => exact later _ h
    · exact later _ h

theorem mem_listed {x : Argument} (h : x ∈ listed source n.children) :
    ∃ v ∈ n.nodes, x.value = expr source v := by
  rw [listed_eq] at h
  split at h
  next list hlist =>
    obtain ⟨a, ha, v, hv, hx⟩ := mem_arguments h
    have hva : v ∈ list.nodes :=
      Node.mem_nodes_of_child ha (Node.mem_nodes_of_child hv (Node.mem_nodes_self v))
    exact ⟨v, Node.mem_nodes_of_child (List.mem_of_find?_eq_some hlist) hva, hx⟩
  next => simp at h

/-! ## The expression of a node, kind by kind -/

theorem simpleName_of_identifier (hm : n.meaning = .identifier) :
    simpleName source n = n.text source := by
  simp [simpleName, hm]

theorem expr_name (hm : n.meaning = .identifier ∨ n.meaning = .genericName) :
    expr source n = .identifier (simpleName source n) n.span := by
  obtain ⟨t, cs⟩ := n
  rcases hm with hm | hm
  · rw [simpleName_of_identifier hm, expr, hm]
    rfl
  · rw [expr, hm]
    rfl

theorem expr_memberAccess (hm : n.meaning = .memberAccess) :
    expr source n =
      match n.child? "expression", n.child? "name" with
      | some receiver, some name =>
        .member (expr source receiver) (simpleName source name) n.span
      | _, _ => .other n.kind n.span := by
  obtain ⟨t, cs⟩ := n
  rw [expr, hm]
  dsimp only
  rw [first_field source "expression" ⟨t, cs⟩]
  dsimp only [Node.child?]
  cases Node.inField? "expression" cs <;> cases Node.inField? "name" cs <;> rfl

theorem expr_cast (hm : n.meaning = .cast) :
    expr source n =
      match n.child? "type", n.child? "value" with
      | some type, some value => .cast (type.text source) (expr source value) n.span
      | _, _ => .other n.kind n.span := by
  obtain ⟨t, cs⟩ := n
  rw [expr, hm]
  dsimp only
  rw [first_field source "value" ⟨t, cs⟩]
  dsimp only [Node.child?]
  cases Node.inField? "type" cs <;> cases Node.inField? "value" cs <;> rfl

theorem expr_parenthesized (hm : n.meaning = .parenthesized) :
    expr source n =
      match n.firstNamed? with
      | some inner => .paren (expr source inner) n.span
      | none => .other n.kind n.span := by
  obtain ⟨t, cs⟩ := n
  rw [expr, hm]
  dsimp only
  rw [first_named source ⟨t, cs⟩]
  cases Node.firstNamed? ⟨t, cs⟩ <;> rfl

theorem expr_lambda (hm : n.meaning = .lambda) :
    expr source n =
      match n.body? with
      | some body => .lambda (parameterNames source n.children) (expr source body) n.span
      | none => .other n.kind n.span := by
  obtain ⟨t, cs⟩ := n
  rw [expr, hm]
  dsimp only
  rw [first_body_or_last source ⟨t, cs⟩]
  cases Node.body? ⟨t, cs⟩ <;> rfl

end Lowering

/-- Whether the outermost node can stand between a selector and its parameter. -/
def Expr.onPath : Expr → Bool
  | identifier .. | member .. | cast .. | paren .. | lambda .. => true
  | _ => false

namespace Lowering

/-- The expressions that a node can have: on a path, with the children that their
parts are read from; apart from paths, with the span of the node. -/
inductive Reading (source : String) (n : Node) : Expr → Prop
  | name : n.meaning = .identifier ∨ n.meaning = .genericName →
      Reading source n (.identifier (simpleName source n) n.span)
  | member {receiver name : Node} : n.meaning = .memberAccess →
      n.child? "expression" = some receiver → n.child? "name" = some name →
      Reading source n (.member (expr source receiver) (simpleName source name) n.span)
  | cast {type value : Node} : n.meaning = .cast →
      n.child? "type" = some type → n.child? "value" = some value →
      Reading source n (.cast (type.text source) (expr source value) n.span)
  | paren {inner : Node} : n.meaning = .parenthesized → n.firstNamed? = some inner →
      Reading source n (.paren (expr source inner) n.span)
  | lambda {body : Node} : n.meaning = .lambda → n.body? = some body →
      Reading source n (.lambda (parameterNames source n.children) (expr source body) n.span)
  | apart {e : Expr} : e.onPath = false → e.span = n.span → Reading source n e

theorem reading_expr (source : String) (n : Node) : Reading source n (expr source n) := by
  cases hm : n.meaning with
  | identifier =>
    rw [expr_name (.inl hm)]
    exact .name (.inl hm)
  | genericName =>
    rw [expr_name (.inr hm)]
    exact .name (.inr hm)
  | memberAccess =>
    rw [expr_memberAccess hm]
    split
    next hr hn => exact .member hm hr hn
    next => exact .apart rfl rfl
  | cast =>
    rw [expr_cast hm]
    split
    next ht hv => exact .cast hm ht hv
    next => exact .apart rfl rfl
  | parenthesized =>
    rw [expr_parenthesized hm]
    split
    next hi => exact .paren hm hi
    next => exact .apart rfl rfl
  | lambda =>
    rw [expr_lambda hm]
    split
    next hb => exact .lambda hm hb
    next => exact .apart rfl rfl
  -- the other kinds are off the path, with their parts or without
  | binary =>
    obtain ⟨t, cs⟩ := n
    rw [expr, hm]
    dsimp only
    split <;> exact .apart rfl rfl
  | typeTest keyword =>
    obtain ⟨t, cs⟩ := n
    rw [expr, hm]
    dsimp only
    cases (first source (·.isIn "left") cs).or (first source (·.named) cs) <;>
      exact .apart rfl rfl
  | invocation | unary | await | elementAccess =>
    obtain ⟨t, cs⟩ := n
    rw [expr, hm]
    dsimp only
    cases first source _ cs <;> exact .apart rfl rfl
  | memberBinding | conditionalAccess | conditional | block | literal | other =>
    obtain ⟨t, cs⟩ := n
    rw [expr, hm]
    exact .apart rfl rfl

/-- An expression found at a node is inverted by cases on this. -/
theorem reading_of_eq {e : Expr} (h : expr source n = e) : Reading source n e :=
  h ▸ reading_expr source n

theorem Reading.span {e : Expr} (h : Reading source n e) : e.span = n.span := by
  cases h with
  | apart _ hs => exact hs
  | _ => rfl

theorem span_expr (source : String) (n : Node) : (expr source n).span = n.span :=
  (reading_expr source n).span

end Lowering

end SelectorCheck
