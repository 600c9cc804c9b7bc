import Mathlib.Data.List.Chain
import Mathlib.Data.List.Pairwise
import Mathlib.Logic.Function.Iterate
import SelectorCheck.Proofs.Places

/-
  The calls of a tree in source order.

  A loop over a stack of nodes pops a node and pushes its named children, the last one
  first. What it pops is the preorder of the tree: each node before its children, and
  siblings from left to right. `preorder` is that order by recursion on the tree. A node is
  named by its place, the indices of the children on the way to it, and the preorder has
  the node of every place once, in the lexicographic order of the places. In a tree whose
  ranges are nested and do not overlap the nodes then start one after the other.

  What is proved:
    1. `visit_eq_flatMap`, `getLast?_iterate_turn`: the pending list and the stack both give
       the preorder.
    2. `exists_enumerates`: the preorder goes through all places, each once.
    3. `pairwise_start_preorder`: the preorder follows the source.
    4. `calls_in_source_order`: which nodes the calls come from, and in which order.
-/

namespace SelectorCheck

namespace Node

/-! ## Two loops and a recursion -/

mutual
/-- The nodes that are reached through named children: a node, then its named children
from left to right, each with what is below it. -/
def preorder : Node → List Node
  | ⟨t, children⟩ => ⟨t, children⟩ :: preorderOf children

def preorderOf : List Node → List Node
  | [] => []
  | n :: rest => if n.named then n.preorder ++ preorderOf rest else preorderOf rest
end

theorem preorderOf_eq (ns : List Node) :
    preorderOf ns = (ns.filter (·.named)).flatMap preorder := by
  induction ns with
  | nil => rfl
  | cons n ns ih => cases h : n.named <;> simp [preorderOf, h, ih]

theorem preorder_eq (n : Node) : n.preorder = n :: n.namedChildren.flatMap preorder := by
  obtain ⟨t, children⟩ := n
  rw [preorder, preorderOf_eq]
  rfl

theorem visit_eq_flatMap (pending : List Node) : visit pending = pending.flatMap preorder := by
  fun_induction visit pending with
  | case1 => rfl
  | case2 n pending ih =>
    rw [ih, List.flatMap_cons, List.flatMap_append, preorder_eq n, List.cons_append]

theorem visit_singleton (n : Node) : visit [n] = n.preorder := by
  simp [visit_eq_flatMap]

/-- One turn of a loop over a stack with its top at the end: the top is popped, and its
named children are pushed in reverse order. -/
def turn (stack : List Node) : List Node :=
  match stack.getLast? with
  | none => []
  | some n => stack.dropLast ++ n.namedChildren.reverse

/-- The stack is the list of pending nodes in reverse. -/
theorem turn_reverse_cons (n : Node) (pending : List Node) :
    turn (n :: pending).reverse = (n.namedChildren ++ pending).reverse := by
  simp [turn]

theorem getLast?_iterate_turn (i : Nat) : ∀ pending : List Node,
    (turn^[i] pending.reverse).getLast? = (visit pending)[i]? := by
  induction i with
  | zero =>
    intro pending
    cases pending with
    | nil => simp [visit]
    | cons n pending => simp [visit]
  | succ i ih =>
    intro pending
    rw [Function.iterate_succ_apply]
    cases pending with
    | nil => simpa [turn, visit] using ih []
    | cons n pending => rw [turn_reverse_cons, ih, visit, List.getElem?_cons_succ]

/-! ## Places -/

/-- The node at a place: the indices of the named children on the way to it. -/
def nodeAt? (n : Node) : List Nat → Option Node
  | [] => some n
  | i :: place => n.namedChildren[i]?.bind (nodeAt? · place)

/-- The node at a place below some nodes, the first index telling which one. -/
def belowAt? (ns : List Node) : List Nat → Option Node
  | [] => none
  | i :: place => ns[i]?.bind (·.nodeAt? place)

/-- `places` are the places at which `look` finds a node, in order, and `found` are the
nodes there. -/
structure Enumerates (look : List Nat → Option Node) (places : List (List Nat))
    (found : List Node) : Prop where
  ascending : places.Pairwise (· < ·)
  complete : ∀ place, place ∈ places ↔ (look place).isSome
  found : places.map look = found.map some

/-- The place with its first index one further on. -/
def later : List Nat → List Nat
  | [] => []
  | i :: place => (i + 1) :: place

theorem later_eq_cons_iff {p q : List Nat} {j : Nat} :
    later p = j :: q ↔ ∃ i, p = i :: q ∧ j = i + 1 := by
  cases p with
  | nil => simp [later]
  | cons i p =>
    simp only [later, List.cons.injEq]
    grind

theorem later_lt_later {p q : List Nat} (h : p < q) : later p < later q := by
  cases q with
  | nil => exact absurd h (List.not_lt_nil p)
  | cons j q =>
    cases p with
    | nil => exact List.nil_lt_cons _ _
    | cons i p => simpa [later, List.cons_lt_cons_iff] using h

theorem belowAt?_later (n : Node) (ns : List Node) (place : List Nat) :
    belowAt? (n :: ns) (later place) = belowAt? ns place := by
  cases place <;> simp [belowAt?, later]

theorem Enumerates.nil_not_mem {ns : List Node} {places : List (List Nat)} {found : List Node}
    (h : Enumerates (belowAt? ns) places found) : [] ∉ places := by
  simp [h.complete, belowAt?]

theorem Enumerates.cons {n : Node} {ns : List Node} {ps qs : List (List Nat)} {found : List Node}
    (hn : Enumerates n.nodeAt? ps n.preorder) (hns : Enumerates (belowAt? ns) qs found) :
    Enumerates (belowAt? (n :: ns)) (ps.map (0 :: ·) ++ qs.map later) (n.preorder ++ found) where
  ascending := by
    rw [List.pairwise_append, List.pairwise_map, List.pairwise_map]
    refine ⟨hn.ascending.imp fun h => ?_, hns.ascending.imp later_lt_later, ?_⟩
    · simpa [List.cons_lt_cons_iff] using h
    · -- every place below the later nodes has a first index, and now that is not zero
      intro _ hfirst _ hrest
      obtain ⟨p, -, rfl⟩ := List.mem_map.mp hfirst
      obtain ⟨q, hq, rfl⟩ := List.mem_map.mp hrest
      cases q with
      | nil => exact absurd hq hns.nil_not_mem
      | cons j q => simp [later, List.cons_lt_cons_iff]
  complete place := by
    cases place with
    | nil =>
      have hnil : [] ∉ qs.map later := by
        intro h
        obtain ⟨q, hq, hlater⟩ := List.mem_map.mp h
        cases q with
        | nil => exact hns.nil_not_mem hq
        | cons j q => cases hlater
      simp [hnil, belowAt?]
    | cons j q =>
      cases j with
      | zero => simp [belowAt?, hn.complete, later_eq_cons_iff]
      | succ i => simp [belowAt?, hns.complete, later_eq_cons_iff]
  found := by
    have hfirst : belowAt? (n :: ns) ∘ (0 :: ·) = n.nodeAt? := by
      funext place
      simp [belowAt?]
    have hrest : belowAt? (n :: ns) ∘ later = belowAt? ns := funext (belowAt?_later n ns)
    rw [List.map_append, List.map_map, List.map_map, hfirst, hrest, hn.found, hns.found,
      List.map_append]

theorem exists_enumerates_below (ns : List Node)
    (h : ∀ c ∈ ns, ∃ places, Enumerates c.nodeAt? places c.preorder) :
    ∃ places, Enumerates (belowAt? ns) places (ns.flatMap preorder) := by
  induction ns with
  | nil => exact ⟨[], .nil, fun place => by cases place <;> simp [belowAt?], rfl⟩
  | cons n ns ih =>
    obtain ⟨ps, hps⟩ := h n List.mem_cons_self
    obtain ⟨qs, hqs⟩ := ih fun c hc => h c (List.mem_cons_of_mem n hc)
    exact ⟨_, hps.cons hqs⟩

/-- The preorder goes through the nodes of all places, in the order of the places. -/
theorem exists_enumerates (n : Node) : ∃ places, Enumerates n.nodeAt? places n.preorder := by
  induction n using induction_children with
  | step n ih =>
    obtain ⟨places, h⟩ := exists_enumerates_below n.namedChildren fun c hc =>
      ih c (List.mem_of_mem_filter hc)
    refine ⟨[] :: places, List.pairwise_cons.mpr ⟨?_, h.ascending⟩, ?_, ?_⟩
    · intro place hplace
      cases place with
      | nil => exact absurd hplace h.nil_not_mem
      | cons i place => exact List.nil_lt_cons i place
    · intro place
      cases place with
      | nil => simp [nodeAt?]
      | cons i place => simp [h.complete, nodeAt?, belowAt?]
    · -- away from the root, a place is looked up below the named children
      have hlook : places.map n.nodeAt? = places.map (belowAt? n.namedChildren) := by
        refine List.map_congr_left fun place hplace => ?_
        cases place with
        | nil => exact absurd hplace h.nil_not_mem
        | cons i place => rfl
      rw [List.map_cons, hlook, h.found, preorder_eq]
      rfl

/-! ## Ranges in order -/

/-- Children lie within the range of their parent, and each ends no later than the next
one starts. -/
structure Laid (root : Node) : Prop where
  within : ∀ n ∈ root.nodes, ∀ c ∈ n.children,
    n.start ≤ c.start ∧ c.start ≤ c.stop ∧ c.stop ≤ n.stop
  apart : ∀ n ∈ root.nodes, n.children.IsChain fun c d => c.stop ≤ d.start

instance (root : Node) : Decidable root.Laid :=
  decidable_of_iff
    ((∀ n ∈ root.nodes, ∀ c ∈ n.children,
        n.start ≤ c.start ∧ c.start ≤ c.stop ∧ c.stop ≤ n.stop) ∧
      ∀ n ∈ root.nodes, n.children.IsChain fun c d => c.stop ≤ d.start)
    ⟨fun h => ⟨h.1, h.2⟩, fun h => ⟨h.within, h.apart⟩⟩

theorem mem_nodes_of_mem_preorder {m n : Node} (h : m ∈ n.preorder) : m ∈ n.nodes := by
  rw [← visit_singleton] at h
  simpa [mem_nodesOf] using mem_nodesOf_of_mem_visit h

theorem pairwise_apart {ns : List Node} (hordered : ∀ c ∈ ns, c.start ≤ c.stop)
    (h : ns.IsChain fun c d => c.stop ≤ d.start) : ns.Pairwise fun c d => c.stop ≤ d.start := by
  induction ns with
  | nil => exact .nil
  | cons c ns ih =>
    have hrest := ih (fun d hd => hordered d (List.mem_cons_of_mem c hd)) h.tail
    refine List.pairwise_cons.mpr ⟨fun d hd => ?_, hrest⟩
    cases ns with
    | nil => cases hd
    | cons e ns =>
      have hce : c.stop ≤ e.start := (List.isChain_cons_cons.mp h).1
      rcases List.mem_cons.mp hd with rfl | hd
      · exact hce
      · have hee : e.start ≤ e.stop := hordered e (by simp)
        have hed : e.stop ≤ d.start := (List.pairwise_cons.mp hrest).1 d hd
        exact UInt64.le_trans hce (UInt64.le_trans hee hed)

namespace Laid
variable {root : Node} (h : root.Laid)
include h

theorem range_le {n m : Node} (hm : m ∈ root.nodes) (hn : n ∈ m.nodes) :
    m.start ≤ n.start ∧ n.stop ≤ m.stop :=
  Node.range_le (fun n hn c hc => ⟨(h.within n hn c hc).1, (h.within n hn c hc).2.2⟩) hm hn

theorem ordered {n c m : Node} (hn : n ∈ root.nodes) (hc : c ∈ n.children) (hm : m ∈ c.nodes) :
    m.start ≤ m.stop := by
  induction c using induction_children generalizing n with
  | step c ih =>
    rcases mem_nodes.mp hm with rfl | ⟨d, hd, hmd⟩
    · exact (h.within n hn m hc).2.1
    · have hcr : c ∈ root.nodes := mem_nodes_trans (mem_nodes_of_child hc (mem_nodes_self c)) hn
      exact ih d hd hcr hd hmd

theorem pairwise_start_preorder {n : Node} (hn : n ∈ root.nodes) :
    n.preorder.Pairwise fun x y => x.start ≤ y.start := by
  induction n using induction_children with
  | step n ih =>
    have hchild : ∀ c ∈ n.namedChildren, c ∈ n.children := fun c hc => List.mem_of_mem_filter hc
    have hroot : ∀ c ∈ n.namedChildren, c ∈ root.nodes := fun c hc =>
      mem_nodes_trans (mem_nodes_of_child (hchild c hc) (mem_nodes_self c)) hn
    have hapart : n.namedChildren.Pairwise fun c d => c.stop ≤ d.start :=
      (pairwise_apart (fun c hc => (h.within n hn c hc).2.1) (h.apart n hn)).filter _
    rw [preorder_eq, List.pairwise_cons, List.pairwise_flatMap]
    refine ⟨fun x hx => ?_, fun c hc => ih c (hchild c hc) (hroot c hc), ?_⟩
    · obtain ⟨c, hc, hx⟩ := List.mem_flatMap.mp hx
      have hxn := mem_nodes_of_child (hchild c hc) (mem_nodes_of_mem_preorder hx)
      exact (h.range_le hn hxn).1
    · refine hapart.imp_of_mem fun {c d} hc hd hcd x hx y hy => ?_
      have hx := mem_nodes_of_mem_preorder hx
      have hy := mem_nodes_of_mem_preorder hy
      -- x is below c, and y below d: x starts, x ends, c ends, d starts, y starts
      calc x.start ≤ x.stop := h.ordered hn (hchild c hc) hx
        _ ≤ c.stop := (h.range_le (hroot c hc) hx).2
        _ ≤ d.start := hcd
        _ ≤ y.start := (h.range_le (hroot d hd) hy).1

end Laid

/-! ## Calls -/

theorem meaning_invocation_iff {t : Token} :
    t.meaning = .invocation ↔ t.kind = "invocation_expression" := by
  constructor
  · intro h
    unfold Token.meaning NodeKind.ofText at h
    split at h
    case h_11 hk => exact hk
    case h_22 => split at h <;> cases h
    all_goals cases h
  · intro h
    rw [Token.meaning, h]
    rfl

theorem kind_of_watchedCall? {methods : MethodTable} {source : String} {n : Node} {c : Call}
    (h : n.watchedCall? methods source = some c) : n.kind = "invocation_expression" := by
  rw [← meaning_invocation_iff]
  unfold watchedCall? watchedName? at h
  by_contra hn
  simp [hn] at h

theorem calls_eq_filterMap_preorder (methods : MethodTable) (source : String) (root : Node) :
    root.calls methods source =
      (root.preorder.filter (·.kind == "invocation_expression")).filterMap
        (watchedCall? methods source) := by
  rw [calls, visit_singleton, List.filterMap_filter]
  refine List.filterMap_congr fun n _ => ?_
  cases hcall : n.watchedCall? methods source with
  | none => simp
  | some c => simp [kind_of_watchedCall? hcall]

/-- **The calls of a tree are found once each, in source order.** A loop over a stack that
starts with the root pops the preorder of the tree, node by node, and stops after it. The
calls are what the invocations among these nodes give, in this order, and no node is left
out because of what is around it: the preorder has the node of every place once, in the
order of the places. If children lie within their parents and end before the next one
starts, the calls start one after the other. -/
theorem calls_in_source_order (methods : MethodTable) (source : String) (root : Node) :
    (∀ i, (turn^[i] [root]).getLast? = root.preorder[i]?) ∧
    root.calls methods source =
      (root.preorder.filter (·.kind == "invocation_expression")).filterMap
        (watchedCall? methods source) ∧
    (∃ places, Enumerates root.nodeAt? places root.preorder) ∧
    (root.Laid →
      (root.calls methods source).Pairwise fun c d => c.span.offset ≤ d.span.offset) := by
  refine ⟨fun i => ?_, calls_eq_filterMap_preorder methods source root, exists_enumerates root, ?_⟩
  · rw [← visit_singleton]
    exact getLast?_iterate_turn i [root]
  · intro h
    rw [calls, visit_singleton, List.pairwise_filterMap]
    refine (h.pairwise_start_preorder (mem_nodes_self root)).imp fun {x y} hxy c hc d hd => ?_
    rw [(watchedCall?_reads hc).2, (watchedCall?_reads hd).2]
    exact hxy

/-- The tree of the argument list `(x => x.M)`, at a place of a line. -/
def selectorList (start : UInt64) : Node :=
  .onLine "argument_list" (some "arguments") start (start + 10)
    [.mark "(" start (start + 1),
     .onLine "argument" none (start + 1) (start + 9)
      [.onLine "lambda_expression" none (start + 1) (start + 9)
        [.onLine "implicit_parameter" (some "parameters") (start + 1) (start + 2) [],
         .mark "=>" (start + 3) (start + 5),
         .onLine "member_access_expression" (some "body") (start + 6) (start + 9)
          [.onLine "identifier" (some "expression") (start + 6) (start + 7) [],
           .mark "." (start + 7) (start + 8),
           .onLine "identifier" (some "name") (start + 8) (start + 9) []]]],
     .mark ")" (start + 9) (start + 10)]

/-- The tree of `Wrap(map.Ignore(a => a.B).Ignore(c => c.D))`. -/
def fluentTree : Node :=
  .onLine "invocation_expression" none 0 43
    [.onLine "identifier" (some "function") 0 4 [],
     .onLine "argument_list" (some "arguments") 4 43
      [.mark "(" 4 5,
       .onLine "argument" none 5 42
        [.onLine "invocation_expression" none 5 42
          [.onLine "member_access_expression" (some "function") 5 32
            [.onLine "invocation_expression" (some "expression") 5 25
              [.onLine "member_access_expression" (some "function") 5 15
                [.onLine "identifier" (some "expression") 5 8 [], .mark "." 8 9,
                 .onLine "identifier" (some "name") 9 15 []],
               selectorList 15],
             .mark "." 25 26, .onLine "identifier" (some "name") 26 32 []],
           selectorList 32]],
       .mark ")" 42 43]]

def fluentSource : String := "Wrap(map.Ignore(a => a.B).Ignore(c => c.D))"

/-- The two calls of the chain start at one place, and the outer one comes first. Both are
found although the call around them is not watched. -/
theorem calls_in_source_order_fluent :
    fluentTree.Laid ∧
      (fluentTree.calls .standard fluentSource).map (fun c => (c.span.offset, c.span.length)) =
        [(5, 37), (5, 20)] ∧
      (fluentTree.calls .standard fluentSource).Pairwise
        fun c d => c.span.offset ≤ d.span.offset := by
  have hlaid : fluentTree.Laid := by decide +kernel
  obtain ⟨_, hcalls, _, hsorted⟩ := calls_in_source_order .standard fluentSource fluentTree
  refine ⟨hlaid, ?_, hsorted hlaid⟩
  rw [hcalls]
  decide +kernel

end Node

end SelectorCheck
