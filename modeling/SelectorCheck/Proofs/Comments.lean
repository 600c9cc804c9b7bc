import SelectorCheck.Analyzer
import SelectorCheck.Proofs.Reading

/-
  Comments in syntax trees.

  A comment is a named node that may stand between any two children. Parts that are
  looked up by field or by kind are found past it; parts that are taken by their order
  alone are not: the first named child in parentheses, the last named child of an
  argument, and a few more (`Node.takenByOrder`). A comment in such a place is taken
  for the part itself.

  What is proved:
    1. `Strips.find?`, `Strips.head?`, `Strips.getLast?`: lookups in children without
       some of their comments, as long as no comment is what is looked up.
    2. `expr_eq_of_sameBelow`, `sameBelow_of_commentsAside`: one step from the nodes
       below a node to the node, and from it all expressions of a tree.
    3. `visit_filterMap_eq`: what a visit collects does not depend on comments.
    4. `violations_eq_of_comments_aside`: if no comment in the arguments of a watched
       call is taken by its order, calls and violations are the same without comments.
    5. `classify_of_comment_first`: a comment first in the parentheses around a body
       makes any selector unusable. So the condition in 4 is needed.
-/

namespace SelectorCheck

namespace Node

/-- A comment: a named leaf that stands in no field. -/
def isComment (n : Node) : Bool :=
  n.named && n.kind == "comment" && n.field == none && n.children.isEmpty

/-- `Strips ns ns'`: the trees `ns'` are the trees `ns` without some of their comments,
at any depth. All the other nodes stay as they are. -/
inductive Strips : List Node → List Node → Prop
  | nil : Strips [] []
  | keep {t : Token} {cs cs' ns ns' : List Node} : Strips cs cs' → Strips ns ns' →
      Strips (⟨t, cs⟩ :: ns) (⟨t, cs'⟩ :: ns')
  | drop {n : Node} {ns ns' : List Node} : n.isComment = true → Strips ns ns' →
      Strips (n :: ns) ns'

/-- `n.Sheds n'`: the tree `n'` is `n` without some of the comments in it. -/
structure Sheds (n n' : Node) : Prop where
  token : n.toToken = n'.toToken
  children : Strips n.children n'.children

/-- The children that the reader of a node takes by their order alone. -/
def takenByOrder (n : Node) : List Node :=
  (match n.meaning with
    | .parenthesized | .unary | .await => n.firstNamed?.toList
    | .typeTest _ => if (n.child? "left").isSome then [] else n.firstNamed?.toList
    | .lambda => if (n.child? "body").isSome then [] else n.namedChildren.getLast?.toList
    | _ => []) ++
  if n.kind = "argument" then
    (n.children.filter Lowering.isArgumentValue).getLast?.toList ++
      if (n.children.find? (·.kind == "name_colon")).isNone && (n.child? "name").isNone &&
        n.children.any (·.kind == ":") then n.children.take 2
      else []
  else []

/-- No comment in the tree is taken for a part by its order. -/
def CommentsAside (root : Node) : Prop :=
  ∀ n ∈ root.nodes, ∀ c ∈ n.takenByOrder, c.isComment = false

instance (root : Node) : Decidable root.CommentsAside :=
  inferInstanceAs (Decidable (∀ n ∈ root.nodes, ∀ c ∈ n.takenByOrder, c.isComment = false))

/-! ## Lookups past comments -/

theorem isComment_iff {n : Node} :
    n.isComment = true ↔
      n.named = true ∧ n.kind = "comment" ∧ n.field = none ∧ n.children = [] := by
  simp [isComment, and_assoc]

theorem meaning_of_isComment {c : Node} (hc : c.isComment = true) : c.meaning = .other := by
  rw [Token.meaning, (isComment_iff.mp hc).2.1]
  decide

namespace Strips

variable {ns ns' : List Node}

theorem append {ms ms' : List Node} (h : Strips ns ns') (hm : Strips ms ms') :
    Strips (ns ++ ms) (ns' ++ ms') := by
  induction h with
  | nil => exact hm
  | keep hc _ _ ih => exact .keep hc ih
  | drop hn _ ih => exact .drop hn ih

theorem refl (ns : List Node) : Strips ns ns := by
  have hlist : ∀ ns : List Node, (∀ n ∈ ns, Strips n.children n.children) → Strips ns ns := by
    intro ns h
    induction ns with
    | nil => exact .nil
    | cons n ns ih =>
      have hrest := ih fun m hm => h m (List.mem_cons_of_mem n hm)
      obtain ⟨t, cs⟩ := n
      exact .keep (h ⟨t, cs⟩ List.mem_cons_self) hrest
  apply hlist
  intro n hn
  clear hn
  induction n using induction_children with
  | step n ih => exact hlist n.children ih

theorem filter {p : Node → Bool} (h : Strips ns ns') (hp : ∀ t cs cs', p ⟨t, cs⟩ = p ⟨t, cs'⟩) :
    Strips (ns.filter p) (ns'.filter p) := by
  induction h with
  | nil => exact .nil
  | @keep t cs cs' ns ns' hc _ _ ih =>
    cases hpt : p ⟨t, cs'⟩ with
    | true => simpa [hp t cs cs', hpt] using Strips.keep hc ih
    | false => simpa [hp t cs cs', hpt] using ih
  | @drop n ns ns' hn _ ih =>
    cases hpn : p n with
    | true => simpa [hpn] using Strips.drop hn ih
    | false => simpa [hpn] using ih

theorem reverse (h : Strips ns ns') : Strips ns.reverse ns'.reverse := by
  induction h with
  | nil => exact .nil
  | keep hc _ _ ih =>
    rw [List.reverse_cons, List.reverse_cons]
    exact ih.append (.keep hc .nil)
  | drop hn _ ih =>
    rw [List.reverse_cons]
    simpa using ih.append (.drop hn .nil)

theorem head? (h : Strips ns ns') (hfirst : ∀ c ∈ ns.head?, c.isComment = false) :
    Option.Rel Sheds ns.head? ns'.head? := by
  cases h with
  | nil => exact .none
  | keep hc _ => exact .some ⟨rfl, hc⟩
  | drop hn _ =>
    have hn' := hfirst _ rfl
    rw [hn] at hn'
    cases hn'

theorem getLast? (h : Strips ns ns') (hlast : ∀ c ∈ ns.getLast?, c.isComment = false) :
    Option.Rel Sheds ns.getLast? ns'.getLast? := by
  rw [List.getLast?_eq_head?_reverse] at hlast ⊢
  rw [List.getLast?_eq_head?_reverse]
  exact h.reverse.head? hlast

theorem isComment_of_mem (h : Strips ns []) : ∀ c ∈ ns, c.isComment = true := by
  generalize hns' : [] = ns' at h
  induction h with
  | nil => simp
  | keep => cases hns'
  | drop hn _ ih =>
    intro c hc
    rcases List.mem_cons.mp hc with rfl | hc
    · exact hn
    · exact ih hns' c hc

theorem find? {p : Node → Bool} (h : Strips ns ns') (hp : ∀ t cs cs', p ⟨t, cs⟩ = p ⟨t, cs'⟩)
    (hcomment : ∀ c : Node, c.isComment = true → p c = false) :
    Option.Rel Sheds (ns.find? p) (ns'.find? p) := by
  rw [← List.head?_filter, ← List.head?_filter]
  refine (h.filter hp).head? fun c hc => ?_
  have hpc : p c = true := (List.mem_filter.mp (List.mem_of_head? hc)).2
  cases hcom : c.isComment with
  | false => rfl
  | true =>
    rw [hcomment c hcom] at hpc
    cases hpc

theorem find?_kind (h : Strips ns ns') {kind : String} (hk : kind ≠ "comment") :
    Option.Rel Sheds (ns.find? (·.kind == kind)) (ns'.find? (·.kind == kind)) := by
  refine h.find? (fun _ _ _ => rfl) fun c hc => ?_
  simp [(isComment_iff.mp hc).2.1, hk.symm]

theorem any_eq {p : Node → Bool} (h : Strips ns ns') (hp : ∀ t cs cs', p ⟨t, cs⟩ = p ⟨t, cs'⟩)
    (hcomment : ∀ c : Node, c.isComment = true → p c = false) : ns.any p = ns'.any p := by
  induction h with
  | nil => rfl
  | @keep t cs cs' _ _ _ _ _ ih => rw [List.any_cons, List.any_cons, hp t cs cs', ih]
  | drop hn _ ih => rw [List.any_cons, hcomment _ hn, Bool.false_or, ih]

theorem filterMap_eq {α : Type} {f : Node → Option α} (h : Strips ns ns')
    (hcomment : ∀ c : Node, c.isComment = true → f c = none)
    (hf : ∀ n n', n.Sheds n' → f n = f n') : ns.filterMap f = ns'.filterMap f := by
  induction h with
  | nil => rfl
  | @keep t cs cs' _ _ hc _ _ ih =>
    rw [List.filterMap_cons, List.filterMap_cons, hf ⟨t, cs⟩ ⟨t, cs'⟩ ⟨rfl, hc⟩, ih]
  | drop hn _ ih => rw [List.filterMap_cons, hcomment _ hn, ih]

theorem firstIdentifier? (h : Strips ns ns') :
    Option.Rel Sheds (Lowering.firstIdentifier? ns) (Lowering.firstIdentifier? ns') := by
  refine h.find? (fun _ _ _ => rfl) fun c hc => ?_
  simp [Lowering.isIdentifier, (isComment_iff.mp hc).2.1]

end Strips

namespace Sheds

variable {n n' : Node} {source : String}

theorem meaning (h : n.Sheds n') : n.meaning = n'.meaning := by rw [h.token]

theorem child? (h : n.Sheds n') (field : String) :
    Option.Rel Sheds (n.child? field) (n'.child? field) := by
  refine h.children.find? (fun _ _ _ => rfl) fun c hc => ?_
  simp [Token.isIn, (isComment_iff.mp hc).2.2.1]

theorem namedChildren (h : n.Sheds n') : Strips n.namedChildren n'.namedChildren :=
  h.children.filter fun _ _ _ => rfl

end Sheds

theorem rel_or {a a' b b' : Option Node} (ha : Option.Rel Sheds a a')
    (hb : Option.Rel Sheds b b') : Option.Rel Sheds (a.or b) (a'.or b') := by
  cases ha with
  | none => exact hb
  | some h => exact .some h

theorem map_eq_of_rel {α : Type} {f : Node → α} {o o' : Option Node}
    (h : Option.Rel Sheds o o') (hf : ∀ n n', o = some n → n.Sheds n' → f n = f n') :
    o.map f = o'.map f := by
  cases h with
  | none => rfl
  | some h => simp [hf _ _ rfl h]

end Node

namespace Lowering

open Node

variable {source : String} {n n' : Node}

theorem text_eq_of_sheds (h : n.Sheds n') : n.text source = n'.text source := by rw [h.token]

theorem simpleName_eq_of_sheds (h : n.Sheds n') : simpleName source n = simpleName source n' := by
  have hid := h.children.firstIdentifier?
  unfold simpleName
  rw [h.meaning, text_eq_of_sheds h]
  generalize firstIdentifier? n.children = o, firstIdentifier? n'.children = o' at hid ⊢
  cases hid with
  | none => rfl
  | some hid => cases n'.meaning <;> simp [text_eq_of_sheds hid]

theorem parameterName?_eq_of_sheds (h : n.Sheds n') :
    parameterName? source n = parameterName? source n' := by
  have hname : (n.child? "name").map (·.text source) = (n'.child? "name").map (·.text source) :=
    map_eq_of_rel (h.child? "name") fun _ _ _ h => text_eq_of_sheds h
  unfold parameterName? isBareParameter
  rw [hname, h.token]

theorem parameterNames_eq_of_sheds (h : n.Sheds n') :
    parameterNames source n.children = parameterNames source n'.children := by
  have hlist := rel_or (h.child? "parameters") (h.child? "parameter")
  rw [parameterNames_eq, parameterNames_eq]
  generalize (n.child? "parameters").or (n.child? "parameter") = o,
    (n'.child? "parameters").or (n'.child? "parameter") = o' at hlist ⊢
  cases hlist with
  | none => rfl
  | @some f f' hf =>
    have hnames : f.namedChildren.filterMap (parameterName? source) =
        f'.namedChildren.filterMap (parameterName? source) := by
      refine hf.namedChildren.filterMap_eq (fun c hc => ?_) fun _ _ h =>
        parameterName?_eq_of_sheds h
      simp [parameterName?, isBareParameter, (isComment_iff.mp hc).2.1]
    have hbare : isBareParameter f = isBareParameter f' := by
      unfold isBareParameter
      rw [hf.token]
    simp only [hnames, hbare, text_eq_of_sheds hf]

theorem unaryOperator_eq_of_sheds (h : n.Sheds n') :
    unaryOperator source n.children = unaryOperator source n'.children := by
  have hop : Option.Rel Sheds (n.children.find? fun c => !c.named)
      (n'.children.find? fun c => !c.named) := by
    refine h.children.find? (fun _ _ _ => rfl) fun c hc => ?_
    simp [(isComment_iff.mp hc).1]
  unfold unaryOperator
  generalize n.children.find? (fun c => !c.named) = o,
    n'.children.find? (fun c => !c.named) = o' at hop ⊢
  cases hop with
  | none => rfl
  | some h => exact text_eq_of_sheds h

/-! ## Arguments -/

theorem mem_takenByOrder_value {a : Node} (hk : a.kind = "argument") {c : Node}
    (hc : c ∈ (a.children.filter isArgumentValue).getLast?) : c ∈ a.takenByOrder := by
  simp [takenByOrder, hk, Option.mem_def.mp hc]

theorem mem_takenByOrder_name {a : Node} (hk : a.kind = "argument")
    (hmarker : a.children.find? (·.kind == "name_colon") = none)
    (hname : a.child? "name" = none) (hcolon : a.children.any (·.kind == ":") = true) {c : Node}
    (hc : c ∈ a.children.take 2) : c ∈ a.takenByOrder := by
  simp [takenByOrder, hk, hmarker, hname, hcolon, hc]

/-- The name that the members of an argument start with, if a colon follows it. -/
def beforeColon? (source : String) : List Node → Option String
  | first :: colon :: _ :: _ =>
    if isIdentifier first && colon.kind == ":" then some (first.text source) else none
  | _ => none

theorem argumentName?_eq (source : String) (n : Node) :
    argumentName? source n.children =
      match n.children.find? (·.kind == "name_colon"), n.child? "name" with
      | some marker, _ => (firstIdentifier? marker.children).map (·.text source)
      | none, some name => some (name.text source)
      | none, none => beforeColon? source n.children := by
  unfold argumentName? Node.child?
  cases n.children.find? (·.kind == "name_colon") with
  | some marker => rfl
  | none => cases inField? "name" n.children <;> rfl

theorem isArgumentValue_of_isComment {c : Node} (hc : c.isComment = true) :
    isArgumentValue c = true := by
  obtain ⟨hnamed, hkind, _⟩ := isComment_iff.mp hc
  simp [isArgumentValue, hnamed, hkind]

/-- If the last value is no comment, something after the first two members is left of
whatever stood there. -/
theorem left_of_value_not_comment {a b : Node} {rest : List Node} (h : Strips rest [])
    (hvalue : ∀ c ∈ ((a :: b :: rest).filter isArgumentValue).getLast?, c.isComment = false) :
    rest = [] := by
  cases rest with
  | nil => rfl
  | cons x xs =>
    -- all that is dropped are comments, and the last of them would be the value
    have hself : (x :: xs).filter isArgumentValue = x :: xs :=
      List.filter_eq_self.mpr fun c hc => isArgumentValue_of_isComment (h.isComment_of_mem c hc)
    obtain ⟨z, hz⟩ : ∃ z, (x :: xs).getLast? = some z := ⟨_, List.getLast?_cons⟩
    have hlast : ((a :: b :: x :: xs).filter isArgumentValue).getLast? = some z := by
      rw [show a :: b :: x :: xs = [a, b] ++ (x :: xs) from rfl, List.filter_append, hself,
        List.getLast?_append, hz]
      rfl
    have hcom := h.isComment_of_mem z (List.mem_of_getLast? hz)
    rw [hvalue z hlast] at hcom
    cases hcom

theorem beforeColon?_eq_none {cs : List Node} (h : cs.any (·.kind == ":") = false) :
    beforeColon? source cs = none := by
  unfold beforeColon?
  split
  next first colon _ _ => simp_all
  next => rfl

/-- The name before a colon is kept with the first two members. -/
theorem beforeColon_eq_of_strips {cs cs' : List Node} (h : Strips cs cs')
    (hfirst : ∀ c ∈ cs.take 2, c.isComment = false)
    (hvalue : ∀ c ∈ (cs.filter isArgumentValue).getLast?, c.isComment = false) :
    beforeColon? source cs = beforeColon? source cs' := by
  have hkept : ∀ {c : Node}, c.isComment = true → c ∈ cs.take 2 → False := by
    intro c hc hmem
    rw [hfirst c hmem] at hc
    cases hc
  cases h with
  | nil => rfl
  | drop hn _ => exact (hkept hn (by simp)).elim
  | keep _ h =>
    cases h with
    | nil => rfl
    | drop hn _ => exact (hkept hn (by simp)).elim
    | @keep _ _ _ rest rest' _ h =>
      cases rest' with
      | nil =>
        obtain rfl := left_of_value_not_comment h hvalue
        rfl
      | cons y ys =>
        cases rest with
        | nil => cases h
        | cons x xs => rfl

theorem argumentName?_eq_of_sheds (h : n.Sheds n') (hk : n.kind = "argument")
    (haside : ∀ c ∈ n.takenByOrder, c.isComment = false) :
    argumentName? source n.children = argumentName? source n'.children := by
  have hmarker : Option.Rel Sheds (n.children.find? (·.kind == "name_colon"))
      (n'.children.find? (·.kind == "name_colon")) := h.children.find?_kind (by decide)
  have hname := h.child? "name"
  have hany : n.children.any (·.kind == ":") = n'.children.any (·.kind == ":") := by
    refine h.children.any_eq (fun _ _ _ => rfl) fun c hc => ?_
    simp [(isComment_iff.mp hc).2.1]
  -- without a marker and a field the first two members decide, and if there is a colon
  -- they are kept
  have hcolon : n.children.find? (·.kind == "name_colon") = none → n.child? "name" = none →
      beforeColon? source n.children = beforeColon? source n'.children := by
    intro hm hn
    cases hc : n.children.any (·.kind == ":") with
    | true =>
      exact beforeColon_eq_of_strips h.children
        (fun c hmem => haside c (mem_takenByOrder_name hk hm hn hc hmem))
        (fun c hmem => haside c (mem_takenByOrder_value hk hmem))
    | false => rw [beforeColon?_eq_none hc, beforeColon?_eq_none (hany ▸ hc)]
  rw [argumentName?_eq, argumentName?_eq]
  generalize n.children.find? (·.kind == "name_colon") = m,
    n'.children.find? (·.kind == "name_colon") = m' at hmarker hcolon ⊢
  generalize n.child? "name" = o, n'.child? "name" = o' at hname hcolon ⊢
  cases hmarker with
  | some hm =>
    exact map_eq_of_rel hm.children.firstIdentifier? fun _ _ _ h => text_eq_of_sheds h
  | none =>
    cases hname with
    | some hn => exact congrArg some (text_eq_of_sheds hn)
    | none => exact hcolon rfl rfl

theorem arguments_eq_of_strips {members members' : List Node} (h : Strips members members')
    (haside : ∀ a ∈ members, ∀ c ∈ a.takenByOrder, c.isComment = false)
    (hvalue : ∀ a ∈ members, ∀ v ∈ a.children, ∀ v', v.Sheds v' → expr source v = expr source v')
    (position : Nat) :
    arguments source position members = arguments source position members' := by
  induction h generalizing position with
  | nil => rfl
  | @keep t cs cs' ns ns' hc hns _ ih =>
    have ih := ih (fun a ha => haside a (List.mem_cons_of_mem _ ha))
      (fun a ha => hvalue a (List.mem_cons_of_mem _ ha))
    by_cases hk : t.kind = "argument"
    · have haside := haside ⟨t, cs⟩ List.mem_cons_self
      have hlast : last source isArgumentValue cs = last source isArgumentValue cs' := by
        rw [last_eq, last_eq]
        refine map_eq_of_rel ((hc.filter fun _ _ _ => rfl).getLast? fun c hc =>
          haside c (mem_takenByOrder_value hk hc)) fun v v' hv hs => ?_
        exact hvalue ⟨t, cs⟩ List.mem_cons_self v
          (List.mem_filter.mp (List.mem_of_getLast? hv)).1 v' hs
      have hsheds : Sheds ⟨t, cs⟩ ⟨t, cs'⟩ := ⟨rfl, hc⟩
      have hname : argumentName? source cs = argumentName? source cs' :=
        argumentName?_eq_of_sheds hsheds hk haside
      simp only [arguments, hlast, hname, ih]
    · simp [arguments, hk, ih]
  | @drop n ns ns' hn hns ih =>
    obtain ⟨t, cs⟩ := n
    have hk : t.kind = "comment" := (isComment_iff.mp hn).2.1
    rw [← ih (fun a ha => haside a (List.mem_cons_of_mem _ ha))
      (fun a ha => hvalue a (List.mem_cons_of_mem _ ha)) position]
    simp [arguments, hk]

/-! ## Expressions -/

/-- The nodes below a node have the same expressions without comments. -/
def SameBelow (source : String) (n : Node) : Prop :=
  ∀ c ∈ n.children, ∀ d ∈ c.nodes, ∀ d', d.Sheds d' → expr source d = expr source d'

theorem listed_eq_of_sheds (h : n.Sheds n')
    (haside : ∀ l ∈ n.child? "arguments", l.CommentsAside)
    (hbelow : ∀ l ∈ n.child? "arguments", SameBelow source l) :
    listed source n.children = listed source n'.children := by
  have hlist := h.child? "arguments"
  unfold Node.child? at hlist haside hbelow
  rw [listed_eq, listed_eq]
  generalize inField? "arguments" n.children = o, inField? "arguments" n'.children = o'
    at hlist haside hbelow ⊢
  cases hlist with
  | none => rfl
  | @some l l' hl =>
    have hmembers : ∀ a ∈ l.children, ∀ c ∈ a.takenByOrder, c.isComment = false := fun a ha =>
      haside l rfl a (mem_nodes_of_child ha (mem_nodes_self a))
    refine arguments_eq_of_strips hl.children hmembers ?_ 0
    intro a ha v hv v' hs
    exact hbelow l rfl a ha v (mem_nodes_of_child hv (mem_nodes_self v)) v' hs

namespace SameBelow

theorem child {c c' : Node} (hb : SameBelow source n) (hc : c ∈ n.children) (h : c.Sheds c') :
    expr source c = expr source c' :=
  hb c hc c (mem_nodes_self c) c' h

theorem of_child {c : Node} (hb : SameBelow source n) (hc : c ∈ n.children) :
    SameBelow source c :=
  fun _ hd _ he => hb c hc _ (mem_nodes_of_child hd he)

theorem first_field_eq (hb : SameBelow source n) (h : n.Sheds n') (field : String) :
    first source (·.isIn field) n.children = first source (·.isIn field) n'.children := by
  rw [first_field, first_field]
  exact map_eq_of_rel (h.child? field) fun c c' hc hs => hb.child (child?_mem hc) hs

theorem first_named_eq (hb : SameBelow source n) (h : n.Sheds n')
    (hfirst : ∀ c ∈ n.firstNamed?, c.isComment = false) :
    first source (·.named) n.children = first source (·.named) n'.children := by
  rw [first_named, first_named]
  exact map_eq_of_rel (h.namedChildren.head? hfirst) fun c c' hc hs =>
    hb.child (firstNamed?_mem hc) hs

theorem last_named_eq (hb : SameBelow source n) (h : n.Sheds n')
    (hlast : ∀ c ∈ n.namedChildren.getLast?, c.isComment = false) :
    last source (·.named) n.children = last source (·.named) n'.children := by
  rw [last_eq, last_eq]
  exact map_eq_of_rel (h.namedChildren.getLast? hlast) fun c c' hc hs =>
    hb.child (List.mem_filter.mp (List.mem_of_getLast? hc)).1 hs

/-- The order counts only if the field is empty. -/
theorem field_or_eq (hb : SameBelow source n) (h : n.Sheds n') {field : String}
    {byOrder byOrder' : Option Expr} (ho : n.child? field = none → byOrder = byOrder') :
    (first source (·.isIn field) n.children).or byOrder =
      (first source (·.isIn field) n'.children).or byOrder' := by
  rw [← hb.first_field_eq h field, first_field]
  cases hf : n.child? field with
  | none => rw [ho hf]
  | some c => rfl

end SameBelow

theorem mem_takenByOrder_first
    (hm : n.meaning = .parenthesized ∨ n.meaning = .unary ∨ n.meaning = .await) {c : Node}
    (hc : c ∈ n.firstNamed?) : c ∈ n.takenByOrder := by
  rcases hm with hm | hm | hm <;> simp [takenByOrder, hm, Option.mem_def.mp hc]

theorem mem_takenByOrder_left {keyword : String} (hm : n.meaning = .typeTest keyword)
    (hleft : n.child? "left" = none) {c : Node} (hc : c ∈ n.firstNamed?) :
    c ∈ n.takenByOrder := by
  simp [takenByOrder, hm, hleft, Option.mem_def.mp hc]

theorem mem_takenByOrder_body (hm : n.meaning = .lambda) (hbody : n.child? "body" = none)
    {c : Node} (hc : c ∈ n.namedChildren.getLast?) : c ∈ n.takenByOrder := by
  simp [takenByOrder, hm, hbody, Option.mem_def.mp hc]

/-- One step: the expression of a node is the same if those below it are. -/
theorem expr_eq_of_sameBelow (h : n.Sheds n') (haside : n.CommentsAside)
    (hb : SameBelow source n) : expr source n = expr source n' := by
  have hself := haside n (mem_nodes_self n)
  -- what the kinds below read: by field, or by order where the order finds no comment
  have hfield := hb.first_field_eq h
  have hfirst : n.meaning = .parenthesized ∨ n.meaning = .unary ∨ n.meaning = .await →
      first source (·.named) n.children = first source (·.named) n'.children := fun hm =>
    hb.first_named_eq h fun c hc => hself c (mem_takenByOrder_first hm hc)
  have hleft : ∀ keyword, n.meaning = .typeTest keyword →
      (first source (·.isIn "left") n.children).or (first source (·.named) n.children) =
        (first source (·.isIn "left") n'.children).or (first source (·.named) n'.children) :=
    fun _ hm => hb.field_or_eq h fun hnone =>
      hb.first_named_eq h fun c hc => hself c (mem_takenByOrder_left hm hnone hc)
  have hbody : n.meaning = .lambda →
      (first source (·.isIn "body") n.children).or (last source (·.named) n.children) =
        (first source (·.isIn "body") n'.children).or (last source (·.named) n'.children) :=
    fun hm => hb.field_or_eq h fun hnone =>
      hb.last_named_eq h fun c hc => hself c (mem_takenByOrder_body hm hnone hc)
  have hlisted : listed source n.children = listed source n'.children :=
    listed_eq_of_sheds h
      (fun l hl m hm => haside m (mem_nodes_of_child (child?_mem hl) hm))
      (fun l hl => hb.of_child (child?_mem hl))
  have hparameters : parameterNames source n.children = parameterNames source n'.children :=
    parameterNames_eq_of_sheds h
  have hoperator : unaryOperator source n.children = unaryOperator source n'.children :=
    unaryOperator_eq_of_sheds h
  have hname : simpleName source n = simpleName source n' := simpleName_eq_of_sheds h
  have hchild := h.child?
  obtain ⟨t, cs⟩ := n
  obtain ⟨t', cs'⟩ := n'
  obtain rfl : t = t' := h.token
  dsimp only [Node.child?] at hfield hfirst hleft hbody hlisted hparameters hoperator hchild
  rw [expr, expr]
  cases hm : t.meaning with
  | genericName => simp only [hname]
  | memberAccess =>
    have hname := hchild "name"
    simp only [hfield]
    generalize inField? "name" cs = o, inField? "name" cs' = o' at hname ⊢
    cases hname with
    | none => rfl
    | some hs =>
      cases first source (·.isIn "expression") cs' <;> simp only [simpleName_eq_of_sheds hs]
  | cast =>
    have htype := hchild "type"
    simp only [hfield]
    generalize inField? "type" cs = o, inField? "type" cs' = o' at htype ⊢
    cases htype with
    | none => rfl
    | some hs => cases first source (·.isIn "value") cs' <;> simp only [text_eq_of_sheds hs]
  | binary =>
    have hop := hchild "operator"
    simp only [hfield]
    generalize inField? "operator" cs = o, inField? "operator" cs' = o' at hop ⊢
    cases hop with
    | none => rfl
    | some hs =>
      cases first source (·.isIn "left") cs' <;> cases first source (·.isIn "right") cs' <;>
        simp only [text_eq_of_sheds hs]
  | invocation => simp only [hfield, hlisted]
  | elementAccess => simp only [hfield]
  | parenthesized => simp only [hfirst (.inl hm)]
  | unary => simp only [hfirst (.inr (.inl hm)), hoperator]
  | await => simp only [hfirst (.inr (.inr hm))]
  | typeTest keyword => simp only [hleft keyword hm]
  | lambda => simp only [hbody hm, hparameters]
  | identifier | memberBinding | conditionalAccess | conditional | block | literal | other => rfl

theorem sameBelow_of_commentsAside (h : n.CommentsAside) : SameBelow source n := by
  induction n using induction_children with
  | step n ih =>
    -- a child by the step, and what is below a child by induction
    intro c hc d hd d' hs
    have hc' : c.CommentsAside := fun m hm => h m (mem_nodes_of_child hc hm)
    rcases mem_nodes.mp hd with rfl | ⟨e, he, hd⟩
    · exact expr_eq_of_sameBelow hs hc' (ih d hc hc')
    · exact ih c hc hc' e he d hd d' hs

end Lowering

/-! ## Calls -/

namespace Node

variable {methods : MethodTable} {source : String} {n n' : Node}

/-- A visit collects the same, if comments have nothing to collect and the nodes that
are left give what they gave. -/
theorem visit_filterMap_eq {α : Type} {f : Node → Option α} {ns ns' : List Node}
    (h : Strips ns ns') (hcomment : ∀ c : Node, c.isComment = true → f c = none)
    (hf : ∀ m ∈ nodesOf ns, ∀ m', m.Sheds m' → f m = f m') :
    (visit ns).filterMap f = (visit ns').filterMap f := by
  fun_induction visit ns generalizing ns' with
  | case1 =>
    cases h
    simp [visit]
  | case2 n pending ih =>
    have hlater : ∀ m ∈ nodesOf (n.namedChildren ++ pending), ∀ m', m.Sheds m' → f m = f m' := by
      intro m hm
      obtain ⟨c, hc, hm⟩ := mem_nodesOf.mp hm
      refine hf m (mem_nodesOf.mpr ?_)
      rcases List.mem_append.mp hc with hc | hc
      · exact ⟨n, List.mem_cons_self, mem_nodes_of_child (List.mem_filter.mp hc).1 hm⟩
      · exact ⟨c, List.mem_cons_of_mem _ hc, hm⟩
    cases h with
    | @keep t cs cs' _ rest' hc hp =>
      have hn : Sheds ⟨t, cs⟩ ⟨t, cs'⟩ := ⟨rfl, hc⟩
      have hself : f ⟨t, cs⟩ = f ⟨t, cs'⟩ :=
        hf _ (mem_nodesOf.mpr ⟨_, List.mem_cons_self, mem_nodes_self _⟩) _ hn
      rw [visit, List.filterMap_cons, List.filterMap_cons, hself,
        ih (hn.namedChildren.append hp) hlater]
    | drop hn hp =>
      -- a comment has no children to wait for
      have hnil : n.namedChildren = [] := by simp [namedChildren, (isComment_iff.mp hn).2.2.2]
      rw [List.filterMap_cons, hcomment n hn]
      exact ih (by rwa [hnil]) hlater

theorem calleeName?_rel (h : n.Sheds n') : Option.Rel Sheds n.calleeName? n'.calleeName? := by
  have hbinding : Option.Rel Sheds (n.namedChildren.find? (·.kind == "member_binding_expression"))
      (n'.namedChildren.find? (·.kind == "member_binding_expression")) :=
    h.namedChildren.find?_kind (by decide)
  unfold calleeName?
  rw [← h.meaning]
  cases n.meaning with
  | memberAccess | memberBinding => exact h.child? "name"
  | conditionalAccess =>
    dsimp only
    generalize n.namedChildren.find? (·.kind == "member_binding_expression") = o,
      n'.namedChildren.find? (·.kind == "member_binding_expression") = o' at hbinding ⊢
    cases hbinding with
    | none => exact .none
    | some hs => exact hs.child? "name"
  | identifier | genericName => exact .some h
  | _ => exact .none

theorem callForm_eq_of_sheds (h : n.Sheds n') :
    callForm methods source n = callForm methods source n' := by
  have hreceiver := h.child? "expression"
  unfold callForm
  rw [← h.meaning]
  generalize n.child? "expression" = o, n'.child? "expression" = o' at hreceiver ⊢
  cases hreceiver with
  | none => rfl
  | some hs => simp only [Lowering.text_eq_of_sheds hs]

theorem watchedName?_rel (h : n.Sheds n') :
    Option.Rel (fun x y => x.1.Sheds y.1 ∧ x.2 = y.2) (n.watchedName? methods source)
      (n'.watchedName? methods source) := by
  have hfunction := h.child? "function"
  unfold watchedName?
  rw [← h.meaning]
  split
  · exact .none
  · generalize n.child? "function" = o, n'.child? "function" = o' at hfunction ⊢
    cases hfunction with
    | none => exact .none
    | @some f f' hf =>
      have hname := calleeName?_rel hf
      dsimp only
      generalize f.calleeName? = o, f'.calleeName? = o' at hname ⊢
      cases hname with
      | none => exact .none
      | some hs =>
        dsimp only
        rw [← Lowering.simpleName_eq_of_sheds hs]
        split
        · exact .none
        · exact .some ⟨hf, rfl⟩

/-- In the arguments of every watched call, comments are out of the way. -/
def ArgumentsAside (methods : MethodTable) (source : String) (root : Node) : Prop :=
  ∀ n ∈ root.nodes, (n.watchedCall? methods source).isSome →
    ∀ list ∈ n.child? "arguments", list.CommentsAside

instance (methods : MethodTable) (source : String) (root : Node) :
    Decidable (root.ArgumentsAside methods source) :=
  inferInstanceAs (Decidable (∀ n ∈ root.nodes, (n.watchedCall? methods source).isSome →
    ∀ list ∈ n.child? "arguments", list.CommentsAside))

theorem watchedCall?_eq_of_sheds (h : n.Sheds n')
    (haside : (n.watchedCall? methods source).isSome →
      ∀ list ∈ n.child? "arguments", list.CommentsAside) :
    n.watchedCall? methods source = n'.watchedCall? methods source := by
  have hname : Option.Rel _ (n.watchedName? methods source) (n'.watchedName? methods source) :=
    watchedName?_rel h
  -- the arguments are compared only where there is a call to read them for
  have hlisted : (n.watchedCall? methods source).isSome →
      Lowering.listed source n.children = Lowering.listed source n'.children := fun hsome =>
    Lowering.listed_eq_of_sheds h (haside hsome) fun l hl =>
      Lowering.sameBelow_of_commentsAside (haside hsome l hl)
  unfold watchedCall? at hlisted ⊢
  rw [← h.token]
  generalize n.watchedName? methods source = o, n'.watchedName? methods source = o'
    at hname hlisted ⊢
  cases hname with
  | none => rfl
  | @some x y hxy =>
    obtain ⟨f, callee⟩ := x
    obtain ⟨f', callee'⟩ := y
    obtain ⟨hf, rfl⟩ : f.Sheds f' ∧ callee = callee' := hxy
    cases he : n.hasError with
    | true => rfl
    | false =>
      have hlisted := hlisted (by simp [he])
      simp only [hlisted, callForm_eq_of_sheds hf]

theorem watchedCall?_of_isComment {c : Node} (hc : c.isComment = true) :
    c.watchedCall? methods source = none := by
  simp [watchedCall?, watchedName?, meaning_of_isComment hc]

theorem calls_eq_of_sheds {root root' : Node} (h : root.Sheds root')
    (haside : root.ArgumentsAside methods source) :
    root.calls methods source = root'.calls methods source := by
  obtain ⟨t, cs⟩ := root
  obtain ⟨t', cs'⟩ := root'
  obtain rfl : t = t' := h.token
  refine visit_filterMap_eq (.keep h.children .nil) (fun c hc => watchedCall?_of_isComment hc) ?_
  intro m hm m' hs
  obtain ⟨c, hc, hm⟩ := mem_nodesOf.mp hm
  obtain rfl := List.mem_singleton.mp hc
  exact watchedCall?_eq_of_sheds hs (haside m hm)

end Node

/-- If comments are out of the way in the arguments of watched calls, a file has the same
calls and the same violations with and without comments. -/
theorem violations_eq_of_comments_aside {methods : MethodTable} {source : String}
    {root root' : Node} (h : root.Sheds root') (haside : root.ArgumentsAside methods source) :
    root.calls methods source = root'.calls methods source ∧
      ∀ (a : Analyzer) (reads : FlagReads) (p : Path), a.methods = methods →
        a.checkText (.csharp fun _ => some root) reads p source =
          a.checkText (.csharp fun _ => some root') reads p source := by
  have hcalls := Node.calls_eq_of_sheds h haside
  refine ⟨hcalls, ?_⟩
  rintro a reads p rfl
  simp only [Analyzer.checkText, FrontEnd.csharp, hcalls]

/-- A comment that stands first in the parentheses around a body is taken for the body,
whatever follows it, and no such selector is usable. -/
theorem Lowering.classify_of_comment_first {source : String} {body c : Node}
    (hm : body.meaning = .parenthesized) (hfirst : body.firstNamed? = some c)
    (hc : c.isComment = true) (argument : Expr) (parameter : String) (max : Nat) :
    Selector.classify ⟨argument, ⟨[parameter], expr source body⟩⟩ max =
      .invalid ⟨.unsupported "comment", .other "comment" c.span⟩ := by
  have hcomment : expr source c = .other "comment" c.span := by
    have hother := Node.meaning_of_isComment hc
    have hk := (Node.isComment_iff.mp hc).2.1
    obtain ⟨t, cs⟩ := c
    rw [expr, hother]
    exact congrArg (Expr.other · t.span) hk
  rw [expr_parenthesized hm, hfirst]
  dsimp only
  rw [hcomment]
  rfl

/-- The tree of `map.Ignore(l => (...))`, given what stands in the inner parentheses. -/
def parenthesesTree (inside : List Node) : Node :=
  .onLine "invocation_expression" none 0 31
    [.onLine "member_access_expression" (some "function") 0 10
      [.onLine "identifier" (some "expression") 0 3 [], .mark "." 3 4,
       .onLine "identifier" (some "name") 4 10 []],
     .onLine "argument_list" (some "arguments") 10 31
      [.mark "(" 10 11,
       .onLine "argument" none 11 30
        [.onLine "lambda_expression" none 11 30
          [.onLine "implicit_parameter" (some "parameters") 11 12 [], .mark "=>" 13 15,
           .onLine "parenthesized_expression" (some "body") 16 30
            ([.mark "(" 16 17] ++ inside ++ [.mark ")" 29 30])]],
       .mark ")" 30 31]]

/-- The member access `l.Link` at a place. -/
def linkAt (start : UInt64) : Node :=
  .onLine "member_access_expression" none start (start + 6)
    [.onLine "identifier" (some "expression") start (start + 1) [],
     .mark "." (start + 1) (start + 2),
     .onLine "identifier" (some "name") (start + 2) (start + 6) []]

/-- The comment `/*c*/` at a place. -/
def commentAt (start : UInt64) : Node := .onLine "comment" none start (start + 5) []

theorem parenthesesTree_sheds {inside inside' : List Node} (h : Node.Strips inside inside') :
    (parenthesesTree inside).Sheds (parenthesesTree inside') := by
  have hinner := ((Node.Strips.refl [.mark "(" 16 17]).append h).append
    (Node.Strips.refl [.mark ")" 29 30])
  refine ⟨rfl, .keep (.refl _) (.keep ?_ .nil)⟩
  refine .keep (.refl _) (.keep ?_ (.refl _))
  refine .keep (.keep (.refl _) (.keep (.refl _) (.keep hinner .nil))) .nil

/-- A source with a comment after the member access. -/
def commentLast : String := "map.Ignore(l => (l.Link /*c*/))"

/-- There the comment changes nothing. -/
theorem violations_eq_of_commentLast :
    (parenthesesTree [linkAt 17, commentAt 24]).Sheds (parenthesesTree [linkAt 17]) ∧
      (parenthesesTree [linkAt 17, commentAt 24]).ArgumentsAside .standard commentLast ∧
      (parenthesesTree [linkAt 17, commentAt 24]).calls .standard commentLast =
        (parenthesesTree [linkAt 17]).calls .standard commentLast ∧
      ((parenthesesTree [linkAt 17]).calls .standard commentLast).length = 1 := by
  have hsheds : (parenthesesTree [linkAt 17, commentAt 24]).Sheds (parenthesesTree [linkAt 17]) :=
    parenthesesTree_sheds (.keep (.refl _) (.drop (by decide +kernel) .nil))
  have haside : (parenthesesTree [linkAt 17, commentAt 24]).ArgumentsAside .standard
      commentLast := by decide +kernel
  refine ⟨hsheds, haside, (violations_eq_of_comments_aside hsheds haside).1, ?_⟩
  decide +kernel

/-- A source with a comment before it. -/
def commentFirst : String := "map.Ignore(l => (/*c*/ l.Link))"

/-- The violations that `Ignore` is reported with in the tree of a source. -/
def ignoreViolations (source : String) (root : Node) : List Violation :=
  (root.calls .standard source).flatMap
    (Rule.ignoreExpression.checkCall (.under ⟨"/work"⟩ ⟨"/work/a.cs"⟩ source))

/-- There the calls differ: the usable selector is reported, and it is not without the
comment. -/
theorem comment_in_parentheses_reported :
    (parenthesesTree [commentAt 17, linkAt 23]).Sheds (parenthesesTree [linkAt 23]) ∧
      (parenthesesTree [commentAt 17, linkAt 23]).calls .standard commentFirst ≠
        (parenthesesTree [linkAt 23]).calls .standard commentFirst ∧
      (ignoreViolations commentFirst (parenthesesTree [commentAt 17, linkAt 23])).map (·.code) =
        ["TH1002"] ∧
      (ignoreViolations commentFirst (parenthesesTree [linkAt 23])).map (·.code) = [] := by
  have hwith : (ignoreViolations commentFirst (parenthesesTree [commentAt 17, linkAt 23])).map
      (·.code) = ["TH1002"] := by decide +kernel
  have hwithout : (ignoreViolations commentFirst (parenthesesTree [linkAt 23])).map (·.code) =
      [] := by decide +kernel
  refine ⟨parenthesesTree_sheds (.drop (by decide +kernel) (.refl _)), ?_, hwith, hwithout⟩
  intro heq
  rw [ignoreViolations, heq, ← ignoreViolations, hwithout] at hwith
  cases hwith

end SelectorCheck
