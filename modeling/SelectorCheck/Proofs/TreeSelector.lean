import SelectorCheck.Proofs.Reading
import SelectorCheck.Proofs.SelectorLanguage

/-
  The selectors of syntax trees.

  The language of usable selectors is stated once more, for the nodes of a syntax
  tree and without expressions. `MemberChain` is a grammar on nodes: `n` is a name
  that reads `p`, or a member access on such a node with both of its fields, or a
  parenthesized expression whose first named child is such a node. A node is a plain
  selector if it is, in any parentheses, a lambda with one parameter name and such a
  body, and a cast selector if one cast with both of its fields stands around the
  path.

  What is proved:
    1. `chain_expr_iff`: the expression of a node is a chain exactly if the node is a
       path, with the same members.
    2. `encloses_expr_iff`: the same for parentheses.
    3. `lowered_selector_decided`: the expression of a node gets a verdict with a path
       exactly if the node is a selector with that path. Every other lambda is
       rejected, whatever kind or lacking field took it out of the grammar.
-/

namespace SelectorCheck

namespace Node

/-- The node is of a kind, by the name the grammar gives it. -/
def IsA (n : Node) (k : NodeKind) : Prop := n.kind ∈ k.names

/-- `n.Wraps x`: `n` is `x` in any number of parentheses. -/
inductive Wraps : Node → Node → Prop
  | refl (n : Node) : Wraps n n
  | paren {n inner x : Node} : n.IsA .parenthesized → n.firstNamed? = some inner →
      Wraps inner x → Wraps n x

/-- `n.MemberChain source p ms`: the node reads the members `ms`, from the first to the
last, of the parameter `p`. -/
inductive MemberChain (source p : String) : Node → List String → Prop
  | parameter {n : Node} : n.IsA .identifier ∨ n.IsA .genericName →
      Lowering.simpleName source n = p → MemberChain source p n []
  | member {n receiver name : Node} {ms : List String} : n.IsA .memberAccess →
      n.child? "expression" = some receiver → n.child? "name" = some name →
      MemberChain source p receiver ms →
      MemberChain source p n (ms ++ [Lowering.simpleName source name])
  | paren {n inner : Node} {ms : List String} : n.IsA .parenthesized →
      n.firstNamed? = some inner → MemberChain source p inner ms → MemberChain source p n ms

/-- The node is a whole parameter by itself. -/
def IsBareParameter (n : Node) : Prop := n.kind = "identifier" ∨ n.kind = "implicit_parameter"

/-- A member of a parameter list gives the parameter name `p`. -/
def NamesParameter (source : String) (n : Node) (p : String) : Prop :=
  (n.kind = "parameter" ∧ ∃ name, n.child? "name" = some name ∧ name.text source = p) ∨
    (n.IsBareParameter ∧ n.text source = p)

/-- The lambda has exactly one parameter name: its parameters are that name, or a
list in which one member gives it and no other gives any. -/
def HasOneParameter (source : String) (l : Node) (p : String) : Prop :=
  ∃ f, (l.child? "parameters").or (l.child? "parameter") = some f ∧
    ((f.IsBareParameter ∧ f.text source = p) ∨
      (¬ f.IsBareParameter ∧ ∃ before x after, f.namedChildren = before ++ x :: after ∧
        x.NamesParameter source p ∧
        ∀ y ∈ before ++ after, ∀ q, ¬ y.NamesParameter source q))

/-- The node is, in any parentheses, a lambda with the one parameter name `p` and the
body `body`. -/
def HoldsLambda (source : String) (n : Node) (p : String) (body : Node) : Prop :=
  ∃ l, n.Wraps l ∧ l.IsA .lambda ∧ l.HasOneParameter source p ∧ l.body? = some body

/-- The node is, in any parentheses, a lambda that has a body. -/
def IsLambda (n : Node) : Prop := ∃ l body, n.Wraps l ∧ l.IsA .lambda ∧ l.body? = some body

/-- The node holds a lambda whose body is a path of at most `max` members. -/
def PlainSelector (source : String) (max : Nat) (n : Node) (path : MemberPath) : Prop :=
  ∃ body, n.HoldsLambda source path.parameter body ∧
    MemberChain source path.parameter body path.members ∧ path.members.length ≤ max

/-- The node holds a lambda whose body is, in any parentheses, a cast of a path of at
most `max` members to a type. -/
def CastSelector (source : String) (max : Nat) (n : Node) (type : String)
    (path : MemberPath) : Prop :=
  ∃ body, n.HoldsLambda source path.parameter body ∧
    (∃ c t v, body.Wraps c ∧ c.IsA .cast ∧ c.child? "type" = some t ∧ t.text source = type ∧
      c.child? "value" = some v ∧ MemberChain source path.parameter v path.members) ∧
    path.members.length ≤ max

end Node

namespace Lowering

variable {source : String} {n : Node}

theorem isA_of_meaning {k : NodeKind} (h : n.meaning = k) (hk : k.names ≠ [] := by decide) :
    n.IsA k :=
  (Token.meaning_eq_iff hk).mp h

/-! ## Parentheses and paths -/

theorem encloses_expr_iff {e : Expr} :
    (expr source n).Encloses e ↔ ∃ x, n.Wraps x ∧ expr source x = e := by
  constructor
  · intro h
    generalize he : expr source n = e' at h
    induction h generalizing n with
    | refl e => exact ⟨n, .refl n, he⟩
    | paren _ ih =>
      cases reading_of_eq he with
      | paren hm hi =>
        obtain ⟨x, hx, hex⟩ := ih rfl
        exact ⟨x, .paren (isA_of_meaning hm) hi hx, hex⟩
      | apart h _ => cases h
  · intro h
    obtain ⟨x, hx, rfl⟩ := h
    induction hx with
    | refl n => exact .refl _
    | paren hk hi _ ih =>
      rw [expr_parenthesized (Token.meaning_of_kind_mem hk), hi]
      exact .paren ih

theorem chain_expr_iff {p : String} {ms : List String} :
    Selector.Chain p (expr source n) ms ↔ n.MemberChain source p ms := by
  constructor
  · intro h
    generalize he : expr source n = e at h
    induction h generalizing n with
    | identifier =>
      generalize hp : (Expr.identifier p _) = e at he
      cases reading_of_eq he with
      | name hm =>
        obtain ⟨rfl, -⟩ := Expr.identifier.inj hp
        exact .parameter (hm.imp isA_of_meaning isA_of_meaning) rfl
      | apart h _ => subst hp; cases h
      | _ => cases hp
    | member _ ih =>
      cases reading_of_eq he with
      | member hm hr hn => exact .member (isA_of_meaning hm) hr hn (ih rfl)
      | apart h _ => cases h
    | paren _ ih =>
      cases reading_of_eq he with
      | paren hm hi => exact .paren (isA_of_meaning hm) hi (ih rfl)
      | apart h _ => cases h
  · intro h
    induction h with
    | parameter hk hp =>
      rw [expr_name (hk.imp Token.meaning_of_kind_mem Token.meaning_of_kind_mem), hp]
      exact .identifier
    | member hk hr hn _ ih =>
      rw [expr_memberAccess (Token.meaning_of_kind_mem hk), hr, hn]
      exact .member ih
    | paren hk hi _ ih =>
      rw [expr_parenthesized (Token.meaning_of_kind_mem hk), hi]
      exact .paren ih

/-! ## Parameters and lambdas -/

theorem isBareParameter_iff : isBareParameter n = true ↔ n.IsBareParameter := by
  simp [isBareParameter, Node.IsBareParameter]

theorem parameterName?_eq_some_iff {p : String} :
    parameterName? source n = some p ↔ n.NamesParameter source p := by
  unfold parameterName? Node.NamesParameter
  by_cases hk : n.kind = "parameter"
  · have hb : ¬ n.IsBareParameter := by simp [Node.IsBareParameter, hk]
    simp [hk, hb]
  · cases hb : isBareParameter n with
    | true => simp [hk, isBareParameter_iff.mp hb]
    | false =>
      have hb : ¬ n.IsBareParameter := by rw [← isBareParameter_iff, hb]; simp
      simp [hk, hb]

theorem parameterName?_eq_none_iff :
    parameterName? source n = none ↔ ∀ q, ¬ n.NamesParameter source q := by
  simp only [Option.eq_none_iff_forall_ne_some, ne_eq, parameterName?_eq_some_iff]

theorem filterMap_parameterName?_iff {ns : List Node} {p : String} :
    ns.filterMap (parameterName? source) = [p] ↔
      ∃ before x after, ns = before ++ x :: after ∧ x.NamesParameter source p ∧
        ∀ y ∈ before ++ after, ∀ q, ¬ y.NamesParameter source q := by
  simp only [List.filterMap_eq_cons_iff, List.filterMap_eq_nil_iff, parameterName?_eq_some_iff,
    parameterName?_eq_none_iff, List.forall_mem_append]
  constructor
  · intro h
    obtain ⟨before, x, after, hns, hbefore, hx, hafter⟩ := h
    exact ⟨before, x, after, hns, hx, hbefore, hafter⟩
  · intro h
    obtain ⟨before, x, after, hns, hx, hbefore, hafter⟩ := h
    exact ⟨before, x, after, hns, hbefore, hx, hafter⟩

theorem parameterNames_eq_singleton_iff {p : String} :
    parameterNames source n.children = [p] ↔ n.HasOneParameter source p := by
  rw [parameterNames_eq, Node.HasOneParameter]
  cases (n.child? "parameters").or (n.child? "parameter") with
  | none => simp
  | some f =>
    by_cases hb : f.IsBareParameter
    · simp [hb, isBareParameter_iff.mpr hb]
    · have hb' : ¬ isBareParameter f = true := by rwa [isBareParameter_iff]
      dsimp only
      rw [if_neg hb', filterMap_parameterName?_iff]
      simp [hb]

theorem encloses_lambda_iff {p : String} {b : Expr} :
    (∃ span, (expr source n).Encloses (.lambda [p] b span)) ↔
      ∃ body, n.HoldsLambda source p body ∧ b = expr source body := by
  constructor
  · intro h
    obtain ⟨span, h⟩ := h
    obtain ⟨l, hl, he⟩ := encloses_expr_iff.mp h
    generalize hps : [p] = ps at he
    cases reading_of_eq he with
    | lambda hm hb =>
      exact ⟨_, ⟨l, hl, isA_of_meaning hm, parameterNames_eq_singleton_iff.mp hps.symm, hb⟩, rfl⟩
    | apart h _ => cases h
  · intro h
    obtain ⟨body, ⟨l, hl, hk, hp, hb⟩, rfl⟩ := h
    refine ⟨l.span, encloses_expr_iff.mpr ⟨l, hl, ?_⟩⟩
    rw [expr_lambda (Token.meaning_of_kind_mem hk), hb, parameterNames_eq_singleton_iff.mpr hp]

theorem encloses_cast_iff {p type : String} {ms : List String} :
    (∃ operand span, (expr source n).Encloses (.cast type operand span) ∧
        Selector.Chain p operand ms) ↔
      ∃ c t v, n.Wraps c ∧ c.IsA .cast ∧ c.child? "type" = some t ∧ t.text source = type ∧
        c.child? "value" = some v ∧ v.MemberChain source p ms := by
  constructor
  · intro h
    obtain ⟨operand, span, h, hchain⟩ := h
    obtain ⟨c, hc, he⟩ := encloses_expr_iff.mp h
    cases reading_of_eq he with
    | cast hm ht hv =>
      exact ⟨c, _, _, hc, isA_of_meaning hm, ht, rfl, hv, chain_expr_iff.mp hchain⟩
    | apart h _ => cases h
  · intro h
    obtain ⟨c, t, v, hc, hk, ht, rfl, hv, hchain⟩ := h
    refine ⟨expr source v, c.span, encloses_expr_iff.mpr ⟨c, hc, ?_⟩, chain_expr_iff.mpr hchain⟩
    rw [expr_cast (Token.meaning_of_kind_mem hk), ht, hv]

/-! ## Verdicts -/

/-- The verdict on the selector that a node is read as, if it is read as a lambda. -/
def verdict? (source : String) (max : Nat) (n : Node) : Option Verdict :=
  (expr source n).verdict? max

theorem verdict?_eq_some_iff {max : Nat} {v : Verdict} :
    verdict? source max n = some v ↔
      ∃ l span, (expr source n).Encloses (.lambda l.parameters l.body span) ∧
        Selector.classify ⟨expr source n, l⟩ max = v := by
  simp only [verdict?, Expr.verdict?, Option.map_eq_some_iff, Expr.lambda?_eq_some_iff]
  constructor
  · intro h
    obtain ⟨l, ⟨span, h⟩, hv⟩ := h
    exact ⟨l, span, h, hv⟩
  · intro h
    obtain ⟨l, span, h, hv⟩ := h
    exact ⟨l, ⟨span, h⟩, hv⟩

theorem verdict?_simpleChain_iff {max : Nat} {path : MemberPath} :
    verdict? source max n = some (.simpleChain path) ↔ n.PlainSelector source max path := by
  simp only [verdict?_eq_some_iff, Selector.classify_eq_simpleChain_iff]
  constructor
  · intro h
    obtain ⟨l, span, h, hp, hc, hs⟩ := h
    rw [hp] at h
    obtain ⟨body, hbody, hb⟩ := encloses_lambda_iff.mp ⟨span, h⟩
    refine ⟨body, hbody, chain_expr_iff.mp ?_, hs⟩
    rwa [← hb]
  · intro h
    obtain ⟨body, hbody, hc, hs⟩ := h
    obtain ⟨span, h⟩ := encloses_lambda_iff.mpr ⟨body, hbody, rfl⟩
    exact ⟨⟨[path.parameter], expr source body⟩, span, h, rfl, chain_expr_iff.mpr hc, hs⟩

theorem verdict?_castChain_iff {max : Nat} {type : String} {path : MemberPath} :
    verdict? source max n = some (.castChain type path) ↔
      n.CastSelector source max type path := by
  simp only [verdict?_eq_some_iff, Selector.classify_eq_castChain_iff]
  constructor
  · intro h
    obtain ⟨l, span, h, hp, hc, hs⟩ := h
    rw [hp] at h
    obtain ⟨body, hbody, hb⟩ := encloses_lambda_iff.mp ⟨span, h⟩
    refine ⟨body, hbody, encloses_cast_iff.mp ?_, hs⟩
    rwa [← hb]
  · intro h
    obtain ⟨body, hbody, hc, hs⟩ := h
    obtain ⟨span, h⟩ := encloses_lambda_iff.mpr ⟨body, hbody, rfl⟩
    exact ⟨⟨[path.parameter], expr source body⟩, span, h, rfl, encloses_cast_iff.mpr hc, hs⟩

theorem exists_verdict_iff (source : String) (max : Nat) :
    (∃ v, verdict? source max n = some v) ↔ n.IsLambda := by
  simp only [verdict?_eq_some_iff]
  constructor
  · intro h
    obtain ⟨_, ⟨ps, b⟩, span, h, _⟩ := h
    obtain ⟨x, hx, he⟩ := encloses_expr_iff.mp h
    cases reading_of_eq he with
    | lambda hm hb => exact ⟨x, _, hx, isA_of_meaning hm, hb⟩
    | apart h _ => cases h
  · intro h
    obtain ⟨x, body, hx, hk, hb⟩ := h
    refine ⟨_, ⟨parameterNames source x.children, expr source body⟩, x.span, ?_, rfl⟩
    refine encloses_expr_iff.mpr ⟨x, hx, ?_⟩
    rw [expr_lambda (Token.meaning_of_kind_mem hk), hb]

theorem verdict?_invalid_iff {max : Nat} :
    (∃ r, verdict? source max n = some (.invalid r)) ↔
      n.IsLambda ∧ (∀ path, ¬ n.PlainSelector source max path) ∧
        ∀ type path, ¬ n.CastSelector source max type path := by
  rw [← exists_verdict_iff source max]
  simp only [← verdict?_simpleChain_iff, ← verdict?_castChain_iff]
  cases verdict? source max n with
  | none => simp
  | some v => cases v <;> simp

/-- **Reading a tree keeps the language of selectors.** The expression of a node is
classified with a path exactly if the node itself, said without expressions, is a
selector with that path, plainly or in one cast. A lambda that is neither is rejected:
a node of another kind, or one that lacks a field it needs, never makes a selector
valid. -/
theorem lowered_selector_decided (source : String) (max : Nat) (n : Node) :
    (∀ path,
      verdict? source max n = some (.simpleChain path) ↔ n.PlainSelector source max path) ∧
    (∀ type path,
      verdict? source max n = some (.castChain type path) ↔
        n.CastSelector source max type path) ∧
    ((∃ r, verdict? source max n = some (.invalid r)) ↔
      n.IsLambda ∧ (∀ path, ¬ n.PlainSelector source max path) ∧
        ∀ type path, ¬ n.CastSelector source max type path) :=
  ⟨fun _ => verdict?_simpleChain_iff, fun _ _ => verdict?_castChain_iff, verdict?_invalid_iff⟩

end Lowering

end SelectorCheck
