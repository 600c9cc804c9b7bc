import Mathlib.Logic.ExistsUnique
import SelectorCheck.Proofs.SelectorLanguage

/-
  What a rejection blames.

  A body is read from the outside in. Parentheses and member accesses are passed, and
  one cast may be passed before the first member access. The way ends at the parameter
  or at an expression that breaks the pattern (`Breaks`), and the shape of that
  expression alone gives the reason. None of this is said through the walk
  `Selector.members`: `Uncast` and `LeadsTo` say which expressions are on the way, and
  `Breaks` is the table of shapes and reasons.

  What is proved:
    1. `uncast_iff`: what is left of a body without its cast and the parentheses.
    2. `members_eq_error_iff`: the walk fails exactly at the expression that breaks the
       pattern, with the reason of its shape.
    3. `rejection_blames_first_break`: a selector is rejected for the number of its
       parameters, for the first expression that breaks the pattern, or, if there is
       none, for the length of the whole chain; and exactly so. Parentheses are blamed
       only around a lambda with a wrong number of parameters.
-/

namespace SelectorCheck

namespace Expr

/-- `body.Uncast chain`: `chain` is `body` without the parentheses around it and, if they
hold a cast, without that cast and the parentheses inside it. -/
inductive Uncast : Expr → Expr → Prop
  | cast {body operand chain : Expr} {type : String} {span : Span} :
      body.Encloses (.cast type operand span) → operand.Encloses chain →
      (∀ inner span, chain ≠ .paren inner span) → Uncast body chain
  | plain {body chain : Expr} : body.Encloses chain → (∀ inner span, chain ≠ .paren inner span) →
      (∀ type operand span, chain ≠ .cast type operand span) → Uncast body chain

/-- `e.LeadsTo x`: only parentheses and member accesses stand between `e` and `x`. -/
inductive LeadsTo : Expr → Expr → Prop
  | refl (e : Expr) : LeadsTo e e
  | paren {inner x : Expr} {span : Span} : LeadsTo inner x → LeadsTo (.paren inner span) x
  | member {receiver x : Expr} {m : String} {span : Span} :
      LeadsTo receiver x → LeadsTo (.member receiver m span) x

/-- `Breaks p x reason`: a path to the parameter `p` cannot go on from `x`, and this is
why. -/
inductive Breaks (p : String) : Expr → Reason → Prop
  | identifier {name : String} {span : Span} : name ≠ p →
      Breaks p (.identifier name span) .notRootedAtParameter
  | literal {text : String} {span : Span} : Breaks p (.literal text span) .notRootedAtParameter
  | cast {type : String} {operand : Expr} {span : Span} :
      Breaks p (.cast type operand span) .misplacedCast
  | call {callee : Expr} {arguments : List Argument} {span : Span} :
      Breaks p (.call callee arguments span) .call
  | binary {operator : String} {left right : Expr} {span : Span} :
      Breaks p (.binary operator left right span) .operator
  | unary {operator : String} {operand : Expr} {span : Span} :
      Breaks p (.unary operator operand span) .operator
  | conditional {span : Span} : Breaks p (.conditional span) .conditional
  | element {receiver : Expr} {span : Span} : Breaks p (.element receiver span) .elementAccess
  | block {span : Span} : Breaks p (.block span) .block
  | lambda {parameters : List String} {body : Expr} {span : Span} :
      Breaks p (.lambda parameters body span) (.unsupported "lambda")
  | other {kind : String} {span : Span} : Breaks p (.other kind span) (.unsupported kind)

/-! ## Shapes and reasons -/

theorem bare_ne_paren : ∀ (e inner : Expr) (span : Span), e.bare ≠ .paren inner span
  | .paren e _, inner, span => bare_ne_paren e inner span
  | .identifier .., _, _ | .member .., _, _ | .cast .., _, _ | .lambda .., _, _ | .call .., _, _
  | .binary .., _, _ | .unary .., _, _ | .conditional .., _, _ | .element .., _, _
  | .literal .., _, _ | .block .., _, _ | .other .., _, _ => by simp [bare]

theorem bare_eq_self_iff {e : Expr} : e.bare = e ↔ ∀ inner span, e ≠ .paren inner span := by
  constructor
  · intro h inner span
    rw [← h]
    exact bare_ne_paren e inner span
  · intro h
    cases e with
    | paren inner span => exact absurd rfl (h inner span)
    | _ => rfl

theorem Breaks.unique {p : String} {x : Expr} {reason reason' : Reason} (h : Breaks p x reason)
    (h' : Breaks p x reason') : reason' = reason := by
  cases h <;> cases h' <;> rfl

/-- Every shape breaks a path for one reason, but for the three that a path is made of:
parentheses, member accesses and the parameter. -/
theorem existsUnique_breaks_iff {p : String} {x : Expr} :
    (∃! reason, Breaks p x reason) ↔
      (∀ inner span, x ≠ .paren inner span) ∧ (∀ receiver m span, x ≠ .member receiver m span) ∧
        ∀ span, x ≠ .identifier p span := by
  constructor
  · intro h
    obtain ⟨reason, hx, -⟩ := h
    cases hx <;> simp_all
  · intro h
    obtain ⟨hparen, hmember, hparameter⟩ := h
    have hbreaks : ∃ reason, Breaks p x reason := by
      cases x with
      | paren inner span => exact absurd rfl (hparen inner span)
      | member receiver m span => exact absurd rfl (hmember receiver m span)
      | identifier name span =>
        have hname : name ≠ p := by
          intro he
          exact hparameter span (by rw [he])
        exact ⟨_, .identifier hname⟩
      | _ => exact ⟨_, by constructor⟩
    obtain ⟨reason, hx⟩ := hbreaks
    exact ⟨reason, hx, fun _ h => hx.unique h⟩

end Expr

namespace Selector

open SelectorCheck.Expr

/-! ## The walk and its failures -/

theorem uncast_iff {body chain : Expr} : body.Uncast chain ↔ (splitCast body).2 = chain := by
  constructor
  · intro h
    cases h with
    | cast hcast hchain hparen =>
      rw [encloses_iff_bare_eq rfl] at hcast
      rw [encloses_iff_bare_eq (bare_eq_self_iff.mpr hparen)] at hchain
      rw [splitCast_of_cast hcast, hchain]
    | plain hchain hparen hcast =>
      rw [encloses_iff_bare_eq (bare_eq_self_iff.mpr hparen)] at hchain
      rw [splitCast_of_not_cast (hchain ▸ hcast), hchain]
  · intro h
    subst h
    unfold splitCast
    split
    next type operand span hb =>
      apply Uncast.cast ((encloses_iff_bare_eq rfl).mpr hb) (encloses_bare operand)
      exact bare_ne_paren operand
    next hnot => exact .plain (encloses_bare body) (bare_ne_paren body) hnot

theorem exists_break_of_members_error {p : String} {e : Expr} {r : Rejection}
    (h : members p e = .error r) : e.LeadsTo r.offending ∧ Breaks p r.offending r.reason := by
  fun_induction members p e with
  | case1 inner _ ih =>
    obtain ⟨hway, hbreak⟩ := ih h
    exact ⟨.paren hway, hbreak⟩
  | case2 => cases h
  | case3 receiver m _ r' hr ih =>
    obtain rfl := Except.error.inj h
    obtain ⟨hway, hbreak⟩ := ih hr
    exact ⟨.member hway, hbreak⟩
  | case4 => cases h
  | case5 name span hname =>
    obtain rfl := Except.error.inj h
    exact ⟨.refl _, .identifier hname⟩
  -- every other shape is blamed where it stands
  | _ =>
    obtain rfl := Except.error.inj h
    exact ⟨.refl _, by constructor⟩

theorem members_of_breaks {p : String} {x : Expr} {reason : Reason} (h : Breaks p x reason) :
    members p x = .error ⟨reason, x⟩ := by
  cases h with
  | identifier hname => simp [members, hname]
  | _ => rfl

theorem members_of_leadsTo {p : String} {e x : Expr} {r : Rejection} (hway : e.LeadsTo x)
    (h : members p x = .error r) : members p e = .error r := by
  induction hway with
  | refl _ => exact h
  | paren _ ih => simpa [members] using ih h
  | member _ ih => simp [members, ih h]

theorem members_eq_error_iff {p : String} {e : Expr} {r : Rejection} :
    members p e = .error r ↔ e.LeadsTo r.offending ∧ Breaks p r.offending r.reason := by
  refine ⟨exists_break_of_members_error, fun h => ?_⟩
  obtain ⟨hway, hbreak⟩ := h
  exact members_of_leadsTo hway (members_of_breaks hbreak)

/-! ## Rejections -/

/-- The three ways to reject a selector, each with the expression that is blamed. -/
inductive Blames (s : Selector) (max : Nat) : Rejection → Prop
  | parameters : s.lambda.parameters.length ≠ 1 →
      Blames s max ⟨.parameterCount s.lambda.parameters.length, s.argument⟩
  | length {p : String} {chain : Expr} {ms : List String} : s.lambda.parameters = [p] →
      s.lambda.body.Uncast chain → Chain p chain ms → max < ms.length →
      Blames s max ⟨.chainTooDeep ms.length max, chain⟩
  | shape {p : String} {chain x : Expr} {reason : Reason} : s.lambda.parameters = [p] →
      s.lambda.body.Uncast chain → chain.LeadsTo x → Breaks p x reason →
      Blames s max ⟨reason, x⟩

theorem classify_of_parameters {s : Selector} (h : s.lambda.parameters.length ≠ 1) (max : Nat) :
    s.classify max = .invalid ⟨.parameterCount s.lambda.parameters.length, s.argument⟩ := by
  unfold classify
  split
  next p hp => exact absurd (by rw [hp]; rfl) h
  next => rfl

theorem classify_of_members {s : Selector} {p : String} (hp : s.lambda.parameters = [p])
    (max : Nat) :
    s.classify max =
      match members p (splitCast s.lambda.body).2 with
      | .error r => .invalid r
      | .ok ms =>
        if max < ms.length then .invalid ⟨.chainTooDeep ms.length max, (splitCast s.lambda.body).2⟩
        else
          match (splitCast s.lambda.body).1 with
          | some type => .castChain type ⟨p, ms⟩
          | none => .simpleChain ⟨p, ms⟩ := by
  obtain ⟨argument, parameters, body⟩ := s
  obtain rfl : parameters = [p] := hp
  rfl

theorem blames_of_classify {s : Selector} {max : Nat} {r : Rejection}
    (h : s.classify max = .invalid r) : s.Blames max r := by
  by_cases hone : s.lambda.parameters.length = 1
  · obtain ⟨p, hp⟩ := List.length_eq_one_iff.mp hone
    have huncast : s.lambda.body.Uncast (splitCast s.lambda.body).2 := uncast_iff.mpr rfl
    rw [classify_of_members hp] at h
    split at h
    next r' hm =>
      obtain rfl := Verdict.invalid.inj h
      obtain ⟨hway, hbreak⟩ := members_eq_error_iff.mp hm
      exact .shape hp huncast hway hbreak
    next ms hm =>
      split at h
      next hlong =>
        obtain rfl := Verdict.invalid.inj h
        exact .length hp huncast (members_eq_ok_iff.mp hm) hlong
      next => split at h <;> cases h
  · rw [classify_of_parameters hone] at h
    obtain rfl := Verdict.invalid.inj h
    exact .parameters hone

theorem classify_of_blames {s : Selector} {max : Nat} {r : Rejection} (h : s.Blames max r) :
    s.classify max = .invalid r := by
  cases h with
  | parameters hone => exact classify_of_parameters hone max
  | length hp huncast hchain hlong =>
    rw [uncast_iff] at huncast
    rw [classify_of_members hp, huncast, members_eq_ok_iff.mpr hchain]
    simp [hlong]
  | @shape p chain x reason hp huncast hway hbreak =>
    rw [uncast_iff] at huncast
    have hm : members p chain = .error ⟨reason, x⟩ := members_eq_error_iff.mpr ⟨hway, hbreak⟩
    rw [classify_of_members hp, huncast, hm]

/-- What is blamed stands in no parentheses, unless it is the argument itself. -/
theorem Blames.bare_or_parameters {s : Selector} {max : Nat} {r : Rejection}
    (h : s.Blames max r) :
    r.offending.bare = r.offending ∨
      s.lambda.parameters.length ≠ 1 ∧
        r = ⟨.parameterCount s.lambda.parameters.length, s.argument⟩ := by
  cases h with
  | parameters hone => exact .inr ⟨hone, rfl⟩
  | length _ huncast _ _ =>
    apply Or.inl
    rw [bare_eq_self_iff]
    cases huncast with
    | cast _ _ hparen => exact hparen
    | plain _ hparen _ => exact hparen
  | shape _ _ _ hbreak =>
    apply Or.inl
    cases hbreak <;> rfl

theorem parameters_of_classify {s : Selector} {max n : Nat} {r : Rejection}
    (h : s.classify max = .invalid r) (hn : r.reason = .parameterCount n) :
    s.lambda.parameters.length = n ∧ r.offending = s.argument := by
  cases blames_of_classify h with
  | parameters _ => exact ⟨Reason.parameterCount.inj hn, rfl⟩
  | length => cases hn
  | shape _ _ _ hbreak => cases hbreak <;> cases hn

/-- **A rejection blames the first expression that breaks the pattern.** A selector is
rejected exactly if one of three things holds: it has not one parameter, and then the
argument is blamed; or its body, without one cast around it and without parentheses, is
a chain of more members than allowed, and then that chain is blamed; or only parentheses
and member accesses lead from there to an expression that breaks the pattern, and then
that expression is blamed, for the reason of its shape. Each shape but parentheses, member
accesses and the parameter breaks the pattern, for one reason. So parentheses are blamed
for nothing but the number of parameters of the lambda in them. -/
theorem rejection_blames_first_break (s : Selector) (max : Nat) (r : Rejection) :
    (s.classify max = .invalid r ↔ s.Blames max r) ∧
    (∀ p x, (∃! reason, Breaks p x reason) ↔
      (∀ inner span, x ≠ .paren inner span) ∧ (∀ receiver m span, x ≠ .member receiver m span) ∧
        ∀ span, x ≠ .identifier p span) ∧
    (s.classify max = .invalid r → ∀ inner span, r.offending = .paren inner span →
      s.lambda.parameters.length ≠ 1 ∧
        r = ⟨.parameterCount s.lambda.parameters.length, s.argument⟩) := by
  refine ⟨⟨blames_of_classify, classify_of_blames⟩, fun p x => existsUnique_breaks_iff, ?_⟩
  intro h inner span hparen
  rcases (blames_of_classify h).bare_or_parameters with hbare | hcount
  · exact absurd hparen (bare_eq_self_iff.mp hbare inner span)
  · exact hcount

/-- `((a, b) => a)`. -/
def pairSelector : Selector where
  argument := .paren (.lambda ["a", "b"] (.identifier "a"))
  lambda := { parameters := ["a", "b"], body := .identifier "a" }

/-- The parentheses around a lambda with two parameters are blamed, and for that alone. -/
theorem rejection_blames_first_break_pair :
    pairSelector.classify 1 = .invalid ⟨.parameterCount 2, pairSelector.argument⟩ ∧
      pairSelector.Blames 1 ⟨.parameterCount 2, pairSelector.argument⟩ ∧
      pairSelector.lambda.parameters.length ≠ 1 := by
  have hinvalid : pairSelector.classify 1 =
      .invalid ⟨.parameterCount 2, pairSelector.argument⟩ := rfl
  obtain ⟨hblames, _, hparens⟩ := rejection_blames_first_break pairSelector 1
    ⟨.parameterCount 2, pairSelector.argument⟩
  exact ⟨hinvalid, hblames.mp hinvalid, (hparens hinvalid _ _ rfl).1⟩

end Selector

end SelectorCheck
