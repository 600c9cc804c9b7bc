import SelectorCheck.Selector

/-
  The language of usable selectors.

  `Chain p e ms` is a grammar: `e` is the parameter `p`, or a member of a chain,
  or a chain in parentheses, and `ms` are the members read from `p` outward. A
  lambda is usable if it has one parameter and its body is such a chain
  (`PlainPath`), or one cast around such a chain (`CastPath`), with no more
  members than allowed. Nothing here walks an expression: the walk is
  `Selector.members`, and the theorems say that it decides the grammar.

  What is proved:
    1. `members_eq_ok_iff`: the walk ends at the parameter exactly on chains,
       and returns their members.
    2. `classify_decides_language`: every verdict is the one the grammar asks
       for, with the path the grammar gives.
-/

namespace SelectorCheck

namespace Expr

/-- `e.Encloses x`: `e` is `x` in any number of parentheses. -/
inductive Encloses : Expr → Expr → Prop
  | refl (e : Expr) : Encloses e e
  | paren {inner x : Expr} {span : Span} : Encloses inner x → Encloses (.paren inner span) x

theorem encloses_bare : ∀ e : Expr, e.Encloses e.bare
  | .paren inner _ => .paren (encloses_bare inner)
  | .identifier .. | .member .. | .cast .. | .lambda .. | .call .. | .binary .. | .unary ..
  | .conditional .. | .element .. | .literal .. | .block .. | .other .. => .refl _

/-- What stands in parentheses and is itself bare is what `bare` finds. -/
theorem encloses_iff_bare_eq {e x : Expr} (hx : x.bare = x) : e.Encloses x ↔ e.bare = x := by
  constructor
  · intro h
    induction h with
    | refl _ => exact hx
    | paren _ ih => exact ih hx
  · intro h
    rw [← h]
    exact encloses_bare e

theorem lambda?_eq_some_iff {e : Expr} {l : Lambda} :
    e.lambda? = some l ↔ ∃ span, e.Encloses (.lambda l.parameters l.body span) := by
  constructor
  · intro h
    unfold lambda? at h
    split at h
    · next ps b s hb =>
      obtain rfl := Option.some.inj h
      exact ⟨s, (encloses_iff_bare_eq rfl).mpr hb⟩
    · cases h
  · intro h
    obtain ⟨span, h⟩ := h
    rw [encloses_iff_bare_eq rfl] at h
    simp [lambda?, h]

end Expr

namespace Selector

/-- `Chain p e ms`: `e` reads the members `ms`, from the first to the last, of
the parameter `p`. -/
inductive Chain (p : String) : Expr → List String → Prop
  | identifier {span : Span} : Chain p (.identifier p span) []
  | member {e : Expr} {ms : List String} {m : String} {span : Span} :
      Chain p e ms → Chain p (.member e m span) (ms ++ [m])
  | paren {e : Expr} {ms : List String} {span : Span} : Chain p e ms → Chain p (.paren e span) ms

/-! ## The walk decides the grammar -/

theorem members_eq_ok_iff {p : String} {e : Expr} {ms : List String} :
    members p e = .ok ms ↔ Chain p e ms := by
  constructor
  · intro h
    fun_induction members p e generalizing ms with
    | case1 inner _ ih => exact .paren (ih h)
    | case2 receiver m _ ns hr ih =>
      obtain rfl := Except.ok.inj h
      exact .member (ih hr)
    | case4 _ => obtain rfl := Except.ok.inj h; exact .identifier
    | _ => cases h
  · intro h
    induction h with
    | identifier => simp [members]
    | member _ ih => simp [members, ih]
    | paren _ ih => simpa [members] using ih

theorem members_bare (p : String) : ∀ e : Expr, members p e.bare = members p e
  | .paren inner _ => by simpa [Expr.bare, members] using members_bare p inner
  | .identifier .. | .member .. | .cast .. | .lambda .. | .call .. | .binary .. | .unary ..
  | .conditional .. | .element .. | .literal .. | .block .. | .other .. => rfl

theorem chain_bare_iff {p : String} {e : Expr} {ms : List String} :
    Chain p e.bare ms ↔ Chain p e ms := by
  rw [← members_eq_ok_iff, members_bare, members_eq_ok_iff]

theorem Chain.not_cast {p : String} {e : Expr} {ms : List String} (h : Chain p e ms)
    (type : String) (operand : Expr) (span : Span) : e.bare ≠ .cast type operand span := by
  intro hc
  rw [← chain_bare_iff, hc] at h
  cases h

theorem splitCast_of_cast {body operand : Expr} {type : String} {span : Span}
    (h : body.bare = .cast type operand span) : splitCast body = (some type, operand.bare) := by
  simp [splitCast, h]

theorem splitCast_of_not_cast {body : Expr}
    (h : ∀ type operand span, body.bare ≠ .cast type operand span) :
    splitCast body = (none, body.bare) := by
  unfold splitCast
  split
  · next t o s hb => exact absurd hb (h t o s)
  · rfl

end Selector

/-! ## Usable lambdas -/

namespace Lambda

/-- The lambda has one parameter, and its body is a chain from it with at most
`max` members; `path` is that chain. -/
structure PlainPath (l : Lambda) (max : Nat) (path : MemberPath) : Prop where
  parameters : l.parameters = [path.parameter]
  chain : Selector.Chain path.parameter l.body path.members
  short : path.depth ≤ max

/-- The lambda has one parameter, and its body is a cast to `type`, in whatever
parentheses, around a chain from the parameter with at most `max` members. -/
structure CastPath (l : Lambda) (max : Nat) (type : String) (path : MemberPath) : Prop where
  parameters : l.parameters = [path.parameter]
  chain : ∃ operand span, l.body.Encloses (.cast type operand span) ∧
    Selector.Chain path.parameter operand path.members
  short : path.depth ≤ max

/-- The lambda denotes a member path of at most `max` members. -/
def Usable (l : Lambda) (max : Nat) : Prop :=
  (∃ path, l.PlainPath max path) ∨ ∃ type path, l.CastPath max type path

end Lambda

/-- What a verdict that is no rejection says about the lambda. -/
def Verdict.Justified (l : Lambda) (max : Nat) : Verdict → Prop
  | .simpleChain path => l.PlainPath max path
  | .castChain type path => l.CastPath max type path
  | .invalid _ => True

/-- The verdict on the lambda of an argument, if the argument is one. -/
def Expr.verdict? (e : Expr) (max : Nat) : Option Verdict :=
  e.lambda?.map fun l => Selector.classify ⟨e, l⟩ max

namespace Selector

theorem classify_of_plainPath {s : Selector} {max : Nat} {path : MemberPath}
    (h : s.lambda.PlainPath max path) : s.classify max = .simpleChain path := by
  obtain ⟨hp, hc, hs⟩ := h
  have hm : members path.parameter s.lambda.body.bare = .ok path.members := by
    rw [members_bare, members_eq_ok_iff]; exact hc
  have hlen : ¬ max < path.members.length := Nat.not_lt.mpr hs
  simp [classify, hp, splitCast_of_not_cast hc.not_cast, hm, hlen]

theorem classify_of_castPath {s : Selector} {max : Nat} {type : String} {path : MemberPath}
    (h : s.lambda.CastPath max type path) : s.classify max = .castChain type path := by
  obtain ⟨hp, ⟨operand, span, he, hc⟩, hs⟩ := h
  rw [Expr.encloses_iff_bare_eq rfl] at he
  have hm : members path.parameter operand.bare = .ok path.members := by
    rw [members_bare, members_eq_ok_iff]; exact hc
  have hlen : ¬ max < path.members.length := Nat.not_lt.mpr hs
  simp [classify, hp, splitCast_of_cast he, hm, hlen]

theorem classify_justified (s : Selector) (max : Nat) :
    (s.classify max).Justified s.lambda max := by
  unfold classify
  split
  · next p hp =>
    -- whether a cast stands around the body decides which of the two paths it is
    by_cases hcast : ∃ type operand span, s.lambda.body.bare = .cast type operand span
    · obtain ⟨type, operand, span, hb⟩ := hcast
      rw [splitCast_of_cast hb]
      dsimp only
      split
      · trivial
      · next ms hm =>
        rw [members_bare, members_eq_ok_iff] at hm
        split
        · trivial
        · next hlen =>
          exact ⟨hp, ⟨operand, span, (Expr.encloses_iff_bare_eq rfl).mpr hb, hm⟩,
            Nat.not_lt.mp hlen⟩
    · rw [splitCast_of_not_cast fun t o s h => hcast ⟨t, o, s, h⟩]
      dsimp only
      split
      · trivial
      · next ms hm =>
        rw [members_bare, members_eq_ok_iff] at hm
        split
        · trivial
        · next hlen => exact ⟨hp, hm, Nat.not_lt.mp hlen⟩
  · trivial

theorem classify_eq_simpleChain_iff {s : Selector} {max : Nat} {path : MemberPath} :
    s.classify max = .simpleChain path ↔ s.lambda.PlainPath max path := by
  refine ⟨fun h => ?_, classify_of_plainPath⟩
  have hj := classify_justified s max
  rwa [h] at hj

theorem classify_eq_castChain_iff {s : Selector} {max : Nat} {type : String}
    {path : MemberPath} :
    s.classify max = .castChain type path ↔ s.lambda.CastPath max type path := by
  refine ⟨fun h => ?_, classify_of_castPath⟩
  have hj := classify_justified s max
  rwa [h] at hj

theorem classify_invalid_iff {s : Selector} {max : Nat} :
    (∃ r, s.classify max = .invalid r) ↔ ¬ s.lambda.Usable max := by
  constructor
  · intro hr hu
    obtain ⟨r, hr⟩ := hr
    rcases hu with ⟨path, h⟩ | ⟨type, path, h⟩
    · rw [classify_of_plainPath h] at hr; cases hr
    · rw [classify_of_castPath h] at hr; cases hr
  · intro h
    cases hv : s.classify max with
    | simpleChain path => exact absurd (.inl ⟨path, classify_eq_simpleChain_iff.mp hv⟩) h
    | castChain type path =>
      exact absurd (.inr ⟨type, path, classify_eq_castChain_iff.mp hv⟩) h
    | invalid r => exact ⟨r, rfl⟩

/-- **The classifier decides the language of selectors.** A verdict carries a
path exactly if the lambda denotes that path, plainly or in one cast, and every
other lambda is rejected. -/
theorem classify_decides_language (s : Selector) (max : Nat) :
    (∀ path, s.classify max = .simpleChain path ↔ s.lambda.PlainPath max path) ∧
    (∀ type path,
      s.classify max = .castChain type path ↔ s.lambda.CastPath max type path) ∧
    ((∃ r, s.classify max = .invalid r) ↔ ¬ s.lambda.Usable max) :=
  ⟨fun _ => classify_eq_simpleChain_iff, fun _ _ => classify_eq_castChain_iff,
    classify_invalid_iff⟩

end Selector

end SelectorCheck
