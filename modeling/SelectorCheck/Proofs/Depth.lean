import Mathlib.Data.List.Flatten
import SelectorCheck.Proofs.Blame
import SelectorCheck.Proofs.Checking

/-
  The limit on the number of members.

  A selector is read to its end before its members are counted. So the limit decides
  only about selectors that are chains, and it never hides another reason: a selector
  that breaks the pattern is rejected for that under every limit. A chain that is too
  long is blamed as a whole, so its place does not depend on the limit either. A higher
  limit therefore takes reports away and neither adds one nor moves one.

  What is proved:
    1. `Blames.at_depth`: how a rejection changes with the limit.
    2. `rejection?_atDepth`, `checkCall_atDepth`: the same for a rule and one call.
    3. `deeper_limit_only_removes`: what a higher limit does to the report on calls.
-/

namespace SelectorCheck

/-! ## One selector under two limits -/

namespace Selector

/-- What a selector is blamed for under one limit, it is blamed for under every other,
unless it is merely too long. -/
theorem Blames.at_depth {s : Selector} {d : Nat} {r : Rejection} (h : s.Blames d r) :
    (∀ d', s.Blames d' r) ∨
      ∃ n chain, r = ⟨.chainTooDeep n d, chain⟩ ∧ d < n ∧
        ∀ d', d' < n → s.Blames d' ⟨.chainTooDeep n d', chain⟩ := by
  cases h with
  | parameters hone => exact .inl fun d' => .parameters hone
  | shape hp huncast hway hbreak => exact .inl fun d' => .shape hp huncast hway hbreak
  | @length p chain ms hp huncast hchain hlong =>
    exact .inr ⟨ms.length, chain, rfl, hlong, fun d' => .length hp huncast hchain⟩

end Selector

/-! ## One call under two limits -/

namespace Rule
variable {r : Rule} {t : MethodTable} {c : Call} {d d' : Nat} {rejection : Rejection}

/-- The rule with another limit. -/
def atDepth (r : Rule) (d : Nat) : Rule := { r with maxDepth := d }

theorem rejection?_atDepth_eq_some_iff :
    (r.atDepth d).rejection? t c = some rejection ↔
      c.callee = r.method ∧ ∃ s, t.PassesSelector c s ∧ s.classify d = .invalid rejection :=
  rejection?_eq_some_iff

theorem rejection?_atDepth (h : (r.atDepth d).rejection? t c = some rejection) :
    (∀ d', (r.atDepth d').rejection? t c = some rejection) ∨
      ∃ s n chain, t.PassesSelector c s ∧ s.classify d = .invalid rejection ∧
        rejection = ⟨.chainTooDeep n d, chain⟩ ∧ d < n ∧
        ∀ d', d' < n → (r.atDepth d').rejection? t c = some ⟨.chainTooDeep n d', chain⟩ := by
  obtain ⟨hcallee, s, hs, hv⟩ := rejection?_atDepth_eq_some_iff.mp h
  rcases (Selector.blames_of_classify hv).at_depth with hall | ⟨n, chain, hr, hn, hless⟩
  · refine .inl fun d' => rejection?_atDepth_eq_some_iff.mpr ⟨hcallee, s, hs, ?_⟩
    exact Selector.classify_of_blames (hall d')
  · refine .inr ⟨s, n, chain, hs, hv, hr, hn, fun d' hd' => ?_⟩
    refine rejection?_atDepth_eq_some_iff.mpr ⟨hcallee, s, hs, ?_⟩
    exact Selector.classify_of_blames (hless d' hd')

theorem checkCall_atDepth (file : SourceFile)
    (h : (r.atDepth d).rejection? file.methods c = some rejection) :
    (r.atDepth d).checkCall file c =
      rejection.violations file r.name r.severity r.diagnostics c := by
  simp only [checkCall, h]
  rfl

theorem checkCall_eq_nil_of_no_rejection {file : SourceFile}
    (h : r.rejection? file.methods c = none) : r.checkCall file c = [] := by
  simp only [checkCall, h]

/-- The codes and places of the violations of a rejected call do not depend on the reason. -/
theorem places_violations (rejection : Rejection) (file : SourceFile) (rule : String)
    (severity : Severity) (descriptors : List Descriptor) (c : Call) :
    (rejection.violations file rule severity descriptors c).map (fun v => (v.code, v.location)) =
      descriptors.map fun d => (d.code, file.location rejection.offending.span) := by
  simp [Rejection.violations]

theorem places_checkCall_sublist (hd : d ≤ d') (file : SourceFile) (c : Call) :
    (((r.atDepth d').checkCall file c).map fun v => (v.code, v.location)).Sublist
      (((r.atDepth d).checkCall file c).map fun v => (v.code, v.location)) := by
  cases h : (r.atDepth d').rejection? file.methods c with
  | none =>
    rw [checkCall_eq_nil_of_no_rejection h]
    exact List.nil_sublist _
  | some rejection =>
    rw [checkCall_atDepth file h]
    rcases rejection?_atDepth h with hall | ⟨_, n, chain, -, -, rfl, hn, hless⟩
    · rw [checkCall_atDepth file (hall d)]
    · rw [checkCall_atDepth file (hless d (by omega)), places_violations, places_violations]

/-- **A higher limit only takes reports of length away.** For every rule, table, file and
list of calls and any two limits, the codes and places that are reported under the higher
limit are a sublist of those under the lower one. A call that is reported under the lower
limit and not under the higher one has a selector that is rejected for its length, and the
length lies between the two limits. A call that is rejected for any other reason under some
limit has the same violations under every limit. -/
theorem deeper_limit_only_removes (r : Rule) (file : SourceFile) (d d' : Nat) (hd : d ≤ d') :
    (∀ calls, (((r.atDepth d').check file calls).map fun v => (v.code, v.location)).Sublist
      (((r.atDepth d).check file calls).map fun v => (v.code, v.location))) ∧
    (∀ c, (r.atDepth d).checkCall file c ≠ [] → (r.atDepth d').checkCall file c = [] →
      ∃ s n chain, file.methods.PassesSelector c s ∧
        s.classify d = .invalid ⟨.chainTooDeep n d, chain⟩ ∧ d < n ∧ n ≤ d') ∧
    ∀ c limit rejection, (r.atDepth limit).rejection? file.methods c = some rejection →
      (∀ depth max, rejection.reason ≠ .chainTooDeep depth max) →
        ∀ limit', (r.atDepth limit').checkCall file c = (r.atDepth limit).checkCall file c := by
  refine ⟨fun calls => ?_, fun c hreported hsilent => ?_,
    fun c limit rejection h hother limit' => ?_⟩
  · rw [check, check, List.map_flatMap, List.map_flatMap]
    exact List.Sublist.flatMap_right calls fun c _ => places_checkCall_sublist hd file c
  · cases h : (r.atDepth d).rejection? file.methods c with
    | none => exact absurd (checkCall_eq_nil_of_no_rejection h) hreported
    | some rejection =>
      -- where the higher limit rejects the call too, it reports as many violations
      have hgone : ∀ rejection', (r.atDepth d').rejection? file.methods c ≠ some rejection' := by
        intro rejection' h'
        rw [checkCall_atDepth file h, Rejection.violations, ne_eq, List.map_eq_nil_iff] at hreported
        rw [checkCall_atDepth file h', Rejection.violations, List.map_eq_nil_iff] at hsilent
        exact hreported hsilent
      rcases rejection?_atDepth h with hall | ⟨s, n, chain, hs, hv, rfl, hn, hless⟩
      · exact absurd (hall d') (hgone _)
      · refine ⟨s, n, chain, hs, hv, hn, ?_⟩
        by_contra hlong
        exact hgone _ (hless d' (by omega))
  · rcases rejection?_atDepth h with hall | ⟨_, n, chain, -, -, rfl, -, -⟩
    · rw [checkCall_atDepth file (hall limit'), checkCall_atDepth file h]
    · exact absurd rfl (hother n limit)

/-- A call whose selector is no chain. -/
def literalLink : Call where
  callee := linkAndIgnoreName
  form := .extension
  arguments :=
    [{ position := 0, value := .literal "\"self\"" },
     { position := 1, value := .lambda ["l"] (.member (.literal "0") "Length") }]

open Analyzer in
/-- A chain of two members is reported under the limit 1 and not under 2; a literal is
reported under both, and in the same way under 7. -/
theorem deeper_limit_only_removes_crossed :
    ((linkAndIgnore.atDepth 1).check plainFile [crossedCall, literalLink]).length = 4 ∧
      ((linkAndIgnore.atDepth 2).check plainFile [crossedCall, literalLink]).length = 2 ∧
      (((linkAndIgnore.atDepth 2).check plainFile [crossedCall, literalLink]).map
        fun v => (v.code, v.location)).Sublist
          (((linkAndIgnore.atDepth 1).check plainFile [crossedCall, literalLink]).map
            fun v => (v.code, v.location)) ∧
      (∃ s n chain, plainFile.methods.PassesSelector crossedCall s ∧
        s.classify 1 = .invalid ⟨.chainTooDeep n 1, chain⟩ ∧ 1 < n ∧ n ≤ 2) ∧
      (linkAndIgnore.atDepth 7).checkCall plainFile literalLink =
        (linkAndIgnore.atDepth 1).checkCall plainFile literalLink := by
  obtain ⟨hsublist, hremoved, hother⟩ :=
    deeper_limit_only_removes linkAndIgnore plainFile 1 2 (by decide)
  refine ⟨by decide +kernel, by decide +kernel, hsublist _, ?_, ?_⟩
  · exact hremoved crossedCall (by decide +kernel) (by decide +kernel)
  · exact hother literalLink 1 ⟨.notRootedAtParameter, .literal "0"⟩ rfl (by simp) 7

end Rule

end SelectorCheck
