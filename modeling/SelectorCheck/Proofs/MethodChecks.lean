import Mathlib.Order.Bounds.Basic
import SelectorCheck.Proofs.ValidConfig

/-
  What validation accepts, and which problem it reports.

  Four things are asked of a method that a configuration adds: its name, a calling form,
  its selector among its parameters, and names that are all different. Validation goes
  through the methods, through the checks of each method and through the names of its
  parameters, and it stops at the first thing that is wrong. Here "first" is said without
  the walk: the least entry that fails a check, the least check that it fails, and the
  least position whose name also stands before it.

  What is proved:
    1. `isLeast_of_firstRepeated`: the reported name stands at the least position that
       repeats a name.
    2. `isLeast_of_firstProblem?`: the reported entry is the least one with a problem.
    3. `says_of_methodProblem?`: the problem of an entry is its first failed check, in the
       words for that check.
    4. `validate_blames_first`: what is accepted, and the message for all the rest.
-/

namespace SelectorCheck

/-- A step to the right of a place that does not count. Both walks of validation take it. -/
theorem isLeast_succ {P : Nat → Prop} {j : Nat} (hzero : ¬ P 0)
    (h : IsLeast {k | P (k + 1)} j) : IsLeast {k | P k} (j + 1) := by
  refine ⟨h.1, fun k hk => ?_⟩
  cases k with
  | zero => exact absurd hk hzero
  | succ k => exact Nat.succ_le_succ (h.2 hk)

/-! ## The first repeated name -/

/-- The name at position `j` also stands at an earlier position. -/
def RepeatedAt (names : List String) (j : Nat) : Prop :=
  ∃ name, names[j]? = some name ∧ name ∈ names.take j

/-- The induction is on the names that are left, so names that were seen before count as
earlier too. -/
theorem isLeast_of_firstRepeated_seen {seen names : List String} {p : String}
    (h : firstRepeated seen names = some p) :
    ∃ j, IsLeast {k | ∃ name, names[k]? = some name ∧ (name ∈ seen ∨ name ∈ names.take k)} j ∧
      names[j]? = some p := by
  induction names generalizing seen with
  | nil => cases h
  | cons q names ih =>
    rw [firstRepeated] at h
    split at h
    next hq =>
      obtain rfl := Option.some.inj h
      exact ⟨0, ⟨⟨q, rfl, .inl hq⟩, fun _ _ => Nat.zero_le _⟩, rfl⟩
    next hq =>
      obtain ⟨j, hleast, hj⟩ := ih h
      refine ⟨j + 1, isLeast_succ ?_ ?_, hj⟩
      · simp [hq]
      · -- `q` has moved from the names that are left to those that were seen
        simpa [or_assoc, or_left_comm] using hleast

theorem isLeast_of_firstRepeated {names : List String} {p : String}
    (h : firstRepeated [] names = some p) :
    ∃ j, IsLeast {k | RepeatedAt names k} j ∧ names[j]? = some p := by
  simpa [RepeatedAt] using isLeast_of_firstRepeated_seen h

/-- The three ways to be inconsistent, each with what has been found in order before. -/
theorem Method.problem?_cases {m : Method} {problem : Method.Problem}
    (h : m.problem? = some problem) :
    (problem = .noForm ∧ ¬ (m.ordinary = true ∨ m.extension = true)) ∨
    (problem = .selectorUndeclared ∧ (m.ordinary = true ∨ m.extension = true) ∧
      m.selector ∉ m.parameters) ∨
    ∃ p, problem = .repeated p ∧ (m.ordinary = true ∨ m.extension = true) ∧
      m.selector ∈ m.parameters ∧ firstRepeated [] (m.receiver :: m.parameters) = some p := by
  have hforms : (!m.ordinary && !m.extension) = true ↔
      ¬ (m.ordinary = true ∨ m.extension = true) := by simp
  unfold problem? at h
  split at h
  next hform => exact .inl ⟨(Option.some.inj h).symm, hforms.mp hform⟩
  next hform =>
    have hform := not_not.mp (mt hforms.mpr hform)
    split at h
    next hselector => exact .inr (.inl ⟨(Option.some.inj h).symm, hform, hselector⟩)
    next hselector =>
      obtain ⟨p, hp, hproblem⟩ := Option.map_eq_some_iff.mp h
      exact .inr (.inr ⟨p, hproblem.symm, hform, not_not.mp hselector, hp⟩)

namespace Config

/-! ## The checks of a method -/

/-- What is asked of a method that a configuration adds. -/
inductive Check where
  | knownName
  | someForm
  | selectorDeclared
  | namesDistinct

namespace Check

/-- When a check has its turn. -/
def turn : Check → Nat
  | knownName => 0
  | someForm => 1
  | selectorDeclared => 2
  | namesDistinct => 3

instance : LE Check where
  le a b := a.turn ≤ b.turn

/-- A method passes a check. -/
def PassedBy (m : Method) : Check → Prop
  | knownName => m.name = "Ignore" ∨ m.name = "LinkAndIgnore"
  | someForm => m.ordinary = true ∨ m.extension = true
  | selectorDeclared => m.selector ∈ m.parameters
  | namesDistinct => (m.receiver :: m.parameters).Nodup

/-- The words for a method that fails a check. Of repeated names the one at the least
position is told. -/
inductive Says (m : Method) : Check → String → Prop
  | knownName :
      Says m knownName s!"unknown method '{m.name}', expected Ignore or LinkAndIgnore"
  | someForm : Says m someForm s!"method '{m.name}' allows no calling form"
  | selectorDeclared :
      Says m selectorDeclared
        s!"method '{m.name}': selector parameter '{m.selector}' is not declared"
  | namesDistinct {j : Nat} {p : String} :
      IsLeast {k | RepeatedAt (m.receiver :: m.parameters) k} j →
      (m.receiver :: m.parameters)[j]? = some p →
      Says m namesDistinct s!"method '{m.name}': duplicate parameter '{p}'"

theorem forall_passedBy_iff {m : Method} :
    (∀ check : Check, check.PassedBy m) ↔ methodProblem? m = none := by
  rw [methodProblem?_eq_none_iff, Method.problem?_eq_none_iff]
  constructor
  · intro h
    exact ⟨h knownName, h someForm, h selectorDeclared, h namesDistinct⟩
  · intro h check
    obtain ⟨hname, hform, hselector, hnodup⟩ := h
    cases check with
    | knownName => exact hname
    | someForm => exact hform
    | selectorDeclared => exact hselector
    | namesDistinct => exact hnodup

theorem isLeast_of_earlier {m : Method} {check : Check} (hfails : ¬ check.PassedBy m)
    (hearlier : ∀ earlier : Check, earlier.turn < check.turn → earlier.PassedBy m) :
    IsLeast {check | ¬ PassedBy m check} check :=
  ⟨hfails, fun other hother => Nat.not_lt.mp fun hlt => hother (hearlier other hlt)⟩

end Check

theorem MethodProblem.message_unknownName (m : Method) :
    MethodProblem.unknownName.message m =
      s!"unknown method '{m.name}', expected Ignore or LinkAndIgnore" := by
  have hexpected : "', expected " ++ (ignoreName ++ (" or " ++ linkAndIgnoreName)) =
      "', expected Ignore or LinkAndIgnore" := by decide +kernel
  calc MethodProblem.unknownName.message m
      = "unknown method '" ++ m.name ++ "', expected " ++ ignoreName ++ " or " ++
          linkAndIgnoreName := rfl
    _ = "unknown method '" ++ m.name ++ "', expected Ignore or LinkAndIgnore" := by
      simp only [String.append_assoc, hexpected]

theorem says_of_problem? {m : Method} {problem : Method.Problem}
    (hknown : Check.knownName.PassedBy m) (h : m.problem? = some problem) :
    ∃ check : Check, IsLeast {check | ¬ Check.PassedBy m check} check ∧
      check.Says m (problem.message m) := by
  obtain ⟨rfl, hform⟩ | ⟨rfl, hform, hselector⟩ | ⟨p, rfl, hform, hselector, hp⟩ :=
    Method.problem?_cases h
  · refine ⟨.someForm, Check.isLeast_of_earlier hform ?_, .someForm⟩
    intro earlier hlt
    cases earlier with
    | knownName => exact hknown
    | _ => simp [Check.turn] at hlt
  · refine ⟨.selectorDeclared, Check.isLeast_of_earlier hselector ?_, .selectorDeclared⟩
    intro earlier hlt
    cases earlier with
    | knownName => exact hknown
    | someForm => exact hform
    | _ => simp [Check.turn] at hlt
  · obtain ⟨j, hj, hget⟩ := isLeast_of_firstRepeated hp
    refine ⟨.namesDistinct, Check.isLeast_of_earlier ?_ ?_, .namesDistinct hj hget⟩
    · intro hnodup
      rw [firstRepeated_eq_none_iff.mpr ⟨hnodup, by simp⟩] at hp
      cases hp
    · intro earlier hlt
      cases earlier with
      | knownName => exact hknown
      | someForm => exact hform
      | selectorDeclared => exact hselector
      | namesDistinct => simp [Check.turn] at hlt

theorem says_of_methodProblem? {m : Method} {problem : MethodProblem}
    (h : methodProblem? m = some problem) :
    ∃ check : Check, IsLeast {check | ¬ Check.PassedBy m check} check ∧
      check.Says m (problem.message m) := by
  unfold methodProblem? at h
  split at h
  next hname =>
    obtain rfl := Option.some.inj h
    refine ⟨.knownName, Check.isLeast_of_earlier (not_or.mpr hname) ?_, ?_⟩
    · intro earlier hlt
      exact absurd hlt (Nat.not_lt_zero _)
    · rw [MethodProblem.message_unknownName]
      exact .knownName
  next hname =>
    have hknown : Check.knownName.PassedBy m := by
      by_contra hnot
      exact hname (not_or.mp hnot)
    obtain ⟨problem, hproblem, rfl⟩ := Option.map_eq_some_iff.mp h
    exact says_of_problem? hknown hproblem

/-! ## The first method that fails a check -/

/-- The induction is on the methods that are left, and `index` counts those before them. -/
theorem isLeast_of_firstProblem? {index i : Nat} {ms : List Method} {m : Method}
    {problem : MethodProblem} (h : firstProblem? index ms = some (i, m, problem)) :
    ∃ k, i = index + k ∧ IsLeast {k | ∃ m, ms[k]? = some m ∧ methodProblem? m ≠ none} k ∧
      ms[k]? = some m ∧ methodProblem? m = some problem := by
  induction ms generalizing index with
  | nil => cases h
  | cons first ms ih =>
    rw [firstProblem?] at h
    split at h
    next _ hproblem =>
      cases h
      exact ⟨0, rfl, ⟨⟨m, rfl, by simp [hproblem]⟩, fun _ _ => Nat.zero_le _⟩, rfl, hproblem⟩
    next hnone =>
      obtain ⟨k, rfl, hleast, hk, hproblem⟩ := ih h
      refine ⟨k + 1, by omega, isLeast_succ ?_ hleast, hk, hproblem⟩
      simp [hnone]

/-- Entry `i` of the added methods is `m`, no entry before it fails a check, and `check` is
the first check that `m` fails. -/
structure FirstFailure (config : Config) (i : Nat) (m : Method) (check : Check) : Prop where
  entry : config.methods[i]? = some m
  least : IsLeast {k | ∃ m, config.methods[k]? = some m ∧ ¬ ∀ check : Check, check.PassedBy m} i
  first : IsLeast {check | ¬ Check.PassedBy m check} check

theorem problem?_eq_none_iff {config : Config} :
    config.problem? = none ↔ ∀ m ∈ config.methods, ∀ check : Check, check.PassedBy m := by
  simp only [problem?, Option.map_eq_none_iff, firstProblem?_eq_none_iff,
    Check.forall_passedBy_iff]

theorem eq_of_validate {config config' : Config} (h : config.validate = .ok config') :
    config' = config := by
  unfold validate at h
  split at h
  next => cases h
  next => exact (Except.ok.inj h).symm

theorem firstFailure_of_problem? {config : Config} {e : Error} (h : config.problem? = some e) :
    ∃ i m check problem words, config.FirstFailure i m check ∧ check.Says m words ∧
      e = .method i m problem ∧ e.message = s!"Invalid config: methods[{i}]: {words}" := by
  obtain ⟨⟨i, m, problem⟩, hfirst, rfl⟩ := Option.map_eq_some_iff.mp h
  obtain ⟨k, hk, hleast, hentry, hproblem⟩ := isLeast_of_firstProblem? hfirst
  obtain rfl : i = k := by omega
  obtain ⟨check, hcheck, hsays⟩ := says_of_methodProblem? hproblem
  refine ⟨i, m, check, problem, problem.message m, ⟨hentry, ?_, hcheck⟩, hsays, rfl, rfl⟩
  simpa only [Check.forall_passedBy_iff] using hleast

/-- **Validation accepts the methods that pass every check and blames the first failure.**
A configuration is returned as it is exactly if all its added methods pass the four checks.
Otherwise the error tells the least index of a method that fails one, and the words for the
first check that this method fails. For names that are not all different, these words tell
the name at the least position whose name also stands before it. -/
theorem validate_blames_first (config : Config) :
    (∀ config', config.validate = .ok config' ↔
      config' = config ∧ ∀ m ∈ config.methods, ∀ check : Check, check.PassedBy m) ∧
    ((∃ m ∈ config.methods, ∃ check : Check, ¬ check.PassedBy m) →
      ∃ i m check problem words, config.FirstFailure i m check ∧ check.Says m words ∧
        config.validate = .error (.method i m problem) ∧
        (Error.method i m problem).message = s!"Invalid config: methods[{i}]: {words}") := by
  constructor
  · intro config'
    rw [← problem?_eq_none_iff, ← validate_eq_ok_iff]
    constructor
    · intro h
      obtain rfl := eq_of_validate h
      exact ⟨rfl, h⟩
    · rintro ⟨rfl, h⟩
      exact h
  · intro hfails
    have hsome : config.problem? ≠ none := by
      rw [ne_eq, problem?_eq_none_iff]
      push Not
      exact hfails
    obtain ⟨e, he⟩ := Option.ne_none_iff_exists'.mp hsome
    obtain ⟨i, m, check, problem, words, hfirst, hsays, rfl, hmessage⟩ :=
      firstFailure_of_problem? he
    refine ⟨i, m, check, problem, words, hfirst, hsays, ?_, hmessage⟩
    simp only [validate, he]

/-- A layout whose names repeat in another order than they come in first. -/
def crossedNames : Method where
  name := "Ignore"
  receiver := "map"
  parameters := ["selector", "selector", "map"]

def crossedNamesConfig : Config where
  methods := [{ name := "Ignore", parameters := ["selector"] }, crossedNames,
    { name := "Exclude", parameters := [] }]

/-- The second entry is blamed, and for the selector, whose repetition comes first. -/
theorem validate_blames_first_crossedNames :
    crossedNamesConfig.validate =
        .error (.method 1 crossedNames (.inconsistent (.repeated "selector"))) ∧
      ∃ check : Check, crossedNamesConfig.FirstFailure 1 crossedNames check ∧
        check.Says crossedNames "method 'Ignore': duplicate parameter 'selector'" := by
  have hrepeated : ¬ Check.namesDistinct.PassedBy crossedNames := by
    simp [Check.PassedBy, crossedNames]
  obtain ⟨i, m, check, problem, words, hfirst, hsays, herror, hmessage⟩ :=
    (validate_blames_first crossedNamesConfig).2
      ⟨crossedNames, by simp [crossedNamesConfig], .namesDistinct, hrepeated⟩
  have hvalue : crossedNamesConfig.validate =
      .error (.method 1 crossedNames (.inconsistent (.repeated "selector"))) := rfl
  rw [hvalue] at herror
  cases herror
  have hwords : "Invalid config: methods[1]: " ++ words =
      "Invalid config: methods[1]: " ++ "method 'Ignore': duplicate parameter 'selector'" :=
    hmessage.symm.trans (by decide +kernel)
  rw [String.append_right_inj] at hwords
  exact ⟨hvalue, check, hfirst, hwords ▸ hsays⟩

end Config

end SelectorCheck
