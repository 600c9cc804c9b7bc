import SelectorCheck.Analyzer
import SelectorCheck.Proofs.Matching

/-
  What the checker reports, call by call.

  A rule rejects a call exactly if the call names the rule's method and passes,
  for the selector of the first table entry that accepts it, a lambda outside the
  language of usable selectors. The rejection raises every diagnostic of the rule,
  in order, at one place.

  The flag of a host is read before each call. `checkCalls` is described for every
  sequence of reads: it returns the violations of all the calls if every read finds
  the flag unset, and `cancelled` otherwise.

  What is proved:
    1. `rejection?_eq_some_iff`: when a rule rejects a call, and with what.
    2. `checkCalls_eq_ok_iff`, `checkCalls_eq_error_iff`: what a list of calls
       gives under any reads of the flag.
    3. `builtIn_rules_report_exactly`: with the two built-in rules, the report on a
       list of calls is one block per call, and which block is empty is decided by
       the grammar and the correspondence of arguments with slots alone.
-/

namespace SelectorCheck

/-- The call passes a lambda for the selector that is no path of at most `max`
members. -/
def MethodTable.PassesUnusable (t : MethodTable) (max : Nat) (c : Call) : Prop :=
  ∃ s, t.PassesSelector c s ∧ ¬ s.lambda.Usable max

/-! ## One rule and one call -/

namespace Rule

theorem rejection?_eq_some_iff {r : Rule} {t : MethodTable} {c : Call} {rejection : Rejection} :
    r.rejection? t c = some rejection ↔
      c.callee = r.method ∧
        ∃ s, t.PassesSelector c s ∧ s.classify r.maxDepth = .invalid rejection := by
  constructor
  · intro h
    unfold rejection? at h
    split at h
    · cases h
    next hcallee =>
    split at h
    · cases h
    next s hs =>
    split at h
    next rejection' hv =>
      obtain rfl := Option.some.inj h
      exact ⟨Classical.not_not.mp hcallee, s, MethodTable.selector?_eq_some_iff.mp hs, hv⟩
    next => cases h
  · intro h
    obtain ⟨hcallee, s, hs, hv⟩ := h
    simp [rejection?, hcallee, MethodTable.selector?_eq_some_iff.mpr hs, hv]

theorem exists_rejection_iff {r : Rule} {t : MethodTable} {c : Call} :
    (∃ rejection, r.rejection? t c = some rejection) ↔
      c.callee = r.method ∧ t.PassesUnusable r.maxDepth c := by
  constructor
  · intro h
    obtain ⟨rejection, h⟩ := h
    obtain ⟨hcallee, s, hs, hv⟩ := rejection?_eq_some_iff.mp h
    exact ⟨hcallee, s, hs, Selector.classify_invalid_iff.mp ⟨rejection, hv⟩⟩
  · intro h
    obtain ⟨hcallee, s, hs, hu⟩ := h
    obtain ⟨rejection, hv⟩ := Selector.classify_invalid_iff.mpr hu
    exact ⟨rejection, rejection?_eq_some_iff.mpr ⟨hcallee, s, hs, hv⟩⟩

end Rule

/-- The severity of a rule's violations: the configured one, else the rule's. -/
def Config.severityOf (c : Config) (r : Rule) : Severity := (c.severity? r.name).getD r.severity

namespace Analyzer

def severityOf (a : Analyzer) (r : Rule) : Severity := a.config.severityOf r

theorem map_withSeverity_violations (a : Analyzer) (r : Rule) (rejection : Rejection)
    (file : SourceFile) (c : Call) :
    (rejection.violations file r.name r.severity r.diagnostics c).map (a.withSeverity r.name) =
      rejection.violations file r.name (a.severityOf r) r.diagnostics c := by
  unfold Rejection.violations severityOf Config.severityOf withSeverity
  cases a.config.severity? r.name <;> simp

theorem checkRule_of_rejection {a : Analyzer} {file : SourceFile} {c : Call} {r : Rule}
    {rejection : Rejection} (h : r.rejection? file.methods c = some rejection) :
    a.checkRule file c r =
      rejection.violations file r.name (a.severityOf r) r.diagnostics c := by
  rw [← map_withSeverity_violations]
  simp [checkRule, Rule.checkCall, h]

theorem checkRule_of_no_rejection {a : Analyzer} {file : SourceFile} {c : Call} {r : Rule}
    (h : r.rejection? file.methods c = none) : a.checkRule file c r = [] := by
  simp [checkRule, Rule.checkCall, h]

theorem checkRule_of_other_callee {a : Analyzer} {file : SourceFile} {c : Call} {r : Rule}
    (h : c.callee ≠ r.method) : a.checkRule file c r = [] :=
  checkRule_of_no_rejection (by simp [Rule.rejection?, h])

theorem checkRule_ne_nil_iff {a : Analyzer} {file : SourceFile} {c : Call} {r : Rule}
    (hd : r.diagnostics ≠ []) :
    a.checkRule file c r ≠ [] ↔
      c.callee = r.method ∧ file.methods.PassesUnusable r.maxDepth c := by
  rw [← Rule.exists_rejection_iff]
  cases h : r.rejection? file.methods c with
  | none => simp [checkRule_of_no_rejection h]
  | some rejection => simp [checkRule_of_rejection h, Rejection.violations, hd]

/-! ## All the calls of a file, under any reads of the flag -/

theorem checkCalls_of_unset {a : Analyzer} {file : SourceFile} {calls : List Call} :
    ∀ {reads : FlagReads}, (∀ i < calls.length, reads i = false) →
      a.checkCalls file reads calls = .ok (calls.flatMap (a.checkCall file)) := by
  induction calls with
  | nil => exact fun _ => rfl
  | cons c rest ih =>
    intro reads h
    have h0 : reads 0 = false := h 0 (by simp)
    have hrest : a.checkCalls file (fun i => reads (i + 1)) rest =
        .ok (rest.flatMap (a.checkCall file)) :=
      ih fun i hi => h (i + 1) (by simpa using hi)
    simp [checkCalls, h0, hrest]

theorem checkCalls_const_false (a : Analyzer) (file : SourceFile) (calls : List Call) :
    a.checkCalls file (.const false) calls = .ok (calls.flatMap (a.checkCall file)) :=
  checkCalls_of_unset fun _ _ => rfl

theorem checkCalls_of_set {a : Analyzer} {file : SourceFile} {calls : List Call} :
    ∀ {reads : FlagReads}, (∃ i < calls.length, reads i = true) →
      a.checkCalls file reads calls = .error .cancelled := by
  induction calls with
  | nil =>
    intro _ h
    obtain ⟨i, hi, _⟩ := h
    exact absurd hi (Nat.not_lt_zero i)
  | cons c rest ih =>
    intro reads h
    obtain ⟨i, hi, hset⟩ := h
    cases h0 : reads 0 with
    | true => simp [checkCalls, h0]
    | false =>
      -- the set read is a later one
      cases i with
      | zero => rw [h0] at hset; cases hset
      | succ i =>
        have hrest : a.checkCalls file (fun i => reads (i + 1)) rest = .error .cancelled :=
          ih ⟨i, by simpa using hi, hset⟩
        simp [checkCalls, h0, hrest]

theorem unset_or_set (reads : FlagReads) (n : Nat) :
    (∀ i < n, reads i = false) ∨ ∃ i < n, reads i = true := by
  by_cases h : ∃ i < n, reads i = true
  · exact .inr h
  · refine .inl fun i hi => ?_
    rw [← Bool.not_eq_true]
    exact fun hset => h ⟨i, hi, hset⟩

theorem checkCalls_eq_ok_iff {a : Analyzer} {file : SourceFile} {reads : FlagReads}
    {calls : List Call} {found : List Violation} :
    a.checkCalls file reads calls = .ok found ↔
      (∀ i < calls.length, reads i = false) ∧ found = calls.flatMap (a.checkCall file) := by
  constructor
  · intro h
    rcases unset_or_set reads calls.length with hu | hs
    · rw [checkCalls_of_unset hu] at h
      exact ⟨hu, (Except.ok.inj h).symm⟩
    · rw [checkCalls_of_set hs] at h
      cases h
  · intro h
    obtain ⟨hu, rfl⟩ := h
    exact checkCalls_of_unset hu

theorem checkCalls_eq_error_iff {a : Analyzer} {file : SourceFile} {reads : FlagReads}
    {calls : List Call} {e : AnalysisError} :
    a.checkCalls file reads calls = .error e ↔
      e = .cancelled ∧ ∃ i < calls.length, reads i = true := by
  constructor
  · intro h
    rcases unset_or_set reads calls.length with hu | hs
    · rw [checkCalls_of_unset hu] at h
      cases h
    · rw [checkCalls_of_set hs] at h
      exact ⟨(Except.error.inj h).symm, hs⟩
  · intro h
    obtain ⟨rfl, hs⟩ := h
    exact checkCalls_of_set hs

/-! ## The built-in rules -/

/-- The built-in rules, with the depths of the rule for `LinkAndIgnore` and of the
rule for `Ignore`. -/
def builtInWith (link ignore : Nat) : List Rule :=
  [{ Rule.linkAndIgnore with maxDepth := link }, { Rule.ignoreExpression with maxDepth := ignore }]

/-- The two rules watch different methods, so at most one of them speaks. -/
theorem checkCall_of_rule {a : Analyzer} {link ignore : Nat}
    (hrules : a.enabledRules = builtInWith link ignore) {r : Rule}
    (hr : r ∈ builtInWith link ignore) {file : SourceFile} {c : Call}
    (hcallee : c.callee = r.method) : a.checkCall file c = a.checkRule file c r := by
  have hne : linkAndIgnoreName ≠ ignoreName := by decide
  simp only [builtInWith, List.mem_cons, List.not_mem_nil, or_false] at hr
  rcases hr with rfl | rfl
  · have hother : a.checkRule file c { Rule.ignoreExpression with maxDepth := ignore } = [] :=
      checkRule_of_other_callee (by rw [hcallee]; exact hne)
    simp [checkCall, hrules, builtInWith, hother]
  · have hother : a.checkRule file c { Rule.linkAndIgnore with maxDepth := link } = [] :=
      checkRule_of_other_callee (by rw [hcallee]; exact hne.symm)
    simp [checkCall, hrules, builtInWith, hother]

theorem checkCall_ne_nil_iff {a : Analyzer} {link ignore : Nat}
    (hrules : a.enabledRules = builtInWith link ignore) {file : SourceFile} {c : Call} :
    a.checkCall file c ≠ [] ↔
      (c.callee = linkAndIgnoreName ∧ file.methods.PassesUnusable link c) ∨
      (c.callee = ignoreName ∧ file.methods.PassesUnusable ignore c) := by
  have hlink : a.checkRule file c { Rule.linkAndIgnore with maxDepth := link } ≠ [] ↔
      c.callee = linkAndIgnoreName ∧ file.methods.PassesUnusable link c :=
    checkRule_ne_nil_iff (by simp [Rule.linkAndIgnore])
  have hignore : a.checkRule file c { Rule.ignoreExpression with maxDepth := ignore } ≠ [] ↔
      c.callee = ignoreName ∧ file.methods.PassesUnusable ignore c :=
    checkRule_ne_nil_iff (by simp [Rule.ignoreExpression])
  have happend : a.checkCall file c =
      a.checkRule file c { Rule.linkAndIgnore with maxDepth := link } ++
        a.checkRule file c { Rule.ignoreExpression with maxDepth := ignore } := by
    simp [checkCall, hrules, builtInWith]
  rw [happend, ne_eq, List.append_eq_nil_iff, Classical.not_and_iff_not_or_not]
  exact or_congr hlink hignore

/-- What is reported on a call: the diagnostics of the rule for its method, for the
rejection of the selector it passes. -/
theorem exists_rule_of_checkCall_ne_nil {a : Analyzer} {link ignore : Nat}
    (hrules : a.enabledRules = builtInWith link ignore) {file : SourceFile} {c : Call}
    (h : a.checkCall file c ≠ []) :
    ∃ r ∈ builtInWith link ignore, c.callee = r.method ∧ ∃ s rejection,
      file.methods.PassesSelector c s ∧ s.classify r.maxDepth = .invalid rejection ∧
      a.checkCall file c =
        rejection.violations file r.name (a.severityOf r) r.diagnostics c := by
  obtain ⟨r, hr, hcallee, hu⟩ : ∃ r ∈ builtInWith link ignore,
      c.callee = r.method ∧ file.methods.PassesUnusable r.maxDepth c := by
    rcases (checkCall_ne_nil_iff hrules).mp h with hl | hi
    · exact ⟨_, List.mem_cons_self, hl⟩
    · exact ⟨_, List.mem_cons_of_mem _ List.mem_cons_self, hi⟩
  obtain ⟨rejection, hrej⟩ := Rule.exists_rejection_iff.mpr ⟨hcallee, hu⟩
  obtain ⟨_, s, hs, hv⟩ := Rule.rejection?_eq_some_iff.mp hrej
  refine ⟨r, hr, hcallee, s, rejection, hs, hv, ?_⟩
  rw [checkCall_of_rule hrules hr hcallee, checkRule_of_rejection hrej]

/-- **The built-in rules report exactly the unusable selectors.** With both rules
enabled and the flag never set, the calls of a file give one block of violations
each, in order. The block of a call is not empty exactly if the call is to one of
the two methods and the first table entry that accepts it has its selector
parameter bound to a lambda outside the language of that rule's depth. Then the
block holds the diagnostics of that rule, in order, for the rejection of that
lambda: a pair for `LinkAndIgnore` and a single one for `Ignore`. -/
theorem builtIn_rules_report_exactly (a : Analyzer) (link ignore : Nat)
    (hrules : a.rules = builtInWith link ignore)
    (henabled : ∀ r ∈ a.rules, a.config.isEnabled r.name = true)
    (file : SourceFile) (calls : List Call) :
    ∃ block : Call → List Violation,
      a.checkCalls file (.const false) calls = .ok (calls.flatMap block) ∧
      ∀ c,
        (block c ≠ [] ↔
          (c.callee = linkAndIgnoreName ∧ file.methods.PassesUnusable link c) ∨
          (c.callee = ignoreName ∧ file.methods.PassesUnusable ignore c)) ∧
        (block c ≠ [] →
          (∃ r ∈ a.rules, c.callee = r.method ∧ ∃ s rejection,
            file.methods.PassesSelector c s ∧ s.classify r.maxDepth = .invalid rejection ∧
            block c = rejection.violations file r.name (a.severityOf r) r.diagnostics c) ∧
          (block c).map (·.code) =
            if c.callee = linkAndIgnoreName then ["TH1001A", "TH1001B"] else ["TH1002"]) := by
  have hall : a.enabledRules = builtInWith link ignore := by
    rw [enabledRules, List.filter_eq_self.mpr henabled, hrules]
  refine ⟨a.checkCall file, checkCalls_const_false a file calls, fun c => ?_⟩
  refine ⟨checkCall_ne_nil_iff hall, fun hne => ?_⟩
  obtain ⟨r, hr, hcallee, s, rejection, hs, hv, hblock⟩ :=
    exists_rule_of_checkCall_ne_nil hall hne
  refine ⟨⟨r, hrules ▸ hr, hcallee, s, rejection, hs, hv, hblock⟩, ?_⟩
  have hcodes : (a.checkCall file c).map (·.code) = r.diagnostics.map (·.code) := by
    rw [hblock, Rejection.violations, List.map_map]
    rfl
  rw [hcodes, hcallee]
  simp only [builtInWith, List.mem_cons, List.not_mem_nil, or_false] at hr
  rcases hr with rfl | rfl
  · rfl
  · rfl

/-- A call through its type, with all arguments named and none in its own place. Its
selector is a path of two members, in parentheses. -/
def crossedCall : Call where
  callee := linkAndIgnoreName
  declaringType := some "Hal.TransformationMapExtensions"
  form := .ordinary
  arguments :=
    [{ name := some "selector", position := 0
       value := .paren (.lambda ["l"] (.member (.member (.identifier "l") "Inner") "Outer")) },
     { name := some "relation", position := 1, value := .literal "\"self\"" },
     { name := some "transformationMap", position := 2, value := .identifier "map" }]

/-- A file with the standard methods. -/
def plainFile : SourceFile := .under ⟨"/work"⟩ ⟨"/work/a.cs"⟩ ""

/-- An analyzer that allows one member to `LinkAndIgnore` and two to `Ignore`. -/
def shallow : Analyzer where
  root := ⟨"/work"⟩
  rules := builtInWith 1 2
  frontEnds := []
  excluded := []
  included := []
  methods := .standard
  config := {}
  failOnParseError := false
  workers := 1

/-- A front end that finds a call at each character and refuses a lone mark. -/
def ofCharacters (call : Char → Call) : FrontEnd where
  language := "characters"
  extensions := [".calls"]
  read := fun _ text =>
    if text = "!" then .error (.source "characters") else .ok (text.toList.map call)

/-- The line that a digit stands for. -/
def lineOf (digit : Char) : UInt64 := (digit.toNat - '0'.toNat).toUInt64

/-- One member too many is found behind the crossed arguments and the parentheses. -/
theorem builtIn_rules_report_crossedCall :
    shallow.methods.PassesUnusable 1 crossedCall ∧
      ∃ found, shallow.checkCalls (shallow.sourceFile ⟨"/work/a.cs"⟩ "") (.const false)
          [crossedCall] = .ok found ∧
        found.map (·.code) = ["TH1001A", "TH1001B"] := by
  obtain ⟨block, hok, hblock⟩ := builtIn_rules_report_exactly shallow 1 2 rfl (by decide)
    (shallow.sourceFile ⟨"/work/a.cs"⟩ "") [crossedCall]
  obtain ⟨hiff, hcodes⟩ := hblock crossedCall
  have hne : block crossedCall ≠ [] := by
    intro hnil
    have hsome : shallow.checkCalls (shallow.sourceFile ⟨"/work/a.cs"⟩ "") (.const false)
        [crossedCall] ≠ .ok [] := by decide +kernel
    exact hsome (by rw [hok]; simp [hnil])
  refine ⟨?_, [crossedCall].flatMap block, hok, ?_⟩
  · rcases hiff.mp hne with h | h
    · exact h.2
    · exact absurd h.1 (by decide)
  · rw [List.flatMap_singleton]
    exact (hcodes hne).2

end Analyzer

end SelectorCheck
