import SelectorCheck.Proofs.Checking

/-
  An analysis rule by rule.

  The analyzer goes through the calls of a file and, at each call, through its enabled
  rules. A rule checks a file by itself by going through the calls alone. Both agree:
  each violation bears the name of the rule that raised it, so the violations of one
  rule can be picked out of the analysis, and picking them out call by call gives what
  the rule finds by itself.

  What is proved:
    1. `filter_checkCall`: picking violations by rule is picking rules.
    2. `checkCalls_rule_by_rule`: what an analysis holds of each rule, and in which order
       it holds them all.
-/

namespace SelectorCheck

namespace Rule
variable {r : Rule} {file : SourceFile} {c : Call} {v : Violation}

theorem exists_rejection_of_mem_checkCall (h : v ∈ r.checkCall file c) :
    ∃ rejection : Rejection, v ∈ rejection.violations file r.name r.severity r.diagnostics c := by
  unfold checkCall at h
  split at h
  · exact ⟨_, h⟩
  · cases h

theorem rule_of_mem_checkCall (h : v ∈ r.checkCall file c) : v.rule = r.name := by
  obtain ⟨_, h⟩ := exists_rejection_of_mem_checkCall h
  obtain ⟨d, _, rfl⟩ := List.mem_map.mp h
  rfl

theorem severity_of_mem_checkCall (h : v ∈ r.checkCall file c) : v.severity = r.severity := by
  obtain ⟨_, h⟩ := exists_rejection_of_mem_checkCall h
  obtain ⟨d, _, rfl⟩ := List.mem_map.mp h
  rfl

end Rule

namespace Analyzer

theorem withSeverity_eq (a : Analyzer) (rule : String) (v : Violation) :
    a.withSeverity rule v =
      { v with severity := (a.config.severity? rule).getD v.severity } := by
  unfold withSeverity
  cases a.config.severity? rule <;> rfl

theorem rule_of_mem_checkRule {a : Analyzer} {file : SourceFile} {c : Call} {r : Rule}
    {v : Violation} (h : v ∈ a.checkRule file c r) : v.rule = r.name := by
  obtain ⟨w, hw, rfl⟩ := List.mem_map.mp h
  have hrule : w.rule = r.name := Rule.rule_of_mem_checkCall hw
  rw [withSeverity_eq, hrule]

theorem filter_checkRule (a : Analyzer) (file : SourceFile) (c : Call) (r : Rule)
    (keep : String → Bool) :
    (a.checkRule file c r).filter (fun v => keep v.rule) =
      if keep r.name then a.checkRule file c r else [] := by
  cases hkeep : keep r.name with
  | true =>
    rw [if_pos rfl, List.filter_eq_self]
    intro v hv
    rw [rule_of_mem_checkRule hv, hkeep]
  | false =>
    rw [if_neg (by simp), List.filter_eq_nil_iff]
    intro v hv
    rw [rule_of_mem_checkRule hv, hkeep]
    simp

theorem checkCall_eq_flatMap (a : Analyzer) (file : SourceFile) (c : Call) :
    a.checkCall file c =
      a.rules.flatMap fun r => if a.config.isEnabled r.name then a.checkRule file c r else [] := by
  unfold checkCall enabledRules
  induction a.rules with
  | nil => rfl
  | cons r rest ih => cases henabled : a.config.isEnabled r.name <;> simp [henabled, ih]

theorem filter_checkCall (a : Analyzer) (file : SourceFile) (c : Call) (keep : String → Bool) :
    (a.checkCall file c).filter (fun v => keep v.rule) =
      (a.enabledRules.filter (keep ·.name)).flatMap (a.checkRule file c) := by
  unfold checkCall
  induction a.enabledRules with
  | nil => rfl
  | cons r rest ih =>
    rw [List.flatMap_cons, List.filter_append, ih, filter_checkRule]
    cases hkeep : keep r.name <;> simp [hkeep]

theorem filter_name_eq_singleton {rules : List Rule} (hnames : (rules.map Rule.name).Nodup)
    {r : Rule} (hr : r ∈ rules) : rules.filter (·.name == r.name) = [r] := by
  induction rules with
  | nil => cases hr
  | cons s rest ih =>
    obtain ⟨hs, hrest⟩ := List.nodup_cons.mp hnames
    have hfresh : ∀ t ∈ rest, t.name ≠ s.name :=
      fun t ht heq => hs (List.mem_map.mpr ⟨t, ht, heq⟩)
    rcases List.mem_cons.mp hr with rfl | hr
    · rw [List.filter_cons_of_pos (by simp), List.filter_eq_nil_iff.mpr]
      intro t ht
      simpa using hfresh t ht
    · rw [List.filter_cons_of_neg (by simpa using (hfresh r hr).symm), ih hrest hr]

theorem filter_checkCall_name {a : Analyzer} (hnames : (a.rules.map Rule.name).Nodup)
    {r : Rule} (hr : r ∈ a.rules) (file : SourceFile) (c : Call) :
    (a.checkCall file c).filter (fun v => v.rule == r.name) =
      if a.config.isEnabled r.name then a.checkRule file c r else [] := by
  -- rules of one name are enabled together, so the order of the two filters is free
  have hswap : a.enabledRules.filter (·.name == r.name) =
      (a.rules.filter (·.name == r.name)).filter (a.config.isEnabled ·.name) := by
    rw [enabledRules, List.filter_comm]
  rw [filter_checkCall a file c (· == r.name), hswap, filter_name_eq_singleton hnames hr]
  cases henabled : a.config.isEnabled r.name <;> simp [henabled]

/-- **An analysis holds of each rule what the rule finds by itself.** Let the rules have
different names and the flag never be set. The violations that bear the name of a rule
are then, in order, none if the rule is disabled, and otherwise those that the rule finds
in the calls by itself, with the configured severity if there is one. Every violation
bears the name of an enabled rule. The violations of one call stand together, in the
order of the calls, and among them those of one rule, in the order of the rules. -/
theorem checkCalls_rule_by_rule (a : Analyzer) (hnames : (a.rules.map Rule.name).Nodup)
    (file : SourceFile) (calls : List Call) :
    ∃ found, a.checkCalls file (.const false) calls = .ok found ∧
      (∀ r ∈ a.rules, found.filter (fun v => v.rule == r.name) =
        if a.config.isEnabled r.name then
          (r.check file calls).map fun v =>
            { v with severity := (a.config.severity? r.name).getD v.severity }
        else []) ∧
      (∀ v ∈ found, ∃ r ∈ a.rules, a.config.isEnabled r.name = true ∧ v.rule = r.name) ∧
      found = calls.flatMap fun c => a.rules.flatMap fun r =>
        if a.config.isEnabled r.name then
          (r.check file [c]).map fun v =>
            { v with severity := (a.config.severity? r.name).getD v.severity }
        else [] := by
  refine ⟨_, checkCalls_const_false a file calls, ?_, ?_, ?_⟩
  · intro r hr
    rw [List.filter_flatMap]
    simp only [filter_checkCall_name hnames hr]
    cases a.config.isEnabled r.name with
    | true =>
      simp only [if_true, Rule.check, List.map_flatMap, ← withSeverity_eq]
      rfl
    | false => simp
  · intro v hv
    obtain ⟨c, _, hv⟩ := List.mem_flatMap.mp hv
    obtain ⟨r, hr, hv⟩ := List.mem_flatMap.mp hv
    obtain ⟨hr, henabled⟩ := List.mem_filter.mp hr
    exact ⟨r, hr, henabled, rule_of_mem_checkRule hv⟩
  · refine List.flatMap_congr fun c _ => ?_
    simp only [checkCall_eq_flatMap, Rule.check, List.flatMap_singleton, ← withSeverity_eq]
    rfl

/-- Two rules for one method, one of them with a configured severity, and a third that is
disabled. -/
def rivals : Analyzer :=
  { shallow with
    rules := ["first", "second", "silent"].map fun name => { Rule.linkAndIgnore with name }
    config :=
      { rules :=
          [("second", { severity := some .warning }), ("silent", { enabled := some false })] } }

/-- Both speak at each of two calls, one after the other, and the severity is the second's
alone. -/
theorem checkCalls_rule_by_rule_rivals :
    (rivals.rules.map Rule.name).Nodup ∧
      ∃ found, rivals.checkCalls (rivals.sourceFile ⟨"/work/a.cs"⟩ "") (.const false)
          [crossedCall, crossedCall] = .ok found ∧
        (found.filter fun v => v.rule == "first").map (·.severity) =
          [.error, .error, .error, .error] ∧
        (found.filter fun v => v.rule == "second").map (·.severity) =
          [.warning, .warning, .warning, .warning] ∧
        (found.filter fun v => v.rule == "silent") = [] ∧
        found.map (·.rule) =
          ["first", "first", "second", "second", "first", "first", "second", "second"] := by
  have hnames : (rivals.rules.map Rule.name).Nodup := by decide
  obtain ⟨found, hok, hrule, _, hall⟩ := checkCalls_rule_by_rule rivals hnames
    (rivals.sourceFile ⟨"/work/a.cs"⟩ "") [crossedCall, crossedCall]
  refine ⟨hnames, found, hok, ?_, ?_, ?_, ?_⟩
  · rw [hrule { Rule.linkAndIgnore with name := "first" } (by decide)]
    decide +kernel
  · rw [hrule { Rule.linkAndIgnore with name := "second" } (by decide)]
    decide +kernel
  · rw [hrule { Rule.linkAndIgnore with name := "silent" } (by decide)]
    rfl
  · rw [hall]
    decide +kernel

end Analyzer

end SelectorCheck
