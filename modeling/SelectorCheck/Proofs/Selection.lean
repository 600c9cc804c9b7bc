import SelectorCheck.Command.Run
import SelectorCheck.Proofs.Revision
import SelectorCheck.Proofs.RuleByRule

/-
  Choosing rules.

  A user may choose rules by a list of keys, or disable them one by one in the
  configuration. Rules are chosen before the first call is looked at, and the report is
  put in order after the last one. Still the report is the one on all the rules with
  the violations of the others crossed out: the rules keep their settings, they do not
  see each other, and crossing out commutes with sorting.

  What is proved:
    1. `find?_eq_some_iff`: no key names two built-in rules, so the first rule that
       answers to a key is the one that it names.
    2. `selectedRules_eq_filter`: the rules that a list of keys selects.
    3. `revises_select`, `revises_disable`: what becomes of the violations of a call.
    4. `selection_only_filters`: choosing and disabling rules from the set-up of an
       analysis to its report.
-/

namespace SelectorCheck

/-! ## Keys -/

namespace Rule

/-- The key is the name of the rule, or one of its codes in any case. -/
def NamedBy (r : Rule) (key : String) : Prop :=
  r.name = key ∨ Text.lower r.code = Text.lower key ∨
    ∃ d ∈ r.diagnostics, Text.lower d.code = Text.lower key

instance (r : Rule) (key : String) : Decidable (r.NamedBy key) :=
  inferInstanceAs (Decidable (_ ∨ _ ∨ ∃ d ∈ r.diagnostics, _))

theorem answersTo_iff {r : Rule} {key : String} : r.answersTo key = true ↔ r.NamedBy key := by
  simp [answersTo, NamedBy, Text.sameIgnoringCase, or_assoc]

/-- The names by which a rule is called, in small letters. -/
def calledBy (r : Rule) : List String :=
  Text.lower r.name :: Text.lower r.code :: r.diagnostics.map fun d => Text.lower d.code

theorem NamedBy.mem_calledBy {r : Rule} {key : String} (h : r.NamedBy key) :
    Text.lower key ∈ r.calledBy := by
  unfold calledBy
  rcases h with rfl | h | ⟨d, hd, h⟩
  · simp
  · simp [h]
  · rw [← h]
    exact List.mem_cons_of_mem _ (List.mem_cons_of_mem _ (List.mem_map.mpr ⟨d, hd, rfl⟩))

theorem eq_of_namedBy {r s : Rule} {key : String} (hr : r ∈ builtIn) (hs : s ∈ builtIn)
    (hrkey : r.NamedBy key) (hskey : s.NamedBy key) : r = s := by
  have hdisjoint : ∀ r ∈ builtIn, ∀ s ∈ builtIn, r ≠ s →
      ∀ name ∈ r.calledBy, name ∉ s.calledBy := by decide +kernel
  by_contra hne
  exact hdisjoint r hr s hs hne _ hrkey.mem_calledBy hskey.mem_calledBy

theorem find?_eq_some_iff {key : String} {r : Rule} :
    find? key = some r ↔ r ∈ builtIn ∧ r.NamedBy key := by
  unfold find?
  constructor
  · intro h
    have hkey := List.find?_some (p := fun r : Rule => r.answersTo key) h
    exact ⟨List.mem_of_find?_eq_some h, answersTo_iff.mp hkey⟩
  · intro h
    obtain ⟨hr, hkey⟩ := h
    cases hfind : builtIn.find? (·.answersTo key) with
    | none => exact absurd (answersTo_iff.mpr hkey) (List.find?_eq_none.mp hfind r hr)
    | some s =>
      have hskey := List.find?_some (p := fun r : Rule => r.answersTo key) hfind
      have hs := List.mem_of_find?_eq_some hfind
      rw [eq_of_namedBy hr hs hkey (answersTo_iff.mp hskey)]

end Rule

namespace Command

/-- The list holds a key for the built-in rule of this name. -/
def Wanted (list name : String) : Prop :=
  ∃ r ∈ Rule.builtIn, r.name = name ∧ ∃ key ∈ keysOf list, r.NamedBy key

instance (list name : String) : Decidable (Wanted list name) :=
  inferInstanceAs (Decidable (∃ r ∈ Rule.builtIn, _ ∧ ∃ key ∈ keysOf list, _))

theorem selectedRules_eq_filter (c : Config) (list : String) :
    selectedRules c (keysOf list) = c.builtInRules.filter fun r => decide (Wanted list r.name) := by
  unfold selectedRules
  refine List.filter_congr fun r _ => ?_
  rw [Bool.eq_iff_iff, List.contains_iff_mem, decide_eq_true_iff]
  simp only [List.mem_filterMap, Option.map_eq_some_iff, Rule.find?_eq_some_iff]
  constructor
  · intro h
    obtain ⟨key, hkey, s, ⟨hs, hnamed⟩, hname⟩ := h
    exact ⟨s, hs, hname, key, hkey, hnamed⟩
  · intro h
    obtain ⟨s, hs, hname, key, hkey, hnamed⟩ := h
    exact ⟨key, hkey, s, ⟨hs, hnamed⟩, hname⟩

end Command

/-! ## Disabling a rule -/

namespace Config

/-- The configuration with a rule disabled and its other settings as they were. -/
def disable (c : Config) (rule : String) : Config :=
  { c with
    rules := (rule, { (c.settings? rule).getD {} with enabled := some false }) ::
      c.rules.filter (·.1 != rule) }

theorem search_disable (c : Config) (rule : String) : (c.disable rule).search = c.search := rfl

theorem methodTable_disable (c : Config) (rule : String) :
    (c.disable rule).methodTable = c.methodTable := rfl

theorem settings?_disable_self (c : Config) (rule : String) :
    (c.disable rule).settings? rule =
      some { (c.settings? rule).getD {} with enabled := some false } := by
  simp [disable, settings?]

theorem settings?_disable_of_ne (c : Config) {rule other : String} (h : other ≠ rule) :
    (c.disable rule).settings? other = c.settings? other := by
  have hrest : (c.rules.filter (·.1 != rule)).lookup other = c.rules.lookup other := by
    induction c.rules with
    | nil => rfl
    | cons entry rest ih =>
      obtain ⟨name, settings⟩ := entry
      by_cases hname : name = rule
      · rw [List.filter_cons_of_neg (by simp [hname]), ih, hname, List.lookup_cons,
          beq_false_of_ne h]
      · rw [List.filter_cons_of_pos (by simpa using hname), List.lookup_cons, List.lookup_cons, ih]
  simp only [disable, settings?, List.lookup_cons, beq_false_of_ne h, hrest]

theorem isEnabled_disable (c : Config) (rule other : String) :
    (c.disable rule).isEnabled other = (c.isEnabled other && other != rule) := by
  by_cases h : other = rule
  · subst h
    simp [isEnabled, settings?_disable_self]
  · simp [isEnabled, settings?_disable_of_ne c h, h]

theorem severity?_disable (c : Config) (rule other : String) :
    (c.disable rule).severity? other = c.severity? other := by
  by_cases h : other = rule
  · subst h
    rw [severity?, severity?, settings?_disable_self]
    cases c.settings? other <;> rfl
  · rw [severity?, severity?, settings?_disable_of_ne c h]

theorem builtInRules_disable (c : Config) (rule : String) :
    (c.disable rule).builtInRules = c.builtInRules := by
  have hdepth : ∀ other, (c.disable rule).depth? other = c.depth? other := by
    intro other
    by_cases h : other = rule
    · subst h
      rw [depth?, depth?, settings?_disable_self]
      cases c.settings? other <;> rfl
    · rw [depth?, depth?, settings?_disable_of_ne c h]
  have happly : (c.disable rule).applyTo = c.applyTo := by
    funext r
    simp only [applyTo, hdepth]
  rw [builtInRules, builtInRules, happly]

end Config

/-! ## Fewer rules, fewer violations -/

/-- The report with only the violations of the rules that are kept. -/
def Report.ofRules (keep : String → Bool) (r : Report) : Report :=
  { r with violations := r.violations.filter fun v => keep v.rule }

/-- Keeps a violation if its rule is kept. -/
def keepRule (keep : String → Bool) : Violation → Option Violation :=
  Option.guard fun v => keep v.rule

theorem filterMap_keepRule (keep : String → Bool) (vs : List Violation) :
    vs.filterMap (keepRule keep) = vs.filter fun v => keep v.rule := by
  rw [keepRule, List.filterMap_eq_filter]

theorem Report.revise_keepRule (keep : String → Bool) :
    Report.revise (keepRule keep) = Report.ofRules keep := by
  funext r
  rw [revise, ofRules, filterMap_keepRule]

theorem location_of_keepRule {keep : String → Bool} (v w : Violation)
    (h : keepRule keep v = some w) : w.location = v.location := by
  obtain ⟨rfl, _⟩ := Option.guard_eq_some_iff.mp h
  rfl

namespace Analyzer

/-- With some rules taken away, the others say what they said. -/
theorem revises_select (a : Analyzer) (keep : String → Bool) :
    Revises (keepRule keep) a { a with rules := a.rules.filter (keep ·.name) } where
  root := rfl
  frontEnds := rfl
  excluded := rfl
  included := rfl
  methods := rfl
  failOnParseError := rfl
  respectGitignore := rfl
  location := location_of_keepRule
  checkCall file c := by
    rw [filterMap_keepRule, filter_checkCall]
    simp only [checkCall, enabledRules]
    rw [List.filter_comm]
    rfl

theorem revises_disable (a : Analyzer) (rule : String) :
    Revises (keepRule (· != rule)) a { a with config := a.config.disable rule } where
  root := rfl
  frontEnds := rfl
  excluded := rfl
  included := rfl
  methods := rfl
  failOnParseError := rfl
  respectGitignore := rfl
  location := location_of_keepRule
  checkCall file c := by
    have hrule : ({ a with config := a.config.disable rule } : Analyzer).checkRule file c =
        a.checkRule file c := by
      funext r
      refine List.map_congr_left fun v _ => ?_
      simp only [withSeverity_eq, Config.severity?_disable]
    rw [filterMap_keepRule, filter_checkCall a file c (· != rule), checkCall, hrule]
    simp only [enabledRules, Config.isEnabled_disable, List.filter_filter, Bool.and_comm]

namespace Setup

/-- The report on a directory by the analyzer of a set-up. -/
def directoryReport (s : Setup) (current : Path) (processors : Nat) (m : Machine)
    (cancelled : Bool) : Except AnalysisError Report :=
  match s.build current processors with
  | .error e => .error e
  | .ok a => a.analyze m cancelled

/-- The report on a text by the analyzer of a set-up. -/
def sourceReport (s : Setup) (current : Path) (processors : Nat) (reads : FlagReads) (p : Path)
    (text : String) : Except AnalysisError Report :=
  match s.build current processors with
  | .error e => .error e
  | .ok a => a.analyzeSource reads p text

/-- Whatever is analyzed, the second set-up counts the files that the first does, fails
as it does, and reports those of its violations whose rules are kept. -/
structure ReportsOnly (keep : String → Bool) (s s' : Setup) : Prop where
  directory : ∀ current processors m cancelled,
    s'.directoryReport current processors m cancelled =
      (s.directoryReport current processors m cancelled).map (Report.ofRules keep)
  source : ∀ current processors reads p text,
    s'.sourceReport current processors reads p text =
      (s.sourceReport current processors reads p text).map (Report.ofRules keep)

/-- It is enough that the second set-up makes a revised analyzer. -/
theorem reportsOnly_of_build {keep : String → Bool} {s s' : Setup} {change : Analyzer → Analyzer}
    (hbuild : ∀ current processors,
      s'.build current processors = (s.build current processors).map change)
    (hrevises : ∀ a, Revises (keepRule keep) a (change a)) : ReportsOnly keep s s' := by
  constructor
  · intro current processors m cancelled
    simp only [directoryReport, hbuild]
    cases s.build current processors with
    | error e => rfl
    | ok a => rw [← Report.revise_keepRule]; exact (hrevises a).analyze m cancelled
  · intro current processors reads p text
    simp only [sourceReport, hbuild]
    cases s.build current processors with
    | error e => rfl
    | ok a => rw [← Report.revise_keepRule]; exact (hrevises a).analyzeSource reads p text

/-- **Choosing rules only filters the report.** With the rules that a list of keys selects,
a set-up reports on every directory and on every text those violations, in their order,
that it reports with all the built-in rules and whose rules the list names. Only the set
of the keys matters. With one more rule disabled, it reports all violations but those of
that rule. In both cases it counts the same files and fails with the same errors. -/
theorem selection_only_filters (s : Setup) (list : String) :
    ReportsOnly (fun name => decide (Command.Wanted list name))
      { s with rules := s.config.builtInRules }
      { s with rules := Command.selectedRules s.config (Command.keysOf list) } ∧
    (∀ list', (∀ key, key ∈ Command.keysOf list' ↔ key ∈ Command.keysOf list) →
      Command.selectedRules s.config (Command.keysOf list') =
        Command.selectedRules s.config (Command.keysOf list)) ∧
    ∀ rule, ReportsOnly (· != rule)
      { s with rules := s.config.builtInRules }
      { s with
        rules := (s.config.disable rule).builtInRules
        config := s.config.disable rule } := by
  refine ⟨?_, ?_, ?_⟩
  · rw [Command.selectedRules_eq_filter]
    apply reportsOnly_of_build _ fun a => revises_select a _
    intro current processors
    simp only [build]
    split <;> rfl
  · intro list' hkeys
    have hwanted : ∀ name, Command.Wanted list' name ↔ Command.Wanted list name := by
      intro name
      simp only [Command.Wanted, hkeys]
    simp only [Command.selectedRules_eq_filter, hwanted]
  · intro rule
    apply reportsOnly_of_build _ fun a => revises_disable a rule
    intro current processors
    simp only [build, Config.builtInRules_disable, Config.search_disable,
      Config.methodTable_disable]
    split <;> rfl

/-- Keys in another order and number, with blanks around them and one that names no rule,
select the same rule. -/
theorem selection_only_filters_by_keys :
    (Command.selectedRules {} (Command.keysOf "TH1001A,th1001b,TH9999")).map Rule.name =
        ["incorrect-link-and-ignore"] ∧
      Command.selectedRules {} (Command.keysOf " TH9999, th1001b ,TH1001A,th1001b") =
        Command.selectedRules {} (Command.keysOf "TH1001A,th1001b,TH9999") := by
  refine ⟨by decide +kernel, ?_⟩
  have hkeys : Command.keysOf "TH1001A,th1001b,TH9999" = ["TH1001A", "th1001b", "TH9999"] := by
    decide +kernel
  have hothers : Command.keysOf " TH9999, th1001b ,TH1001A,th1001b" =
      ["TH9999", "th1001b", "TH1001A", "th1001b"] := by decide +kernel
  apply (selection_only_filters { rules := [], frontEnds := [] } "TH1001A,th1001b,TH9999").2.1
  intro key
  rw [hkeys, hothers]
  simp only [List.mem_cons, List.not_mem_nil, or_false]
  tauto

end Setup

end Analyzer

end SelectorCheck
