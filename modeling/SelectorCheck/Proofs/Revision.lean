import SelectorCheck.Proofs.Directory

/-
  Analyses that differ in their violations alone.

  Two analyzers may find and read the same files and differ only in what they say
  about a call: one leaves out some violations of the other, or words them differently.
  If at every call this is done to each violation by itself and keeps its place, then it
  is all that happens to the report. Which files are found and read does not depend on
  the rules, and sorting by place does not mind what is left out.

  What is proved:
    1. `mergeSort_filterMap`: a stable sort of what a revision leaves is what the revision
       leaves of the sorted list.
    2. `Revises.analyzeSource`, `Revises.analyze`: an analysis that revises another call
       by call revises its report, counts the same files and fails with the same errors.
-/

namespace SelectorCheck

/-! ## Sorting what is left -/

section Sorting
variable {α : Type} {le : α → α → Bool}
  (htrans : ∀ x y z, le x y = true → le y z = true → le x z = true)
  (htotal : ∀ x y, (le x y || le y x) = true)
include htrans htotal

theorem mergeSort_cons_of_split {x : α} {xs before after : List α}
    (hsplit : xs.mergeSort le = before ++ after) (hbefore : ∀ y ∈ before, le x y = false)
    (hafter : ∀ y ∈ after, le x y = true) : (x :: xs).mergeSort le = before ++ x :: after := by
  have hpos : ∀ y ∈ before, (!le x y) = true := by
    intro y hy
    simp [hbefore y hy]
  rw [mergeSort_cons_eq htrans htotal, hsplit, List.takeWhile_append_of_pos hpos,
    List.dropWhile_append_of_pos hpos]
  cases after with
  | nil => simp
  | cons y after => simp [hafter y List.mem_cons_self]

theorem mergeSort_filterMap {φ : α → Option α}
    (hφ : ∀ x y u v, φ x = some u → φ y = some v → le u v = le x y) (xs : List α) :
    (xs.filterMap φ).mergeSort le = (xs.mergeSort le).filterMap φ := by
  induction xs with
  | nil => simp
  | cons x xs ih =>
    obtain ⟨before, after, hwhole, hrest, hbefore⟩ := List.mergeSort_cons htrans htotal x xs
    have hsorted := List.pairwise_mergeSort htrans htotal (x :: xs)
    rw [hwhole] at hsorted
    have hafter : ∀ y ∈ after, le x y = true :=
      (List.pairwise_cons.mp (List.pairwise_append.mp hsorted).2.1).1
    rw [hrest, List.filterMap_append] at ih
    rw [hwhole, List.filterMap_append]
    cases hx : φ x with
    | none => rw [List.filterMap_cons_none hx, List.filterMap_cons_none hx, ih]
    | some u =>
      rw [List.filterMap_cons_some hx, List.filterMap_cons_some hx]
      apply mergeSort_cons_of_split htrans htotal ih
      · intro v hv
        obtain ⟨y, hy, hyv⟩ := List.mem_filterMap.mp hv
        rw [hφ x y u v hx hyv]
        simpa using hbefore y hy
      · intro v hv
        obtain ⟨y, hy, hyv⟩ := List.mem_filterMap.mp hv
        rw [hφ x y u v hx hyv]
        exact hafter y hy

end Sorting

/-! ## Revised analyses -/

/-- The report with each violation revised by itself: changed, or left out. -/
def Report.revise (φ : Violation → Option Violation) (r : Report) : Report :=
  { r with violations := r.violations.filterMap φ }

namespace Analyzer

/-- The second analyzer finds and reads what the first does, and says of every call what
`φ` makes of the violations of the first. -/
structure Revises (φ : Violation → Option Violation) (a a' : Analyzer) : Prop where
  root : a'.root = a.root
  frontEnds : a'.frontEnds = a.frontEnds
  excluded : a'.excluded = a.excluded
  included : a'.included = a.included
  methods : a'.methods = a.methods
  failOnParseError : a'.failOnParseError = a.failOnParseError
  respectGitignore : a'.config.search.respectGitignore = a.config.search.respectGitignore
  location : ∀ v w, φ v = some w → w.location = v.location
  checkCall : ∀ file c, a'.checkCall file c = (a.checkCall file c).filterMap φ

namespace Revises
variable {φ : Violation → Option Violation} {a a' : Analyzer} (h : Revises φ a a')
include h

theorem sort (r : Report) : (r.revise φ).sort = r.sort.revise φ := by
  have hplaces : ∀ v w v' w', φ v = some v' → φ w = some w' → v'.notAfter w' = v.notAfter w := by
    intro v w v' w' hv hw
    rw [Violation.notAfter, Violation.notAfter, h.location v v' hv, h.location w w' hw]
  have hcommute : (r.violations.filterMap φ).mergeSort Violation.notAfter =
      (r.violations.mergeSort Violation.notAfter).filterMap φ :=
    mergeSort_filterMap (key_trans Violation.location) (key_total Violation.location) hplaces _
  simp only [Report.sort, Report.revise, hcommute]

theorem checkCalls (file : SourceFile) (calls : List Call) : ∀ reads : FlagReads,
    a'.checkCalls file reads calls = (a.checkCalls file reads calls).map (List.filterMap φ) := by
  induction calls with
  | nil => exact fun _ => rfl
  | cons c rest ih =>
    intro reads
    simp only [Analyzer.checkCalls]
    rw [ih, h.checkCall]
    split
    · rfl
    · cases a.checkCalls file (fun i => reads (i + 1)) rest with
      | error e => rfl
      | ok found => simp [Except.map]

theorem checkText (front : FrontEnd) (reads : FlagReads) (p : Path) (text : String) :
    a'.checkText front reads p text =
      (a.checkText front reads p text).map (List.filterMap φ) := by
  simp only [Analyzer.checkText, sourceFile, h.methods, h.root]
  cases front.read a.methods text with
  | error e => rfl
  | ok calls => exact h.checkCalls _ calls reads

theorem frontEnd? (p : Path) : a'.frontEnd? p = a.frontEnd? p := by
  simp only [Analyzer.frontEnd?, h.frontEnds]

theorem analyzeSource (reads : FlagReads) (p : Path) (text : String) :
    a'.analyzeSource reads p text = (a.analyzeSource reads p text).map (Report.revise φ) := by
  simp only [Analyzer.analyzeSource, h.frontEnd?]
  cases a.frontEnd? p with
  | none => rfl
  | some front =>
    simp only [h.checkText]
    cases a.checkText front reads p text with
    | error e => rfl
    | ok found => exact congrArg Except.ok (h.sort ⟨found, 1⟩)

theorem analyzeFile (reads : FlagReads) (f : FoundFile) :
    a'.analyzeFile reads f = (a.analyzeFile reads f).map (List.filterMap φ) := by
  simp only [Analyzer.analyzeFile, h.frontEnd?]
  cases a.frontEnd? f.path with
  | none => rfl
  | some front =>
    cases f.text with
    | error message => rfl
    | ok text => exact h.checkText front reads f.path text

theorem discover (m : Machine) : a'.discover m = a.discover m := by
  have hadmitted : a'.admitted = a.admitted := by
    funext files
    simp only [admitted, handled, excludes, includes, h.frontEnd?, h.root, h.excluded, h.included]
  have hsettings : a'.ignoreSettings m = a.ignoreSettings m := by
    simp only [ignoreSettings, h.respectGitignore]
  rw [Analyzer.discover, Analyzer.discover, hadmitted, hsettings, h.root]

theorem collect (r : Report) (outcomes : List FileOutcome) :
    a'.collect (r.revise φ) (outcomes.map (Except.map (List.filterMap φ))) =
      (a.collect r outcomes).map (Report.revise φ) := by
  induction outcomes generalizing r with
  | nil => rfl
  | cons o rest ih =>
    cases o with
    | ok found =>
      have happend : (r.revise φ).append { violations := found.filterMap φ, filesChecked := 1 } =
          (r.append { violations := found, filesChecked := 1 }).revise φ := by
        simp [Report.append, Report.revise]
      simp only [List.map_cons, Except.map, Analyzer.collect]
      rw [happend]
      exact ih _
    | error e =>
      cases e with
      | unparsable path cause =>
        simp only [List.map_cons, Except.map, Analyzer.collect, h.failOnParseError]
        split
        · rfl
        · exact ih r
      | _ => rfl

theorem conclude (outcomes : List FileOutcome) (cancelled : Bool) :
    a'.conclude (outcomes.map (Except.map (List.filterMap φ))) cancelled =
      (a.conclude outcomes cancelled).map (Report.revise φ) := by
  have hcollect : a'.collect {} (outcomes.map (Except.map (List.filterMap φ))) =
      (a.collect {} outcomes).map (Report.revise φ) := h.collect {} outcomes
  simp only [Analyzer.conclude, hcollect]
  cases a.collect {} outcomes with
  | error e => rfl
  | ok r =>
    cases cancelled with
    | true => rfl
    | false => exact congrArg Except.ok (h.sort r)

theorem report (files : List FoundFile) (cancelled : Bool) :
    a'.report files cancelled = (a.report files cancelled).map (Report.revise φ) := by
  have hfile : a'.analyzeFile (.const false) =
      Except.map (List.filterMap φ) ∘ a.analyzeFile (.const false) := by
    funext f
    exact h.analyzeFile (.const false) f
  rw [Analyzer.report, Analyzer.report, ← h.conclude, hfile]
  cases cancelled <;> simp

/-- The report on a directory is revised as the violations of its calls are. -/
theorem analyze (m : Machine) (cancelled : Bool) :
    a'.analyze m cancelled = (a.analyze m cancelled).map (Report.revise φ) := by
  simp only [Analyzer.analyze, h.discover]
  cases a.discover m with
  | error e => rfl
  | ok files => exact h.report files cancelled

end Revises

/-- What holds of the violations of all calls holds of all violations of a report: leaving
out those of which it does not hold changes nothing. -/
theorem forall_of_analyze {a : Analyzer} {P : Violation → Prop}
    (hcalls : ∀ file c, ∀ v ∈ a.checkCall file c, P v) {m : Machine} {cancelled : Bool}
    {r : Report} (hr : a.analyze m cancelled = .ok r) : ∀ v ∈ r.violations, P v := by
  classical
  have hkept : Revises (Option.guard fun v => decide (P v)) a a := {
    root := rfl
    frontEnds := rfl
    excluded := rfl
    included := rfl
    methods := rfl
    failOnParseError := rfl
    respectGitignore := rfl
    location := fun v w hw => by rw [(Option.guard_eq_some_iff.mp hw).1]
    checkCall := fun file c => by
      rw [List.filterMap_eq_filter, List.filter_eq_self.mpr]
      intro v hv
      exact decide_eq_true (hcalls file c v hv) }
  have hself := hkept.analyze m cancelled
  rw [hr] at hself
  intro v hv
  rw [Except.ok.inj hself] at hv
  obtain ⟨w, _, hw⟩ := List.mem_filterMap.mp hv
  obtain ⟨rfl, hP⟩ := Option.guard_eq_some_iff.mp hw
  exact of_decide_eq_true hP

end Analyzer

end SelectorCheck
