import SelectorCheck.Project

/-
  How the outcomes of files make a report.

  An outcome fails the analysis if it is an error, except for a refusal by a front
  end unless the analyzer is told to fail on it. The first outcome that fails gives
  the error of the analysis. If none does, the report holds the violations of all
  the files in order, put in order of place, and counts the files that were
  checked: refused files are skipped and not counted.
-/

namespace SelectorCheck.Analyzer

/-- The outcome makes the analysis fail with `e`. -/
def Fails (a : Analyzer) (o : FileOutcome) (e : AnalysisError) : Prop :=
  o = .error e ∧ ∀ path cause, e = .unparsable path cause → a.failOnParseError = true

def violationsIn : FileOutcome → List Violation
  | .ok violations => violations
  | .error _ => []

/-- The report on outcomes none of which fails. -/
def merged (outcomes : List FileOutcome) : Report :=
  { violations := outcomes.flatMap violationsIn, filesChecked := outcomes.countP Except.isOk }

theorem merged_cons (o : FileOutcome) (rest : List FileOutcome) :
    merged (o :: rest) = (merged [o]).append (merged rest) := by
  simp [merged, Report.append, List.countP_cons, Nat.add_comm]

theorem append_merged_nil (r : Report) : r.append (merged []) = r := by
  simp [merged, Report.append]

theorem append_assoc (r s t : Report) : (r.append s).append t = r.append (s.append t) := by
  simp [Report.append, Nat.add_assoc]

theorem collect_cons {a : Analyzer} {o : FileOutcome} (ho : ∀ e, ¬ a.Fails o e) (r : Report)
    (rest : List FileOutcome) :
    a.collect r (o :: rest) = a.collect (r.append (merged [o])) rest := by
  cases o with
  | ok violations =>
    rw [collect]
    simp [merged, violationsIn, Except.isOk, Except.toBool]
  | error e =>
    -- the only error that does not fail the analysis is a refusal
    cases e with
    | unparsable path cause =>
      have hlax : a.failOnParseError = false := by
        rw [← Bool.not_eq_true]
        exact fun hf => ho _ ⟨rfl, fun _ _ _ => hf⟩
      simp [collect, hlax, merged, violationsIn, Except.isOk, Except.toBool, Report.append]
    | _ => exact absurd ⟨rfl, fun _ _ he => by cases he⟩ (ho _)

theorem collect_of_no_failure {a : Analyzer} {outcomes : List FileOutcome} (r : Report)
    (h : ∀ o ∈ outcomes, ∀ e, ¬ a.Fails o e) :
    a.collect r outcomes = .ok (r.append (merged outcomes)) := by
  induction outcomes generalizing r with
  | nil => rw [append_merged_nil]; rfl
  | cons o rest ih =>
    rw [collect_cons (h o List.mem_cons_self), ih _ fun x hx => h x (List.mem_cons_of_mem _ hx),
      append_assoc, ← merged_cons]

theorem collect_of_failure {a : Analyzer} {before : List FileOutcome} {o : FileOutcome}
    {e : AnalysisError} (r : Report) (after : List FileOutcome)
    (hbefore : ∀ x ∈ before, ∀ e', ¬ a.Fails x e') (ho : a.Fails o e) :
    a.collect r (before ++ o :: after) = .error e := by
  induction before generalizing r with
  | nil =>
    obtain ⟨rfl, hparse⟩ := ho
    cases e with
    | unparsable path cause => simp [collect, hparse path cause rfl]
    | _ => rfl
  | cons x before ih =>
    rw [List.cons_append, collect_cons (hbefore x List.mem_cons_self)]
    exact ih _ fun y hy => hbefore y (List.mem_cons_of_mem _ hy)

theorem no_failure_or_first (a : Analyzer) (outcomes : List FileOutcome) :
    (∀ o ∈ outcomes, ∀ e, ¬ a.Fails o e) ∨
    ∃ before o after e, outcomes = before ++ o :: after ∧ a.Fails o e ∧
      ∀ x ∈ before, ∀ e', ¬ a.Fails x e' := by
  induction outcomes with
  | nil => exact .inl fun o ho => absurd ho List.not_mem_nil
  | cons o rest ih =>
    by_cases ho : ∃ e, a.Fails o e
    · obtain ⟨e, he⟩ := ho
      exact .inr ⟨[], o, rest, e, rfl, he, fun x hx => absurd hx List.not_mem_nil⟩
    have hnone : ∀ e, ¬ a.Fails o e := fun e he => ho ⟨e, he⟩
    rcases ih with h | ⟨before, x, after, e, rfl, hx, hbefore⟩
    · refine .inl fun y hy => ?_
      rcases List.mem_cons.mp hy with rfl | hy
      · exact hnone
      · exact h y hy
    · refine .inr ⟨o :: before, x, after, e, rfl, hx, fun y hy => ?_⟩
      rcases List.mem_cons.mp hy with rfl | hy
      · exact hnone
      · exact hbefore y hy

theorem conclude_eq_ok_iff {a : Analyzer} {outcomes : List FileOutcome} {r : Report} :
    a.conclude outcomes false = .ok r ↔
      (∀ o ∈ outcomes, ∀ e, ¬ a.Fails o e) ∧ r = (merged outcomes).sort := by
  rcases no_failure_or_first a outcomes with h | ⟨before, o, after, e, rfl, ho, hbefore⟩
  · have hok : a.conclude outcomes false = .ok (merged outcomes).sort := by
      simp [conclude, collect_of_no_failure _ h, Report.append]
    rw [hok]
    exact ⟨fun hr => ⟨h, (Except.ok.inj hr).symm⟩, fun hr => by rw [hr.2]⟩
  · have herr : a.conclude (before ++ o :: after) false = .error e := by
      simp [conclude, collect_of_failure _ after hbefore ho]
    rw [herr]
    constructor
    · intro hr; cases hr
    · intro hr; exact absurd ho (hr.1 o (by simp) e)

theorem conclude_eq_error_iff {a : Analyzer} {outcomes : List FileOutcome} {e : AnalysisError} :
    a.conclude outcomes false = .error e ↔
      ∃ before o after, outcomes = before ++ o :: after ∧ a.Fails o e ∧
        ∀ x ∈ before, ∀ e', ¬ a.Fails x e' := by
  constructor
  · intro herr
    rcases no_failure_or_first a outcomes with h | ⟨before, o, after, e', rfl, ho, hbefore⟩
    · rw [conclude_eq_ok_iff.mpr ⟨h, rfl⟩] at herr
      cases herr
    · simp only [conclude, collect_of_failure _ after hbefore ho] at herr
      obtain rfl := Except.error.inj herr
      exact ⟨before, o, after, rfl, ho, hbefore⟩
  · intro h
    obtain ⟨before, o, after, rfl, ho, hbefore⟩ := h
    simp [conclude, collect_of_failure _ after hbefore ho]

theorem conclude_cancelled (a : Analyzer) (outcomes : List FileOutcome) :
    ∃ e, a.conclude outcomes true = .error e := by
  unfold conclude
  cases a.collect {} outcomes with
  | error e => exact ⟨e, rfl⟩
  | ok r => exact ⟨.cancelled, rfl⟩

/-! ## The sequential pass -/

theorem report_eq_ok_iff {a : Analyzer} {files : List FoundFile} {r : Report} :
    a.report files = .ok r ↔
      (∀ f ∈ files, ∀ e, ¬ a.Fails (a.analyzeFile (.const false) f) e) ∧
        r = (merged (files.map (a.analyzeFile (.const false)))).sort := by
  show a.conclude (files.map (a.analyzeFile (.const false))) false = .ok r ↔ _
  rw [conclude_eq_ok_iff, List.forall_mem_map]

theorem report_eq_error_iff {a : Analyzer} {files : List FoundFile} {e : AnalysisError} :
    a.report files = .error e ↔
      ∃ before f after, files = before ++ f :: after ∧
        a.Fails (a.analyzeFile (.const false) f) e ∧
        ∀ g ∈ before, ∀ e', ¬ a.Fails (a.analyzeFile (.const false) g) e' := by
  show a.conclude (files.map (a.analyzeFile (.const false))) false = .error e ↔ _
  rw [conclude_eq_error_iff]
  constructor
  · intro h
    obtain ⟨before, o, after, hsplit, ho, hbefore⟩ := h
    obtain ⟨fs, gs, rfl, rfl, hgs⟩ := List.map_eq_append_iff.mp hsplit
    obtain ⟨f, after', rfl, rfl, rfl⟩ := List.map_eq_cons_iff.mp hgs
    exact ⟨fs, f, after', rfl, ho, List.forall_mem_map.mp hbefore⟩
  · intro h
    obtain ⟨before, f, after, rfl, hf, hbefore⟩ := h
    refine ⟨_, _, _, List.map_append, hf, ?_⟩
    exact List.forall_mem_map.mpr hbefore

end SelectorCheck.Analyzer
