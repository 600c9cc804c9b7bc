import Mathlib.Data.List.Nodup
import SelectorCheck.Proofs.Order
import SelectorCheck.Proofs.Outcomes
import SelectorCheck.Proofs.Workers

/-
  Analyses by many workers.

  However many workers share the files, in whatever order they take their steps and
  in whatever order the files were found, a finished run reports what one pass over
  the sorted files reports. The host may set the flag at any moment. A run then
  still reports the whole analysis or fails; it never reports a part of it.

  What is proved:
    1. `State.Completed.analyzedOnce`: in a completed run each file was analyzed by
       one worker and once.
    2. `parallel_eq_sequential`: without cancellation, the report of a finished run
       is that of the sequential pass, and its error that of the first failing file.
    3. `cancellation_never_partial`: with cancellation at any point, a report that
       succeeds is that of the whole analysis, and a worker or a file that was
       stopped by the flag makes the run fail.
-/

namespace SelectorCheck.Workers

variable {a : Analyzer} {files : List FoundFile} {n : Nat} {schedule : List Action}

/-! ## Each file is analyzed once -/

/-- One worker has kept one outcome for the index, and the others have kept none. -/
def State.AnalyzedOnce (s : State) (i : Nat) : Prop :=
  ∃ before w after, s.workers = before ++ w :: after ∧
    (w.done.map (·.index)).count i = 1 ∧ ∀ v ∈ before ++ after, i ∉ v.done.map (·.index)

/-- An element that occurs once in all the lists of a family occurs once in one of
them and not in the others. -/
theorem exists_split_of_count_flatMap {α : Type} {g : α → List Nat} {i : Nat} :
    ∀ {xs : List α}, (xs.flatMap g).count i = 1 →
      ∃ before x after, xs = before ++ x :: after ∧
        (g x).count i = 1 ∧ ∀ y ∈ before ++ after, i ∉ g y := by
  intro xs
  induction xs with
  | nil => intro h; simp at h
  | cons x rest ih =>
    intro h
    rw [List.flatMap_cons, List.count_append] at h
    by_cases hx : (g x).count i = 0
    · -- the occurrence is in a later list
      have hrest : (rest.flatMap g).count i = 1 := by omega
      obtain ⟨before, y, after, rfl, hy, hothers⟩ := ih hrest
      refine ⟨x :: before, y, after, rfl, hy, ?_⟩
      intro z hz
      rcases List.mem_cons.mp hz with rfl | hz
      · exact List.count_eq_zero.mp hx
      · exact hothers z hz
    · have hone : (g x).count i = 1 := by omega
      have hrest : (rest.flatMap g).count i = 0 := by omega
      refine ⟨[], x, rest, rfl, hone, ?_⟩
      intro z hz hmem
      exact List.count_eq_zero.mp hrest (List.mem_flatMap.mpr ⟨z, hz, hmem⟩)

theorem State.Completed.analyzedOnce {s : State} (h : s.Completed a files) {i : Nat}
    (hi : i < files.length) : s.AnalyzedOnce i := by
  have hcount : (s.done.map (·.index)).count i = 1 := by
    rw [h.indices.count_eq]
    exact List.count_eq_one_of_mem List.nodup_range (List.mem_range.mpr hi)
  rw [State.done, List.map_flatMap] at hcount
  exact exists_split_of_count_flatMap hcount

/-! ## The report and the flag -/

theorem flag_of_no_cancel (h : .cancel ∉ schedule) :
    ((start n).run a files schedule).flag = false := by
  rw [run_flag]
  simp [start, h]

theorem State.Completed.report_eq {s : State} (h : s.Completed a files)
    (hflag : s.flag = false) : s.report a = a.report files := by
  unfold State.report
  rw [h.outcomes_eq, hflag]
  rfl

theorem report_of_set {s : State} (h : s.flag = true) : ∃ e, s.report a = .error e := by
  unfold State.report
  rw [h]
  exact Analyzer.conclude_cancelled a s.outcomes

theorem unset_of_report_ok {s : State} {r : Report} (h : s.report a = .ok r) : s.flag = false := by
  cases hflag : s.flag with
  | false => rfl
  | true =>
    obtain ⟨e, he⟩ := @report_of_set a s hflag
    rw [h] at he
    cases he

/-- **Parallel analysis equals sequential analysis.** For any number of workers and
any order in which the files were found, every run can be finished, and however the
workers took their steps in a finished run that was not cancelled, each file was
analyzed by one worker and once, and the report is that of one pass over the files
in the order of their paths. It fails with the error of the first file that fails,
and otherwise holds the violations of all the files. -/
theorem parallel_eq_sequential (a : Analyzer) (found walked : List FoundFile) (n : Nat)
    (hwalk : walked.Perm found)
    (hplaces : found.Pairwise fun f g => f.path.components ≠ g.path.components) (hn : 0 < n) :
    (∀ begun, .cancel ∉ begun → ∃ more, .cancel ∉ more ∧
      ((start n).run a (a.admitted walked) (begun ++ more)).finished = true) ∧
    (a.admitted found).Pairwise (fun f g => (f.path.compare g.path).isLE = true) ∧
    ∀ schedule s, .cancel ∉ schedule → s = (start n).run a (a.admitted walked) schedule →
      s.finished = true →
      (∀ i < (a.admitted found).length, s.AnalyzedOnce i) ∧
      (∀ d ∈ s.done, ∃ f, (a.admitted found)[d.index]? = some f ∧
        d.passed = (a.callSites f).length ∧ d.outcome = a.analyzeFile (.const false) f) ∧
      s.report a = a.report (a.admitted found) ∧
      (∀ m, (a.ignoreSettings m).search a.root = .ok found → s.report a = a.analyze m) ∧
      (∀ e, s.report a = .error e ↔
        ∃ before f after, a.admitted found = before ++ f :: after ∧
          a.Fails (a.analyzeFile (.const false) f) e ∧
          ∀ g ∈ before, ∀ e', ¬ a.Fails (a.analyzeFile (.const false) g) e') ∧
      (∀ r, s.report a = .ok r ↔
        (∀ f ∈ a.admitted found, ∀ e, ¬ a.Fails (a.analyzeFile (.const false) f) e) ∧
          r = (Analyzer.merged ((a.admitted found).map (a.analyzeFile (.const false)))).sort) := by
  rw [a.admitted_eq_of_perm hwalk hplaces]
  refine ⟨?_, a.admitted_sorted found, ?_⟩
  · intro begun _
    obtain ⟨more, hmore, hfin⟩ :=
      @exists_finishing a (a.admitted found) ((start n).run a (a.admitted found) begun)
    exact ⟨more, hmore, by rw [run_append]; exact hfin⟩
  · intro schedule s hcancel hs hfin
    subst hs
    have hflag := @flag_of_no_cancel a (a.admitted found) n schedule hcancel
    have hdone := completed_of_unset hn hfin hflag
    have hreport := hdone.report_eq hflag
    refine ⟨fun i hi => hdone.analyzedOnce hi, hdone.outcome, hreport, ?_, ?_, ?_⟩
    · intro m hm
      rw [hreport, Analyzer.analyze, Analyzer.discover, hm]
      rfl
    · intro e
      rw [hreport]
      exact Analyzer.report_eq_error_iff
    · intro r
      rw [hreport]
      exact Analyzer.report_eq_ok_iff

def marksAnalyzer : Analyzer :=
  { Analyzer.shallow with frontEnds := [Analyzer.ofCharacters fun _ => Analyzer.crossedCall] }

/-- Two calls, then a file that is refused, then one call. -/
def markedFiles : List FoundFile :=
  [⟨⟨"/work/a.calls"⟩, .ok "xy".toUTF8⟩, ⟨⟨"/work/b.calls"⟩, .ok "!".toUTF8⟩,
    ⟨⟨"/work/c.calls"⟩, .ok "x".toUTF8⟩]

/-- A file that is refused, then two that cannot be read, for different reasons. -/
def unreadableFiles : List FoundFile :=
  [⟨⟨"/work/a.calls"⟩, .ok "!".toUTF8⟩, ⟨⟨"/work/b.calls"⟩, .error ⟨"Input/output error", 5⟩⟩,
    ⟨⟨"/work/c.calls"⟩, .error .refused⟩]

/-- Two workers take turns. -/
def turns (rounds : Nat) : List Action := (List.replicate rounds [.work 0, .work 1]).flatten

/-- The files are analyzed in the given order, and two workers get through them, also if
they were found the other way round. -/
theorem finished_turns {files : List FoundFile}
    (hplaces : files.Pairwise fun f g => f.path.components ≠ g.path.components)
    (hkept : (marksAnalyzer.handled files).filter
      (fun f => !marksAnalyzer.excludes f.path && marksAnalyzer.includes f.path) = files)
    (hsorted : files.Pairwise fun f g => (f.path.compare g.path != .gt) = true)
    (hfinished : ((start 2).run marksAnalyzer files (turns 12)).finished = true) :
    marksAnalyzer.admitted files = files ∧
      ((start 2).run marksAnalyzer (marksAnalyzer.admitted files.reverse)
        (turns 12)).finished = true := by
  have hadmitted : marksAnalyzer.admitted files = files := by
    rw [Analyzer.admitted, hkept]
    exact List.mergeSort_of_pairwise hsorted
  refine ⟨hadmitted, ?_⟩
  rw [marksAnalyzer.admitted_eq_of_perm (List.reverse_perm files) hplaces, hadmitted]
  exact hfinished

theorem not_fails_marked {files : List FoundFile}
    (h : ∀ f ∈ files, (marksAnalyzer.analyzeFile (.const false) f).isOk = true ∨
      marksAnalyzer.analyzeFile (.const false) f =
        .error (.unparsable f.path (.source "characters"))) :
    ∀ f ∈ files, ∀ e, ¬ marksAnalyzer.Fails (marksAnalyzer.analyzeFile (.const false) f) e := by
  intro f hf e hfails
  obtain ⟨herr, hparse⟩ := hfails
  rcases h f hf with hok | hrefused
  · rw [herr] at hok; cases hok
  · have he := Except.error.inj (herr.symm.trans hrefused)
    exact absurd (hparse _ _ he) (by decide)

/-- Two workers on files that were found in another order: the refused file is skipped and
not counted, and of two files that cannot be read the first is reported, with its own
error. -/
theorem parallel_eq_sequential_of_turns :
    (∃ s r, s = (start 2).run marksAnalyzer (marksAnalyzer.admitted markedFiles.reverse)
        (turns 12) ∧
      s.finished = true ∧ s.AnalyzedOnce 1 ∧ s.report marksAnalyzer = .ok r ∧
      r.filesChecked = 2) ∧
    ∃ s, s = (start 2).run marksAnalyzer (marksAnalyzer.admitted unreadableFiles.reverse)
        (turns 12) ∧
      s.finished = true ∧
      s.report marksAnalyzer = .error (.unreadable "Input/output error (os error 5)") := by
  refine ⟨?_, ?_⟩
  · have hplaces : markedFiles.Pairwise fun f g => f.path.components ≠ g.path.components := by
      decide +kernel
    obtain ⟨hadmitted, hfin⟩ :=
      finished_turns hplaces rfl (by decide +kernel) (by decide +kernel)
    obtain ⟨_, _, hruns⟩ := parallel_eq_sequential marksAnalyzer markedFiles markedFiles.reverse 2
      (List.reverse_perm _) hplaces (by decide)
    obtain ⟨honce, _, _, _, _, hok⟩ := hruns (turns 12) _ (by decide) rfl hfin
    rw [hadmitted] at honce hok
    have hnone := @not_fails_marked markedFiles (by decide +kernel)
    exact ⟨_, _, rfl, hfin, honce 1 (by decide), (hok _).mpr ⟨hnone, rfl⟩, by decide +kernel⟩
  · have hplaces : unreadableFiles.Pairwise fun f g => f.path.components ≠ g.path.components := by
      decide +kernel
    obtain ⟨hadmitted, hfin⟩ :=
      finished_turns hplaces rfl (by decide +kernel) (by decide +kernel)
    obtain ⟨_, _, hruns⟩ := parallel_eq_sequential marksAnalyzer unreadableFiles
      unreadableFiles.reverse 2 (List.reverse_perm _) hplaces (by decide)
    obtain ⟨_, _, _, _, herror, _⟩ := hruns (turns 12) _ (by decide) rfl hfin
    rw [hadmitted] at herror
    refine ⟨_, rfl, hfin, (herror _).mpr ?_⟩
    refine ⟨unreadableFiles.take 1, unreadableFiles[1], unreadableFiles.drop 2, rfl, ?_, ?_⟩
    · exact ⟨by decide +kernel, by simp⟩
    · exact not_fails_marked (by decide +kernel)

/-! ## What the flag stops -/

theorem analyzeFile_eq_cancelled_iff {reads : FlagReads} {f : FoundFile} :
    a.analyzeFile reads f = .error .cancelled ↔
      ∃ i < (a.callSites f).length, reads i = true := by
  rw [Analyzer.analyzeFile_eq]
  unfold Analyzer.callSites
  cases ho : a.opening f with
  | settled outcome =>
    constructor
    · intro h
      dsimp only at h
      rw [h] at ho
      exact absurd ho (a.opening_ne_cancelled f)
    · intro h
      obtain ⟨i, hi, _⟩ := h
      exact absurd hi (Nat.not_lt_zero i)
  | calls file calls =>
    show a.checkCalls file reads calls = .error .cancelled ↔ ∃ i < calls.length, reads i = true
    rw [Analyzer.checkCalls_eq_error_iff]
    simp

/-- What a worker keeps for a file, under any schedule. The outcome is that of the
file under the reads the worker made, and it is cancelled exactly if the worker left
the file before its last call site; then the flag is set. -/
theorem done_outcome {d : Done} (hd : d ∈ ((start n).run a files schedule).done) :
    ∃ f, files[d.index]? = some f ∧ d.outcome = a.analyzeFile (setFrom d.passed) f ∧
      (d.outcome = .error .cancelled ↔ d.passed < (a.callSites f).length) ∧
      (d.outcome = .error .cancelled → ((start n).run a files schedule).flag = true) := by
  obtain ⟨w, hw, hdw⟩ := List.mem_flatMap.mp hd
  obtain ⟨f, hf, ho, _, hlt⟩ := (run_sound n schedule w hw).done d hdw
  have hcancelled : d.outcome = .error .cancelled ↔ d.passed < (a.callSites f).length := by
    rw [ho, analyzeFile_eq_cancelled_iff]
    constructor
    · intro h
      obtain ⟨i, hi, hset⟩ := h
      have hle : d.passed ≤ i := of_decide_eq_true hset
      omega
    · intro h
      exact ⟨d.passed, h, decide_eq_true (Nat.le_refl _)⟩
  exact ⟨f, hf, ho, hcancelled, fun h => hlt (hcancelled.mp h)⟩

theorem flag_of_phase_cancelled {w : Worker} (hw : w ∈ ((start n).run a files schedule).workers)
    (hphase : w.phase = .cancelled) : ((start n).run a files schedule).flag = true := by
  have hsound := (run_sound n schedule w hw).phase
  rw [hphase] at hsound
  exact hsound

/-- A file that nobody claimed in a finished run was left because of the flag. -/
theorem flag_of_unclaimed (hn : 0 < n)
    (hfin : ((start n).run a files schedule).finished = true) {i : Nat} (hi : i < files.length)
    (hleft : i ∉ ((start n).run a files schedule).claimed) :
    ((start n).run a files schedule).flag = true := by
  cases hflag : ((start n).run a files schedule).flag with
  | true => rfl
  | false =>
    have hindices := (completed_of_unset hn hfin hflag).indices
    rw [done_index_of_finished hfin] at hindices
    exact absurd (hindices.mem_iff.mpr (List.mem_range.mpr hi)) hleft

/-- No worker has begun a file. -/
def State.Untouched (s : State) : Prop :=
  s.flag = true ∧ ∀ w ∈ s.workers, w.done = [] ∧ (w.phase = .idle ∨ w.phase = .cancelled)

theorem step_untouched (s : State) (act : Action) (h : s.Untouched) :
    (s.step a files act).Untouched := by
  obtain ⟨hflag, hworkers⟩ := h
  refine ⟨(step_mono s act).1 hflag, ?_⟩
  intro x hx
  rcases mem_step_workers hx with hx | ⟨w, hw, rfl, _, _⟩
  · exact hworkers x hx
  · -- an idle worker reads the flag and stops; a stopped one stays as it is
    obtain ⟨hdone, hphase⟩ := hworkers w hw
    rw [hflag]
    rcases hphase with hphase | hphase
    · simp [Worker.advance, hphase, hdone]
    · simp [Worker.advance, hphase, hdone]

theorem report_of_cancelled_first :
    ((start n).run a files (.cancel :: schedule)).report a = a.report files true := by
  have huntouched : ((start n).run a files (.cancel :: schedule)).Untouched := by
    rw [run_cons]
    refine run_keeps step_untouched schedule _ ⟨rfl, ?_⟩
    intro w hw
    rw [List.eq_of_mem_replicate hw]
    exact ⟨rfl, .inl rfl⟩
  obtain ⟨hflag, hworkers⟩ := huntouched
  have hdone : ((start n).run a files (.cancel :: schedule)).done = [] := by
    rw [State.done, List.flatMap_eq_nil_iff]
    intro w hw
    exact (hworkers w hw).1
  unfold State.report State.outcomes
  rw [hdone, hflag]
  simp [Analyzer.report]

/-- **Cancellation never yields a partial success.** The host may set the flag at any
point of a run. If the finished run reports a success, every file was analyzed by one
worker, once and through its last call site, and the report is that of the analysis
without cancellation. If a worker stopped because of the flag, a file was left
unclaimed or the analysis of a file was cancelled, the run fails. The calls of a file
give all their violations or are cancelled, and they are cancelled exactly if a read
between call sites finds the flag set. -/
theorem cancellation_never_partial (a : Analyzer) (files : List FoundFile) (n : Nat)
    (schedule : List Action) (hn : 0 < n) (s : State)
    (hs : s = (start n).run a files schedule) (hfin : s.finished = true) :
    (∀ r, s.report a = .ok r →
      (∀ i f, files[i]? = some f → s.AnalyzedOnce i ∧ ∃ d ∈ s.done, d.index = i ∧
        d.passed = (a.callSites f).length ∧ d.outcome = a.analyzeFile (.const false) f) ∧
      a.report files = .ok r ∧
      (∀ m, a.discover m = .ok files → a.analyze m = .ok r) ∧
      (∀ n' schedule', 0 < n' → .cancel ∉ schedule' →
        ((start n').run a files schedule').finished = true →
        ((start n').run a files schedule').report a = .ok r)) ∧
    ((∃ w ∈ s.workers, w.phase = .cancelled) → ∃ e, s.report a = .error e) ∧
    ((∃ i < files.length, i ∉ s.claimed) → ∃ e, s.report a = .error e) ∧
    ((∃ d ∈ s.done, d.outcome = .error .cancelled) → ∃ e, s.report a = .error e) ∧
    (schedule.head? = some .cancel → s.report a = a.report files true) ∧
    (∀ d ∈ s.done, ∃ f, files[d.index]? = some f ∧
      d.outcome = a.analyzeFile (setFrom d.passed) f ∧
      (d.outcome = .error .cancelled ↔ d.passed < (a.callSites f).length)) ∧
    ∀ file reads calls,
      (∀ violations, a.checkCalls file reads calls = .ok violations →
        violations = calls.flatMap (a.checkCall file)) ∧
      (a.checkCalls file reads calls = .error .cancelled ↔
        ∃ i < calls.length, reads i = true) := by
  subst hs
  refine ⟨?_, ?_, ?_, ?_, ?_, ?_, ?_⟩
  · intro r hr
    -- the last read of the flag found it unset, so no worker ever saw it set
    have hflag := unset_of_report_ok hr
    have hdone := completed_of_unset hn hfin hflag
    have hwhole : a.report files = .ok r := by rw [← hdone.report_eq hflag, hr]
    refine ⟨?_, hwhole, ?_, ?_⟩
    · intro i f hf
      have hi : i < files.length := (List.getElem?_eq_some_iff.mp hf).1
      exact ⟨hdone.analyzedOnce hi, hdone.exists_done hf⟩
    · intro m hm
      rw [Analyzer.analyze, hm]
      exact hwhole
    · intro n' schedule' hn' hcancel hfin'
      have hflag' := @flag_of_no_cancel a files n' schedule' hcancel
      rw [(completed_of_unset hn' hfin' hflag').report_eq hflag', hwhole]
  · intro h
    obtain ⟨w, hw, hphase⟩ := h
    exact report_of_set (flag_of_phase_cancelled hw hphase)
  · intro h
    obtain ⟨i, hi, hleft⟩ := h
    exact report_of_set (flag_of_unclaimed hn hfin hi hleft)
  · intro h
    obtain ⟨d, hd, hout⟩ := h
    obtain ⟨_, _, _, _, hflag⟩ := done_outcome hd
    exact report_of_set (hflag hout)
  · intro h
    obtain ⟨rest, rfl⟩ := List.head?_eq_some_iff.mp h
    exact report_of_cancelled_first
  · intro d hd
    obtain ⟨f, hf, hout, hcancelled, _⟩ := done_outcome hd
    exact ⟨f, hf, hout, hcancelled⟩
  · intro file reads calls
    refine ⟨?_, ?_⟩
    · intro violations h
      exact (Analyzer.checkCalls_eq_ok_iff.mp h).2
    · rw [Analyzer.checkCalls_eq_error_iff]
      simp

/-- The host sets the flag when a worker has claimed the first file. -/
theorem cancellation_never_partial_of_turns :
    ∃ s, s = (start 2).run marksAnalyzer markedFiles (turns 2 ++ .cancel :: turns 12) ∧
      s.finished = true ∧ (∃ d ∈ s.done, d.outcome = .error .cancelled) ∧
      ∃ e, s.report marksAnalyzer = .error e := by
  have hfin : ((start 2).run marksAnalyzer markedFiles
      (turns 2 ++ .cancel :: turns 12)).finished = true := by decide +kernel
  have hleft : ∃ d ∈ ((start 2).run marksAnalyzer markedFiles
      (turns 2 ++ .cancel :: turns 12)).done, d.outcome = .error .cancelled := by decide +kernel
  obtain ⟨_, _, _, hcancelled, _⟩ := cancellation_never_partial marksAnalyzer markedFiles 2
    (turns 2 ++ .cancel :: turns 12) (by decide) _ rfl hfin
  exact ⟨_, rfl, hfin, hleft, hcancelled hleft⟩

end SelectorCheck.Workers
