import Mathlib.Algebra.GroupWithZero.Nat
import SelectorCheck.Project
import SelectorCheck.Proofs.Checking

/-
  Workers that share the files of an analysis.

  Every worker repeats the same round: it reads the flag, claims the next index
  of a counter that all share, analyzes the file at that index and keeps the
  outcome. It stops when it finds the flag set or the index past the last file.
  Inside a file it reads the flag before each call site. Reading the flag and
  claiming an index touch what is shared, so each is a step of its own; a call
  site is one step with the read before it.

  A run is a list of actions in any order: a worker takes its next step, or the
  host sets the flag, which is never unset. When all workers have stopped, their
  outcomes are put in the order of the indices and concluded as the outcomes of a
  sequential pass are.

  What is proved:
    1. `step_cases`: everything that one action can do to the state.
    2. `run_claimedOnce`, `run_sound`: in every run, each claimed index is claimed
       once, and each outcome is that of `analyzeFile` under the reads of the flag
       that the worker made.
    3. `advance_rank_lt`, `exists_finishing`: a worker that has not stopped brings
       the run closer to its end, so every run can be finished.
    4. `completed_of_unset`, `State.Completed.outcomes_eq`: a finished run in which the
       flag was never set has the outcomes of the sequential pass.
-/

namespace SelectorCheck

/-- What is known of a file before its first call site. -/
inductive Opening where
  /-- The outcome: the file has no front end, or is not read. -/
  | settled (outcome : Analyzer.FileOutcome)
  /-- The file as rules see it, and its calls. -/
  | calls (file : SourceFile) (calls : List Call)

namespace Analyzer

/-- Picks the front end of a file and reads its calls. -/
def opening (a : Analyzer) (f : FoundFile) : Opening :=
  match a.frontEnd? f.path with
  | none => .settled (.ok [])
  | some front =>
    match f.text with
    | .error message => .settled (.error (.unreadable message))
    | .ok text =>
      match front.read a.methods text with
      | .error e => .settled (.error (.unparsable f.path e))
      | .ok calls => .calls (a.sourceFile f.path text) calls

def callSites (a : Analyzer) (f : FoundFile) : List Call :=
  match a.opening f with
  | .settled _ => []
  | .calls _ calls => calls

theorem analyzeFile_eq (a : Analyzer) (reads : FlagReads) (f : FoundFile) :
    a.analyzeFile reads f =
      match a.opening f with
      | .settled outcome => outcome
      | .calls file calls => a.checkCalls file reads calls := by
  unfold analyzeFile opening checkText
  cases a.frontEnd? f.path with
  | none => rfl
  | some front =>
    cases f.text with
    | error message => rfl
    | ok text =>
      dsimp only
      cases front.read a.methods text <;> rfl

theorem opening_ne_cancelled (a : Analyzer) (f : FoundFile) :
    a.opening f ≠ .settled (.error .cancelled) := by
  unfold opening
  split
  · intro h; cases h
  · split
    · intro h; cases h
    · split <;> (intro h; cases h)

end Analyzer

namespace Workers

/-- The analysis of one file, as the worker that made it keeps it. -/
structure Done where
  /-- The place of the file in the list. -/
  index : Nat
  /-- The number of call sites that were checked. -/
  passed : Nat
  outcome : Analyzer.FileOutcome

/-- Where a worker stands. -/
inductive Phase where
  /-- Before it reads the flag. -/
  | idle
  /-- Before it claims an index. -/
  | claiming
  /-- In the file at an index, before the next of the call sites that are left. -/
  | checking (index : Nat) (file : SourceFile) (passed : Nat) (found : List Violation)
      (rest : List Call)
  /-- Before it keeps an outcome. -/
  | finishing (d : Done)
  /-- Stopped, with no file left to claim. -/
  | exhausted
  /-- Stopped, because the flag was set. -/
  | cancelled

def Phase.isOver : Phase → Bool
  | exhausted | cancelled => true
  | _ => false

/-- The index that is claimed and whose outcome is not kept yet. -/
def Phase.index? : Phase → Option Nat
  | checking index .. => some index
  | finishing d => some d.index
  | _ => none

/-- A worker, with the outcomes it keeps. -/
structure Worker where
  phase : Phase := .idle
  done : List Done := []

/-- The indices a worker has claimed, in order. -/
def Worker.claimed (w : Worker) : List Nat := w.done.map (·.index) ++ w.phase.index?.toList

/-- The flag, the counter and the workers. -/
structure State where
  flag : Bool := false
  next : Nat := 0
  workers : List Worker

/-- One action of a run. -/
inductive Action where
  /-- The host sets the flag. -/
  | cancel
  /-- A worker takes its next step. -/
  | work (k : Nat)
deriving DecidableEq

variable (a : Analyzer) (files : List FoundFile)

/-- The phase after an index was claimed. -/
def begin (index : Nat) : Phase :=
  match files[index]? with
  | none => .exhausted
  | some f =>
    match a.opening f with
    | .settled outcome => .finishing ⟨index, 0, outcome⟩
    | .calls file calls => .checking index file 0 [] calls

/-- The next step of a worker, with the counter after it. -/
def Worker.advance (flag : Bool) (next : Nat) (w : Worker) : Nat × Worker :=
  match w.phase with
  | .idle => (next, { w with phase := if flag then .cancelled else .claiming })
  | .claiming => (next + 1, { w with phase := begin a files next })
  | .checking index _ passed found [] =>
    (next, { w with phase := .finishing ⟨index, passed, .ok found⟩ })
  | .checking index file passed found (c :: rest) =>
    if flag then (next, { w with phase := .finishing ⟨index, passed, .error .cancelled⟩ })
    else (next, { w with
      phase := .checking index file (passed + 1) (found ++ a.checkCall file c) rest })
  | .finishing d => (next, { phase := .idle, done := w.done ++ [d] })
  | .exhausted | .cancelled => (next, w)

def State.step (s : State) : Action → State
  | .cancel => { s with flag := true }
  | .work k =>
    match s.workers[k]? with
    | none => s
    | some w =>
      let after := w.advance a files s.flag s.next
      { s with next := after.1, workers := s.workers.set k after.2 }

/-- The state after the actions of a schedule. -/
def State.run (s : State) (schedule : List Action) : State :=
  schedule.foldl (State.step a files) s

/-- The state in which `n` workers begin. -/
def start (n : Nat) : State := { workers := List.replicate n {} }

def State.finished (s : State) : Bool := s.workers.all (·.phase.isOver)

/-- All that the workers keep, worker by worker. -/
def State.done (s : State) : List Done := s.workers.flatMap (·.done)

/-- The outcomes in the order of the indices. -/
def State.outcomes (s : State) : List Analyzer.FileOutcome :=
  (s.done.mergeSort fun d e => d.index ≤ e.index).map (·.outcome)

/-- The report when the workers have stopped. The flag is read once more. -/
def State.report (s : State) : Except AnalysisError Report := a.conclude s.outcomes s.flag

/-! ## What one action can do -/

/-- An action sets the flag, or does nothing because there is no such worker, or
advances one worker and leaves the others as they are. -/
theorem step_cases (s : State) (act : Action) :
    (act = .cancel ∧ s.step a files act = { s with flag := true }) ∨
    (∃ k, act = .work k ∧ s.workers.length ≤ k ∧ s.step a files act = s) ∨
    (∃ before w after, act = .work before.length ∧ s.workers = before ++ w :: after ∧
      s.step a files act =
        { s with
          next := (w.advance a files s.flag s.next).1
          workers := before ++ (w.advance a files s.flag s.next).2 :: after }) := by
  cases act with
  | cancel => exact .inl ⟨rfl, rfl⟩
  | work k =>
    cases hw : s.workers[k]? with
    | none =>
      have hk : s.workers.length ≤ k := List.getElem?_eq_none_iff.mp hw
      exact .inr (.inl ⟨k, rfl, hk, by simp [State.step, hw]⟩)
    | some w =>
      obtain ⟨hk, hget⟩ := List.getElem?_eq_some_iff.mp hw
      refine .inr (.inr ⟨s.workers.take k, w, s.workers.drop (k + 1), ?_, ?_, ?_⟩)
      · rw [List.length_take, Nat.min_eq_left (Nat.le_of_lt hk)]
      · rw [← hget, List.cons_getElem_drop_succ, List.take_append_drop]
      · simp [State.step, List.set_eq_take_append_cons_drop, hk, hget]

variable {a files}

theorem run_cons (s : State) (act : Action) (rest : List Action) :
    s.run a files (act :: rest) = (s.step a files act).run a files rest := rfl

theorem run_append (s : State) (first rest : List Action) :
    s.run a files (first ++ rest) = (s.run a files first).run a files rest :=
  List.foldl_append

theorem run_keeps {P : State → Prop} (hstep : ∀ s act, P s → P (s.step a files act)) :
    ∀ (schedule : List Action) (s : State), P s → P (s.run a files schedule)
  | [], _, h => h
  | act :: rest, s, h => run_keeps hstep rest (s.step a files act) (hstep s act h)

theorem run_flag (schedule : List Action) (s : State) :
    (s.run a files schedule).flag = (s.flag || decide (.cancel ∈ schedule)) := by
  induction schedule generalizing s with
  | nil => simp [State.run]
  | cons act rest ih =>
    rw [run_cons, ih]
    rcases step_cases a files s act with ⟨rfl, h⟩ | ⟨_, rfl, _, h⟩ | ⟨_, _, _, rfl, _, h⟩
    · simp [h]
    · simp [h]
    · simp [h]

theorem step_length (s : State) (act : Action) :
    (s.step a files act).workers.length = s.workers.length := by
  rcases step_cases a files s act with ⟨_, h⟩ | ⟨_, _, _, h⟩ | ⟨_, _, _, _, hw, h⟩
  · rw [h]
  · rw [h]
  · rw [h, hw]; simp

theorem run_start_length (n : Nat) (schedule : List Action) :
    ((start n).run a files schedule).workers.length = n := by
  refine run_keeps (P := fun s => s.workers.length = n) (fun s act h => ?_) schedule (start n) ?_
  · rw [step_length, h]
  · exact List.length_replicate

/-! ## Indices are claimed once -/

theorem begin_index (index : Nat) :
    (begin a files index).index?.toList = if index < files.length then [index] else [] := by
  unfold begin
  cases hf : files[index]? with
  | none =>
    have hge : ¬ index < files.length := Nat.not_lt.mpr (List.getElem?_eq_none_iff.mp hf)
    simp [Phase.index?, hge]
  | some f =>
    have hlt : index < files.length := (List.getElem?_eq_some_iff.mp hf).1
    dsimp only
    cases a.opening f <;> simp [Phase.index?, hlt]

/-- A step leaves the counter and the claims of the worker as they are, or moves the
counter by one and claims the index it showed, if there is a file at it. -/
theorem advance_claimed (flag : Bool) (next : Nat) (w : Worker) :
    ((w.advance a files flag next).1 = next ∧
      (w.advance a files flag next).2.claimed = w.claimed) ∨
    ((w.advance a files flag next).1 = next + 1 ∧
      (w.advance a files flag next).2.claimed =
        w.claimed ++ if next < files.length then [next] else []) := by
  obtain ⟨phase, done⟩ := w
  cases phase with
  | idle => cases flag <;> simp [Worker.advance, Worker.claimed, Phase.index?]
  | claiming =>
    refine .inr ⟨rfl, ?_⟩
    simp only [Worker.advance, Worker.claimed, begin_index]
    simp [Phase.index?]
  | checking index file passed found rest =>
    cases rest with
    | nil => simp [Worker.advance, Worker.claimed, Phase.index?]
    | cons c rest => cases flag <;> simp [Worker.advance, Worker.claimed, Phase.index?]
  | finishing d => simp [Worker.advance, Worker.claimed, Phase.index?]
  | exhausted => exact .inl ⟨rfl, rfl⟩
  | cancelled => exact .inl ⟨rfl, rfl⟩

theorem step_mono (s : State) (act : Action) :
    (s.flag = true → (s.step a files act).flag = true) ∧
      s.next ≤ (s.step a files act).next := by
  rcases step_cases a files s act with ⟨_, hs⟩ | ⟨_, _, _, hs⟩ | ⟨_, w, _, _, _, hs⟩
  · rw [hs]; exact ⟨fun _ => rfl, Nat.le_refl _⟩
  · rw [hs]; exact ⟨id, Nat.le_refl _⟩
  · rw [hs]
    refine ⟨id, ?_⟩
    show s.next ≤ (w.advance a files s.flag s.next).1
    rcases @advance_claimed a files s.flag s.next w with ⟨hn, _⟩ | ⟨hn, _⟩
    · omega
    · omega

theorem mem_step_workers {s : State} {act : Action} {x : Worker}
    (hx : x ∈ (s.step a files act).workers) :
    x ∈ s.workers ∨ ∃ w ∈ s.workers, x = (w.advance a files s.flag s.next).2 ∧
      (s.step a files act).flag = s.flag ∧
      (s.step a files act).next = (w.advance a files s.flag s.next).1 := by
  rcases step_cases a files s act with ⟨_, hs⟩ | ⟨_, _, _, hs⟩ | ⟨before, w, after, _, hw, hs⟩
  · rw [hs] at hx; exact .inl hx
  · rw [hs] at hx; exact .inl hx
  · rw [hs] at hx ⊢
    have hself : w ∈ s.workers := by rw [hw]; simp
    rcases List.mem_append.mp hx with hx | hx
    · exact .inl (by rw [hw]; simp [hx])
    · rcases List.mem_cons.mp hx with hx | hx
      · exact .inr ⟨w, hself, hx, rfl, rfl⟩
      · exact .inl (by rw [hw]; simp [hx])

/-- All indices the workers have claimed, worker by worker. -/
def State.claimed (s : State) : List Nat := s.workers.flatMap Worker.claimed

/-- The claimed indices are those below the counter, each once. -/
def ClaimedOnce (files : List FoundFile) (s : State) : Prop :=
  s.claimed.Perm (List.range (min s.next files.length))

theorem step_claimedOnce (s : State) (act : Action) (h : ClaimedOnce files s) :
    ClaimedOnce files (s.step a files act) := by
  rcases step_cases a files s act with ⟨_, hs⟩ | ⟨_, _, _, hs⟩ | ⟨before, w, after, _, hw, hs⟩
  · rw [hs]; exact h
  · rw [hs]; exact h
  · rw [hs]
    unfold ClaimedOnce State.claimed at h ⊢
    rw [hw] at h
    simp only [List.flatMap_append, List.flatMap_cons] at h ⊢
    rcases @advance_claimed a files s.flag s.next w with ⟨hn, hc⟩ | ⟨hn, hc⟩
    · rw [hn, hc]; exact h
    · rw [hn, hc]
      by_cases hlt : s.next < files.length
      · -- the new index moves past the claims of the later workers
        rw [if_pos hlt, Nat.min_eq_left hlt, List.range_succ]
        rw [Nat.min_eq_left (Nat.le_of_lt hlt)] at h
        refine List.Perm.trans ?_ (h.append_right [s.next])
        simp only [List.append_assoc]
        refine List.Perm.append_left _ (List.Perm.append_left _ ?_)
        exact List.perm_append_comm
      · have hge : files.length ≤ s.next := Nat.not_lt.mp hlt
        rw [if_neg hlt, List.append_nil, Nat.min_eq_right (Nat.le_succ_of_le hge)]
        rwa [Nat.min_eq_right hge] at h

theorem start_claimedOnce (n : Nat) : ClaimedOnce files (start n) := by
  have hnil : (start n).claimed = [] := by
    rw [State.claimed, List.flatMap_eq_nil_iff]
    intro w hw
    rw [List.eq_of_mem_replicate hw]; rfl
  rw [ClaimedOnce, hnil]
  simp [start]

theorem run_claimedOnce (n : Nat) (schedule : List Action) :
    ClaimedOnce files ((start n).run a files schedule) :=
  run_keeps step_claimedOnce schedule (start n) (start_claimedOnce n)

/-! ## Outcomes are those of the files -/

/-- The reads of a flag that is found set from read number `k` on. -/
def setFrom (k : Nat) : FlagReads := fun i => decide (k ≤ i)

/-- The outcome is that of the file at the index, under a flag that is first found
set after `passed` call sites; and if that is before the last call site, the flag
is set. -/
def Done.Sound (a : Analyzer) (files : List FoundFile) (flag : Bool) (d : Done) : Prop :=
  ∃ f, files[d.index]? = some f ∧ d.outcome = a.analyzeFile (setFrom d.passed) f ∧
    d.passed ≤ (a.callSites f).length ∧ (d.passed < (a.callSites f).length → flag = true)

/-- What a phase says about the state: inside a file, the call sites before the next
one are checked and nothing else; a worker that stopped had a reason to. -/
def Phase.Sound (a : Analyzer) (files : List FoundFile) (flag : Bool) (next : Nat) :
    Phase → Prop
  | .idle | .claiming => True
  | .checking index file passed found rest =>
    ∃ f before, files[index]? = some f ∧ a.opening f = .calls file (before ++ rest) ∧
      passed = before.length ∧ found = before.flatMap (a.checkCall file)
  | .finishing d => d.Sound a files flag
  | .exhausted => files.length ≤ next
  | .cancelled => flag = true

structure Worker.Sound (a : Analyzer) (files : List FoundFile) (flag : Bool) (next : Nat)
    (w : Worker) : Prop where
  phase : w.phase.Sound a files flag next
  done : ∀ d ∈ w.done, d.Sound a files flag

def State.Sound (a : Analyzer) (files : List FoundFile) (s : State) : Prop :=
  ∀ w ∈ s.workers, w.Sound a files s.flag s.next

theorem checkCalls_setFrom {file : SourceFile} {before rest : List Call} :
    a.checkCalls file (setFrom before.length) (before ++ rest) =
      if rest = [] then .ok (before.flatMap (a.checkCall file)) else .error .cancelled := by
  split
  · next h =>
    subst h
    rw [List.append_nil]
    exact Analyzer.checkCalls_of_unset fun i hi => decide_eq_false (Nat.not_le.mpr hi)
  · next h =>
    refine Analyzer.checkCalls_of_set ⟨before.length, ?_, decide_eq_true (Nat.le_refl _)⟩
    rw [List.length_append]
    exact Nat.lt_add_of_pos_right (List.length_pos_iff.mpr h)

/-- Leaving a file before a call site, or after its last one, gives a sound outcome. -/
theorem sound_of_checking {flag : Bool} {next index passed : Nat} {file : SourceFile}
    {found : List Violation} {rest : List Call}
    (h : (Phase.checking index file passed found rest).Sound a files flag next)
    (hflag : rest ≠ [] → flag = true) :
    Done.Sound a files flag
      ⟨index, passed, if rest = [] then .ok found else .error .cancelled⟩ := by
  obtain ⟨f, before, hf, ho, rfl, rfl⟩ := h
  have hsites : a.callSites f = before ++ rest := by simp [Analyzer.callSites, ho]
  refine ⟨f, hf, ?_, ?_, ?_⟩
  · rw [Analyzer.analyzeFile_eq, ho]
    exact checkCalls_setFrom.symm
  · rw [hsites]; simp
  · intro hlt
    apply hflag
    intro hnil
    rw [hsites, hnil] at hlt
    simp at hlt

theorem begin_sound (flag : Bool) (next : Nat) :
    (begin a files next).Sound a files flag (next + 1) := by
  unfold begin
  cases hf : files[next]? with
  | none => exact Nat.le_succ_of_le (List.getElem?_eq_none_iff.mp hf)
  | some f =>
    dsimp only
    cases ho : a.opening f with
    | settled outcome =>
      have hsites : a.callSites f = [] := by simp [Analyzer.callSites, ho]
      refine ⟨f, hf, ?_, by simp, fun hlt => ?_⟩
      · rw [Analyzer.analyzeFile_eq, ho]
      · rw [hsites] at hlt; simp at hlt
    | calls file calls => exact ⟨f, [], hf, ho, rfl, rfl⟩

theorem advance_sound {flag : Bool} {next : Nat} {w : Worker} (h : w.Sound a files flag next) :
    (w.advance a files flag next).2.Sound a files flag (w.advance a files flag next).1 := by
  obtain ⟨phase, done⟩ := w
  obtain ⟨hphase, hdone⟩ := h
  cases phase with
  | idle =>
    refine ⟨?_, hdone⟩
    cases flag <;> simp [Worker.advance, Phase.Sound]
  | claiming => exact ⟨begin_sound flag next, hdone⟩
  | checking index file passed found rest =>
    cases rest with
    | nil => exact ⟨sound_of_checking hphase (fun hne => absurd rfl hne), hdone⟩
    | cons c rest =>
      cases flag with
      | true => exact ⟨sound_of_checking hphase (fun _ => rfl), hdone⟩
      | false =>
        obtain ⟨f, before, hf, ho, rfl, rfl⟩ := hphase
        refine ⟨⟨f, before ++ [c], hf, ?_, ?_, ?_⟩, hdone⟩
        · rw [ho, List.append_assoc]; rfl
        · simp
        · simp
  | finishing d =>
    refine ⟨trivial, fun e he => ?_⟩
    rcases List.mem_append.mp he with he | he
    · exact hdone e he
    · rw [List.mem_singleton.mp he]; exact hphase
  | exhausted => exact ⟨hphase, hdone⟩
  | cancelled => exact ⟨hphase, hdone⟩

theorem Done.Sound.mono {flag flag' : Bool} (hflag : flag = true → flag' = true) {d : Done}
    (h : d.Sound a files flag) : d.Sound a files flag' := by
  obtain ⟨f, hf, ho, hle, hlt⟩ := h
  exact ⟨f, hf, ho, hle, fun hp => hflag (hlt hp)⟩

/-- A worker stays sound while the others move the counter and the host sets the
flag. -/
theorem Worker.Sound.mono {flag flag' : Bool} {next next' : Nat}
    (hflag : flag = true → flag' = true) (hnext : next ≤ next') {w : Worker}
    (h : w.Sound a files flag next) : w.Sound a files flag' next' := by
  obtain ⟨hphase, hdone⟩ := h
  refine ⟨?_, fun d hd => (hdone d hd).mono hflag⟩
  cases hp : w.phase with
  | idle => trivial
  | claiming => trivial
  | checking index file passed found rest => rw [hp] at hphase; exact hphase
  | finishing d => rw [hp] at hphase; exact Done.Sound.mono hflag hphase
  | exhausted => rw [hp] at hphase; exact Nat.le_trans hphase hnext
  | cancelled => rw [hp] at hphase; exact hflag hphase

theorem step_sound (s : State) (act : Action) (h : s.Sound a files) :
    (s.step a files act).Sound a files := by
  obtain ⟨hflag, hnext⟩ := @step_mono a files s act
  intro x hx
  rcases mem_step_workers hx with hx | ⟨w, hw, rfl, hf, hn⟩
  · exact (h x hx).mono hflag hnext
  · rw [hf, hn]
    exact advance_sound (h w hw)

theorem run_sound (n : Nat) (schedule : List Action) :
    ((start n).run a files schedule).Sound a files := by
  refine run_keeps step_sound schedule (start n) fun w hw => ?_
  rw [List.eq_of_mem_replicate hw]
  exact ⟨trivial, fun d hd => absurd hd List.not_mem_nil⟩

/-! ## Every run can be finished -/

/-- How far a worker is from claiming its next index, or from its end. -/
def Phase.rank : Phase → Nat
  | .exhausted | .cancelled => 0
  | .claiming => 1
  | .idle => 2
  | .finishing _ => 3
  | .checking _ _ _ _ rest => 4 + rest.length

/-- What the files from an index on may still cost the worker that claims them. -/
def costFrom (a : Analyzer) (files : List FoundFile) (next : Nat) : Nat :=
  ((files.drop next).map fun f => (a.callSites f).length + 4).sum

/-- The number of steps that are left at most. -/
def State.stepsLeft (a : Analyzer) (files : List FoundFile) (s : State) : Nat :=
  (s.workers.map (·.phase.rank)).sum + costFrom a files s.next

theorem begin_rank_lt (next : Nat) :
    (begin a files next).rank + costFrom a files (next + 1) < 1 + costFrom a files next := by
  unfold begin costFrom
  cases hf : files[next]? with
  | none =>
    have hge : files.length ≤ next := List.getElem?_eq_none_iff.mp hf
    simp [Phase.rank, List.drop_eq_nil_of_le hge, List.drop_eq_nil_of_le (Nat.le_succ_of_le hge)]
  | some f =>
    obtain ⟨hlt, hget⟩ := List.getElem?_eq_some_iff.mp hf
    rw [List.drop_eq_getElem_cons hlt, hget, List.map_cons, List.sum_cons]
    dsimp only
    cases ho : a.opening f with
    | settled outcome => simp only [Phase.rank]; omega
    | calls file calls =>
      have hsites : a.callSites f = calls := by simp [Analyzer.callSites, ho]
      simp only [Phase.rank, hsites]; omega

/-- A worker that has not stopped comes closer to its end with every step, whatever
the flag. -/
theorem advance_rank_lt {flag : Bool} {next : Nat} {w : Worker} (h : w.phase.isOver = false) :
    (w.advance a files flag next).2.phase.rank + costFrom a files (w.advance a files flag next).1
      < w.phase.rank + costFrom a files next := by
  obtain ⟨phase, done⟩ := w
  cases phase with
  | idle => cases flag <;> simp [Worker.advance, Phase.rank]
  | claiming => exact begin_rank_lt next
  | checking index file passed found rest =>
    cases rest with
    | nil => simp [Worker.advance, Phase.rank]
    | cons c rest =>
      cases flag with
      | true => simp only [Worker.advance, Phase.rank, if_true, List.length_cons]; omega
      | false => simp [Worker.advance, Phase.rank]
  | finishing d => simp [Worker.advance, Phase.rank]
  | exhausted => simp [Phase.isOver] at h
  | cancelled => simp [Phase.isOver] at h

/-- Some worker of an unfinished run can bring it closer to its end. -/
theorem exists_step_of_not_finished {s : State} (h : s.finished = false) :
    ∃ k, (s.step a files (.work k)).stepsLeft a files < s.stepsLeft a files := by
  obtain ⟨w, hw, hover⟩ : ∃ w ∈ s.workers, w.phase.isOver = false := by
    simpa [State.finished] using h
  obtain ⟨k, hk, hget⟩ := List.getElem_of_mem hw
  refine ⟨k, ?_⟩
  rcases step_cases a files s (.work k) with
    ⟨he, _⟩ | ⟨_, he, hle, _⟩ | ⟨before, v, after, he, hv, hs⟩
  · cases he
  · obtain rfl := Action.work.inj he
    exact absurd hk (Nat.not_lt.mpr hle)
  · obtain rfl := Action.work.inj he
    obtain rfl : v = w := by simpa [hv] using hget
    have hlt := @advance_rank_lt a files s.flag s.next v hover
    rw [hs]
    simp only [State.stepsLeft, hv, List.map_append, List.map_cons, List.sum_append, List.sum_cons]
    omega

theorem exists_finishing (s : State) :
    ∃ more, Action.cancel ∉ more ∧ (s.run a files more).finished = true := by
  cases h : s.finished with
  | true => exact ⟨[], List.not_mem_nil, h⟩
  | false =>
    obtain ⟨k, hlt⟩ := @exists_step_of_not_finished a files s h
    obtain ⟨more, hcancel, hfin⟩ := exists_finishing (s.step a files (.work k))
    refine ⟨.work k :: more, ?_, hfin⟩
    intro hmem
    rcases List.mem_cons.mp hmem with he | hmem
    · cases he
    · exact hcancel hmem
termination_by s.stepsLeft a files

/-! ## A finished run whose flag is not set -/

theorem analyzeFile_setFrom_callSites (a : Analyzer) (f : FoundFile) :
    a.analyzeFile (setFrom (a.callSites f).length) f = a.analyzeFile (.const false) f := by
  rw [Analyzer.analyzeFile_eq, Analyzer.analyzeFile_eq]
  unfold Analyzer.callSites
  cases ho : a.opening f with
  | settled outcome => rfl
  | calls file calls =>
    have hunset : ∀ i < calls.length, setFrom calls.length i = false :=
      fun i hi => decide_eq_false (Nat.not_le.mpr hi)
    dsimp only
    rw [Analyzer.checkCalls_of_unset hunset, Analyzer.checkCalls_const_false]

/-- With the flag unset, a sound outcome is that of the file analyzed through its
last call site. -/
theorem Done.Sound.complete {d : Done} (h : d.Sound a files false) :
    ∃ f, files[d.index]? = some f ∧ d.passed = (a.callSites f).length ∧
      d.outcome = a.analyzeFile (.const false) f := by
  obtain ⟨f, hf, ho, hle, hlt⟩ := h
  have hpassed : d.passed = (a.callSites f).length := by
    rcases Nat.lt_or_eq_of_le hle with h | h
    · exact absurd (hlt h) (by decide)
    · exact h
  refine ⟨f, hf, hpassed, ?_⟩
  rw [ho, hpassed, analyzeFile_setFrom_callSites]

theorem done_index_of_finished {s : State} (h : s.finished = true) :
    s.done.map (·.index) = s.claimed := by
  unfold State.done State.claimed
  rw [List.map_flatMap]
  refine List.flatMap_congr fun w hw => ?_
  have hover : w.phase.isOver = true := (List.all_eq_true.mp h) w hw
  unfold Worker.claimed
  cases hp : w.phase with
  | exhausted => simp [Phase.index?]
  | cancelled => simp [Phase.index?]
  | _ => rw [hp] at hover; cases hover

variable {n : Nat} {schedule : List Action}

theorem length_le_next_of_unset (hn : 0 < n)
    (hfin : ((start n).run a files schedule).finished = true)
    (hflag : ((start n).run a files schedule).flag = false) :
    files.length ≤ ((start n).run a files schedule).next := by
  have hlen := @run_start_length a files n schedule
  obtain ⟨w, hw⟩ : ∃ w, w ∈ ((start n).run a files schedule).workers :=
    List.exists_mem_of_length_pos (by rw [hlen]; exact hn)
  have hover : w.phase.isOver = true := (List.all_eq_true.mp hfin) w hw
  have hphase := (run_sound n schedule w hw).phase
  cases hp : w.phase with
  | exhausted => rw [hp] at hphase; exact hphase
  | cancelled =>
    rw [hp] at hphase
    exact absurd (hflag.symm.trans hphase) (by decide)
  | _ => rw [hp] at hover; cases hover

/-- One outcome is kept for each file, that of the file analyzed through its last
call site. -/
structure State.Completed (a : Analyzer) (files : List FoundFile) (s : State) : Prop where
  indices : (s.done.map (·.index)).Perm (List.range files.length)
  outcome : ∀ d ∈ s.done, ∃ f, files[d.index]? = some f ∧ d.passed = (a.callSites f).length ∧
    d.outcome = a.analyzeFile (.const false) f

theorem completed_of_unset (hn : 0 < n)
    (hfin : ((start n).run a files schedule).finished = true)
    (hflag : ((start n).run a files schedule).flag = false) :
    ((start n).run a files schedule).Completed a files := by
  refine ⟨?_, ?_⟩
  · have hclaimed := @run_claimedOnce a files n schedule
    rw [ClaimedOnce, Nat.min_eq_right (length_le_next_of_unset hn hfin hflag)] at hclaimed
    rw [done_index_of_finished hfin]
    exact hclaimed
  · intro d hd
    obtain ⟨w, hw, hdw⟩ := List.mem_flatMap.mp hd
    have hsound := (run_sound n schedule w hw).done d hdw
    rw [hflag] at hsound
    exact hsound.complete

namespace State.Completed

variable {s : State}

theorem exists_done (h : s.Completed a files) {i : Nat} {f : FoundFile}
    (hf : files[i]? = some f) :
    ∃ d ∈ s.done, d.index = i ∧ d.passed = (a.callSites f).length ∧
      d.outcome = a.analyzeFile (.const false) f := by
  have hi : i < files.length := (List.getElem?_eq_some_iff.mp hf).1
  obtain ⟨d, hd, rfl⟩ := List.mem_map.mp (h.indices.mem_iff.mpr (List.mem_range.mpr hi))
  obtain ⟨f', hf', hpassed, hout⟩ := h.outcome d hd
  obtain rfl := Option.some.inj (hf'.symm.trans hf)
  exact ⟨d, hd, rfl, hpassed, hout⟩

/-- Sorting by index erases the schedule. -/
theorem sorted_index (h : s.Completed a files) :
    (s.done.mergeSort fun d e => d.index ≤ e.index).map (·.index) =
      List.range files.length := by
  have hsorted : (s.done.mergeSort fun d e => d.index ≤ e.index).Pairwise
      fun d e => decide (d.index ≤ e.index) = true :=
    List.pairwise_mergeSort (fun _ _ _ h₁ h₂ => by simp at *; omega)
      (fun _ _ => by simp; omega) s.done
  have hle : ((s.done.mergeSort fun d e => d.index ≤ e.index).map (·.index)).Pairwise
      (· ≤ ·) := by
    rw [List.pairwise_map]
    exact hsorted.imp of_decide_eq_true
  exact List.Perm.eq_of_pairwise (fun _ _ _ _ => Nat.le_antisymm) hle List.pairwise_le_range
    (((List.mergeSort_perm _ _).map _).trans h.indices)

theorem outcomes_eq (h : s.Completed a files) :
    s.outcomes = files.map (a.analyzeFile (.const false)) := by
  let sorted := s.done.mergeSort fun d e => d.index ≤ e.index
  let outcomeAt := fun i : Nat => files[i]?.map (a.analyzeFile (.const false))
  -- an index may be past the end, so the outcomes are compared under `some`
  have hsome : s.outcomes.map some = (files.map (a.analyzeFile (.const false))).map some := by
    calc s.outcomes.map some
        = sorted.map (fun d => some d.outcome) := by
          rw [State.outcomes, List.map_map]; rfl
      _ = sorted.map (fun d => outcomeAt d.index) := by
          refine List.map_congr_left fun d hd => ?_
          obtain ⟨f, hf, _, hout⟩ := h.outcome d ((List.mergeSort_perm _ _).mem_iff.mp hd)
          show some d.outcome = files[d.index]?.map (a.analyzeFile (.const false))
          rw [hf, hout]; rfl
      _ = (sorted.map (·.index)).map outcomeAt := by rw [List.map_map]; rfl
      _ = (List.range files.length).map outcomeAt := by rw [h.sorted_index]
      _ = (files.map (a.analyzeFile (.const false))).map some := by
          refine List.ext_getElem (by simp) fun i h₁ h₂ => ?_
          have hi : i < files.length := by simpa using h₁
          simp [outcomeAt, hi]
  exact (List.map_inj_right fun _ _ h => Option.some.inj h).mp hsome

end State.Completed

end Workers

end SelectorCheck
