import SelectorCheck.Proofs.Checking
import SelectorCheck.Proofs.Outcomes
import SelectorCheck.Proofs.RelativePaths

/-
  Directories and their files one by one.

  An analysis of a directory goes through the files in the order of their full paths,
  puts the violations of all of them one after the other and sorts the whole list by
  the paths relative to the root. An analysis of one text sorts the violations of that
  text alone. Both give the same list, because the violations of one file all have its
  relative path, because relative paths stand in the order of the full ones, and
  because a stable sort of blocks that are in order sorts each block by itself.

  What is proved:
    1. `mergeSort_append`, `mergeSort_flatMap`: a stable sort of blocks in order.
    2. `file_of_mem_checkText`, `analyzedAs_text`: violations have the relative path of
       their file, and a file is analyzed as the text it holds.
    3. `violations_sort_eq_flatMap`: the sorted violations of files in order are the
       sorted violations of each, one file after the other.
    4. `directory_eq_sources`: the report on a directory is put together from the
       reports on its files.
-/

namespace SelectorCheck

/-! ## Sorting blocks -/

section Blocks
variable {α : Type} {le : α → α → Bool}
  (htrans : ∀ x y z, le x y = true → le y z = true → le x z = true)
  (htotal : ∀ x y, (le x y || le y x) = true)
include htrans htotal

/-- A stable sort puts the first element behind those that must stand before it. -/
theorem mergeSort_cons_eq (x : α) (xs : List α) :
    (x :: xs).mergeSort le =
      (xs.mergeSort le).takeWhile (fun y => !le x y) ++
        x :: (xs.mergeSort le).dropWhile (fun y => !le x y) := by
  obtain ⟨before, after, hwhole, hrest, hbefore⟩ := List.mergeSort_cons htrans htotal x xs
  have hsorted := List.pairwise_mergeSort htrans htotal (x :: xs)
  rw [hwhole] at hsorted
  have hafter : ∀ y ∈ after, le x y = true :=
    (List.pairwise_cons.mp (List.pairwise_append.mp hsorted).2.1).1
  have htake : after.takeWhile (fun y => !le x y) = [] := by
    cases after with
    | nil => rfl
    | cons y after => simp [hafter y List.mem_cons_self]
  have hdrop : after.dropWhile (fun y => !le x y) = after := by
    cases after with
    | nil => rfl
    | cons y after => simp [hafter y List.mem_cons_self]
  rw [hwhole, hrest, List.takeWhile_append_of_pos hbefore, List.dropWhile_append_of_pos hbefore,
    htake, hdrop, List.append_nil]

/-- Two blocks are sorted one by one, if every element of the first may stand before
every element of the second. -/
theorem mergeSort_append {xs ys : List α} (h : ∀ x ∈ xs, ∀ y ∈ ys, le x y = true) :
    (xs ++ ys).mergeSort le = xs.mergeSort le ++ ys.mergeSort le := by
  induction xs with
  | nil => simp
  | cons x xs ih =>
    have ih := ih fun z hz => h z (List.mem_cons_of_mem x hz)
    have hx : ∀ y ∈ ys.mergeSort le, le x y = true :=
      fun y hy => h x List.mem_cons_self y (List.mem_mergeSort.mp hy)
    rw [List.cons_append, mergeSort_cons_eq htrans htotal, mergeSort_cons_eq htrans htotal, ih]
    -- the place of `x` is found in the first block, or at its end
    generalize xs.mergeSort le = front, ys.mergeSort le = back at hx
    induction front with
    | nil =>
      cases back with
      | nil => rfl
      | cons y back => simp [hx y List.mem_cons_self]
    | cons z front ihf =>
      cases hz : le x z with
      | true => simp [hz]
      | false => simpa [hz] using ihf

theorem mergeSort_flatMap {β : Type} {g : β → List α} {bs : List β}
    (h : bs.Pairwise fun b c => ∀ x ∈ g b, ∀ y ∈ g c, le x y = true) :
    (bs.flatMap g).mergeSort le = bs.flatMap fun b => (g b).mergeSort le := by
  induction bs with
  | nil => simp
  | cons b bs ih =>
    obtain ⟨hb, hbs⟩ := List.pairwise_cons.mp h
    rw [List.flatMap_cons, List.flatMap_cons, mergeSort_append htrans htotal, ih hbs]
    intro x hx y hy
    obtain ⟨c, hc, hy⟩ := List.mem_flatMap.mp hy
    exact hb c hc x hx y hy

end Blocks

/-! ## The order of violations -/

instance : Std.TransCmp fun p q : Location => p.file.compare q.file where
  eq_swap {p q} := by
    show Path.compare _ _ = (Path.compare _ _).swap
    exact Std.OrientedCmp.eq_swap
  isLE_trans {p q r} hpq hqr := by
    change (Path.compare _ _).isLE = true at hpq hqr ⊢
    exact Std.TransCmp.isLE_trans hpq hqr

instance : Std.TransCmp Location.compare :=
  inferInstanceAs (Std.TransCmp (compareLex
    (compareLex (fun p q : Location => p.file.compare q.file) (compareOn Location.line))
    (compareOn Location.column)))

/-- The file decides, before line and column. -/
theorem Violation.notAfter_of_file_lt {v w : Violation}
    (h : v.location.file.compare w.location.file = .lt) : v.notAfter w = true := by
  simp [notAfter, Location.compare, h]

namespace Analyzer

/-! ## The violations of one text -/

theorem file_of_mem_checkCall {a : Analyzer} {file : SourceFile} {c : Call} {v : Violation}
    (h : v ∈ a.checkCall file c) : v.location.file = file.relativePath := by
  obtain ⟨r, -, hv⟩ := List.mem_flatMap.mp h
  cases hr : r.rejection? file.methods c with
  | none =>
    rw [checkRule_of_no_rejection hr] at hv
    cases hv
  | some rejection =>
    rw [checkRule_of_rejection hr] at hv
    obtain ⟨d, -, rfl⟩ := List.mem_map.mp hv
    rfl

theorem file_of_mem_checkText {a : Analyzer} {front : FrontEnd} {p : Path} {text : String}
    {found : List Violation} (h : a.checkText front (.const false) p text = .ok found)
    {v : Violation} (hv : v ∈ found) : v.location.file = p.relativeTo a.root := by
  unfold checkText at h
  split at h
  · cases h
  next calls _ =>
    rw [checkCalls_const_false] at h
    obtain rfl := Except.ok.inj h
    obtain ⟨c, -, hc⟩ := List.mem_flatMap.mp hv
    exact file_of_mem_checkCall hc

/-- Whether the calls of a text under a path can be read. -/
def extracts (a : Analyzer) (p : Path) (text : String) : Bool :=
  match a.frontEnd? p with
  | none => false
  | some front => (front.read a.methods text).isOk

/-- The violations of a file as they are raised; a refused file has none. -/
def raised (a : Analyzer) (f : FoundFile) : List Violation :=
  violationsIn (a.analyzeFile (.const false) f)

/-- The analysis of a file beside that of a text under its path. -/
structure AnalyzedAs (a : Analyzer) (f : FoundFile) (text : String) : Prop where
  isOk : (a.analyzeFile (.const false) f).isOk = a.extracts f.path text
  /-- Only a front end makes the file fail. -/
  refused : ∀ e, a.analyzeFile (.const false) f = .error e → ∃ cause, e = .unparsable f.path cause
  /-- The violations are those of the text, but for their order. -/
  source : a.extracts f.path text = true →
    a.analyzeSource (.const false) f.path text =
      .ok (Report.sort { violations := a.raised f, filesChecked := 1 })
  file : ∀ v ∈ a.raised f, v.location.file = f.path.relativeTo a.root

theorem analyzedAs_text {a : Analyzer} {f : FoundFile} {text : String}
    (hfront : (a.frontEnd? f.path).isSome = true)
    (htext : f.text = .ok text) : AnalyzedAs a f text := by
  obtain ⟨front, hfront⟩ := Option.isSome_iff_exists.mp hfront
  have hextracts : a.extracts f.path text = (front.read a.methods text).isOk := by
    simp only [extracts, hfront]
  have hfile : a.analyzeFile (.const false) f = a.checkText front (.const false) f.path text := by
    simp only [analyzeFile, hfront, htext]
  cases hread : front.read a.methods text with
  | error e =>
    have hrefused : a.checkText front (.const false) f.path text =
        .error (.unparsable f.path e) := by simp only [checkText, hread]
    rw [hread] at hextracts
    rw [hrefused] at hfile
    constructor
    · rw [hfile, hextracts]; rfl
    · intro e' he
      rw [hfile] at he
      exact ⟨e, (Except.error.inj he).symm⟩
    · intro hok
      rw [hextracts] at hok
      cases hok
    · intro v hv
      rw [raised, hfile] at hv
      cases hv
  | ok calls =>
    have hchecked : a.checkText front (.const false) f.path text =
        .ok (calls.flatMap (a.checkCall (a.sourceFile f.path text))) := by
      simp only [checkText, hread, checkCalls_const_false]
    rw [hread] at hextracts
    rw [hchecked] at hfile
    constructor
    · rw [hfile, hextracts]; rfl
    · intro e he
      rw [hfile] at he
      cases he
    · intro _
      rw [raised, hfile]
      simp only [analyzeSource, hfront, hchecked, violationsIn]
    · intro v hv
      rw [raised, hfile] at hv
      exact file_of_mem_checkText hchecked hv

theorem AnalyzedAs.raised_eq_nil {a : Analyzer} {f : FoundFile} {text : String}
    (h : AnalyzedAs a f text) (hrefused : a.extracts f.path text = false) : a.raised f = [] := by
  have hnot := h.isOk
  rw [hrefused] at hnot
  unfold raised
  cases ho : a.analyzeFile (.const false) f with
  | error e => rfl
  | ok found => rw [ho] at hnot; cases hnot

/-- A file that can be read as text does not fail the analysis, if the analyzer passes
over refused files or the calls of the file can be read. -/
theorem AnalyzedAs.not_fails {a : Analyzer} {f : FoundFile} {text : String}
    (h : AnalyzedAs a f text)
    (hparse : a.failOnParseError = false ∨ a.extracts f.path text = true) (e : AnalysisError) :
    ¬ a.Fails (a.analyzeFile (.const false) f) e := by
  intro hfails
  obtain ⟨herr, hstrict⟩ := hfails
  obtain ⟨cause, hcause⟩ := h.refused e herr
  rcases hparse with hlax | hextracts
  · have hstrict := hstrict _ _ hcause
    rw [hlax] at hstrict
    cases hstrict
  · have hok := h.isOk
    rw [hextracts, herr] at hok
    cases hok

/-! ## The files of a directory -/

theorem violations_sort_eq_flatMap {root : Path} {files : List FoundFile}
    {g : FoundFile → List Violation}
    (hunder : ∀ f ∈ files, root.components <+: f.path.components)
    (hsorted : files.Pairwise fun f h => f.path.compare h.path = .lt)
    (hfile : ∀ f ∈ files, ∀ v ∈ g f, v.location.file = f.path.relativeTo root) :
    (files.flatMap g).mergeSort Violation.notAfter =
      files.flatMap fun f => (g f).mergeSort Violation.notAfter := by
  refine mergeSort_flatMap (key_trans Violation.location) (key_total Violation.location) ?_
  -- the relative paths are in strict order, so lines and columns are not looked at
  refine hsorted.imp_of_mem fun {f h} hf hh hlt v hv w hw => ?_
  apply Violation.notAfter_of_file_lt
  rw [hfile f hf v hv, hfile h hh w hw, Path.compare_relativeTo (hunder f hf) (hunder h hh)]
  exact hlt

theorem flatMap_filter_of_nil {α β : Type} {p : α → Bool} {g : α → List β} {xs : List α}
    (h : ∀ x ∈ xs, p x = false → g x = []) : (xs.filter p).flatMap g = xs.flatMap g := by
  induction xs with
  | nil => rfl
  | cons x xs ih =>
    have ih := ih fun y hy => h y (List.mem_cons_of_mem x hy)
    cases hx : p x with
    | true => simp [hx, ih]
    | false => simp [hx, ih, h x List.mem_cons_self hx]

theorem handled_and_sorted_of_discover {a : Analyzer} {m : Machine} {files : List FoundFile}
    (h : a.discover m = .ok files) :
    (∀ f ∈ files, (a.frontEnd? f.path).isSome = true) ∧
      files.Pairwise fun f g => (f.path.compare g.path).isLE = true := by
  unfold discover at h
  cases hfound : (a.ignoreSettings m).search a.root with
  | error e => rw [hfound] at h; cases h
  | ok found =>
    rw [hfound] at h
    obtain rfl : a.admitted found = files := Except.ok.inj h
    refine ⟨fun f hf => ?_, a.admitted_sorted found⟩
    have hf := List.mem_of_mem_filter (List.mem_mergeSort.mp hf)
    exact (List.mem_filter.mp hf).2

/-- **A directory is analyzed like its files one by one.** Let the files of an analysis
be texts in different places below the root, and let the analyzer pass over refused
files or no file be refused. Then the analysis succeeds. Its files come in the order of
their full paths. Each of them that is not refused has a report of its own, as a text
under its path, and the violations of the directory are those of these reports, one
report after the other. The files that count as checked are the ones that are not
refused. -/
theorem directory_eq_sources (a : Analyzer) (m : Machine) (files : List FoundFile)
    (hfiles : a.discover m = .ok files)
    (hunder : ∀ f ∈ files, a.root.components <+: f.path.components)
    (hplaces : files.Pairwise fun f g => f.path.components ≠ g.path.components)
    (text : FoundFile → String)
    (htext : ∀ f ∈ files, f.text = .ok (text f))
    (hparse : a.failOnParseError = false ∨ ∀ f ∈ files, a.extracts f.path (text f) = true) :
    ∃ (r : Report) (source : FoundFile → Report),
      a.analyze m = .ok r ∧
      files.Pairwise (fun f g => f.path.compare g.path = .lt) ∧
      (∀ f ∈ files, a.extracts f.path (text f) = true →
        a.analyzeSource (.const false) f.path (text f) = .ok (source f)) ∧
      r.violations =
        (files.filter fun f => a.extracts f.path (text f)).flatMap (source · |>.violations) ∧
      r.filesChecked = (files.filter fun f => a.extracts f.path (text f)).length := by
  obtain ⟨hfront, hle⟩ := handled_and_sorted_of_discover hfiles
  have hsorted : files.Pairwise fun f g => f.path.compare g.path = .lt := by
    refine (hle.and hplaces).imp fun {f g} h => ?_
    obtain ⟨hle, hne⟩ := h
    cases hc : f.path.compare g.path with
    | lt => rfl
    | eq => exact absurd (Path.compare_eq_eq_iff.mp hc) hne
    | gt => rw [hc] at hle; cases hle
  have hsame : ∀ f ∈ files, AnalyzedAs a f (text f) :=
    fun f hf => analyzedAs_text (hfront f hf) (htext f hf)
  have hrun : a.analyze m = .ok (merged (files.map (a.analyzeFile (.const false)))).sort := by
    simp only [analyze, hfiles]
    refine report_eq_ok_iff.mpr ⟨fun f hf => (hsame f hf).not_fails ?_, rfl⟩
    exact hparse.imp_right fun h => h f hf
  refine ⟨_, fun f => Report.sort { violations := a.raised f, filesChecked := 1 },
    hrun, hsorted, fun f hf => (hsame f hf).source, ?_, ?_⟩
  · calc ((files.map (a.analyzeFile (.const false))).flatMap violationsIn).mergeSort
          Violation.notAfter
        = (files.flatMap a.raised).mergeSort Violation.notAfter := by rw [List.flatMap_map]; rfl
      _ = files.flatMap fun f => (a.raised f).mergeSort Violation.notAfter :=
          violations_sort_eq_flatMap hunder hsorted fun f hf => (hsame f hf).file
      _ = (files.filter fun f => a.extracts f.path (text f)).flatMap fun f =>
            (a.raised f).mergeSort Violation.notAfter := by
          refine (flatMap_filter_of_nil fun f hf hrefused => ?_).symm
          rw [(hsame f hf).raised_eq_nil hrefused, List.mergeSort_nil]
  · calc (files.map (a.analyzeFile (.const false))).countP Except.isOk
        = files.countP fun f => a.extracts f.path (text f) := by
          rw [List.countP_map]
          exact List.countP_congr fun f hf => by simp [(hsame f hf).isOk]
      _ = (files.filter fun f => a.extracts f.path (text f)).length :=
          List.countP_eq_length_filter

/-- A call whose selector is a literal on a line. -/
def literalCall (line : UInt64) : Call where
  callee := ignoreName
  form := .extension
  arguments := [{ position := 0, value := .lambda ["l"] (.literal "0" { line }) }]

/-- Reads each digit as such a call on its line. -/
def digitsAnalyzer : Analyzer :=
  { shallow with frontEnds := [ofCharacters (literalCall ∘ lineOf)] }

/-- Files in no order, one of them refused. The file in `a` stands before `a.calls`
by components, and after it by text. -/
def scattered : Machine where
  disk := .directory [("work", .directory
    [("c.calls", .ofBytes "!".toUTF8), ("a.calls", .ofBytes "21".toUTF8),
      ("a", .directory [("x.calls", .ofBytes "3".toUTF8)])])]
  current := ⟨"/"⟩

/-- The files of `scattered` in the order of their paths. -/
def gathered : List FoundFile :=
  [⟨⟨"/work/a/x.calls"⟩, .ok "3".toUTF8⟩, ⟨⟨"/work/a.calls"⟩, .ok "21".toUTF8⟩,
    ⟨⟨"/work/c.calls"⟩, .ok "!".toUTF8⟩]

theorem places_gathered :
    gathered.Pairwise fun f g => f.path.components ≠ g.path.components := by decide +kernel

theorem discover_scattered : digitsAnalyzer.discover scattered = .ok gathered := by
  have hsearch : (digitsAnalyzer.ignoreSettings scattered).search digitsAnalyzer.root =
      .ok gathered.reverse := by rfl
  have hkeep : (digitsAnalyzer.handled gathered).filter
      (fun f => !digitsAnalyzer.excludes f.path && digitsAnalyzer.includes f.path) =
        gathered := by rfl
  rw [discover, hsearch]
  show Except.ok (digitsAnalyzer.admitted gathered.reverse) = _
  rw [admitted_eq_of_perm _ (List.reverse_perm gathered) places_gathered, admitted, hkeep,
    List.mergeSort_of_pairwise (by decide +kernel)]

def gatheredText (f : FoundFile) : String := f.text.toOption.getD ""

theorem locations_raised :
    (gathered.take 2).map (fun f => (digitsAnalyzer.raised f).map (·.location)) =
      [[⟨⟨"a/x.calls"⟩, 3, 0, 0, 0⟩],
        [⟨⟨"a.calls"⟩, 2, 0, 0, 0⟩, ⟨⟨"a.calls"⟩, 1, 0, 0, 0⟩]] := by
  decide +kernel

/-- The lines of each file are put in order, the files by their components, and the
refused file is neither reported nor counted. -/
theorem directory_eq_sources_scattered :
    ∃ r, digitsAnalyzer.analyze scattered = .ok r ∧ r.filesChecked = 2 ∧
      r.violations.map (·.location) =
        [⟨⟨"a/x.calls"⟩, 3, 0, 0, 0⟩, ⟨⟨"a.calls"⟩, 1, 0, 0, 0⟩, ⟨⟨"a.calls"⟩, 2, 0, 0, 0⟩] := by
  have htext : ∀ f ∈ gathered, f.text = .ok (gatheredText f) := by
    decide +kernel
  obtain ⟨r, source, hrun, -, hsource, hviolations, hchecked⟩ :=
    directory_eq_sources digitsAnalyzer scattered gathered discover_scattered (by decide +kernel)
      places_gathered gatheredText htext (.inl rfl)
  have hkept : (gathered.filter fun f => digitsAnalyzer.extracts f.path (gatheredText f)) =
      gathered.take 2 := by rfl
  rw [hkept] at hviolations hchecked
  refine ⟨r, hrun, hchecked, ?_⟩
  rw [hviolations, List.map_flatMap]
  have hlocations : ∀ f ∈ gathered.take 2, (source f).violations.map (·.location) =
      ((digitsAnalyzer.raised f).map (·.location)).mergeSort fun p q => p.compare q != .gt := by
    intro f hf
    obtain ⟨hf, hextracts⟩ := List.mem_filter.mp (hkept.symm ▸ hf)
    have hfront := (handled_and_sorted_of_discover discover_scattered).1 f hf
    have hsort := (analyzedAs_text hfront (htext f hf)).source hextracts
    rw [Except.ok.inj ((hsource f hf hextracts).symm.trans hsort)]
    exact List.map_mergeSort fun _ _ _ _ => rfl
  rw [List.flatMap_congr hlocations]
  show List.flatMap (fun vs => List.mergeSort vs fun p q => p.compare q != .gt)
    ((gathered.take 2).map fun f => (digitsAnalyzer.raised f).map (·.location)) = _
  have hafter : (Location.compare ⟨⟨"a.calls"⟩, 2, 0, 0, 0⟩ ⟨⟨"a.calls"⟩, 1, 0, 0, 0⟩ != .gt) =
      false := by decide +kernel
  rw [locations_raised]
  simp [List.mergeSort, hafter]

end Analyzer

end SelectorCheck
