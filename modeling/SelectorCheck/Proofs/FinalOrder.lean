import Mathlib.Data.List.FinRange
import SelectorCheck.Proofs.Revision

/-
  The final order of violations.

  A report is put in order by file, line and column. The order says nothing about
  violations at one place, so what keeps a pair of diagnostics together is that the sort
  is stable and that each check of a call by a rule raises all its violations at one
  place. Such violations are level and stand next to each other when they are raised. A
  stable sort moves them as one block, and no other violation gets between them, not
  even one at the same place.

  What is proved:
    1. `exists_moved_flatMap`: a stable sort of level blocks is a rearrangement of the
       blocks, each of them as it was.
    2. `Report.sortedStably`: what sorting a report does to each of its violations.
    3. `raises_eq`: a check raises the diagnostics of its rule, in order and at one place.
    4. `order_keeps_checks_together`: in the report on a text or a directory the
       violations of one check stand together, and so do the two of a pair.
-/

namespace SelectorCheck

/-! ## The order of places -/

namespace Location

/-- The same line and column of one file, however the file is spelled. -/
def Level (p q : Location) : Prop :=
  p.file.components = q.file.components ∧ p.line = q.line ∧ p.column = q.column

/-- By file, then by line, then by column. Files go by their components. -/
def AtOrBefore (p q : Location) : Prop :=
  p.file.compare q.file = .lt ∨
    p.file.components = q.file.components ∧
      (p.line < q.line ∨ p.line = q.line ∧ p.column ≤ q.column)

theorem isLE_compare_iff {p q : Location} : (p.compare q).isLE = true ↔ p.AtOrBefore q := by
  rw [Location.compare, Ordering.isLE_then_iff_or, Ordering.then_eq_lt, Ordering.then_eq_eq,
    Path.compare_eq_eq_iff, Std.compare_eq_lt, Std.compare_eq_iff_eq,
    Std.LawfulOrderOrd.isLE_compare]
  unfold AtOrBefore
  tauto

theorem atOrBefore_of_level {p q : Location} (h : p.Level q) : p.AtOrBefore q :=
  .inr ⟨h.1, .inr ⟨h.2.1, h.2.2 ▸ UInt64.le_refl _⟩⟩

theorem Level.symm {p q : Location} (h : p.Level q) : q.Level p :=
  ⟨h.1.symm, h.2.1.symm, h.2.2.symm⟩

end Location

theorem Violation.notAfter_iff {v w : Violation} :
    v.notAfter w = true ↔ v.location.AtOrBefore w.location := by
  rw [notAfter, bne_gt_eq_isLE, Location.isLE_compare_iff]

/-! ## Sorting level blocks -/

section Blocks
variable {α β : Type} {le : α → α → Bool}
  (htrans : ∀ x y z, le x y = true → le y z = true → le x z = true)
  (htotal : ∀ x y, (le x y || le y x) = true)
include htrans htotal

/-- A level block in front goes as a whole to where its elements belong. -/
theorem mergeSort_append_of_split {block xs before after : List α}
    (hlevel : ∀ x ∈ block, ∀ y ∈ block, le x y = true) (hsplit : xs.mergeSort le = before ++ after)
    (hbefore : ∀ x ∈ block, ∀ y ∈ before, le x y = false)
    (hafter : ∀ x ∈ block, ∀ y ∈ after, le x y = true) :
    (block ++ xs).mergeSort le = before ++ (block ++ after) := by
  induction block with
  | nil => exact hsplit
  | cons x block ih =>
    have hrest : (block ++ xs).mergeSort le = before ++ (block ++ after) := by
      apply ih
      · exact fun y hy z hz =>
          hlevel y (List.mem_cons_of_mem x hy) z (List.mem_cons_of_mem x hz)
      · exact fun y hy => hbefore y (List.mem_cons_of_mem x hy)
      · exact fun y hy => hafter y (List.mem_cons_of_mem x hy)
    refine mergeSort_cons_of_split htrans htotal hrest (hbefore x List.mem_cons_self) ?_
    intro y hy
    rcases List.mem_append.mp hy with hy | hy
    · exact hlevel x List.mem_cons_self y (List.mem_cons_of_mem x hy)
    · exact hafter x List.mem_cons_self y hy

omit htotal in
/-- In a sorted list of level blocks, the elements that must stand before `x` end at the
end of a block. -/
theorem exists_split_blocks {g : β → List α} {bs : List β}
    (hlevel : ∀ b ∈ bs, ∀ y ∈ g b, ∀ z ∈ g b, le y z = true)
    (hsorted : (bs.flatMap g).Pairwise fun y z => le y z = true) (x : α) :
    ∃ front back, bs = front ++ back ∧ (∀ y ∈ front.flatMap g, le x y = false) ∧
      ∀ y ∈ back.flatMap g, le x y = true := by
  induction bs with
  | nil => exact ⟨[], [], rfl, by simp, by simp⟩
  | cons b bs ih =>
    rw [List.flatMap_cons, List.pairwise_append] at hsorted
    obtain ⟨-, hbs, hacross⟩ := hsorted
    by_cases hb : ∃ y ∈ g b, le x y = true
    · -- whatever follows `y`, in its block or behind it, follows `x`
      obtain ⟨y, hy, hxy⟩ := hb
      refine ⟨[], b :: bs, rfl, by simp, fun z hz => htrans x y z hxy ?_⟩
      rcases List.mem_append.mp (List.flatMap_cons ▸ hz) with hz | hz
      · exact hlevel b List.mem_cons_self y hy z hz
      · exact hacross y hy z hz
    · obtain ⟨front, back, rfl, hfront, hback⟩ :=
        ih (fun c hc => hlevel c (List.mem_cons_of_mem b hc)) hbs
      refine ⟨b :: front, back, rfl, fun y hy => ?_, hback⟩
      rcases List.mem_append.mp (List.flatMap_cons ▸ hy) with hy | hy
      · rw [← Bool.not_eq_true]
        exact fun hxy => hb ⟨y, hy, hxy⟩
      · exact hfront y hy

/-- A stable sort of level blocks moves the blocks and leaves each of them as it is. -/
theorem exists_moved_flatMap {g : β → List α} {bs : List β}
    (hlevel : ∀ b ∈ bs, ∀ x ∈ g b, ∀ y ∈ g b, le x y = true) :
    ∃ moved : List β, moved.Perm bs ∧ (bs.flatMap g).mergeSort le = moved.flatMap g := by
  induction bs with
  | nil => exact ⟨[], .refl _, by simp⟩
  | cons b bs ih =>
    obtain ⟨moved, hperm, hmoved⟩ := ih fun c hc => hlevel c (List.mem_cons_of_mem b hc)
    cases hb : g b with
    | nil => exact ⟨b :: moved, hperm.cons b, by simp [hb, hmoved]⟩
    | cons x block =>
      have hsorted : (moved.flatMap g).Pairwise fun y z => le y z = true := by
        rw [← hmoved]
        exact List.pairwise_mergeSort htrans htotal _
      obtain ⟨front, back, rfl, hfront, hback⟩ := exists_split_blocks htrans
        (fun c hc => hlevel c (List.mem_cons_of_mem b (hperm.mem_iff.mp hc))) hsorted x
      have hx : ∀ y ∈ g b, le x y = true ∧ le y x = true := by
        have hmem : x ∈ g b := by rw [hb]; exact List.mem_cons_self
        exact fun y hy =>
          ⟨hlevel b List.mem_cons_self x hmem y hy, hlevel b List.mem_cons_self y hy x hmem⟩
      refine ⟨front ++ b :: back, (List.perm_middle).trans (hperm.cons b), ?_⟩
      rw [List.flatMap_append] at hmoved
      rw [List.flatMap_cons, List.flatMap_append, List.flatMap_cons]
      apply mergeSort_append_of_split htrans htotal (hlevel b List.mem_cons_self) hmoved
      · intro y hy z hz
        rw [← Bool.not_eq_true]
        intro hyz
        have hxz := htrans x y z (hx y hy).1 hyz
        rw [hfront z hz] at hxz
        cases hxz
      · exact fun y hy z hz => htrans y x z (hx y hy).2 (hback z hz)

theorem pair_infix_mergeSort {x y : α} {xs : List α} (hxy : le x y = true) (hyx : le y x = true)
    (h : [x, y] <:+: xs) : [x, y] <:+: xs.mergeSort le := by
  obtain ⟨before, after, rfl⟩ := h
  have hself : ∀ z, le z z = true := by simpa using fun z => htotal z z
  -- the pair is one block, and every other element is a block by itself
  obtain ⟨blocks, hblocks, hlevel, hpair⟩ : ∃ blocks : List (List α),
      before ++ [x, y] ++ after = blocks.flatMap id ∧
        (∀ b ∈ blocks, ∀ u ∈ id b, ∀ v ∈ id b, le u v = true) ∧ [x, y] ∈ blocks := by
    refine ⟨before.map (fun z => [z]) ++ [x, y] :: after.map fun z => [z], ?_, ?_, by simp⟩
    · simp [List.flatMap_map]
    · intro b hb
      rcases List.mem_append.mp hb with hb | hb
      · obtain ⟨z, -, rfl⟩ := List.mem_map.mp hb
        simp [hself]
      rcases List.mem_cons.mp hb with rfl | hb
      · simp [hself, hxy, hyx]
      · obtain ⟨z, -, rfl⟩ := List.mem_map.mp hb
        simp [hself]
  obtain ⟨moved, hperm, hmoved⟩ := exists_moved_flatMap htrans htotal hlevel
  obtain ⟨front, back, rfl⟩ := List.append_of_mem (hperm.mem_iff.mpr hpair)
  rw [hblocks, hmoved]
  exact ⟨front.flatMap id, back.flatMap id, by simp⟩

end Blocks

/-! ## Sorting a report -/

/-- `sorted` is `found` in order of place, and `origin` lists where its elements stood in
`found`. As no place is listed twice, a pair that is a sublist of `origin` stands in that
order, and one that is an infix stands side by side. -/
structure SortedStably (found sorted : List Violation) (origin : List (Fin found.length)) :
    Prop where
  perm : origin.Perm (List.finRange found.length)
  elements : sorted = origin.map found.get
  inOrder : sorted.Pairwise fun v w => v.location.AtOrBefore w.location
  stable : ∀ i j, i < j → (found.get i).location.Level (found.get j).location →
    [i, j].Sublist origin
  adjacent : ∀ i j, i.val + 1 = j.val → (found.get i).location.Level (found.get j).location →
    [i, j] <:+: origin
  unchanged : (found.Pairwise fun v w => v.location.AtOrBefore w.location) → sorted = found

theorem drop_finRange {n : Nat} (i : Fin n) :
    (List.finRange n).drop i = i :: (List.finRange n).drop (i + 1) := by
  rw [List.drop_eq_getElem_cons (by simp)]
  simp

theorem pair_sublist_finRange {n : Nat} {i j : Fin n} (h : i < j) :
    [i, j].Sublist (List.finRange n) := by
  have hj : j ∈ (List.finRange n).drop (i + 1) := by
    rw [List.mem_drop_iff_getElem]
    exact ⟨j - (i + 1), by simp; omega, by ext; simp; omega⟩
  have hdrop := List.drop_sublist i.val (List.finRange n)
  rw [drop_finRange] at hdrop
  exact ((List.singleton_sublist.mpr hj).cons_cons i).trans hdrop

theorem pair_infix_finRange {n : Nat} {i j : Fin n} (h : i.val + 1 = j.val) :
    [i, j] <:+: List.finRange n := by
  have hdrop := List.drop_suffix i.val (List.finRange n)
  rw [drop_finRange, h, drop_finRange] at hdrop
  exact (List.prefix_append [i, j] _).isInfix.trans hdrop.isInfix

namespace Report

/-- Sorting is stable: violations that are level keep their order, and next to each other
they stay so. -/
theorem sortedStably (r : Report) :
    ∃ origin, SortedStably r.violations r.sort.violations origin := by
  -- the places of the violations are sorted in the same way as the violations
  let notAfter (i j : Fin r.violations.length) : Bool :=
    (r.violations.get i).notAfter (r.violations.get j)
  have htrans : ∀ i j k, notAfter i j = true → notAfter j k = true → notAfter i k = true :=
    key_trans fun i => (r.violations.get i).location
  have htotal : ∀ i j, (notAfter i j || notAfter j i) = true :=
    key_total fun i => (r.violations.get i).location
  have hlevel : ∀ i j, (r.violations.get i).location.Level (r.violations.get j).location →
      notAfter i j = true :=
    fun i j h => Violation.notAfter_iff.mpr (Location.atOrBefore_of_level h)
  refine ⟨(List.finRange _).mergeSort notAfter, ?_⟩
  constructor
  · exact List.mergeSort_perm _ _
  · have hmap : ((List.finRange _).mergeSort notAfter).map r.violations.get =
        ((List.finRange _).map r.violations.get).mergeSort Violation.notAfter :=
      List.map_mergeSort fun _ _ _ _ => rfl
    rw [hmap, List.map_get_finRange]
    rfl
  · exact (pairwise_mergeSort_key Violation.location r.violations).imp
      Location.isLE_compare_iff.mp
  · intro i j hij h
    exact List.pair_sublist_mergeSort htrans htotal (hlevel i j h) (pair_sublist_finRange hij)
  · intro i j hij h
    exact pair_infix_mergeSort htrans htotal (hlevel i j h) (hlevel j i h.symm)
      (pair_infix_finRange hij)
  · intro h
    exact List.mergeSort_of_pairwise (h.imp Violation.notAfter_iff.mpr)

end Report

/-! ## The checks behind a report -/

/-- One check of a call by a rule. -/
structure Check where
  file : SourceFile
  call : Call
  rule : Rule

/-- Whether the diagnostic `first` of a rule is followed at once by `second`, wherever it
is listed. -/
def Rule.Pairs (r : Rule) (first second : String) : Prop :=
  ∀ i : Nat, (r.diagnostics.map (·.code))[i]? = some first →
    (r.diagnostics.map (·.code))[i + 1]? = some second

theorem Rule.pairs_of_not_mem {r : Rule} {first second : String}
    (h : first ∉ r.diagnostics.map (·.code)) : r.Pairs first second :=
  fun _ hi => absurd (List.mem_of_getElem? hi) h

theorem Rule.pairs_of_linkAndIgnore {r : Rule} (h : r.diagnostics = linkAndIgnore.diagnostics) :
    r.Pairs "TH1001A" "TH1001B" := by
  intro i hi
  rw [h] at hi ⊢
  match i with
  | 0 => rfl
  | 1 => exact absurd hi (by decide)
  | i + 2 => cases hi

/-- `w` reports the diagnostic `code` of the rule of `v`, at the place of `v`. -/
structure Violation.Companion (v : Violation) (code : String) (w : Violation) : Prop where
  code : w.code = code
  rule : w.rule = v.rule
  location : w.location = v.location

namespace Analyzer

def raises (a : Analyzer) (k : Check) : List Violation := a.checkRule k.file k.call k.rule

/-- The checks of the calls of a file, in the order in which they are made. -/
def checksOf (a : Analyzer) (file : SourceFile) (calls : List Call) : List Check :=
  calls.flatMap fun c => a.enabledRules.map fun r => ⟨file, c, r⟩

/-- The checks of a text under a path. -/
def checksIn (a : Analyzer) (p : Path) (text : String) : List Check :=
  match a.frontEnd? p with
  | none => []
  | some front =>
    match front.read a.methods text with
    | .error _ => []
    | .ok calls => a.checksOf (a.sourceFile p text) calls

def checksAt (a : Analyzer) (f : FoundFile) : List Check :=
  match f.text with
  | .error _ => []
  | .ok text => a.checksIn f.path text

/-- The report is made of what the checks raise. The checks may come in another order, but
what each of them raises stands together; so a diagnostic that is listed right before
another is reported right before it, by the same rule and at the same place. -/
structure HoldsTogether (a : Analyzer) (checks : List Check) (r : Report) : Prop where
  whole : ∃ moved : List Check, moved.Perm checks ∧ r.violations = moved.flatMap a.raises
  pairs : ∀ first second, (∀ rule ∈ a.enabledRules, rule.Pairs first second) →
    ∀ (i : Nat) v, r.violations[i]? = some v → v.code = first →
      ∃ w, r.violations[i + 1]? = some w ∧ v.Companion second w

variable {a : Analyzer}

theorem raises_eq (k : Check) :
    a.raises k = [] ∨ ∃ rejection : Rejection, a.raises k =
      rejection.violations k.file k.rule.name (a.severityOf k.rule) k.rule.diagnostics k.call := by
  cases h : k.rule.rejection? k.file.methods k.call with
  | none => exact .inl (checkRule_of_no_rejection h)
  | some rejection => exact .inr ⟨rejection, checkRule_of_rejection h⟩

theorem codes_raises {k : Check} (h : a.raises k ≠ []) :
    (a.raises k).map (·.code) = k.rule.diagnostics.map (·.code) ∧
      ∃ place, ∀ v ∈ a.raises k, v.location = place := by
  rcases raises_eq k with hnil | ⟨rejection, hk⟩
  · exact absurd hnil h
  · rw [hk]
    refine ⟨by simp [Rejection.violations], k.file.location rejection.offending.span, ?_⟩
    intro v hv
    obtain ⟨d, -, rfl⟩ := List.mem_map.mp hv
    rfl

theorem notAfter_of_mem_raises {k : Check} {v w : Violation} (hv : v ∈ a.raises k)
    (hw : w ∈ a.raises k) : v.notAfter w = true := by
  obtain ⟨-, place, hplace⟩ := codes_raises (List.ne_nil_of_mem hv)
  rw [Violation.notAfter_iff, hplace v hv, hplace w hw]
  exact Location.atOrBefore_of_level ⟨rfl, rfl, rfl⟩

theorem exists_next_raises {k : Check} {first second : String} (h : k.rule.Pairs first second)
    {i : Nat} {v : Violation} (hv : (a.raises k)[i]? = some v) (hcode : v.code = first) :
    ∃ w, (a.raises k)[i + 1]? = some w ∧ v.Companion second w := by
  rcases raises_eq k with hnil | ⟨rejection, hk⟩
  · rw [hnil] at hv
    cases hv
  · rw [hk, Rejection.violations, List.getElem?_map] at hv ⊢
    obtain ⟨d, hd, rfl⟩ := Option.map_eq_some_iff.mp hv
    have hnext := h i (by rw [List.getElem?_map, hd]; exact congrArg some hcode)
    rw [List.getElem?_map] at hnext
    obtain ⟨e, he, hsecond⟩ := Option.map_eq_some_iff.mp hnext
    exact ⟨_, Option.map_eq_some_iff.mpr ⟨e, he, rfl⟩, ⟨hsecond, rfl, rfl⟩⟩

theorem exists_next_flatMap {α β : Type} {g : β → List α} {p : α → Prop} {R : α → α → Prop}
    {bs : List β} (h : ∀ b ∈ bs, ∀ (i : Nat) x, (g b)[i]? = some x → p x →
      ∃ y, (g b)[i + 1]? = some y ∧ R x y) {i : Nat} {x : α}
    (hx : (bs.flatMap g)[i]? = some x) (hp : p x) :
    ∃ y, (bs.flatMap g)[i + 1]? = some y ∧ R x y := by
  induction bs generalizing i with
  | nil => cases hx
  | cons b bs ih =>
    rw [List.flatMap_cons] at hx ⊢
    by_cases hi : i < (g b).length
    · rw [List.getElem?_append_left hi] at hx
      obtain ⟨y, hy, hR⟩ := h b List.mem_cons_self i x hx hp
      have hlt : i + 1 < (g b).length := (List.getElem?_eq_some_iff.mp hy).1
      exact ⟨y, by rw [List.getElem?_append_left hlt, hy], hR⟩
    · have hi : (g b).length ≤ i := by omega
      rw [List.getElem?_append_right hi] at hx
      obtain ⟨y, hy, hR⟩ := ih (fun c hc => h c (List.mem_cons_of_mem b hc)) hx
      refine ⟨y, ?_, hR⟩
      rw [List.getElem?_append_right (by omega), ← hy]
      congr 1
      omega

theorem holdsTogether_sort {checks : List Check} (hrules : ∀ k ∈ checks, k.rule ∈ a.enabledRules)
    (n : Nat) : a.HoldsTogether checks (Report.sort ⟨checks.flatMap a.raises, n⟩) := by
  obtain ⟨moved, hperm, hmoved⟩ : ∃ moved : List Check, moved.Perm checks ∧
      (checks.flatMap a.raises).mergeSort Violation.notAfter = moved.flatMap a.raises :=
    exists_moved_flatMap (key_trans Violation.location) (key_total Violation.location)
      fun k _ v hv w hw => notAfter_of_mem_raises hv hw
  refine ⟨⟨moved, hperm, hmoved⟩, fun first second hpairs i v hv hcode => ?_⟩
  rw [Report.sort] at hv ⊢
  dsimp only at hv ⊢
  rw [hmoved] at hv ⊢
  refine exists_next_flatMap (p := (·.code = first)) (R := (·.Companion second ·))
    (fun k hk j u hu hfirst => ?_) hv hcode
  exact exists_next_raises (hpairs k.rule (hrules k (hperm.mem_iff.mp hk))) hu hfirst

/-! ## Reports on texts and directories -/

theorem rule_of_mem_checksOf {file : SourceFile} {calls : List Call} {k : Check}
    (h : k ∈ a.checksOf file calls) : k.rule ∈ a.enabledRules := by
  obtain ⟨c, -, h⟩ := List.mem_flatMap.mp h
  obtain ⟨r, hr, rfl⟩ := List.mem_map.mp h
  exact hr

theorem rule_of_mem_checksIn {p : Path} {text : String} {k : Check} (h : k ∈ a.checksIn p text) :
    k.rule ∈ a.enabledRules := by
  unfold checksIn at h
  split at h
  · cases h
  · split at h
    · cases h
    · exact rule_of_mem_checksOf h

theorem rule_of_mem_checksAt {f : FoundFile} {k : Check} (h : k ∈ a.checksAt f) :
    k.rule ∈ a.enabledRules := by
  unfold checksAt at h
  split at h
  · cases h
  · exact rule_of_mem_checksIn h

theorem flatMap_raises_checksOf (file : SourceFile) (calls : List Call) :
    (a.checksOf file calls).flatMap a.raises = calls.flatMap (a.checkCall file) := by
  simp only [checksOf, List.flatMap_assoc, List.flatMap_map]
  rfl

theorem checkText_eq_ok {front : FrontEnd} {reads : FlagReads} {p : Path} {text : String}
    {found : List Violation} (hfront : a.frontEnd? p = some front)
    (h : a.checkText front reads p text = .ok found) :
    found = (a.checksIn p text).flatMap a.raises := by
  unfold checkText at h
  cases hread : front.read a.methods text with
  | error e => rw [hread] at h; cases h
  | ok calls =>
    have hchecks : a.checksIn p text = a.checksOf (a.sourceFile p text) calls := by
      simp only [checksIn, hfront, hread]
    rw [hread] at h
    rw [hchecks, flatMap_raises_checksOf, (checkCalls_eq_ok_iff.mp h).2]

theorem raised_eq_flatMap (f : FoundFile) : a.raised f = (a.checksAt f).flatMap a.raises := by
  unfold raised analyzeFile checksAt
  cases hfront : a.frontEnd? f.path with
  | none =>
    cases f.text with
    | error message => rfl
    | ok text => simp [checksIn, hfront, violationsIn]
  | some front =>
    cases f.text with
    | error message => rfl
    | ok text =>
      dsimp only
      cases hcheck : a.checkText front (.const false) f.path text with
      | ok found => exact checkText_eq_ok hfront hcheck
      | error e =>
        cases hread : front.read a.methods text with
        | error e => simp [checksIn, hfront, hread, violationsIn]
        | ok calls => simp [checkText, hread, checkCalls_const_false] at hcheck

theorem holdsTogether_analyzeSource {reads : FlagReads} {p : Path} {text : String} {r : Report}
    (h : a.analyzeSource reads p text = .ok r) : a.HoldsTogether (a.checksIn p text) r := by
  unfold analyzeSource at h
  cases hfront : a.frontEnd? p with
  | none =>
    rw [hfront] at h
    obtain rfl := Except.ok.inj h
    have hnone : a.checksIn p text = [] := by simp [checksIn, hfront]
    rw [hnone]
    exact ⟨⟨[], .refl _, rfl⟩, fun _ _ _ i v hv => by cases hv⟩
  | some front =>
    rw [hfront] at h
    dsimp only at h
    cases hcheck : a.checkText front reads p text with
    | error e => rw [hcheck] at h; cases h
    | ok found =>
      rw [hcheck] at h
      obtain rfl := Except.ok.inj h
      rw [checkText_eq_ok hfront hcheck]
      exact holdsTogether_sort (fun k => rule_of_mem_checksIn) 1

theorem holdsTogether_analyze {m : Machine} {cancelled : Bool} {r : Report}
    (h : a.analyze m cancelled = .ok r) :
    ∃ files, a.discover m = .ok files ∧ a.HoldsTogether (files.flatMap a.checksAt) r := by
  unfold analyze at h
  cases hfiles : a.discover m with
  | error e => rw [hfiles] at h; cases h
  | ok files =>
    rw [hfiles] at h
    refine ⟨files, rfl, ?_⟩
    cases cancelled with
    | true =>
      obtain ⟨e, he⟩ := conclude_cancelled a []
      exact absurd (he.symm.trans h) (by simp)
    | false =>
      obtain ⟨-, rfl⟩ := report_eq_ok_iff.mp h
      have hviolations : (merged (files.map (a.analyzeFile (.const false)))).violations =
          (files.flatMap a.checksAt).flatMap a.raises := by
        simp only [merged, List.flatMap_map, List.flatMap_assoc, ← raised_eq_flatMap]
        rfl
      have hrules : ∀ k ∈ files.flatMap a.checksAt, k.rule ∈ a.enabledRules := by
        intro k hk
        obtain ⟨f, -, hk⟩ := List.mem_flatMap.mp hk
        exact rule_of_mem_checksAt hk
      have htogether := holdsTogether_sort hrules
        (merged (files.map (a.analyzeFile (.const false)))).filesChecked
      rw [← hviolations] at htogether
      exact htogether

/-- **The final order keeps the violations of a check together.** Sorting a report puts
its violations in order of file, line and column. Violations that are level keep their
order, neighbours that are level stay neighbours, and a report in order stays as it is. A
check that raises anything raises the diagnostics of its rule, in order and at one place. So
the report on a text, and that on a directory, is made of what the checks of the calls by
the enabled rules raise, in some order of the checks and with nothing in between. If no rule
but one with the diagnostics of `LinkAndIgnore` lists the first of them, then each violation
with that first code is followed at once by one with the second, of the same rule and at
the same place. -/
theorem order_keeps_checks_together (a : Analyzer) :
    (∀ r : Report, ∃ origin, SortedStably r.violations r.sort.violations origin) ∧
    (∀ k, a.raises k ≠ [] →
      (a.raises k).map (·.code) = k.rule.diagnostics.map (·.code) ∧
        ∃ place, ∀ v ∈ a.raises k, v.location = place) ∧
    (∀ reads p text r, a.analyzeSource reads p text = .ok r →
      a.HoldsTogether (a.checksIn p text) r) ∧
    (∀ m cancelled r, a.analyze m cancelled = .ok r →
      ∃ files, a.discover m = .ok files ∧ a.HoldsTogether (files.flatMap a.checksAt) r) ∧
    ∀ rule : Rule, rule.diagnostics = Rule.linkAndIgnore.diagnostics ∨
      "TH1001A" ∉ rule.diagnostics.map (·.code) → rule.Pairs "TH1001A" "TH1001B" := by
  refine ⟨Report.sortedStably, fun k => codes_raises, fun reads p text r =>
    holdsTogether_analyzeSource, fun m cancelled r => holdsTogether_analyze, ?_⟩
  intro rule hrule
  exact hrule.elim Rule.pairs_of_linkAndIgnore Rule.pairs_of_not_mem

/-- A call of `LinkAndIgnore` whose selector is a literal on a line. -/
def linkCall (line : UInt64) : Call where
  callee := linkAndIgnoreName
  form := .extension
  arguments :=
    [{ position := 0, value := .literal "\"self\"" },
     { position := 1, value := .lambda ["l"] (.literal "0" { line }) }]

/-- Reads each digit as such a call on its line. -/
def linkAnalyzer : Analyzer := { shallow with frontEnds := [ofCharacters (linkCall ∘ lineOf)] }

theorem raised_linkAnalyzer :
    ((linkAnalyzer.checksIn ⟨"/work/a.calls"⟩ "92").flatMap linkAnalyzer.raises).map
        (fun v => (v.code, v.location)) =
      [("TH1001A", ⟨⟨"a.calls"⟩, 9, 0, 0, 0⟩), ("TH1001B", ⟨⟨"a.calls"⟩, 9, 0, 0, 0⟩),
        ("TH1001A", ⟨⟨"a.calls"⟩, 2, 0, 0, 0⟩), ("TH1001B", ⟨⟨"a.calls"⟩, 2, 0, 0, 0⟩)] := by
  decide +kernel

/-- Two pairs that are raised in the wrong order of lines. -/
theorem order_keeps_checks_together_crossed :
    ∃ r, linkAnalyzer.analyzeSource (.const false) ⟨"/work/a.calls"⟩ "92" = .ok r ∧
      r.violations.map (fun v => (v.code, v.location)) =
        [("TH1001A", ⟨⟨"a.calls"⟩, 2, 0, 0, 0⟩), ("TH1001B", ⟨⟨"a.calls"⟩, 2, 0, 0, 0⟩),
          ("TH1001A", ⟨⟨"a.calls"⟩, 9, 0, 0, 0⟩), ("TH1001B", ⟨⟨"a.calls"⟩, 9, 0, 0, 0⟩)] ∧
      ∀ (i : Nat) v, r.violations[i]? = some v → v.code = "TH1001A" →
        ∃ w, r.violations[i + 1]? = some w ∧ v.Companion "TH1001B" w := by
  obtain ⟨-, -, hsource, -, hpairs⟩ := order_keeps_checks_together linkAnalyzer
  have hrun : linkAnalyzer.analyzeSource (.const false) ⟨"/work/a.calls"⟩ "92" =
      .ok (Report.sort
        ⟨(linkAnalyzer.checksIn ⟨"/work/a.calls"⟩ "92").flatMap linkAnalyzer.raises, 1⟩) := rfl
  have hrules : ∀ rule ∈ linkAnalyzer.enabledRules, rule.Pairs "TH1001A" "TH1001B" := by
    intro rule hrule
    apply hpairs
    revert rule
    decide
  refine ⟨_, hrun, ?_, (hsource _ _ _ _ hrun).pairs _ _ hrules⟩
  have hafter : (Location.compare ⟨⟨"a.calls"⟩, 9, 0, 0, 0⟩ ⟨⟨"a.calls"⟩, 2, 0, 0, 0⟩ != .gt) =
      false := by decide +kernel
  have hlevel : ∀ line, (Location.compare ⟨⟨"a.calls"⟩, line, 0, 0, 0⟩
      ⟨⟨"a.calls"⟩, line, 0, 0, 0⟩ != .gt) = true := fun line => by
    rw [bne_gt_eq_isLE]
    exact Std.ReflCmp.isLE_rfl
  have hmap : ∀ vs : List Violation, (vs.mergeSort Violation.notAfter).map
      (fun v => (v.code, v.location)) = (vs.map fun v => (v.code, v.location)).mergeSort
        fun p q => p.2.compare q.2 != .gt := fun vs => List.map_mergeSort fun _ _ _ _ => rfl
  rw [Report.sort, hmap, raised_linkAnalyzer]
  simp [List.mergeSort, hafter, hlevel]

end Analyzer

end SelectorCheck
