import Mathlib.Data.List.Pairwise
import SelectorCheck.Discovery

/-
  The order of paths, and sorting by it.

  Components are ordered by their kind and then by their text, lists of components
  lexicographically, and paths by their components. So the order of paths is
  transitive and total, and two paths are level in it exactly if they have the same
  components, however they are spelled.

  Sorting by a key is determined by the elements alone if no two keys are level:
  whatever order the elements come in, the result is the same list. This is what
  makes an analysis independent of the order in which a directory is walked.
-/

namespace SelectorCheck

namespace Component

/-- The kinds of components, in order. -/
def kind : Component → Nat
  | root => 0
  | here => 1
  | up => 2
  | name _ => 3

/-- The text of a name; the other components have none. -/
def text : Component → String
  | name t => t
  | _ => ""

theorem compare_eq_compareLex :
    Component.compare = compareLex (compareOn kind) (compareOn text) := by
  funext a b
  cases a <;> cases b <;> rfl

theorem compareList_eq_compareLex : compareList = List.compareLex Component.compare := by
  funext as bs
  induction as generalizing bs with
  | nil => cases bs <;> rfl
  | cons a as ih =>
    cases bs with
    | nil => rfl
    | cons b bs => rw [compareList, List.compareLex_cons_cons, ih]

instance : Std.TransCmp Component.compare := by
  rw [compare_eq_compareLex]; infer_instance

instance : Std.LawfulEqCmp Component.compare where
  eq_of_compare {a b} h := by
    cases a <;> cases b <;>
      first
      | rfl
      | cases h
      | exact congrArg name (Std.LawfulEqOrd.eq_of_compare h)

instance : Std.TransCmp compareList := by
  rw [compareList_eq_compareLex]; infer_instance

instance : Std.LawfulEqCmp compareList := by
  rw [compareList_eq_compareLex]; infer_instance

end Component

namespace Path

instance : Std.TransCmp Path.compare where
  eq_swap {p q} := by
    show Component.compareList _ _ = (Component.compareList _ _).swap
    exact Std.OrientedCmp.eq_swap
  isLE_trans {p q r} hpq hqr := by
    unfold Path.compare at hpq hqr ⊢
    exact Std.TransCmp.isLE_trans hpq hqr

theorem compare_eq_eq_iff {p q : Path} : p.compare q = .eq ↔ p.components = q.components := by
  unfold Path.compare
  exact Std.LawfulEqCmp.compare_eq_iff_eq

end Path

/-! ## Sorting by a key -/

section Sorting
variable {α β : Type} {cmp : β → β → Ordering} [Std.TransCmp cmp] (key : α → β)

theorem bne_gt_eq_isLE (o : Ordering) : (o != .gt) = o.isLE := by cases o <;> rfl

theorem key_trans (x y z : α) (hxy : (cmp (key x) (key y) != .gt) = true)
    (hyz : (cmp (key y) (key z) != .gt) = true) : (cmp (key x) (key z) != .gt) = true := by
  rw [bne_gt_eq_isLE] at hxy hyz ⊢
  exact Std.TransCmp.isLE_trans hxy hyz

theorem key_total (x y : α) :
    (cmp (key x) (key y) != .gt || cmp (key y) (key x) != .gt) = true := by
  have hswap : cmp (key x) (key y) = (cmp (key y) (key x)).swap := Std.OrientedCmp.eq_swap
  rw [hswap]
  cases cmp (key y) (key x) <;> rfl

theorem pairwise_mergeSort_key (xs : List α) :
    (xs.mergeSort fun x y => cmp (key x) (key y) != .gt).Pairwise
      fun x y => (cmp (key x) (key y)).isLE = true := by
  simp only [← bne_gt_eq_isLE]
  exact List.pairwise_mergeSort (key_trans key) (key_total key) xs

theorem mergeSort_key_eq_of_perm {xs ys : List α} (hperm : xs.Perm ys)
    (hkeys : ys.Pairwise fun x y => cmp (key x) (key y) ≠ .eq) :
    (xs.mergeSort fun x y => cmp (key x) (key y) != .gt) =
      ys.mergeSort fun x y => cmp (key x) (key y) != .gt := by
  have hxs := List.mergeSort_perm xs fun x y => cmp (key x) (key y) != .gt
  have hys := List.mergeSort_perm ys fun x y => cmp (key x) (key y) != .gt
  refine List.Perm.eq_of_pairwise ?_ (pairwise_mergeSort_key key xs)
    (pairwise_mergeSort_key key ys) (hxs.trans (hperm.trans hys.symm))
  intro x y hx hy hle hge
  have heq : cmp (key x) (key y) = .eq := Std.OrientedCmp.isLE_antisymm hle hge
  have hx : x ∈ ys := hperm.mem_iff.mp (List.mem_mergeSort.mp hx)
  have hy : y ∈ ys := List.mem_mergeSort.mp hy
  have hsymm : Std.Symm fun x y => cmp (key x) (key y) ≠ .eq :=
    ⟨fun x y h hyx => h (Std.OrientedCmp.eq_symm hyx)⟩
  by_contra hne
  exact hkeys.forall hx hy hne heq

end Sorting

/-- The files that are analyzed do not depend on the order in which they were
found, if no two of them have the same place. -/
theorem Analyzer.admitted_eq_of_perm (a : Analyzer) {walked found : List FoundFile}
    (hperm : walked.Perm found)
    (hplaces : found.Pairwise fun f g => f.path.components ≠ g.path.components) :
    a.admitted walked = a.admitted found := by
  have hlevel : found.Pairwise fun f g => f.path.compare g.path ≠ .eq := by
    refine hplaces.imp ?_
    intro f g hne heq
    exact hne (Path.compare_eq_eq_iff.mp heq)
  unfold admitted handled
  refine mergeSort_key_eq_of_perm FoundFile.path ((hperm.filter _).filter _) ?_
  exact (hlevel.filter _).filter _

theorem Analyzer.admitted_sorted (a : Analyzer) (found : List FoundFile) :
    (a.admitted found).Pairwise fun f g => (f.path.compare g.path).isLE = true :=
  pairwise_mergeSort_key FoundFile.path _

end SelectorCheck
