import Mathlib.Data.Fintype.Card
import Mathlib.Data.List.FinRange
import Mathlib.Data.List.Pairwise
import Mathlib.Logic.Equiv.Basic
import Mathlib.Tactic.Choose
import SelectorCheck.Binding
import SelectorCheck.Proofs.SelectorLanguage

/-
  What it means that a method accepts a call.

  An argument asks for a slot: the first with its name, or the one at its
  position (`AsksFor`). A method accepts a call if name, type and form agree and
  the arguments are in one-to-one correspondence with the slots, each with the
  slot it asks for (`Method.Accepts`). The correspondence is a bijection between
  places in the argument list and slots, so equal arguments at two places count
  as two. There is at most one, because an argument asks for at most one slot.

  What is proved:
    1. `bind_eq_some_iff`: binding succeeds exactly on such correspondences, and
       lists the arguments in slot order.
    2. `accept_eq_ok_iff`: a method binds a call of its name exactly if it accepts
       it.
    3. `bind?_eq_some_iff`: a table binds a call by its first entry that accepts
       it.
    4. `bindings_boundBy_perm`: the bound arguments are those of the call, in
       another order.
    5. `selector?_eq_some_iff`: the selector found in a bound call is the lambda
       bound to the selector parameter of that entry.
-/

namespace SelectorCheck

namespace Binding

variable {slots : List String}

/-- The first slot with a name. -/
def FirstSlot (slots : List String) (name : String) (i : Fin slots.length) : Prop :=
  slots.get i = name ∧ ∀ j < i, slots.get j ≠ name

/-- The slot an argument asks for. -/
def AsksFor (slots : List String) (x : Argument) (i : Fin slots.length) : Prop :=
  match x.name with
  | some name => FirstSlot slots name i
  | none => x.position = i

theorem findIdx?_eq_some_iff_firstSlot {name : String} {i : Fin slots.length} :
    slots.findIdx? (· == name) = some i.val ↔ FirstSlot slots name i := by
  rw [List.findIdx?_eq_some_iff_getElem]
  constructor
  · intro h
    obtain ⟨_, h, hb⟩ := h
    refine ⟨by simpa using h, fun j hj => ?_⟩
    simpa using hb j.val hj
  · intro h
    obtain ⟨h, hb⟩ := h
    refine ⟨i.isLt, by simpa using h, fun j hj => ?_⟩
    simpa using hb ⟨j, Nat.lt_trans hj i.isLt⟩ hj

theorem slotOf_eq_some_iff {x : Argument} {i : Fin slots.length} :
    slotOf slots x = some i.val ↔ AsksFor slots x i := by
  unfold slotOf AsksFor
  cases x.name with
  | some name => exact findIdx?_eq_some_iff_firstSlot
  | none => exact Option.some_inj

/-! ## Filling the slots -/

/-- How filling `bound` with arguments ends in `bound'`: every argument is in the
slot it asks for, which was free, no two arguments ask for one slot, and the other
slots are as before. -/
structure Filled (slots : List String) (bound : List (Option Argument)) (args : List Argument)
    (bound' : List (Option Argument)) : Prop where
  length : bound'.length = bound.length
  placed : ∀ x ∈ args, ∃ i, slotOf slots x = some i ∧ bound[i]? = some none ∧
    bound'[i]? = some (some x)
  apart : args.Pairwise fun x y => slotOf slots x ≠ slotOf slots y
  kept : ∀ i, (∀ x ∈ args, slotOf slots x ≠ some i) → bound'[i]? = bound[i]?

theorem fill_filled {bound bound' : List (Option Argument)} {args : List Argument}
    (h : fill slots bound args = some bound') : Filled slots bound args bound' := by
  induction args generalizing bound with
  | nil =>
    obtain rfl := Option.some.inj h
    exact ⟨rfl, by simp, .nil, fun _ _ => rfl⟩
  | cons a as ih =>
    rw [fill] at h
    split at h
    · cases h
    next i ha =>
    split at h
    next hfree =>
      obtain ⟨hlen, hplaced, hapart, hkept⟩ := ih h
      have hi : i < bound.length := (List.getElem?_eq_some_iff.mp hfree).1
      -- the slot just taken is free for no later argument
      have hne : ∀ y ∈ as, slotOf slots y ≠ some i := by
        intro y hy hyi
        obtain ⟨j, hj, hjfree, _⟩ := hplaced y hy
        obtain rfl : i = j := Option.some.inj (hyi.symm.trans hj)
        simp [hi] at hjfree
      refine ⟨by simpa using hlen, ?_, ?_, ?_⟩
      · intro x hx
        rcases List.mem_cons.mp hx with rfl | hx
        · refine ⟨i, ha, hfree, ?_⟩
          rw [hkept i hne]
          simp [hi]
        · obtain ⟨j, hj, hjfree, hjset⟩ := hplaced x hx
          have hij : i ≠ j := fun e => hne x hx (e ▸ hj)
          exact ⟨j, hj, by rwa [List.getElem?_set_ne hij] at hjfree, hjset⟩
      · refine .cons (fun y hy e => hne y hy ?_) hapart
        rw [← e, ha]
      · intro j hj
        have hij : i ≠ j := fun e => hj a (by simp) (e ▸ ha)
        rw [hkept j fun y hy => hj y (by simp [hy]), List.getElem?_set_ne hij]
    next => cases h

theorem exists_fill {args : List Argument} : ∀ {bound : List (Option Argument)},
    (∀ x ∈ args, ∃ i, slotOf slots x = some i ∧ bound[i]? = some none) →
    args.Pairwise (fun x y => slotOf slots x ≠ slotOf slots y) →
    ∃ bound', fill slots bound args = some bound' := by
  induction args with
  | nil => exact fun {bound} _ _ => ⟨bound, rfl⟩
  | cons a as ih =>
    intro bound hfree hapart
    obtain ⟨hne, hapart⟩ := List.pairwise_cons.mp hapart
    obtain ⟨i, ha, hi⟩ := hfree a (by simp)
    simp only [fill, ha, hi]
    refine ih (fun y hy => ?_) hapart
    obtain ⟨j, hj, hjfree⟩ := hfree y (by simp [hy])
    have hij : i ≠ j := fun e => hne y hy (by rw [ha, hj, e])
    exact ⟨j, hj, by rwa [List.getElem?_set_ne hij]⟩

theorem all?_eq_some_iff {α : Type} {xs : List (Option α)} {ys : List α} :
    all? xs = some ys ↔ xs = ys.map some := by
  induction xs generalizing ys with
  | nil => cases ys <;> simp [all?]
  | cons x xs ih =>
    cases x with
    | none => cases ys <;> simp [all?]
    | some x =>
      simp only [all?, Option.map_eq_some_iff, ih]
      constructor
      · intro h
        obtain ⟨zs, rfl, rfl⟩ := h
        rfl
      · intro h
        cases ys with
        | nil => cases h
        | cons y ys =>
          obtain ⟨hy, hys⟩ := List.cons.inj h
          exact ⟨ys, hys, by rw [Option.some.inj hy]⟩

/-- The arguments of a correspondence, in slot order. -/
def inSlotOrder {args : List Argument} (σ : Fin args.length ≃ Fin slots.length) :
    List Argument :=
  List.ofFn fun i => args.get (σ.symm i)

/-- Arguments bound to slots are in one-to-one correspondence with them. -/
theorem exists_equiv_of_bind {args bound : List Argument} (h : bind slots args = some bound) :
    ∃ σ : Fin args.length ≃ Fin slots.length,
      (∀ k, AsksFor slots (args.get k) (σ k)) ∧ bound = inSlotOrder σ := by
  unfold bind at h
  split at h
  next filled hfill =>
    obtain ⟨hlen, hplaced, hapart, hkept⟩ := fill_filled hfill
    rw [all?_eq_some_iff] at h
    subst h
    have hlen : bound.length = slots.length := by simpa using hlen
    -- the slot of each place in the argument list, and what ends up there
    have hslot : ∀ k : Fin args.length, ∃ i : Fin slots.length,
        AsksFor slots (args.get k) i ∧ bound[i.val]? = some (args.get k) := by
      intro k
      obtain ⟨i, hi, hfree, hset⟩ := hplaced (args.get k) (List.get_mem args k)
      have hi' : i < slots.length := by simpa using (List.getElem?_eq_some_iff.mp hfree).1
      refine ⟨⟨i, hi'⟩, slotOf_eq_some_iff.mp hi, ?_⟩
      simpa using hset
    choose f hasks hbound using hslot
    have hinj : Function.Injective f := by
      intro k l hkl
      by_contra hne
      have hsame : slotOf slots (args.get k) = slotOf slots (args.get l) := by
        rw [slotOf_eq_some_iff.mpr (hasks k), slotOf_eq_some_iff.mpr (hasks l), hkl]
      rw [List.pairwise_iff_get] at hapart
      rcases Nat.lt_or_gt_of_ne (fun e => hne (Fin.ext e)) with hlt | hlt
      · exact hapart k l hlt hsame
      · exact hapart l k hlt hsame.symm
    have hsurj : Function.Surjective f := by
      intro i
      by_contra hnone
      -- a slot nobody asks for would still be free
      have hfree := hkept i.val fun x hx hxi => by
        obtain ⟨k, rfl⟩ := List.get_of_mem hx
        refine hnone ⟨k, Fin.ext ?_⟩
        exact Option.some.inj ((slotOf_eq_some_iff.mpr (hasks k)).symm.trans hxi)
      simp [hlen, i.isLt] at hfree
    refine ⟨Equiv.ofBijective f ⟨hinj, hsurj⟩, hasks, ?_⟩
    refine List.ext_getElem (by simp [inSlotOrder, hlen]) fun i hi _ => ?_
    obtain ⟨k, hk⟩ := hsurj ⟨i, hlen ▸ hi⟩
    have hsymm : (Equiv.ofBijective f ⟨hinj, hsurj⟩).symm ⟨i, hlen ▸ hi⟩ = k := by
      rw [Equiv.symm_apply_eq]; exact hk.symm
    have hb := hbound k
    rw [hk, List.getElem?_eq_getElem hi] at hb
    simpa [inSlotOrder, hsymm] using hb
  next => cases h

theorem bind_of_equiv {args : List Argument} (σ : Fin args.length ≃ Fin slots.length)
    (hσ : ∀ k, AsksFor slots (args.get k) (σ k)) :
    bind slots args = some (inSlotOrder σ) := by
  have hslot : ∀ k, slotOf slots (args.get k) = some (σ k).val :=
    fun k => slotOf_eq_some_iff.mpr (hσ k)
  have hapart : args.Pairwise fun x y => slotOf slots x ≠ slotOf slots y := by
    rw [List.pairwise_iff_get]
    intro k l hkl hsame
    rw [hslot k, hslot l] at hsame
    exact (Fin.ne_of_lt hkl) (σ.injective (Fin.ext (Option.some.inj hsame)))
  obtain ⟨filled, hfill⟩ : ∃ filled, fill slots (slots.map fun _ => none) args = some filled := by
    refine exists_fill (fun x hx => ?_) hapart
    obtain ⟨k, rfl⟩ := List.get_of_mem hx
    exact ⟨_, hslot k, by simp⟩
  obtain ⟨hlen, hplaced, _, _⟩ := fill_filled hfill
  have hall : filled = (inSlotOrder σ).map some := by
    refine List.ext_getElem (by simpa [inSlotOrder] using hlen) fun i hi hi' => ?_
    have hi : i < slots.length := by simpa [inSlotOrder] using hi'
    obtain ⟨j, hj, _, hset⟩ := hplaced (args.get (σ.symm ⟨i, hi⟩)) (List.get_mem _ _)
    rw [hslot, Equiv.apply_symm_apply] at hj
    obtain rfl := Option.some.inj hj
    rw [List.getElem?_eq_some_iff] at hset
    simpa [inSlotOrder] using hset.2
  simp only [bind, hfill, all?_eq_some_iff.mpr hall]

theorem bind_eq_some_iff {args bound : List Argument} :
    bind slots args = some bound ↔ ∃ σ : Fin args.length ≃ Fin slots.length,
      (∀ k, AsksFor slots (args.get k) (σ k)) ∧ bound = inSlotOrder σ := by
  refine ⟨exists_equiv_of_bind, ?_⟩
  intro h
  obtain ⟨σ, hσ, rfl⟩ := h
  exact bind_of_equiv σ hσ

end Binding

/-! ## Accepted calls -/

namespace Method

/-- Whether a form is allowed. -/
def allows (m : Method) : CallForm → Bool
  | .ordinary => m.ordinary
  | .extension => m.extension

/-- The slots that a form leaves to be filled. -/
def slotNames (m : Method) : CallForm → List String
  | .ordinary => m.receiver :: m.parameters
  | .extension => m.parameters

/-- The method accepts the call with the correspondence `σ` from arguments to
slots. -/
structure AcceptsBy (m : Method) (c : Call)
    (σ : Fin c.arguments.length ≃ Fin (m.slotNames c.form).length) : Prop where
  name : m.name = c.callee
  type : ∀ type, c.declaringType = some type → lastSegment type = lastSegment m.declaringType
  form : m.allows c.form = true
  slots : ∀ k, Binding.AsksFor (m.slotNames c.form) (c.arguments.get k) (σ k)

def Accepts (m : Method) (c : Call) : Prop := ∃ σ, m.AcceptsBy c σ

/-- The call with the slots of the method filled by `σ`. -/
def boundBy (m : Method) (c : Call)
    (σ : Fin c.arguments.length ≃ Fin (m.slotNames c.form).length) : BoundCall :=
  ⟨m, c, List.ofFn fun i => ((m.slotNames c.form).get i, c.arguments.get (σ.symm i))⟩

theorem slots?_eq (m : Method) (form : CallForm) :
    m.slots? form = if m.allows form then some (m.slotNames form) else none := by
  cases form <;> rfl

theorem agreesOnType_iff {m : Method} {c : Call} :
    m.agreesOnType c = true ↔
      ∀ type, c.declaringType = some type → lastSegment type = lastSegment m.declaringType := by
  unfold agreesOnType isDeclaredBy
  cases c.declaringType <;> simp

theorem zip_inSlotOrder {slots : List String} {args : List Argument}
    (σ : Fin args.length ≃ Fin slots.length) :
    slots.zip (Binding.inSlotOrder σ) =
      List.ofFn fun i => (slots.get i, args.get (σ.symm i)) := by
  refine List.ext_getElem (by simp [Binding.inSlotOrder]) fun i _ _ => ?_
  simp [Binding.inSlotOrder]

/-- There is only one correspondence by which a method accepts a call, because an
argument asks for one slot. -/
theorem AcceptsBy.unique {m : Method} {c : Call}
    {σ τ : Fin c.arguments.length ≃ Fin (m.slotNames c.form).length}
    (hσ : m.AcceptsBy c σ) (hτ : m.AcceptsBy c τ) : σ = τ := by
  ext k
  have h₁ := Binding.slotOf_eq_some_iff.mpr (hσ.slots k)
  have h₂ := Binding.slotOf_eq_some_iff.mpr (hτ.slots k)
  exact Option.some.inj (h₁.symm.trans h₂)

theorem bindings_boundBy_names {m : Method} {c : Call}
    (σ : Fin c.arguments.length ≃ Fin (m.slotNames c.form).length) :
    (m.boundBy c σ).bindings.map Prod.fst = m.slotNames c.form := by
  rw [boundBy, List.map_ofFn]
  exact List.ofFn_get _

theorem bindings_boundBy_perm {m : Method} {c : Call}
    (σ : Fin c.arguments.length ≃ Fin (m.slotNames c.form).length) :
    ((m.boundBy c σ).bindings.map Prod.snd).Perm c.arguments := by
  -- going through the slots is going through the places of the argument list
  have hplaces : ((List.finRange (m.slotNames c.form).length).map σ.symm).Perm
      (List.finRange c.arguments.length) := by
    have hnodup := (List.nodup_finRange (m.slotNames c.form).length).map σ.symm.injective
    refine (List.perm_ext_iff_of_nodup hnodup (List.nodup_finRange _)).mpr fun k => ?_
    simp only [List.mem_map, List.mem_finRange, true_and, iff_true]
    exact σ.symm.surjective k
  have hbound : (m.boundBy c σ).bindings.map Prod.snd =
      ((List.finRange (m.slotNames c.form).length).map σ.symm).map c.arguments.get := by
    rw [boundBy, List.map_ofFn, List.ofFn_eq_map, List.map_map]
    rfl
  rw [hbound]
  exact (hplaces.map c.arguments.get).trans (.of_eq (List.map_get_finRange _))

theorem accept_eq_ok_iff {m : Method} {c : Call} {b : BoundCall} (hname : m.name = c.callee) :
    m.accept c = .ok b ↔ ∃ σ, m.AcceptsBy c σ ∧ b = m.boundBy c σ := by
  constructor
  · intro h
    unfold accept at h
    split at h
    · cases h
    next htype =>
    rw [slots?_eq] at h
    split at h
    · cases h
    next slots hslots =>
    obtain ⟨hform, rfl⟩ : m.allows c.form = true ∧ m.slotNames c.form = slots := by
      simpa using hslots
    split at h
    · cases h
    split at h
    · cases h
    next bound hbound =>
    obtain ⟨σ, hσ, rfl⟩ := Binding.bind_eq_some_iff.mp hbound
    obtain rfl := Except.ok.inj h
    refine ⟨σ, ⟨hname, agreesOnType_iff.mp (by simpa using htype), hform, hσ⟩, ?_⟩
    rw [boundBy, zip_inSlotOrder]
  · intro h
    obtain ⟨σ, ⟨_, htype, hform, hσ⟩, rfl⟩ := h
    have hlen : c.arguments.length = (m.slotNames c.form).length := by
      simpa using Fintype.card_congr σ
    unfold accept
    simp [agreesOnType_iff.mpr htype, slots?_eq, hform, hlen, Binding.bind_of_equiv σ hσ,
      boundBy, zip_inSlotOrder]

end Method

namespace MethodTable

/-- The first entry of the table that accepts a call. -/
def Decides (t : MethodTable) (c : Call) (m : Method) : Prop :=
  ∃ before after, t.methods = before ++ m :: after ∧ (∀ m' ∈ before, ¬ m'.Accepts c) ∧
    m.Accepts c

theorem bind?_cons_of_acceptsBy {m : Method} {c : Call} (ms : List Method)
    {σ : Fin c.arguments.length ≃ Fin (m.slotNames c.form).length} (h : m.AcceptsBy c σ) :
    bind? ⟨m :: ms⟩ c = some (m.boundBy c σ) := by
  have hok := (Method.accept_eq_ok_iff h.name).mpr ⟨σ, h, rfl⟩
  simp [bind?, candidates, h.name, firstAccepting, hok]

theorem bind?_cons_of_not_accepts {m : Method} {c : Call} (ms : List Method)
    (h : ¬ m.Accepts c) : bind? ⟨m :: ms⟩ c = bind? ⟨ms⟩ c := by
  by_cases hname : m.name = c.callee
  · cases hm : m.accept c with
    | ok b =>
      obtain ⟨σ, hσ, _⟩ := (Method.accept_eq_ok_iff hname).mp hm
      exact absurd ⟨σ, hσ⟩ h
    | error e => simp [bind?, candidates, hname, firstAccepting, hm]
  · simp [bind?, candidates, hname]

theorem bind?_of_decides {t : MethodTable} {c : Call} {m : Method} (h : t.Decides c m) :
    ∃ σ, m.AcceptsBy c σ ∧ t.bind? c = some (m.boundBy c σ) := by
  obtain ⟨before, after, ht, hbefore, σ, hσ⟩ := h
  obtain ⟨methods⟩ := t
  subst ht
  refine ⟨σ, hσ, ?_⟩
  induction before with
  | nil => exact bind?_cons_of_acceptsBy after hσ
  | cons m' before ih =>
    rw [List.cons_append, bind?_cons_of_not_accepts _ (hbefore m' (by simp))]
    exact ih fun x hx => hbefore x (by simp [hx])

theorem exists_decides {t : MethodTable} {c : Call} {m : Method} (hm : m ∈ t.methods)
    (h : m.Accepts c) : ∃ m', t.Decides c m' := by
  obtain ⟨methods⟩ := t
  induction methods with
  | nil => cases hm
  | cons a ms ih =>
    by_cases ha : a.Accepts c
    · exact ⟨a, [], ms, rfl, by simp, ha⟩
    · have hms : m ∈ ms := by
        rcases List.mem_cons.mp hm with rfl | hms
        · exact absurd h ha
        · exact hms
      obtain ⟨m', before, after, rfl, hbefore, hacc⟩ := ih hms
      refine ⟨m', a :: before, after, rfl, fun x hx => ?_, hacc⟩
      rcases List.mem_cons.mp hx with rfl | hx
      · exact ha
      · exact hbefore x hx

theorem bind?_eq_none_iff {t : MethodTable} {c : Call} :
    t.bind? c = none ↔ ∀ m ∈ t.methods, ¬ m.Accepts c := by
  constructor
  · intro hnone m hm h
    obtain ⟨m', hd⟩ := exists_decides hm h
    obtain ⟨σ, _, hb⟩ := bind?_of_decides hd
    rw [hnone] at hb
    cases hb
  · intro h
    obtain ⟨methods⟩ := t
    induction methods with
    | nil => rfl
    | cons m ms ih =>
      rw [bind?_cons_of_not_accepts ms (h m List.mem_cons_self)]
      exact ih fun x hx => h x (List.mem_cons_of_mem m hx)

theorem bind?_eq_some_iff {t : MethodTable} {c : Call} {b : BoundCall} :
    t.bind? c = some b ↔
      ∃ m σ, t.Decides c m ∧ m.AcceptsBy c σ ∧ b = m.boundBy c σ := by
  constructor
  · intro h
    by_cases hex : ∃ m ∈ t.methods, m.Accepts c
    · obtain ⟨m', hm', hacc⟩ := hex
      obtain ⟨m, hd⟩ := exists_decides hm' hacc
      obtain ⟨σ, hσ, hb⟩ := bind?_of_decides hd
      exact ⟨m, σ, hd, hσ, Option.some.inj (h.symm.trans hb)⟩
    · have hnone := bind?_eq_none_iff.mpr fun m hm hacc => hex ⟨m, hm, hacc⟩
      rw [hnone] at h
      cases h
  · intro h
    obtain ⟨m, σ, hd, hσ, rfl⟩ := h
    obtain ⟨τ, hτ, hb⟩ := bind?_of_decides hd
    rw [hb, hτ.unique hσ]

/-- Matching is exact: a call is bound by the first entry that accepts it and by no
other, every slot with the argument that asks for it, and nothing is lost or bound
twice. -/
theorem bind?_exact (t : MethodTable) (c : Call) :
    (∀ b, t.bind? c = some b ↔
      t.Decides c b.method ∧ b.call = c ∧
        ∃ σ, b.method.AcceptsBy c σ ∧ b.bindings = List.ofFn fun i =>
          ((b.method.slotNames c.form).get i, c.arguments.get (σ.symm i))) ∧
    (∀ b ∈ t.bind? c, b.bindings.map Prod.fst = b.method.slotNames c.form ∧
      (b.bindings.map Prod.snd).Perm c.arguments) ∧
    (t.bind? c = none ↔ ∀ m ∈ t.methods, ¬ m.Accepts c) := by
  refine ⟨fun b => ⟨fun h => ?_, fun h => ?_⟩, fun b hb => ?_, bind?_eq_none_iff⟩
  · obtain ⟨m, σ, hd, hσ, rfl⟩ := bind?_eq_some_iff.mp h
    exact ⟨hd, rfl, σ, hσ, rfl⟩
  · obtain ⟨m, call, bindings⟩ := b
    obtain ⟨hd, rfl, σ, hσ, hbindings⟩ := h
    exact bind?_eq_some_iff.mpr ⟨m, σ, hd, hσ, congrArg (BoundCall.mk m call) hbindings⟩
  · obtain ⟨m, σ, _, _, rfl⟩ := bind?_eq_some_iff.mp hb
    exact ⟨Method.bindings_boundBy_names σ, Method.bindings_boundBy_perm σ⟩

/-- A call that names its arguments, the selector first. -/
def selectorFirst : Call where
  callee := ignoreName
  form := .ordinary
  arguments :=
    [{ name := some "selector", position := 0, value := .lambda ["l"] (.identifier "l") },
     { name := some "transformationMap", position := 1, value := .identifier "map" }]

/-- They are bound in the order of the slots. -/
theorem bind?_exact_selectorFirst :
    ∃ b ∈ standard.bind? selectorFirst,
      b.bindings.map Prod.fst = ["transformationMap", "selector"] ∧
        b.bindings.map (·.2.position) = [1, 0] ∧
        (b.bindings.map Prod.snd).Perm selectorFirst.arguments := by
  obtain ⟨b, hb⟩ : ∃ b, standard.bind? selectorFirst = some b :=
    Option.isSome_iff_exists.mp (by decide +kernel)
  have hpositions : (standard.bind? selectorFirst).map (·.bindings.map (·.2.position)) =
      some [1, 0] := by decide +kernel
  have hmethod : (standard.bind? selectorFirst).map (·.method.slotNames .ordinary) =
      some ["transformationMap", "selector"] := by decide +kernel
  rw [hb] at hpositions hmethod
  obtain ⟨hnames, hperm⟩ := (bind?_exact standard selectorFirst).2.1 b hb
  refine ⟨b, hb, ?_, Option.some.inj hpositions, hperm⟩
  exact hnames.trans (Option.some.inj hmethod)

end MethodTable

/-! ## The selector of a bound call -/

/-- The argument `x` is bound to a parameter: it is in the first slot of that
name. -/
def Method.Binds (m : Method) (c : Call)
    (σ : Fin c.arguments.length ≃ Fin (m.slotNames c.form).length) (parameter : String)
    (x : Argument) : Prop :=
  ∃ i, Binding.FirstSlot (m.slotNames c.form) parameter i ∧ x = c.arguments.get (σ.symm i)

theorem Method.argument?_boundBy_eq_some_iff {m : Method} {c : Call}
    {σ : Fin c.arguments.length ≃ Fin (m.slotNames c.form).length} {parameter : String}
    {x : Argument} :
    (m.boundBy c σ).argument? parameter = some x ↔ m.Binds c σ parameter x := by
  simp only [BoundCall.argument?, boundBy, Option.map_eq_some_iff, Binds]
  constructor
  · intro h
    obtain ⟨⟨name, y⟩, hfind, rfl⟩ := h
    obtain ⟨hp, i, hi, hget, hbefore⟩ := List.find?_eq_some_iff_getElem.mp hfind
    simp only [List.getElem_ofFn, Prod.mk.injEq] at hget
    obtain ⟨rfl, rfl⟩ := hget
    refine ⟨⟨i, by simpa using hi⟩, ⟨by simpa using hp, fun j hj => ?_⟩, rfl⟩
    simpa using hbefore j.val hj
  · intro h
    obtain ⟨i, ⟨hname, hbefore⟩, rfl⟩ := h
    refine ⟨(parameter, c.arguments.get (σ.symm i)), ?_, rfl⟩
    rw [List.find?_eq_some_iff_getElem]
    refine ⟨by simp, i.val, by simp, by simpa using hname, fun j hj => ?_⟩
    simpa using hbefore ⟨j, Nat.lt_trans hj i.isLt⟩ hj

/-- The call passes `s` for the selector of the entry that decides it: the
argument bound to the selector parameter is a lambda in whatever parentheses. -/
def MethodTable.PassesSelector (t : MethodTable) (c : Call) (s : Selector) : Prop :=
  ∃ m σ, t.Decides c m ∧ m.AcceptsBy c σ ∧ ∃ x, m.Binds c σ m.selector x ∧
    s.argument = x.value ∧
    ∃ span, x.value.Encloses (.lambda s.lambda.parameters s.lambda.body span)

theorem MethodTable.selector?_eq_some_iff {t : MethodTable} {c : Call} {s : Selector} :
    (t.bind? c).bind BoundCall.selector? = some s ↔ t.PassesSelector c s := by
  constructor
  · intro h
    obtain ⟨b, hb, hs⟩ := Option.bind_eq_some_iff.mp h
    obtain ⟨m, σ, hd, hσ, rfl⟩ := bind?_eq_some_iff.mp hb
    unfold BoundCall.selector? at hs
    split at hs
    · cases hs
    next x hx =>
    obtain ⟨l, hl, rfl⟩ := Option.map_eq_some_iff.mp hs
    exact ⟨m, σ, hd, hσ, x, Method.argument?_boundBy_eq_some_iff.mp hx, rfl,
      Expr.lambda?_eq_some_iff.mp hl⟩
  · intro h
    obtain ⟨m, σ, hd, hσ, x, hx, hs, hl⟩ := h
    rw [bind?_eq_some_iff.mpr ⟨m, σ, hd, hσ, rfl⟩, Option.bind_some]
    have hx : (m.boundBy c σ).argument? (m.boundBy c σ).method.selector = some x :=
      Method.argument?_boundBy_eq_some_iff.mpr hx
    obtain ⟨argument, l⟩ := s
    obtain rfl : argument = x.value := hs
    simp only [BoundCall.selector?, hx, Expr.lambda?_eq_some_iff.mpr hl, Option.map_some]

end SelectorCheck
