import Mathlib.Data.List.Forall2
import SelectorCheck.Proofs.Layouts

/-
  Ways to write one call.

  The same call can be written with its arguments in another order, and on its
  receiver or through the declaring type. What a rule says about it does not depend
  on that, because a rule looks at the value of the selector, and the value gets to
  the selector's slot whichever way it is written.

  Filling the slots is compared for two lists of arguments that are related one by
  one. If related arguments ask for the same slot, both lists are bound or both are
  refused, and the slots hold related arguments (`bind_rel`). A list in another order
  is bound to the same slots (`bind_perm`), and a receiver in front of all arguments
  moves every other argument on by one slot (`bind_receiver`).

  What is proved:
    1. `bind_perm`, `bind_rel`, `bind_receiver`: what a rewritten argument list does to
       the slots, for bound and for refused lists alike.
    2. `bind?_rel`: a table binds both calls by the same entry or refuses both.
    3. `checkCall_eq_of_reordered`: the order of the arguments does not matter.
    4. `checkCall_eq_of_throughType`: the form of the call does not matter, for a
       consistent method that allows both.
-/

namespace SelectorCheck

/-! ## Argument lists that ask for the same slots -/

namespace Binding

variable {slots : List String} {R : Argument → Argument → Prop}

/-- Two neighbours may be put into their slots in either order. -/
theorem fill_swap (bound : List (Option Argument)) (a b : Argument) (rest : List Argument) :
    fill slots bound (a :: b :: rest) = fill slots bound (b :: a :: rest) := by
  simp only [fill]
  cases ha : slotOf slots a with
  | none =>
    cases slotOf slots b with
    | none => rfl
    | some j => dsimp only; split <;> rfl
  | some i =>
    cases hb : slotOf slots b with
    | none => dsimp only; split <;> rfl
    | some j =>
      dsimp only
      by_cases hij : i = j
      · -- the second of the two finds the slot taken
        subst hij
        cases hi : bound[i]? with
        | none => rfl
        | some o =>
          have hlt : i < bound.length := (List.getElem?_eq_some_iff.mp hi).1
          cases o with
          | some _ => rfl
          | none => simp [hlt]
      · rw [List.getElem?_set_ne hij, List.getElem?_set_ne (Ne.symm hij),
          List.set_comm _ _ hij]
        rcases bound[i]? with _ | _ | _ <;> rcases bound[j]? with _ | _ | _ <;> rfl

theorem fill_perm {args args' : List Argument} (h : args.Perm args')
    (bound : List (Option Argument)) : fill slots bound args = fill slots bound args' := by
  induction h generalizing bound with
  | nil => rfl
  | cons a _ ih => simp only [fill, ih]
  | swap a b rest => exact fill_swap bound b a rest
  | trans _ _ ih₁ ih₂ => rw [ih₁, ih₂]

theorem bind_perm {args args' : List Argument} (h : args.Perm args') :
    bind slots args = bind slots args' := by
  unfold bind
  rw [fill_perm h]

theorem forall₂_set {α β : Type} {R : α → β → Prop} {xs : List α} {ys : List β} {x : α} {y : β}
    (h : List.Forall₂ R xs ys) (hxy : R x y) (i : Nat) :
    List.Forall₂ R (xs.set i x) (ys.set i y) := by
  induction h generalizing i with
  | nil => exact .nil
  | cons h hrest ih =>
    cases i with
    | zero => exact .cons hxy hrest
    | succ i => exact .cons h (ih i)

theorem forall₂_getElem? {α β : Type} {R : α → β → Prop} {xs : List α} {ys : List β}
    (h : List.Forall₂ R xs ys) (i : Nat) : Option.Rel R xs[i]? ys[i]? := by
  induction h generalizing i with
  | nil => exact .none
  | cons h _ ih =>
    cases i with
    | zero => exact .some h
    | succ i => exact ih i

theorem fill_rel (hR : ∀ x y, R x y → slotOf slots x = slotOf slots y) {args args' : List Argument}
    (h : List.Forall₂ R args args') :
    ∀ {bound bound' : List (Option Argument)}, List.Forall₂ (Option.Rel R) bound bound' →
      Option.Rel (List.Forall₂ (Option.Rel R)) (fill slots bound args)
        (fill slots bound' args') := by
  induction h with
  | nil => exact fun hbound => .some hbound
  | @cons x y _ _ hxy _ ih =>
    intro bound bound' hbound
    simp only [fill, hR x y hxy]
    cases slotOf slots y with
    | none => exact .none
    | some i =>
      -- a slot is free in one list exactly if it is free in the other
      have hi := forall₂_getElem? hbound i
      dsimp only
      generalize bound[i]? = o, bound'[i]? = o' at hi
      cases hi with
      | none => exact .none
      | some hi =>
        cases hi with
        | some _ => exact .none
        | none => exact ih (forall₂_set hbound (.some hxy) i)

theorem all?_rel {α β : Type} {R : α → β → Prop} {xs : List (Option α)} {ys : List (Option β)}
    (h : List.Forall₂ (Option.Rel R) xs ys) : Option.Rel (List.Forall₂ R) (all? xs) (all? ys) := by
  induction h with
  | nil => exact .some .nil
  | @cons x y xs ys hxy _ ih =>
    cases hxy with
    | none => exact .none
    | some hxy =>
      simp only [all?]
      generalize all? xs = o, all? ys = o' at ih
      cases ih with
      | none => exact .none
      | some hrest => exact .some (.cons hxy hrest)

/-- Lists of arguments that ask for the same slots one by one are both bound, with
related arguments in every slot, or both refused. -/
theorem bind_rel (hR : ∀ x y, R x y → slotOf slots x = slotOf slots y) {args args' : List Argument}
    (h : List.Forall₂ R args args') :
    Option.Rel (List.Forall₂ R) (bind slots args) (bind slots args') := by
  have hfree : List.Forall₂ (Option.Rel R) (slots.map fun _ => none) (slots.map fun _ => none) := by
    rw [List.forall₂_map_left_iff, List.forall₂_map_right_iff]
    exact List.forall₂_same.mpr fun _ _ => .none
  have hfill := fill_rel hR h hfree
  unfold bind
  generalize fill slots _ args = o, fill slots _ args' = o' at hfill
  cases hfill with
  | none => exact .none
  | some hfilled => exact all?_rel hfilled

end Binding

/-! ## A receiver in front -/

/-- The argument one place further on. -/
def Arg.later (x : Argument) : Argument := { x with position := x.position + 1 }

namespace Binding

variable {slots : List String} {receiver : String}

theorem slotOf_later {x : Argument} (h : x.name ≠ some receiver) :
    slotOf (receiver :: slots) x.later = (slotOf slots x).map (· + 1) := by
  unfold slotOf Arg.later
  cases hname : x.name with
  | none => rfl
  | some name =>
    have hne : receiver ≠ name := fun e => h (by rw [hname, e])
    simp [List.findIdx?_cons, hne]

/-- With its first slot taken, a longer slot list is filled as the slots after the
first are, each argument one place further on. An argument with the name of the first
slot is refused both ways: the slot is taken, or there is none of that name. -/
theorem fill_later (hreceiver : receiver ∉ slots) (first : Argument) (args : List Argument) :
    ∀ bound : List (Option Argument),
      fill (receiver :: slots) (some first :: bound.map (Option.map Arg.later))
          (args.map Arg.later) =
        (fill slots bound args).map fun filled =>
          some first :: filled.map (Option.map Arg.later) := by
  induction args with
  | nil => exact fun _ => rfl
  | cons a args ih =>
    intro bound
    rw [List.map_cons, fill, fill]
    by_cases hname : a.name = some receiver
    · have hfirst : slotOf (receiver :: slots) a.later = some 0 := by
        simp [slotOf, Arg.later, hname, List.findIdx?_cons]
      have hnone : slotOf slots a = none := by
        simp only [slotOf, hname, List.findIdx?_eq_none_iff, beq_eq_false_iff_ne]
        exact fun s hs e => hreceiver (e ▸ hs)
      rw [hfirst, hnone]
      rfl
    · rw [slotOf_later hname]
      cases slotOf slots a with
      | none => rfl
      | some i =>
        simp only [Option.map_some, List.getElem?_cons_succ, List.getElem?_map]
        rcases hi : bound[i]? with _ | _ | _
        · rfl
        · have hset : (some first :: bound.map (Option.map Arg.later)).set (i + 1) (some a.later) =
              some first :: (bound.set i (some a)).map (Option.map Arg.later) := by
            rw [List.set_cons_succ, List.map_set]
            rfl
          simp only [Option.map_some, Option.map_none, hset]
          exact ih _
        · rfl

theorem all?_map {α β : Type} (f : α → β) (xs : List (Option α)) :
    all? (xs.map (Option.map f)) = (all? xs).map (List.map f) := by
  induction xs with
  | nil => rfl
  | cons x xs ih =>
    cases x with
    | none => rfl
    | some x =>
      simp only [List.map_cons, Option.map_some, all?, ih, Option.map_map]
      rfl

/-- An unnamed argument in front takes the first slot, and the others are bound as
without it. -/
theorem bind_receiver (hreceiver : receiver ∉ slots) {first : Argument}
    (hfirst : slotOf (receiver :: slots) first = some 0) (args : List Argument) :
    bind (receiver :: slots) (first :: args.map Arg.later) =
      (bind slots args).map fun bound => first :: bound.map Arg.later := by
  have hfree : (receiver :: slots).map (fun _ => (none : Option Argument)) =
      none :: (slots.map fun _ => none).map (Option.map Arg.later) := by simp
  have htaken : (none :: (slots.map fun _ => none).map (Option.map Arg.later)).set 0 (some first) =
      some first :: (slots.map fun _ => none).map (Option.map Arg.later) := rfl
  have hfill := fill_later hreceiver first args (slots.map fun _ => none)
  unfold bind
  rw [hfree, fill, hfirst]
  simp only [List.getElem?_cons_zero, htaken, hfill]
  cases fill slots (slots.map fun _ => none) args with
  | none => rfl
  | some filled =>
    simp only [Option.map_some, all?, all?_map, Option.map_map]
    rfl

end Binding

/-! ## Tables and rules -/

namespace Method

/-- A method binds a call if type and form agree and its slots take the arguments. The
count of the arguments need not be looked at: slots that take them all are as many. -/
theorem toOption_accept (m : Method) (c : Call) :
    (m.accept c).toOption =
      if m.agreesOnType c then
        (m.slots? c.form).bind fun slots =>
          (Binding.bind slots c.arguments).map fun bound => ⟨m, c, slots.zip bound⟩
      else none := by
  unfold accept
  cases m.agreesOnType c with
  | false => rfl
  | true =>
    cases m.slots? c.form with
    | none => rfl
    | some slots =>
      cases hbind : Binding.bind slots c.arguments with
      | none =>
        by_cases hlen : c.arguments.length = slots.length
        · simp [hlen, hbind, Except.toOption]
        · simp [hlen, hbind, Except.toOption]
      | some bound =>
        obtain ⟨σ, _, _⟩ := Binding.exists_equiv_of_bind hbind
        have hlen : c.arguments.length = slots.length := by simpa using Fintype.card_congr σ
        simp [hlen, hbind, Except.toOption]

end Method

theorem firstAccepting_cons (c : Call) (m : Method) (ms : List Method) :
    firstAccepting c (m :: ms) = (m.accept c).toOption.or (firstAccepting c ms) := by
  rw [firstAccepting]
  cases m.accept c <;> rfl

/-- Two bound calls of one method whose slots hold related arguments. -/
structure BoundCall.Rel (R : Argument → Argument → Prop) (b b' : BoundCall) : Prop where
  method : b.method = b'.method
  bindings : List.Forall₂ (fun p q => p.1 = q.1 ∧ R p.2 q.2) b.bindings b'.bindings

theorem forall₂_zip_right {α β γ : Type} {R : α → β → Prop} (ks : List γ) {xs : List α}
    {ys : List β} (h : List.Forall₂ R xs ys) :
    List.Forall₂ (fun p q => p.1 = q.1 ∧ R p.2 q.2) (ks.zip xs) (ks.zip ys) := by
  induction h generalizing ks with
  | nil => simp
  | cons h _ ih =>
    cases ks with
    | nil => exact .nil
    | cons k ks => exact .cons ⟨rfl, h⟩ (ih ks)

section Related
variable {c c' : Call} {R : Argument → Argument → Prop}

theorem Method.toOption_accept_rel (m : Method) (htype : c.declaringType = c'.declaringType)
    (hform : c.form = c'.form)
    (hbind : ∀ slots, Option.Rel (List.Forall₂ R) (Binding.bind slots c.arguments)
      (Binding.bind slots c'.arguments)) :
    Option.Rel (BoundCall.Rel R) (m.accept c).toOption (m.accept c').toOption := by
  have hagree : m.agreesOnType c = m.agreesOnType c' := by
    unfold agreesOnType
    rw [htype]
  rw [m.toOption_accept c, m.toOption_accept c', hagree, hform]
  cases m.agreesOnType c' with
  | false => exact .none
  | true =>
    cases m.slots? c'.form with
    | none => exact .none
    | some slots =>
      have hslots := hbind slots
      simp only [if_true, Option.bind_some]
      generalize Binding.bind slots c.arguments = o, Binding.bind slots c'.arguments = o' at hslots
      cases hslots with
      | none => exact .none
      | some h => exact .some ⟨rfl, forall₂_zip_right slots h⟩

/-- Calls that agree in all but their arguments are bound by the same entry, if the
arguments are bound alike in every list of slots. -/
theorem MethodTable.bind?_rel (t : MethodTable) (hcallee : c.callee = c'.callee)
    (htype : c.declaringType = c'.declaringType) (hform : c.form = c'.form)
    (hbind : ∀ slots, Option.Rel (List.Forall₂ R) (Binding.bind slots c.arguments)
      (Binding.bind slots c'.arguments)) :
    Option.Rel (BoundCall.Rel R) (t.bind? c) (t.bind? c') := by
  unfold bind?
  rw [hcallee]
  induction t.candidates c'.callee with
  | nil => exact .none
  | cons m ms ih =>
    rw [firstAccepting_cons, firstAccepting_cons]
    have hm := m.toOption_accept_rel htype hform hbind
    generalize (m.accept c).toOption = o, (m.accept c').toOption = o' at hm
    cases hm with
    | none => exact ih
    | some h => exact .some h

end Related

theorem BoundCall.Rel.argument?_rel {R : Argument → Argument → Prop} {b b' : BoundCall}
    (h : b.Rel R b') (parameter : String) :
    Option.Rel R (b.argument? parameter) (b'.argument? parameter) := by
  have hbindings := h.bindings
  unfold BoundCall.argument?
  generalize b.bindings = ps, b'.bindings = qs at hbindings
  induction hbindings with
  | nil => exact .none
  | @cons p q ps qs hpq _ ih =>
    rw [List.find?_cons, List.find?_cons, hpq.1]
    cases q.1 == parameter with
    | true => exact .some hpq.2
    | false => exact ih

theorem BoundCall.Rel.selector?_eq {R : Argument → Argument → Prop}
    (hR : ∀ x y, R x y → x.value = y.value) {b b' : BoundCall} (h : b.Rel R b') :
    b.selector? = b'.selector? := by
  have hargument := h.argument?_rel b'.method.selector
  unfold BoundCall.selector?
  rw [h.method]
  generalize b.argument? _ = o, b'.argument? _ = o' at hargument
  cases hargument with
  | none => rfl
  | some hxy => simp [hR _ _ hxy]

theorem Rule.checkCall_congr {c c' : Call} (r : Rule) (file : SourceFile)
    (hcallee : c.callee = c'.callee) (hspan : c.span = c'.span)
    (hselector : (file.methods.bind? c).bind BoundCall.selector? =
      (file.methods.bind? c').bind BoundCall.selector?) :
    r.checkCall file c = r.checkCall file c' := by
  unfold checkCall
  rw [rejection?_congr hcallee hselector]
  cases r.rejection? file.methods c' with
  | none => rfl
  | some rejection =>
    simp [Rejection.violations, Rejection.message, Rejection.callLabels, hcallee, hspan]

/-! ## Arguments in another order -/

/-- Two arguments that differ at most in the position of a named one. -/
structure Arg.Alike (x y : Argument) : Prop where
  name : x.name = y.name
  position : x.name = none → x.position = y.position
  value : x.value = y.value

theorem Arg.Alike.slotOf_eq {x y : Argument} (h : x.Alike y) (slots : List String) :
    Binding.slotOf slots x = Binding.slotOf slots y := by
  unfold Binding.slotOf
  rw [← h.name]
  cases hname : x.name with
  | some name => rfl
  | none => rw [h.position hname]

/-- The same call with its arguments in another order. An unnamed argument keeps its
position; a named one may be given any. -/
structure Call.Reordered (c c' : Call) : Prop where
  callee : c.callee = c'.callee
  declaringType : c.declaringType = c'.declaringType
  form : c.form = c'.form
  span : c.span = c'.span
  arguments : ∃ moved, c.arguments.Perm moved ∧ List.Forall₂ Arg.Alike moved c'.arguments

theorem Call.Reordered.bind?_rel {c c' : Call} (h : c.Reordered c') (t : MethodTable) :
    Option.Rel (BoundCall.Rel Arg.Alike) (t.bind? c) (t.bind? c') := by
  obtain ⟨moved, hperm, halike⟩ := h.arguments
  refine t.bind?_rel h.callee h.declaringType h.form fun slots => ?_
  rw [Binding.bind_perm hperm]
  exact Binding.bind_rel (fun _ _ hxy => hxy.slotOf_eq slots) halike

/-- **The order of the arguments does not matter.** For every table, a call and the same
call in another order are bound by the same entry, with the same slots filled by
arguments of the same name and value, or both are bound by none; and every rule reports
the same on both. -/
theorem checkCall_eq_of_reordered (c c' : Call) (h : c.Reordered c') :
    (∀ (r : Rule) (file : SourceFile), r.checkCall file c = r.checkCall file c') ∧
    ∀ t : MethodTable, Option.Rel (BoundCall.Rel Arg.Alike) (t.bind? c) (t.bind? c') := by
  refine ⟨fun r file => ?_, h.bind?_rel⟩
  refine r.checkCall_congr file h.callee h.span ?_
  have hbound := h.bind?_rel file.methods
  generalize file.methods.bind? c = o, file.methods.bind? c' = o' at hbound
  cases hbound with
  | none => rfl
  | some hb => exact hb.selector?_eq fun _ _ hxy => hxy.value

/-- A relation passed at the first position. -/
def relationFirst : Argument := { position := 0, value := .literal "\"self\"" }

/-- A selector passed by its name, wherever it stands. -/
def selectorNamed (position : Nat) : Argument :=
  { name := some "selector", position, value := .lambda ["l"] (.apply "Id" []) }

def compoundCall (arguments : List Argument) : Call :=
  { callee := linkAndIgnoreName, form := .extension, arguments }

/-- The selector may stand before the relation, under any position. -/
theorem checkCall_eq_of_selectorNamed :
    (Rule.linkAndIgnore.checkCall swappedFile
        (compoundCall [relationFirst, selectorNamed 1])).length = 2 ∧
      Rule.linkAndIgnore.checkCall swappedFile (compoundCall [relationFirst, selectorNamed 1]) =
        Rule.linkAndIgnore.checkCall swappedFile
          (compoundCall [selectorNamed 7, relationFirst]) := by
  have hmoved : (compoundCall [relationFirst, selectorNamed 1]).Reordered
      (compoundCall [selectorNamed 7, relationFirst]) := by
    refine ⟨rfl, rfl, rfl, rfl, [selectorNamed 1, relationFirst], .swap _ _ _, ?_⟩
    exact .cons ⟨rfl, fun h => (by cases h), rfl⟩ (.cons ⟨rfl, fun _ => rfl, rfl⟩ .nil)
  exact ⟨by decide +kernel, (checkCall_eq_of_reordered _ _ hmoved).1 _ _⟩

/-! ## Calls on the receiver and through the type -/

/-- The call written through a type, with the receiver in front of the arguments. -/
def Call.throughType (c : Call) (type : Option String) (receiver : Expr) : Call :=
  { c with
    declaringType := type
    form := .ordinary
    arguments := { position := 0, value := receiver } :: c.arguments.map Arg.later }

theorem MethodTable.bind?_of_only {t : MethodTable} {m : Method} (hm : m ∈ t.methods)
    (honly : ∀ m' ∈ t.methods, m'.name = m.name → m' = m) {c : Call} (hcallee : c.callee = m.name) :
    t.bind? c = (m.accept c).toOption := by
  obtain ⟨n, hn⟩ : ∃ n, t.candidates m.name = List.replicate (n + 1) m := by
    have hall : ∀ m' ∈ t.candidates m.name, m' = m := by
      intro m' hm'
      obtain ⟨hmem, hname⟩ := List.mem_filter.mp hm'
      exact honly m' hmem (by simpa using hname)
    have hpos : 0 < (t.candidates m.name).length :=
      List.length_pos_of_mem (List.mem_filter.mpr ⟨hm, by simp⟩)
    obtain ⟨n, hlen⟩ := Nat.exists_eq_succ_of_ne_zero (Nat.ne_of_gt hpos)
    exact ⟨n, List.eq_replicate_iff.mpr ⟨hlen, hall⟩⟩
  rw [bind?, hcallee, hn]
  clear hn
  induction n with
  | zero => simp [firstAccepting_cons, firstAccepting]
  | succ n ih => rw [List.replicate_succ, firstAccepting_cons, ih]; simp

/-- Through its type, a consistent method binds a call exactly if it binds it on the
receiver: the receiver goes to its own slot, and the other slots hold the same
arguments. -/
theorem Method.toOption_accept_throughType {m : Method} (hvalid : m.problem? = none)
    (hordinary : m.ordinary = true) (hextension : m.extension = true) {c : Call}
    (hform : c.form = .extension) (htype : c.declaringType = none) {type : Option String}
    (hsegment : ∀ s, type = some s → lastSegment s = lastSegment m.declaringType)
    (receiver : Expr) :
    (m.accept (c.throughType type receiver)).toOption =
      (m.accept c).toOption.map fun b =>
        ⟨m, c.throughType type receiver,
          (m.receiver, { position := 0, value := receiver }) ::
            b.bindings.map (Prod.map id Arg.later)⟩ := by
  obtain ⟨_, _, hnodup⟩ := problem?_eq_none_iff.mp hvalid
  have hagree : m.agreesOnType c = true := by simp [agreesOnType, htype]
  have hagree' : m.agreesOnType (c.throughType type receiver) = true :=
    agreesOnType_iff.mpr hsegment
  have hbind : Binding.bind (m.receiver :: m.parameters)
      ({ position := 0, value := receiver } :: c.arguments.map Arg.later) = _ :=
    Binding.bind_receiver (List.nodup_cons.mp hnodup).1 rfl c.arguments
  have hslots : m.slots? (c.throughType type receiver).form =
      some (m.receiver :: m.parameters) := by simp [Call.throughType, slots?, hordinary]
  have hslots' : m.slots? c.form = some m.parameters := by simp [hform, slots?, hextension]
  rw [m.toOption_accept, m.toOption_accept, hagree, hagree', hslots, hslots']
  show (Binding.bind (m.receiver :: m.parameters) (_ :: c.arguments.map Arg.later)).map _ =
    ((Binding.bind m.parameters c.arguments).map _).map _
  rw [hbind, Option.map_map, Option.map_map]
  congr 1
  funext bound
  simp [List.zip_map_right]

theorem BoundCall.selector?_later {b : BoundCall} {name : String} (hne : name ≠ b.method.selector)
    (first : Argument) (c : Call) :
    selector? ⟨b.method, c, (name, first) :: b.bindings.map (Prod.map id Arg.later)⟩ =
      b.selector? := by
  have hfind : ((name, first) :: b.bindings.map (Prod.map id Arg.later)).find?
      (·.1 == b.method.selector) =
        (b.bindings.find? (·.1 == b.method.selector)).map (Prod.map id Arg.later) := by
    rw [List.find?_cons_of_neg (by simpa using hne), List.find?_map]
    rfl
  unfold selector? argument?
  dsimp only
  rw [hfind]
  cases b.bindings.find? (·.1 == b.method.selector) <;> rfl

/-- **The form of a call does not matter.** Let a consistent method allow both forms and
be the only one of its name. A call of that name on a receiver, with whatever arguments,
and the same call through the type, spelled with whatever qualifiers or not named, are
both bound or both refused. If they are bound, the receiver fills its own slot and the
other slots hold the same arguments; and every rule reports the same on both. -/
theorem checkCall_eq_of_throughType (t : MethodTable) (m : Method) (hm : m ∈ t.methods)
    (honly : ∀ m' ∈ t.methods, m'.name = m.name → m' = m) (hvalid : m.problem? = none)
    (hordinary : m.ordinary = true) (hextension : m.extension = true) (c : Call)
    (hcallee : c.callee = m.name) (hform : c.form = .extension) (htype : c.declaringType = none)
    (receiver : Expr) (type : Option String)
    (hsegment : ∀ s, type = some s → lastSegment s = lastSegment m.declaringType) :
    ((t.bind? (c.throughType type receiver)).isSome = true ↔ (t.bind? c).isSome = true) ∧
    (∀ b ∈ t.bind? c, ∃ b' ∈ t.bind? (c.throughType type receiver), b'.method = b.method ∧
      b'.bindings = (m.receiver, { position := 0, value := receiver }) ::
        b.bindings.map (Prod.map id Arg.later)) ∧
    ∀ (r : Rule) (file : SourceFile), file.methods = t →
      r.checkCall file (c.throughType type receiver) = r.checkCall file c := by
  have hbound := MethodTable.bind?_of_only hm honly hcallee
  have hthrough : t.bind? (c.throughType type receiver) = _ :=
    MethodTable.bind?_of_only hm honly hcallee
  rw [Method.toOption_accept_throughType hvalid hordinary hextension hform htype hsegment,
    ← hbound] at hthrough
  have hmethod : ∀ b ∈ t.bind? c, b.method = m := by
    intro b hb
    obtain ⟨m', σ, ⟨_, _, hsplit, _⟩, hσ, rfl⟩ := MethodTable.bind?_eq_some_iff.mp hb
    exact honly m' (by rw [hsplit]; simp) (hσ.name.trans hcallee)
  refine ⟨by rw [hthrough, Option.isSome_map], ?_, ?_⟩
  · intro b hb
    rw [hthrough, hb]
    exact ⟨_, rfl, (hmethod b hb).symm, rfl⟩
  · intro r file hfile
    refine r.checkCall_congr file rfl rfl ?_
    rw [hfile, hthrough]
    cases hb : t.bind? c with
    | none => rfl
    | some b =>
      obtain rfl := hmethod b hb
      obtain ⟨_, hselector, hnodup⟩ := Method.problem?_eq_none_iff.mp hvalid
      have hne : b.method.receiver ≠ b.method.selector := by
        intro e
        exact (List.nodup_cons.mp hnodup).1 (e ▸ hselector)
      exact BoundCall.selector?_later hne _ _

/-- A call on a receiver that names its arguments, the selector first. -/
def onMap : Call := swappedCall (some "selector") (some "relation")

/-- The same call through its type, under an alias and a namespace. -/
def throughExtensions : Call :=
  onMap.throughType (some "global::Hal.TransformationMapExtensions") (.identifier "map")

theorem checkCall_eq_of_throughExtensions :
    (MethodTable.standard.bind? throughExtensions).isSome = true ∧
      (Rule.linkAndIgnore.checkCall (.under ⟨"/work"⟩ ⟨"/work/a.cs"⟩ "") onMap).length = 2 ∧
      Rule.linkAndIgnore.checkCall (.under ⟨"/work"⟩ ⟨"/work/a.cs"⟩ "") throughExtensions =
        Rule.linkAndIgnore.checkCall (.under ⟨"/work"⟩ ⟨"/work/a.cs"⟩ "") onMap := by
  obtain ⟨hbound, _, hsame⟩ := checkCall_eq_of_throughType .standard
    { name := linkAndIgnoreName, parameters := ["relation", "selector"] } (by decide) (by decide)
    (by decide) rfl rfl onMap rfl rfl rfl (.identifier "map")
    (some "global::Hal.TransformationMapExtensions")
    (fun s hs => by obtain rfl := Option.some.inj hs; decide +kernel)
  exact ⟨hbound.mpr (by decide +kernel), by decide +kernel, hsame _ _ rfl⟩

end SelectorCheck
