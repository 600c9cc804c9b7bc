import SelectorCheck.Proofs.Checking

/-
  Layouts that a configuration adds to the watched methods.

  A configuration may list the two methods again with other parameters. Such an entry
  comes after the standard ones, and the first entry that accepts a call decides what
  its selector is. An added layout therefore has its say only on calls that no earlier
  layout accepts. A call on a receiver names no type, so an earlier layout with as
  many parameters may take it and look for the selector in another slot.

  What is proved:
    1. `Method.problem?_eq_none_iff`: what a consistent method is, and that the table of
       a valid configuration holds no other.
    2. `exists_selectorArgument`: a consistent method that accepts a call has an
       argument for its selector.
    3. `layout_effective_unless_captured`: a layout that rejects a call is heard exactly
       if the first layout that accepts the call rejects it too.
    4. `added_layout_captured`: so not every added layout is heard.
-/

namespace SelectorCheck

/-! ## Consistent methods -/

theorem firstRepeated_eq_none_iff {seen ps : List String} :
    firstRepeated seen ps = none ↔ ps.Nodup ∧ ∀ p ∈ ps, p ∉ seen := by
  induction ps generalizing seen with
  | nil => simp [firstRepeated]
  | cons p ps ih =>
    rw [firstRepeated]
    by_cases hp : p ∈ seen
    · simp [hp]
    · rw [if_neg hp, ih, List.nodup_cons]
      constructor
      · intro h
        obtain ⟨hnodup, hfresh⟩ := h
        refine ⟨⟨fun hmem => hfresh p hmem List.mem_cons_self, hnodup⟩, ?_⟩
        intro q hq
        rcases List.mem_cons.mp hq with rfl | hq
        · exact hp
        · exact fun hseen => hfresh q hq (List.mem_cons_of_mem p hseen)
      · intro h
        obtain ⟨⟨hnot, hnodup⟩, hfresh⟩ := h
        refine ⟨hnodup, fun q hq hseen => ?_⟩
        rcases List.mem_cons.mp hseen with rfl | hseen
        · exact hnot hq
        · exact hfresh q (List.mem_cons_of_mem p hq) hseen

theorem Method.problem?_eq_none_iff {m : Method} :
    m.problem? = none ↔
      (m.ordinary = true ∨ m.extension = true) ∧ m.selector ∈ m.parameters ∧
        (m.receiver :: m.parameters).Nodup := by
  unfold problem?
  by_cases hform : m.ordinary = true ∨ m.extension = true
  · have hforms : (!m.ordinary && !m.extension) = false := by
      rcases hform with h | h <;> simp [h]
    by_cases hselector : m.selector ∈ m.parameters
    · simp [hforms, hform, hselector, firstRepeated_eq_none_iff]
    · simp [hforms, hselector]
  · have hforms : (!m.ordinary && !m.extension) = true := by
      simpa [not_or] using hform
    simp [hforms, hform]

namespace Config

theorem firstProblem?_eq_none_iff {index : Nat} {ms : List Method} :
    firstProblem? index ms = none ↔ ∀ m ∈ ms, methodProblem? m = none := by
  induction ms generalizing index with
  | nil => simp [firstProblem?]
  | cons m ms ih =>
    rw [firstProblem?]
    cases hm : methodProblem? m with
    | some problem => simp [hm]
    | none => simp [hm, ih]

theorem methodProblem?_eq_none_iff {m : Method} :
    methodProblem? m = none ↔
      (m.name = ignoreName ∨ m.name = linkAndIgnoreName) ∧ m.problem? = none := by
  unfold methodProblem?
  by_cases hname : m.name = ignoreName ∨ m.name = linkAndIgnoreName
  · rw [if_neg fun h => not_or.mpr h hname]
    simp [hname]
  · rw [if_pos (not_or.mp hname)]
    simp [hname]

theorem watched_of_mem_methodTable {config : Config} (hvalid : config.problem? = none)
    {m : Method} (hm : m ∈ config.methodTable.methods) :
    (m.name = ignoreName ∨ m.name = linkAndIgnoreName) ∧ m.problem? = none := by
  rcases List.mem_append.mp hm with hm | hm
  · have hstandard : ∀ m ∈ MethodTable.standard.methods,
        (m.name = ignoreName ∨ m.name = linkAndIgnoreName) ∧ m.problem? = none := by decide
    exact hstandard m hm
  · have hmethods := firstProblem?_eq_none_iff.mp (Option.map_eq_none_iff.mp hvalid) m hm
    exact methodProblem?_eq_none_iff.mp hmethods

theorem consistent_of_mem_methodTable {config : Config} (hvalid : config.problem? = none)
    {m : Method} (hm : m ∈ config.methodTable.methods) : m.problem? = none :=
  (watched_of_mem_methodTable hvalid hm).2

end Config

/-! ## The selector of a method taken alone -/

namespace Method

/-- The argument that a method, taken alone, binds to its selector parameter. -/
def selectorArgument? (m : Method) (c : Call) : Option Argument :=
  ((⟨[m]⟩ : MethodTable).bind? c).bind (·.argument? m.selector)

theorem exists_firstSlot {slots : List String} {name : String} (h : name ∈ slots) :
    ∃ i, Binding.FirstSlot slots name i := by
  obtain ⟨i, hi⟩ : ∃ i, slots.findIdx? (· == name) = some i := by
    rw [← Option.isSome_iff_exists, List.findIdx?_isSome, List.any_eq_true]
    exact ⟨name, h, beq_self_eq_true name⟩
  have hlt : i < slots.length := (List.findIdx?_eq_some_iff_getElem.mp hi).1
  exact ⟨⟨i, hlt⟩, Binding.findIdx?_eq_some_iff_firstSlot.mp hi⟩

theorem parameters_subset_slotNames (m : Method) (form : CallForm) :
    m.parameters ⊆ m.slotNames form := by
  cases form with
  | ordinary => exact List.subset_cons_self _ _
  | extension => exact List.Subset.refl _

theorem exists_selectorArgument {m : Method} {c : Call} (hvalid : m.problem? = none)
    (h : m.Accepts c) : ∃ x, m.selectorArgument? c = some x := by
  obtain ⟨σ, hσ⟩ := h
  obtain ⟨_, hselector, _⟩ := problem?_eq_none_iff.mp hvalid
  obtain ⟨i, hi⟩ := exists_firstSlot (m.parameters_subset_slotNames c.form hselector)
  refine ⟨c.arguments.get (σ.symm i), ?_⟩
  rw [selectorArgument?, MethodTable.bind?_cons_of_acceptsBy [] hσ, Option.bind_some]
  exact argument?_boundBy_eq_some_iff.mpr ⟨i, hi, rfl⟩

/-- A method that binds its selector accepts the call, and the selector found is the
lambda in that argument. -/
theorem accepts_of_selectorArgument {m : Method} {c : Call} {x : Argument}
    (h : m.selectorArgument? c = some x) :
    m.Accepts c ∧ ((⟨[m]⟩ : MethodTable).bind? c).bind BoundCall.selector? =
      x.value.lambda?.map (Selector.mk x.value) := by
  obtain ⟨b, hb, hx⟩ := Option.bind_eq_some_iff.mp h
  obtain ⟨m', σ, ⟨before, after, hsplit, _, haccepts⟩, hσ, rfl⟩ :=
    MethodTable.bind?_eq_some_iff.mp hb
  -- a table of one entry has only that entry to decide by
  obtain rfl : m' = m := by
    have hmem : m' ∈ (⟨[m]⟩ : MethodTable).methods := by rw [hsplit]; simp
    exact List.mem_singleton.mp hmem
  refine ⟨haccepts, ?_⟩
  have hx : (m'.boundBy c σ).argument? (m'.boundBy c σ).method.selector = some x := hx
  simp only [hb, Option.bind_some, BoundCall.selector?, hx]

theorem selectorArgument_of_named {m : Method} {c : Call} (h : m.Accepts c) {x y : Argument}
    (hx : x ∈ c.arguments) (hname : x.name = some m.selector)
    (hy : m.selectorArgument? c = some y) : y = x := by
  obtain ⟨σ, hσ⟩ := h
  obtain ⟨k, rfl⟩ := List.get_of_mem hx
  rw [selectorArgument?, MethodTable.bind?_cons_of_acceptsBy [] hσ, Option.bind_some] at hy
  have hasks := hσ.slots k
  simp only [Binding.AsksFor, hname] at hasks
  have hk : (m.boundBy c σ).argument? m.selector = some (c.arguments.get k) :=
    argument?_boundBy_eq_some_iff.mpr ⟨σ k, hasks, by simp⟩
  exact Option.some.inj (hy.symm.trans hk)

theorem mem_arguments_of_selectorArgument {m : Method} {c : Call} {x : Argument}
    (h : m.selectorArgument? c = some x) : x ∈ c.arguments := by
  obtain ⟨b, hb, hx⟩ := Option.bind_eq_some_iff.mp h
  obtain ⟨_, σ, _, _, rfl⟩ := MethodTable.bind?_eq_some_iff.mp hb
  obtain ⟨i, _, rfl⟩ := argument?_boundBy_eq_some_iff.mp hx
  exact List.get_mem _ _

end Method

/-! ## The layout that is heard -/

/-- The expression is a lambda, in whatever parentheses, that is rejected as a selector
of at most `max` members. -/
def Expr.RejectedAt (e : Expr) (max : Nat) : Prop :=
  ∃ lambda rejection, e.lambda? = some lambda ∧
    (Selector.mk e lambda).classify max = .invalid rejection

namespace Rule

theorem checkCall_ne_nil_iff {r : Rule} {file : SourceFile} {c : Call} (hd : r.diagnostics ≠ []) :
    r.checkCall file c ≠ [] ↔ ∃ rejection, r.rejection? file.methods c = some rejection := by
  unfold checkCall
  cases r.rejection? file.methods c with
  | none => simp
  | some rejection => simp [Rejection.violations, hd]

theorem exists_rejection_iff_rejectedAt {r : Rule} {t : MethodTable} {c : Call} {e : Expr}
    (hcallee : c.callee = r.method)
    (hselector : (t.bind? c).bind BoundCall.selector? = e.lambda?.map (Selector.mk e)) :
    (∃ rejection, r.rejection? t c = some rejection) ↔ e.RejectedAt r.maxDepth := by
  unfold rejection? Expr.RejectedAt
  rw [hselector, if_neg (Classical.not_not.mpr hcallee)]
  cases e.lambda? with
  | none => simp
  | some lambda =>
    cases hverdict : (Selector.mk e lambda).classify r.maxDepth <;> simp [hverdict]

theorem rejection?_congr {r : Rule} {t t' : MethodTable} {c c' : Call}
    (hcallee : c.callee = c'.callee)
    (hselector : (t.bind? c).bind BoundCall.selector? = (t'.bind? c').bind BoundCall.selector?) :
    r.rejection? t c = r.rejection? t' c' := by
  unfold rejection?
  rw [hcallee, hselector]

/-- The table in effect matters to a rule only through the selector it finds. -/
theorem checkCall_eq_of_selector {r : Rule} {file : SourceFile} {t : MethodTable} {c : Call}
    (h : (file.methods.bind? c).bind BoundCall.selector? = (t.bind? c).bind BoundCall.selector?) :
    r.checkCall file c = r.checkCall { file with methods := t } c := by
  unfold checkCall
  rw [rejection?_congr rfl h]
  rfl

end Rule

/-- **An added layout is heard unless an earlier one captures the call.** Let an entry of
the table, taken alone, bind its selector parameter to a lambda that is rejected. Then
the whole table binds the call as its first entry that accepts it does alone; this is
the entry itself or one before it. The call is reported exactly if the selector argument
of that first entry is a rejected lambda. If both entries find the selector in the same
argument, what is reported is what the later entry reports alone; so it is if they are
one entry, and if the argument has the name that the first entry gives its selector. -/
theorem layout_effective_unless_captured (config : Config) (hvalid : config.problem? = none)
    (link ignore : Nat) (r : Rule) (hr : r ∈ Analyzer.builtInWith link ignore)
    (file : SourceFile) (hfile : file.methods = config.methodTable) (c : Call)
    (hcallee : c.callee = r.method) (m : Method) (hm : m ∈ config.methodTable.methods)
    (x : Argument) (hx : m.selectorArgument? c = some x)
    (hrejected : x.value.RejectedAt r.maxDepth) :
    ∃ before d after y, config.methodTable.methods = before ++ d :: after ∧
      (∀ m' ∈ before, ¬ m'.Accepts c) ∧ m ∈ d :: after ∧
      config.methodTable.bind? c = (⟨[d]⟩ : MethodTable).bind? c ∧
      d.selectorArgument? c = some y ∧
      (r.checkCall file c ≠ [] ↔ y.value.RejectedAt r.maxDepth) ∧
      (d = m ∨ x.name = some d.selector → y = x) ∧
      (y = x → r.checkCall file c ≠ [] ∧
        r.checkCall file c = r.checkCall { file with methods := ⟨[m]⟩ } c) := by
  obtain ⟨haccepts, halone⟩ := Method.accepts_of_selectorArgument hx
  obtain ⟨d, hdecides⟩ := MethodTable.exists_decides hm haccepts
  obtain ⟨σ, hσ, hbound⟩ := MethodTable.bind?_of_decides hdecides
  obtain ⟨before, after, hsplit, hbefore, hd⟩ := hdecides
  have hwhole : config.methodTable.bind? c = (⟨[d]⟩ : MethodTable).bind? c := by
    rw [hbound, MethodTable.bind?_cons_of_acceptsBy [] hσ]
  have hlater : m ∈ d :: after := by
    rcases List.mem_append.mp (hsplit ▸ hm) with hmem | hmem
    · exact absurd haccepts (hbefore m hmem)
    · exact hmem
  have hdvalid : d.problem? = none :=
    Config.consistent_of_mem_methodTable hvalid (by rw [hsplit]; simp)
  obtain ⟨y, hy⟩ := Method.exists_selectorArgument hdvalid hd
  have hselector : (file.methods.bind? c).bind BoundCall.selector? =
      y.value.lambda?.map (Selector.mk y.value) := by
    rw [hfile, hwhole, (Method.accepts_of_selectorArgument hy).2]
  have hdiagnostics : r.diagnostics ≠ [] := by
    simp only [Analyzer.builtInWith, List.mem_cons, List.not_mem_nil, or_false] at hr
    rcases hr with rfl | rfl
    · simp [Rule.linkAndIgnore]
    · simp [Rule.ignoreExpression]
  have hiff : r.checkCall file c ≠ [] ↔ y.value.RejectedAt r.maxDepth := by
    rw [Rule.checkCall_ne_nil_iff hdiagnostics]
    exact Rule.exists_rejection_iff_rejectedAt hcallee hselector
  refine ⟨before, d, after, y, hsplit, hbefore, hlater, hwhole, hy, hiff, ?_, ?_⟩
  · intro hsame
    rcases hsame with rfl | hname
    · exact Option.some.inj (hy.symm.trans hx)
    · have hmem := Method.mem_arguments_of_selectorArgument hx
      exact Method.selectorArgument_of_named hd hmem hname hy
  · intro hyx
    subst hyx
    exact ⟨hiff.mpr hrejected, Rule.checkCall_eq_of_selector (by rw [hselector, halone])⟩

/-- The compound method with its selector first. -/
def swappedLayout : Method :=
  { name := linkAndIgnoreName, parameters := ["selector", "relation"] }

def swappedConfig : Config := { methods := [swappedLayout] }

def swappedFile : SourceFile := .under ⟨"/work"⟩ ⟨"/work/a.cs"⟩ "" swappedConfig.methodTable

/-- A call of that layout whose selector is a call, with the given names. -/
def swappedCall (selector relation : Option String) : Call where
  callee := linkAndIgnoreName
  form := .extension
  arguments :=
    [{ name := selector, position := 0, value := .lambda ["l"] (.apply "Id" [.identifier "l"]) },
     { name := relation, position := 1, value := .literal "\"self\"" }]

/-- With its arguments named, the call is reported, although the standard layout
accepts it first. -/
theorem layout_effective_named :
    swappedConfig.problem? = none ∧ swappedLayout ∈ swappedConfig.methodTable.methods ∧
      Rule.linkAndIgnore.checkCall swappedFile
        (swappedCall (some "selector") (some "relation")) ≠ [] := by
  refine ⟨by decide, by decide, ?_⟩
  obtain ⟨_, d, _, _, hsplit, _, _, _, _, _, hsame, hheard⟩ :=
    layout_effective_unless_captured swappedConfig (by decide) 1 1 Rule.linkAndIgnore
      List.mem_cons_self swappedFile rfl (swappedCall (some "selector") (some "relation")) rfl
      swappedLayout (by decide) _ rfl ⟨_, _, rfl, rfl⟩
  have hselectors : ∀ m ∈ swappedConfig.methodTable.methods, m.selector = "selector" := by decide
  have hd : d.selector = "selector" := hselectors d (by rw [hsplit]; simp)
  exact (hheard (hsame (.inr (by rw [hd])))).1

/-- Not every added layout is heard: on its receiver and without names, the same call is
taken by the standard layout, which finds no lambda in its second argument. -/
theorem added_layout_captured :
    ¬ ∀ (config : Config) (link ignore : Nat) (r : Rule) (file : SourceFile) (c : Call)
      (m : Method) (x : Argument), config.problem? = none →
      r ∈ Analyzer.builtInWith link ignore → file.methods = config.methodTable →
      c.form = .extension → c.declaringType = none → c.callee = r.method →
      m ∈ config.methodTable.methods → m.selectorArgument? c = some x →
      x.value.RejectedAt r.maxDepth → r.checkCall file c ≠ [] := by
  intro h
  exact h swappedConfig 1 1 Rule.linkAndIgnore swappedFile (swappedCall none none) swappedLayout _
    (by decide) List.mem_cons_self rfl rfl rfl rfl (by decide) rfl ⟨_, _, rfl, rfl⟩ rfl

end SelectorCheck
