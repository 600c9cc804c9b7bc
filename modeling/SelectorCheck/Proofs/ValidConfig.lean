import SelectorCheck.Proofs.Layouts

/-
  What a valid configuration promises about the calls it watches.

  Validation looks at each added method by itself: its name, its forms, its selector
  and its parameter names. Matching looks at calls. Together they make the search for
  the selector of a bound call succeed: the names of the slots are different, every
  slot holds an argument, and one of the slots is the selector's. So a bound call is
  passed over only if what it holds there is no lambda, and there is one rule to
  report on it.

  What is proved:
    1. `slotNames_nodup`: the slots of a consistent method have different names.
    2. `argument?_isSome_iff`: the parameters of a bound call that have an argument are
       the names of its slots.
    3. `selector_bound_of_valid`: the calls that a valid configuration binds.
-/

namespace SelectorCheck

theorem Method.slotNames_nodup {m : Method} (hvalid : m.problem? = none) (form : CallForm) :
    (m.slotNames form).Nodup := by
  obtain ⟨_, _, hnodup⟩ := problem?_eq_none_iff.mp hvalid
  cases form with
  | ordinary => exact hnodup
  | extension => exact (List.nodup_cons.mp hnodup).2

namespace BoundCall

theorem argument?_isSome_iff {b : BoundCall} {parameter : String} :
    (b.argument? parameter).isSome = true ↔ parameter ∈ b.bindings.map Prod.fst := by
  simp [argument?]

theorem selector?_eq_none_iff {b : BoundCall} {x : Argument}
    (hx : b.argument? b.method.selector = some x) :
    b.selector? = none ↔
      ¬ ∃ parameters body span, x.value.Encloses (.lambda parameters body span) := by
  simp only [selector?, hx, Option.map_eq_none_iff]
  constructor
  · intro hnone hlambda
    obtain ⟨parameters, body, hspan⟩ := hlambda
    have hsome := Expr.lambda?_eq_some_iff (l := ⟨parameters, body⟩).mpr hspan
    rw [hnone] at hsome
    cases hsome
  · intro hnot
    rw [Option.eq_none_iff_forall_ne_some]
    intro l hl
    exact hnot ⟨l.parameters, l.body, Expr.lambda?_eq_some_iff.mp hl⟩

end BoundCall

/-- Each of the two names is the method of one built-in rule. -/
theorem Rule.existsUnique_builtIn {name : String}
    (h : name = ignoreName ∨ name = linkAndIgnoreName) :
    ∃! r, r ∈ builtIn ∧ r.method = name := by
  have hne : linkAndIgnoreName ≠ ignoreName := by decide
  rcases h with rfl | rfl
  · refine ⟨ignoreExpression, ⟨by simp [builtIn], rfl⟩, fun r hr => ?_⟩
    obtain ⟨hmem, hmethod⟩ := hr
    rcases List.mem_pair.mp hmem with rfl | rfl
    · exact absurd hmethod hne
    · rfl
  · refine ⟨linkAndIgnore, ⟨by simp [builtIn], rfl⟩, fun r hr => ?_⟩
    obtain ⟨hmem, hmethod⟩ := hr
    rcases List.mem_pair.mp hmem with rfl | rfl
    · rfl
    · exact absurd hmethod.symm hne

namespace Config

theorem validate_eq_ok_iff {config : Config} :
    config.validate = .ok config ↔ config.problem? = none := by
  unfold validate
  cases config.problem? <;> simp

/-- **A valid configuration has the selector of every bound call bound.** The names of
the bound slots are different, and a parameter has an argument exactly if it is one of
the slots that the form of the call leaves to be filled. The selector is among them, so
the call is passed over exactly if the argument there is no lambda. The name of the call
is the method of one built-in rule and of no other. -/
theorem selector_bound_of_valid (config : Config) (hvalid : config.validate = .ok config)
    (c : Call) (b : BoundCall) (hb : config.methodTable.bind? c = some b) :
    (b.bindings.map Prod.fst).Nodup ∧
    (∀ parameter, (b.argument? parameter).isSome = true ↔
      parameter ∈ b.method.slotNames c.form) ∧
    (∃ x, b.argument? b.method.selector = some x ∧
      (b.selector? = none ↔
        ¬ ∃ parameters body span, x.value.Encloses (.lambda parameters body span))) ∧
    ∃! r, r ∈ Rule.builtIn ∧ r.method = c.callee := by
  obtain ⟨m, σ, ⟨before, after, hsplit, _, _⟩, hσ, rfl⟩ := MethodTable.bind?_eq_some_iff.mp hb
  obtain ⟨hname, hconsistent⟩ :=
    watched_of_mem_methodTable (validate_eq_ok_iff.mp hvalid) (m := m) (by rw [hsplit]; simp)
  have hslots := Method.bindings_boundBy_names σ
  have hbound : ∀ parameter, ((m.boundBy c σ).argument? parameter).isSome = true ↔
      parameter ∈ m.slotNames c.form := by
    intro parameter
    rw [BoundCall.argument?_isSome_iff, hslots]
  refine ⟨?_, hbound, ?_, ?_⟩
  · rw [hslots]
    exact Method.slotNames_nodup hconsistent c.form
  · obtain ⟨_, hselector, _⟩ := Method.problem?_eq_none_iff.mp hconsistent
    have hslot := m.parameters_subset_slotNames c.form hselector
    obtain ⟨x, hx⟩ := Option.isSome_iff_exists.mp ((hbound m.selector).mpr hslot)
    exact ⟨x, hx, BoundCall.selector?_eq_none_iff hx⟩
  · rw [← hσ.name]
    exact Rule.existsUnique_builtIn hname

/-- A layout on a type of its own, with other names for its parameters. -/
def labelled : Method where
  name := ignoreName
  declaringType := "LabelExtensions"
  receiver := "map"
  parameters := ["label", "path"]
  selector := "path"
  extension := false

def labelledConfig : Config := { methods := [labelled] }

/-- A call of that layout that names the path first and passes a variable for it. -/
def labelledCall : Call where
  callee := ignoreName
  declaringType := some "global::Hal.LabelExtensions"
  form := .ordinary
  arguments :=
    [{ name := some "path", position := 0, value := .paren (.identifier "toLink") },
     { name := some "map", position := 1, value := .identifier "map" },
     { name := some "label", position := 2, value := .literal "\"self\"" }]

/-- The call is bound and its path is found, but no lambda stands there. -/
theorem selector_bound_of_labelled :
    labelledConfig.validate = .ok labelledConfig ∧
      ∃ b, labelledConfig.methodTable.bind? labelledCall = some b ∧
        (b.argument? "path").isSome = true ∧ (b.argument? "selector").isSome = false ∧
        b.selector? = none := by
  refine ⟨rfl, _, rfl, ?_⟩
  obtain ⟨_, hbound, ⟨x, hx, hnone⟩, _⟩ :=
    selector_bound_of_valid labelledConfig rfl labelledCall _ rfl
  refine ⟨(hbound "path").mpr (by decide), ?_, hnone.mpr ?_⟩
  · rw [Bool.eq_false_iff, ne_eq, hbound "selector"]
    decide
  · obtain rfl := Option.some.inj hx
    intro hlambda
    obtain ⟨_, _, _, hlambda⟩ := hlambda
    cases hlambda with
    | paren hinner => cases hinner

end Config

end SelectorCheck
