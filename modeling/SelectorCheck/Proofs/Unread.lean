import SelectorCheck.Proofs.Blame
import SelectorCheck.Proofs.CallWriting

/-
  What a rule never looks at.

  A call is bound by the names and positions of its arguments, and of the values only the
  one for the selector is read. Of a selector that breaks the pattern, nothing below the
  expression that breaks it is read. So two calls that agree in what is read have the same
  violations, whatever the rest is.

  "Below" is said of expressions of every shape: `ChangedBelow x e e'` allows any change
  under the node `x`, wherever `x` stands in `e`, as long as the node keeps its kind and
  its span. That the blamed node stands on the way from the lambda through parentheses, a
  cast and member accesses is then a matter of proof. The node has one place there, because
  it is larger than everything below it.

  What is proved:
    1. `ChangedBelow.leadsTo`, `ChangedBelow.uncast`, `ChangedBelow.lambda?`: a change below
       the end of the way leaves the way as it is.
    2. `classify_changedBelow`: the selector is rejected for the same reason at the same span.
    3. `only_selector_matters`: two calls that agree in what is read have the same violations.
-/

namespace SelectorCheck

/-! ## Changes below a node -/

namespace Expr

/-- The same kind of node at the same span, with anything below it. Parentheses and member
accesses are left out: a path goes on through them. -/
inductive SameKind : Expr → Expr → Prop
  | identifier {name : String} {span : Span} :
      SameKind (.identifier name span) (.identifier name span)
  | literal {text text' : String} {span : Span} :
      SameKind (.literal text span) (.literal text' span)
  | cast {type type' : String} {operand operand' : Expr} {span : Span} :
      SameKind (.cast type operand span) (.cast type' operand' span)
  | call {callee callee' : Expr} {arguments arguments' : List Argument} {span : Span} :
      SameKind (.call callee arguments span) (.call callee' arguments' span)
  | binary {operator operator' : String} {left right left' right' : Expr} {span : Span} :
      SameKind (.binary operator left right span) (.binary operator' left' right' span)
  | unary {operator operator' : String} {operand operand' : Expr} {span : Span} :
      SameKind (.unary operator operand span) (.unary operator' operand' span)
  | conditional {span : Span} : SameKind (.conditional span) (.conditional span)
  | element {receiver receiver' : Expr} {span : Span} :
      SameKind (.element receiver span) (.element receiver' span)
  | block {span : Span} : SameKind (.block span) (.block span)
  | lambda {parameters parameters' : List String} {body body' : Expr} {span : Span} :
      SameKind (.lambda parameters body span) (.lambda parameters' body' span)
  | other {kind : String} {span : Span} : SameKind (.other kind span) (.other kind span)

/-- `ChangedBelow x e e'`: the node `x` of `e` has something else below it in `e'`, and
nothing else is changed. -/
inductive ChangedBelow (x : Expr) : Expr → Expr → Prop
  | here {x' : Expr} : x.SameKind x' → ChangedBelow x x x'
  | member {receiver receiver' : Expr} {m : String} {span : Span} :
      ChangedBelow x receiver receiver' →
      ChangedBelow x (.member receiver m span) (.member receiver' m span)
  | cast {type : String} {operand operand' : Expr} {span : Span} :
      ChangedBelow x operand operand' →
      ChangedBelow x (.cast type operand span) (.cast type operand' span)
  | paren {inner inner' : Expr} {span : Span} :
      ChangedBelow x inner inner' → ChangedBelow x (.paren inner span) (.paren inner' span)
  | lambda {parameters : List String} {body body' : Expr} {span : Span} :
      ChangedBelow x body body' →
      ChangedBelow x (.lambda parameters body span) (.lambda parameters body' span)
  | callee {callee callee' : Expr} {arguments : List Argument} {span : Span} :
      ChangedBelow x callee callee' →
      ChangedBelow x (.call callee arguments span) (.call callee' arguments span)
  | argument {callee : Expr} {before after : List Argument} {a : Argument} {value' : Expr}
      {span : Span} : ChangedBelow x a.value value' →
      ChangedBelow x (.call callee (before ++ a :: after) span)
        (.call callee (before ++ { a with value := value' } :: after) span)
  | left {operator : String} {left left' right : Expr} {span : Span} :
      ChangedBelow x left left' →
      ChangedBelow x (.binary operator left right span) (.binary operator left' right span)
  | right {operator : String} {left right right' : Expr} {span : Span} :
      ChangedBelow x right right' →
      ChangedBelow x (.binary operator left right span) (.binary operator left right' span)
  | unary {operator : String} {operand operand' : Expr} {span : Span} :
      ChangedBelow x operand operand' →
      ChangedBelow x (.unary operator operand span) (.unary operator operand' span)
  | element {receiver receiver' : Expr} {span : Span} :
      ChangedBelow x receiver receiver' →
      ChangedBelow x (.element receiver span) (.element receiver' span)

theorem SameKind.span_eq {x x' : Expr} (h : x.SameKind x') : x'.span = x.span := by
  cases h <;> rfl

theorem Breaks.of_sameKind {p : String} {x x' : Expr} {reason : Reason} (h : Breaks p x reason)
    (hkind : x.SameKind x') : Breaks p x' reason := by
  cases h with
  | identifier hname => cases hkind; exact .identifier hname
  | _ => cases hkind; constructor

/-- The changed node is the whole expression or smaller. -/
theorem ChangedBelow.sameKind_or_lt {x e e' : Expr} (h : ChangedBelow x e e') :
    e = x ∧ x.SameKind e' ∨ sizeOf x < sizeOf e := by
  have hle : ∀ {y z : Expr}, y = x ∧ x.SameKind z ∨ sizeOf x < sizeOf y → sizeOf x ≤ sizeOf y := by
    intro y z h
    rcases h with ⟨rfl, -⟩ | hlt
    · exact Nat.le_refl _
    · exact Nat.le_of_lt hlt
  induction h with
  | here hkind => exact .inl ⟨rfl, hkind⟩
  | @argument callee before after a value' span _ ih =>
    have ha : sizeOf a < sizeOf (before ++ a :: after) := List.sizeOf_lt_of_mem (by simp)
    have hvalue : sizeOf a.value < sizeOf a := by
      cases a
      simp only [Arg.mk.sizeOf_spec]
      omega
    have ih := hle ih
    refine .inr ?_
    simp only [call.sizeOf_spec]
    omega
  | _ _ ih =>
    have ih := hle ih
    refine .inr ?_
    simp
    omega

/-! ## The way to the blamed node -/

theorem Encloses.size_le {e x : Expr} (h : e.Encloses x) : sizeOf x ≤ sizeOf e := by
  induction h with
  | refl e => exact Nat.le_refl _
  | paren _ ih => simp; omega

theorem LeadsTo.size_le {e x : Expr} (h : e.LeadsTo x) : sizeOf x ≤ sizeOf e := by
  induction h with
  | refl e => exact Nat.le_refl _
  | paren _ ih => simp; omega
  | member _ ih => simp; omega

namespace ChangedBelow
variable {x e e' : Expr}

theorem sameKind (h : ChangedBelow x x e') : x.SameKind e' := by
  rcases h.sameKind_or_lt with ⟨-, hkind⟩ | hlt
  · exact hkind
  · exact absurd hlt (Nat.lt_irrefl _)

theorem ne_paren (h : ChangedBelow x e e') (he : ∀ inner span, e ≠ .paren inner span) :
    ∀ inner span, e' ≠ .paren inner span := by
  intro inner span heq
  subst heq
  cases h with
  | here hkind => cases hkind
  | paren _ => exact he _ _ rfl

theorem ne_cast (h : ChangedBelow x e e') (he : ∀ type operand span, e ≠ .cast type operand span) :
    ∀ type operand span, e' ≠ .cast type operand span := by
  intro type operand span heq
  subst heq
  cases h with
  | here hkind => cases hkind; exact he _ _ _ rfl
  | cast _ => exact he _ _ _ rfl

theorem encloses {y : Expr} (h : ChangedBelow x e e') (hy : e.Encloses y)
    (hx : sizeOf x ≤ sizeOf y) : ∃ y', e'.Encloses y' ∧ ChangedBelow x y y' := by
  induction hy generalizing e' with
  | refl e => exact ⟨e', .refl _, h⟩
  | @paren inner y span hinner ih =>
    have hsize := hinner.size_le
    cases h with
    | here _ => simp at hx; omega
    | paren h =>
      obtain ⟨y', hy', hchanged⟩ := ih h hx
      exact ⟨y', .paren hy', hchanged⟩

theorem leadsTo (h : ChangedBelow x e e') (hway : e.LeadsTo x) :
    ∃ x', e'.LeadsTo x' ∧ x.SameKind x' := by
  induction hway generalizing e' with
  | refl x => exact ⟨e', .refl _, h.sameKind⟩
  | @paren inner x span hinner ih =>
    have hsize := hinner.size_le
    cases h with
    | here _ => simp at hsize; omega
    | paren h =>
      obtain ⟨x', hx', hkind⟩ := ih h
      exact ⟨x', .paren hx', hkind⟩
  | @member receiver x m span hreceiver ih =>
    have hsize := hreceiver.size_le
    cases h with
    | here _ => simp at hsize; omega
    | member h =>
      obtain ⟨x', hx', hkind⟩ := ih h
      exact ⟨x', .member hx', hkind⟩

theorem uncast {chain : Expr} (h : ChangedBelow x e e') (hchain : e.Uncast chain)
    (hx : sizeOf x ≤ sizeOf chain) : ∃ chain', e'.Uncast chain' ∧ ChangedBelow x chain chain' := by
  cases hchain with
  | cast hcast hoperand hparen =>
    have hsize := hoperand.size_le
    obtain ⟨y, hy, hchanged⟩ := h.encloses hcast (by simp; omega)
    cases hchanged with
    | here _ => simp at hx; omega
    | cast hchanged =>
      obtain ⟨chain', hchain', hchanged⟩ := hchanged.encloses hoperand hx
      exact ⟨chain', .cast hy hchain' (hchanged.ne_paren hparen), hchanged⟩
  | plain hchain hparen hcast =>
    obtain ⟨chain', hchain', hchanged⟩ := h.encloses hchain hx
    exact ⟨chain', .plain hchain' (hchanged.ne_paren hparen) (hchanged.ne_cast hcast), hchanged⟩

theorem lambda? {l : Lambda} (h : ChangedBelow x e e') (hl : e.lambda? = some l)
    (hx : sizeOf x ≤ sizeOf l.body) :
    ∃ body', e'.lambda? = some ⟨l.parameters, body'⟩ ∧ ChangedBelow x l.body body' := by
  obtain ⟨span, hspan⟩ := lambda?_eq_some_iff.mp hl
  obtain ⟨y, hy, hchanged⟩ := h.encloses hspan (by simp; omega)
  cases hchanged with
  | here _ => simp at hx; omega
  | @lambda _ _ body' _ hchanged => exact ⟨body', lambda?_eq_some_iff.mpr ⟨span, hy⟩, hchanged⟩

end ChangedBelow

theorem Uncast.size_le {e chain : Expr} (h : e.Uncast chain) : sizeOf chain ≤ sizeOf e := by
  cases h with
  | cast hcast hoperand _ =>
    have hcast := hcast.size_le
    have hoperand := hoperand.size_le
    simp at hcast
    omega
  | plain hchain _ _ => exact hchain.size_le

end Expr

/-! ## Rejections and violations -/

/-- Whether a selector is rejected for an expression that breaks the pattern, and not for
the number of its parameters or of its members. -/
def Reason.IsShape : Reason → Prop
  | .parameterCount _ | .chainTooDeep _ _ => False
  | _ => True

theorem Reason.isShape_iff {reason : Reason} : reason.IsShape ↔
    (∀ n, reason ≠ .parameterCount n) ∧ ∀ depth max, reason ≠ .chainTooDeep depth max := by
  cases reason <;> simp [IsShape]

/-- A change below the blamed expression leaves the reason and the blamed span. -/
theorem Selector.classify_changedBelow {value value' : Expr} {l : Lambda} {max : Nat}
    {r : Rejection} (hl : value.lambda? = some l)
    (hv : (⟨value, l⟩ : Selector).classify max = .invalid r) (hr : r.reason.IsShape)
    (h : Expr.ChangedBelow r.offending value value') :
    ∃ l' r', value'.lambda? = some l' ∧ (⟨value', l'⟩ : Selector).classify max = .invalid r' ∧
      r'.reason = r.reason ∧ r'.offending.span = r.offending.span := by
  cases blames_of_classify hv with
  | parameters _ => cases hr
  | length _ _ _ _ => cases hr
  | @shape p chain x reason hp huncast hway hbreak =>
    have hchain := hway.size_le
    have hbody := huncast.size_le
    obtain ⟨body', hl', hchanged⟩ := h.lambda? hl (hchain.trans hbody)
    obtain ⟨chain', huncast', hchanged⟩ := hchanged.uncast huncast hchain
    obtain ⟨x', hway', hkind⟩ := hchanged.leadsTo hway
    refine ⟨_, ⟨reason, x'⟩, hl', classify_of_blames ?_, rfl, hkind.span_eq⟩
    exact .shape hp huncast' hway' (hbreak.of_sameKind hkind)

theorem Rejection.violations_congr {r r' : Rejection} {c c' : Call}
    (hreason : r'.reason = r.reason) (hspan : r'.offending.span = r.offending.span)
    (hcallee : c.callee = c'.callee) (hcall : c.span = c'.span) (file : SourceFile)
    (rule : String) (severity : Severity) (descriptors : List Descriptor) :
    r'.violations file rule severity descriptors c' =
      r.violations file rule severity descriptors c := by
  simp [violations, message, callLabels, hreason, hspan, hcallee, hcall]

/-! ## Calls that agree in what is read -/

/-- `x` is the argument for the selector of the entry that accepts the call. -/
def MethodTable.BindsSelector (t : MethodTable) (c : Call) (x : Argument) : Prop :=
  ∃ b, t.bind? c = some b ∧ b.argument? b.method.selector = some x

/-- Two calls of one method at one place, with arguments of the same names and positions.
The values for the selector are related by `V`, and all others are free. -/
structure Call.AlikeBut (t : MethodTable) (V : Expr → Expr → Prop) (c c' : Call) : Prop where
  callee : c.callee = c'.callee
  declaringType : c.declaringType = c'.declaringType
  form : c.form = c'.form
  span : c.span = c'.span
  arguments : List.Forall₂ (fun x y => x.name = y.name ∧ x.position = y.position ∧
    (t.BindsSelector c x → V x.value y.value)) c.arguments c'.arguments

namespace Call.AlikeBut
variable {t : MethodTable} {V : Expr → Expr → Prop} {c c' : Call}

/-- Both calls are refused, or both are bound by one entry, and the arguments for its
selector are related. -/
theorem bind?_rel (h : c.AlikeBut t V c') :
    Option.Rel (fun b b' => b.method = b'.method ∧
      Option.Rel (fun x y => V x.value y.value) (b.argument? b.method.selector)
        (b'.argument? b'.method.selector)) (t.bind? c) (t.bind? c') := by
  have hbound := t.bind?_rel h.callee h.declaringType h.form fun slots =>
    Binding.bind_rel (fun x y hxy => by unfold Binding.slotOf; rw [hxy.1, hxy.2.1]) h.arguments
  generalize ho : t.bind? c = o, t.bind? c' = o' at hbound
  cases hbound with
  | none => exact .none
  | @some b b' hb =>
    refine .some ⟨hb.method, ?_⟩
    have hargument := hb.argument?_rel b'.method.selector
    rw [← hb.method] at hargument ⊢
    generalize hx : b.argument? b.method.selector = p, b'.argument? b.method.selector = p'
      at hargument
    cases hargument with
    | none => exact .none
    | some hxy => exact .some (hxy.2.2 ⟨b, ho, hx⟩)

end Call.AlikeBut

namespace Rule
variable {r : Rule} {file : SourceFile} {c c' : Call}

theorem checkCall_eq_of_same_value (h : c.AlikeBut file.methods (· = ·) c') :
    r.checkCall file c = r.checkCall file c' := by
  refine r.checkCall_congr file h.callee h.span ?_
  have hbound := h.bind?_rel
  generalize file.methods.bind? c = o, file.methods.bind? c' = o' at hbound
  cases hbound with
  | none => rfl
  | @some b b' hb =>
    have hargument := hb.2
    simp only [Option.bind_some, BoundCall.selector?]
    generalize b.argument? _ = p, b'.argument? _ = p' at hargument
    cases hargument with
    | none => rfl
    | some hxy => simp only [hxy]

theorem checkCall_eq_of_changedBelow {rejection : Rejection}
    (hrejection : r.rejection? file.methods c = some rejection)
    (hshape : rejection.reason.IsShape)
    (h : c.AlikeBut file.methods (Expr.ChangedBelow rejection.offending) c') :
    r.checkCall file c = r.checkCall file c' := by
  obtain ⟨hcallee, s, hs, hv⟩ := rejection?_eq_some_iff.mp hrejection
  obtain ⟨b, hb, hselector⟩ := Option.bind_eq_some_iff.mp (MethodTable.selector?_eq_some_iff.mpr hs)
  have hbound := h.bind?_rel
  rw [hb] at hbound
  generalize hb' : file.methods.bind? c' = o' at hbound
  cases hbound with
  | @some _ b' hrel =>
    have hargument := hrel.2
    unfold BoundCall.selector? at hselector
    generalize hx : b.argument? _ = p, hx' : b'.argument? _ = p' at hargument hselector
    cases hargument with
    | none => cases hselector
    | @some x x' hchanged =>
      obtain ⟨l, hl, rfl⟩ := Option.map_eq_some_iff.mp hselector
      obtain ⟨l', rejection', hl', hv', hreason, hspan⟩ :=
        Selector.classify_changedBelow hl hv hshape hchanged
      have hpasses : file.methods.PassesSelector c' ⟨x'.value, l'⟩ := by
        rw [← MethodTable.selector?_eq_some_iff, hb', Option.bind_some, BoundCall.selector?, hx']
        simp [hl']
      have hrejection' : r.rejection? file.methods c' = some rejection' :=
        rejection?_eq_some_iff.mpr ⟨h.callee ▸ hcallee, _, hpasses, hv'⟩
      simp only [checkCall, hrejection, hrejection']
      exact (Rejection.violations_congr hreason hspan h.callee h.span ..).symm

/-- **Only the selector matters.** Take two calls of the same callee through the same type,
in the same form and at the same span, whose arguments agree in number, names and
positions. If they agree in the value that is bound to the selector of the entry that
accepts the first, every rule reports the same on both, whatever the other values are. If
the first is rejected for an expression in its selector that breaks the pattern, then it is
enough that the selectors agree except below that expression, and the expression may have
anything below it as long as its kind and its span stay. -/
theorem only_selector_matters (r : Rule) (file : SourceFile) (c c' : Call) :
    (c.AlikeBut file.methods (· = ·) c' → r.checkCall file c = r.checkCall file c') ∧
    ∀ rejection, r.rejection? file.methods c = some rejection →
      (∀ n, rejection.reason ≠ .parameterCount n) →
      (∀ depth max, rejection.reason ≠ .chainTooDeep depth max) →
      c.AlikeBut file.methods (Expr.ChangedBelow rejection.offending) c' →
      r.checkCall file c = r.checkCall file c' := by
  refine ⟨checkCall_eq_of_same_value, fun rejection h hcount hdepth halike => ?_⟩
  exact checkCall_eq_of_changedBelow h (Reason.isShape_iff.mpr ⟨hcount, hdepth⟩) halike

/-- A call on a receiver with some relation, whose selector casts a member of some
expression in parentheses. -/
def memberOf (relation inner : Expr) : Call where
  callee := linkAndIgnoreName
  form := .extension
  arguments :=
    [{ position := 0, value := relation },
     { position := 1
       value := .paren (.lambda ["l"] (.cast "T" (.member (.paren inner) "Name"))) }]

theorem bindsSelector_memberOf {relation inner : Expr} {x : Argument}
    (h : MethodTable.standard.BindsSelector (memberOf relation inner) x) : x.position = 1 := by
  obtain ⟨b, hb, hx⟩ := h
  obtain rfl : _ = b := Option.some.inj hb
  obtain rfl : _ = x := Option.some.inj hx
  rfl

theorem alikeBut_memberOf {V : Expr → Expr → Prop} {inner inner' : Expr}
    (hvalue : V (.paren (.lambda ["l"] (.cast "T" (.member (.paren inner) "Name"))))
      (.paren (.lambda ["l"] (.cast "T" (.member (.paren inner') "Name")))))
    (relation relation' : Expr) :
    (memberOf relation inner).AlikeBut .standard V (memberOf relation' inner') := by
  refine ⟨rfl, rfl, rfl, rfl, .cons ⟨rfl, rfl, fun h => ?_⟩ ?_⟩
  · have hposition : 0 = 1 := bindsSelector_memberOf h
    cases hposition
  · exact .cons ⟨rfl, rfl, fun _ => hvalue⟩ .nil

/-- `Id(l)` at the bytes 20 to 25. -/
def idOfParameter : Expr :=
  .call (.identifier "Id") [{ position := 0, value := .identifier "l" }] ⟨20, 5, 1, 21⟩

open Analyzer in
/-- Another relation, and another call in the same bytes. -/
theorem only_selector_matters_memberOf :
    (linkAndIgnore.checkCall plainFile
        (memberOf (.literal "\"self\"") idOfParameter)).length = 2 ∧
      linkAndIgnore.checkCall plainFile (memberOf (.literal "\"self\"") idOfParameter) =
        linkAndIgnore.checkCall plainFile (memberOf (.apply "Relation" []) idOfParameter) ∧
      linkAndIgnore.checkCall plainFile (memberOf (.literal "\"self\"") idOfParameter) =
        linkAndIgnore.checkCall plainFile
          (memberOf (.apply "Relation" []) (.call (.block) [] ⟨20, 5, 1, 21⟩)) := by
  have hbelow : idOfParameter.ChangedBelow
      (.paren (.lambda ["l"] (.cast "T" (.member (.paren idOfParameter) "Name"))))
      (.paren (.lambda ["l"] (.cast "T" (.member (.paren (.call (.block) [] ⟨20, 5, 1, 21⟩))
        "Name")))) :=
    .paren (.lambda (.cast (.member (.paren (.here .call)))))
  refine ⟨by decide +kernel, ?_, ?_⟩
  · exact (only_selector_matters linkAndIgnore plainFile _ _).1 (alikeBut_memberOf rfl _ _)
  · exact (only_selector_matters linkAndIgnore plainFile _ _).2 ⟨.call, idOfParameter⟩ rfl
      (by simp) (by simp) (alikeBut_memberOf hbelow _ _)

end Rule

end SelectorCheck
