import SelectorCheck.Proofs.Blame
import SelectorCheck.Proofs.CallWriting
import SelectorCheck.Proofs.Places

/-
  Parentheses do not matter.

  `strip` takes every pair of parentheses out of an expression, in receivers, operands,
  callees, arguments and bodies, and leaves every other node with its span. Each reader of
  an expression commutes with it: looking for the lambda, splitting off the cast, walking to
  the parameter, and so the verdict. An argument keeps its name and position, so a call is
  bound as before, and of the blamed expression a violation takes the span alone. That span
  changes only where a lambda with a wrong number of parameters stands in parentheses.

  What is proved:
    1. `hasParens_strip`, `strip_of_hasParens_false`: what `strip` leaves.
    2. `classify_strip`: the verdict on a stripped selector.
    3. `rejection?_strip`: the rejection of a stripped call.
    4. `parentheses_transparent`: lambdas, verdicts and violations of stripped expressions
       and calls.
-/

namespace SelectorCheck

namespace Expr

mutual
/-- The expression without the parentheses in it, at any depth. -/
def strip : Expr → Expr
  | .paren inner _ => inner.strip
  | .member receiver m s => .member receiver.strip m s
  | .cast t operand s => .cast t operand.strip s
  | .lambda ps body s => .lambda ps body.strip s
  | .call callee arguments s => .call callee.strip (stripAll arguments) s
  | .binary o left right s => .binary o left.strip right.strip s
  | .unary o operand s => .unary o operand.strip s
  | .element receiver s => .element receiver.strip s
  | .identifier name s => .identifier name s
  | .conditional s => .conditional s
  | .literal t s => .literal t s
  | .block s => .block s
  | .other k s => .other k s

def stripAll : List Argument → List Argument
  | [] => []
  | ⟨name, position, value⟩ :: rest => ⟨name, position, value.strip⟩ :: stripAll rest
end

mutual
/-- Whether there are parentheses in an expression, at any depth. -/
def hasParens : Expr → Bool
  | .paren .. => true
  | .member e _ _ | .cast _ e _ | .lambda _ e _ | .unary _ e _ | .element e _ => e.hasParens
  | .call callee arguments _ => callee.hasParens || anyHasParens arguments
  | .binary _ left right _ => left.hasParens || right.hasParens
  | .identifier .. | .conditional .. | .literal .. | .block .. | .other .. => false

def anyHasParens : List Argument → Bool
  | [] => false
  | ⟨_, _, value⟩ :: rest => value.hasParens || anyHasParens rest
end

mutual
theorem hasParens_strip : ∀ e : Expr, e.strip.hasParens = false
  | .paren inner _ => by simp [strip, hasParens_strip inner]
  | .member e _ _ | .cast _ e _ | .lambda _ e _ | .unary _ e _ | .element e _ => by
    simp [strip, hasParens, hasParens_strip e]
  | .call callee arguments _ => by
    simp [strip, hasParens, hasParens_strip callee, anyHasParens_stripAll arguments]
  | .binary _ left right _ => by
    simp [strip, hasParens, hasParens_strip left, hasParens_strip right]
  | .identifier .. | .conditional .. | .literal .. | .block .. | .other .. => rfl

theorem anyHasParens_stripAll : ∀ as : List Argument, anyHasParens (stripAll as) = false
  | [] => rfl
  | ⟨_, _, value⟩ :: rest => by
    simp [stripAll, anyHasParens, hasParens_strip value, anyHasParens_stripAll rest]
end

mutual
theorem strip_of_hasParens_false : ∀ e : Expr, e.hasParens = false → e.strip = e
  | .paren .., h => by cases h
  | .member e _ _, h | .cast _ e _, h | .lambda _ e _, h | .unary _ e _, h | .element e _, h => by
    simp only [strip, strip_of_hasParens_false e h]
  | .call callee arguments _, h => by
    simp only [hasParens, Bool.or_eq_false_iff] at h
    simp only [strip, strip_of_hasParens_false callee h.1, stripAll_of_anyHasParens_false _ h.2]
  | .binary _ left right _, h => by
    simp only [hasParens, Bool.or_eq_false_iff] at h
    simp only [strip, strip_of_hasParens_false left h.1, strip_of_hasParens_false right h.2]
  | .identifier .., _ | .conditional .., _ | .literal .., _ | .block .., _ | .other .., _ => rfl

theorem stripAll_of_anyHasParens_false :
    ∀ as : List Argument, anyHasParens as = false → stripAll as = as
  | [], _ => rfl
  | ⟨_, _, value⟩ :: rest, h => by
    simp only [anyHasParens, Bool.or_eq_false_iff] at h
    simp only [stripAll, strip_of_hasParens_false value h.1,
      stripAll_of_anyHasParens_false rest h.2]
end

@[simp]
theorem bare_strip : ∀ e : Expr, e.strip.bare = e.strip
  | .paren inner _ => by simpa [strip] using bare_strip inner
  | .identifier .. | .member .. | .cast .. | .lambda .. | .call .. | .binary .. | .unary ..
  | .conditional .. | .element .. | .literal .. | .block .. | .other .. => by simp [strip, bare]

@[simp]
theorem strip_bare : ∀ e : Expr, e.bare.strip = e.strip
  | .paren inner _ => by simpa [strip, bare] using strip_bare inner
  | .identifier .. | .member .. | .cast .. | .lambda .. | .call .. | .binary .. | .unary ..
  | .conditional .. | .element .. | .literal .. | .block .. | .other .. => rfl

theorem span_strip : ∀ e : Expr, e.strip.span = e.bare.span
  | .paren inner _ => by simpa [strip, bare] using span_strip inner
  | .identifier .. | .member .. | .cast .. | .lambda .. | .call .. | .binary .. | .unary ..
  | .conditional .. | .element .. | .literal .. | .block .. | .other .. => by
    simp [strip, bare, span]

end Expr

/-! ## Stripped verdicts -/

def Lambda.strip (l : Lambda) : Lambda := { l with body := l.body.strip }

def Selector.strip (s : Selector) : Selector :=
  { argument := s.argument.strip, lambda := s.lambda.strip }

def Rejection.strip (r : Rejection) : Rejection := { r with offending := r.offending.strip }

/-- The same verdict, with the blamed expression stripped. -/
def Verdict.strip : Verdict → Verdict
  | .simpleChain path => .simpleChain path
  | .castChain type path => .castChain type path
  | .invalid r => .invalid r.strip

theorem Expr.lambda?_strip (e : Expr) : e.strip.lambda? = e.lambda?.map Lambda.strip := by
  unfold lambda?
  rw [bare_strip, ← strip_bare]
  cases hb : e.bare with
  | paren inner span => exact absurd hb (bare_ne_paren e inner span)
  | _ => simp [strip, Lambda.strip]

namespace Selector

theorem members_strip (p : String) (e : Expr) :
    members p e.strip = (members p e).mapError Rejection.strip := by
  fun_induction members p e with
  | case1 inner _ ih => simpa [Expr.strip] using ih
  | case2 receiver m _ ms hr ih => simp [Expr.strip, members, ih, hr, Except.mapError]
  | case3 receiver m _ r hr ih => simp [Expr.strip, members, ih, hr, Except.mapError]
  | case4 => simp [Expr.strip, members, Except.mapError]
  | case5 name _ hname =>
    simp [Expr.strip, members, Except.mapError, Rejection.strip, hname]
  -- every other shape is blamed, and keeps its shape when stripped
  | _ => simp [Expr.strip, members, Except.mapError, Rejection.strip, Expr.shape]

theorem splitCast_strip (body : Expr) :
    splitCast body.strip = ((splitCast body).1, (splitCast body).2.strip) := by
  unfold splitCast
  rw [Expr.bare_strip, ← Expr.strip_bare]
  cases hb : body.bare with
  | paren inner span => exact absurd hb (Expr.bare_ne_paren body inner span)
  | _ => simp [Expr.strip]

theorem classify_strip (s : Selector) (max : Nat) :
    s.strip.classify max = (s.classify max).strip := by
  by_cases hone : s.lambda.parameters.length = 1
  · obtain ⟨p, hp⟩ := List.length_eq_one_iff.mp hone
    have hp' : s.strip.lambda.parameters = [p] := hp
    have hbody : s.strip.lambda.body = s.lambda.body.strip := rfl
    rw [classify_of_members hp, classify_of_members hp', hbody, splitCast_strip, members_strip]
    cases members p (splitCast s.lambda.body).2 with
    | error r => rfl
    | ok ms =>
      simp only [Except.mapError]
      split
      · rfl
      · cases (splitCast s.lambda.body).1 <;> rfl
  · have hone' : s.strip.lambda.parameters.length ≠ 1 := hone
    rw [classify_of_parameters hone, classify_of_parameters hone']
    rfl

end Selector

theorem Expr.verdict?_strip (e : Expr) (max : Nat) :
    e.strip.verdict? max = (e.verdict? max).map Verdict.strip := by
  unfold verdict?
  rw [lambda?_strip]
  cases e.lambda? with
  | none => rfl
  | some l => exact congrArg some (Selector.classify_strip ⟨e, l⟩ max)

/-! ## Stripped calls -/

def Arg.strip (x : Argument) : Argument := { x with value := x.value.strip }

/-- The call with each argument stripped. -/
def Call.strip (c : Call) : Call := { c with arguments := c.arguments.map Arg.strip }

/-- Names and positions stay, so a stripped call is bound by the same entry, with the
stripped arguments in the same slots. -/
theorem MethodTable.bind?_strip (t : MethodTable) (c : Call) :
    Option.Rel (BoundCall.Rel fun x y => y = x.strip) (t.bind? c) (t.bind? c.strip) := by
  have hslot : ∀ slots x y, y = Arg.strip x →
      Binding.slotOf slots x = Binding.slotOf slots y := by
    rintro slots x _ rfl
    rfl
  have harguments : List.Forall₂ (fun x y => y = Arg.strip x) c.arguments c.strip.arguments :=
    List.forall₂_map_right_iff.mpr (List.forall₂_same.mpr fun _ _ => rfl)
  apply MethodTable.bind?_rel
  · rfl
  · rfl
  · rfl
  · exact fun slots => Binding.bind_rel (hslot slots) harguments

theorem BoundCall.Rel.selector?_strip {b b' : BoundCall}
    (h : b.Rel (fun x y => y = x.strip) b') : b'.selector? = b.selector?.map Selector.strip := by
  have hargument := h.argument?_rel b'.method.selector
  unfold selector?
  rw [h.method]
  generalize b.argument? _ = o, b'.argument? _ = o' at hargument
  cases hargument with
  | none => rfl
  | @some x y hxy =>
    have hvalue : y.value = x.value.strip := by rw [hxy]; rfl
    simp only [hvalue, Expr.lambda?_strip, Option.map_map]
    rfl

namespace Rule

theorem rejection?_strip (r : Rule) (t : MethodTable) (c : Call) :
    r.rejection? t c.strip = (r.rejection? t c).map Rejection.strip := by
  have hselector : (t.bind? c.strip).bind BoundCall.selector? =
      ((t.bind? c).bind BoundCall.selector?).map Selector.strip := by
    have hbound := t.bind?_strip c
    generalize t.bind? c = o, t.bind? c.strip = o' at hbound
    cases hbound with
    | none => rfl
    | some h => exact h.selector?_strip
  have hcallee : c.strip.callee = c.callee := rfl
  unfold rejection?
  rw [hselector, hcallee]
  split
  · rfl
  · cases (t.bind? c).bind BoundCall.selector? with
    | none => rfl
    | some s =>
      simp only [Option.map_some, Selector.classify_strip]
      cases s.classify r.maxDepth <;> rfl

end Rule

/-! ## Violations -/

/-- `v'` is `v` at another span of the file: it has another location and quotes another
text, and all else is as it was. -/
def Violation.Moved (file : SourceFile) (old new : Span) (v v' : Violation) : Prop :=
  ∃ base, v.location = file.location old ∧ v.message = withQuote base (file.snippet old) ∧
    v' = { v with
      location := file.location new
      message := withQuote base (file.snippet new) }

namespace Rejection

theorem violations_strip_call (r : Rejection) (file : SourceFile) (rule : String)
    (severity : Severity) (ds : List Descriptor) (c : Call) :
    r.violations file rule severity ds c.strip = r.violations file rule severity ds c := rfl

theorem violations_strip_moved (r : Rejection) (file : SourceFile) (rule : String)
    (severity : Severity) (ds : List Descriptor) (c : Call) :
    List.Forall₂ (Violation.Moved file r.offending.span r.offending.strip.span)
      (r.violations file rule severity ds c) (r.strip.violations file rule severity ds c) := by
  unfold violations
  rw [List.forall₂_map_left_iff, List.forall₂_map_right_iff, List.forall₂_same]
  intro d _
  exact ⟨_, rfl, rfl, rfl⟩

/-- Of the blamed expression a violation has the span and no more. -/
theorem violations_strip_of_bare {r : Rejection} (h : r.offending.bare = r.offending)
    (file : SourceFile) (rule : String) (severity : Severity) (ds : List Descriptor) (c : Call) :
    r.strip.violations file rule severity ds c = r.violations file rule severity ds c := by
  have hspan : r.strip.offending.span = r.offending.span := by
    rw [← h]
    exact Expr.span_strip _
  have hreason : r.strip.reason = r.reason := rfl
  simp only [violations, message, hreason, hspan]

end Rejection

namespace Rule
variable {r : Rule} {file : SourceFile} {c : Call}

theorem checkCall_strip_of_other_reason
    (h : ∀ n, (r.rejection? file.methods c).map Rejection.reason ≠ some (.parameterCount n)) :
    r.checkCall file c.strip = r.checkCall file c := by
  unfold checkCall
  rw [r.rejection?_strip]
  cases hr : r.rejection? file.methods c with
  | none => rfl
  | some rejection =>
    simp only [Option.map_some, Rejection.violations_strip_call]
    obtain ⟨_, s, _, hv⟩ := rejection?_eq_some_iff.mp hr
    rcases (Selector.blames_of_classify hv).bare_or_parameters with hbare | ⟨_, hcount⟩
    · exact Rejection.violations_strip_of_bare hbare ..
    · rw [hr] at h
      exact absurd (by rw [hcount]; rfl) (h s.lambda.parameters.length)

/-- A wrong number of parameters is blamed on the argument as it is written. -/
theorem exists_selector_of_parameterCount {n : Nat} {rejection : Rejection}
    (hr : r.rejection? file.methods c = some rejection)
    (hn : rejection.reason = .parameterCount n) :
    ∃ x ∈ c.arguments, ∃ ps body span, file.methods.PassesSelector c ⟨x.value, ⟨ps, body⟩⟩ ∧
      x.value.Encloses (.lambda ps body span) ∧ ps.length = n ∧ rejection.offending = x.value := by
  obtain ⟨_, s, hs, hv⟩ := rejection?_eq_some_iff.mp hr
  obtain ⟨x, hx, harg, span, hl⟩ := hs.mem_arguments
  obtain ⟨argument, ps, body⟩ := s
  obtain rfl : argument = x.value := harg
  obtain ⟨hlength, hoffending⟩ := Selector.parameters_of_classify hv hn
  exact ⟨x, hx, ps, body, span, hs, hl, hlength, hoffending⟩

theorem checkCall_strip_of_parameterCount {n : Nat}
    (h : (r.rejection? file.methods c).map Rejection.reason = some (.parameterCount n)) :
    (r.checkCall file c).length = r.diagnostics.length ∧
      ∃ x ∈ c.arguments, ∃ ps body span, file.methods.PassesSelector c ⟨x.value, ⟨ps, body⟩⟩ ∧
        x.value.Encloses (.lambda ps body span) ∧ ps.length = n ∧
        List.Forall₂ (Violation.Moved file x.value.span span)
          (r.checkCall file c) (r.checkCall file c.strip) := by
  obtain ⟨rejection, hr, hn⟩ := Option.map_eq_some_iff.mp h
  obtain ⟨x, hx, ps, body, span, hs, hl, hlength, hoffending⟩ :=
    exists_selector_of_parameterCount hr hn
  unfold checkCall
  rw [r.rejection?_strip, hr]
  simp only [Option.map_some, Rejection.violations_strip_call]
  refine ⟨by simp [Rejection.violations], x, hx, ps, body, span, hs, hl, hlength, ?_⟩
  -- the argument, stripped, is the lambda, stripped, and that keeps its span
  have hspan : x.value.strip.span = span := by
    rw [Expr.span_strip, (Expr.encloses_iff_bare_eq rfl).mp hl]
    rfl
  rw [← hspan, ← hoffending]
  apply rejection.violations_strip_moved

end Rule

/-- **Parentheses are transparent.** What `strip` leaves has no parentheses, and it leaves
an expression as it is exactly if there are none. A stripped expression is a lambda exactly if
the expression is, and gets the same verdict, with the blamed expression stripped. What a
rule says of a call does not change if the arguments are stripped, unless the selector is
rejected for the number of its parameters. Then there is a violation for each diagnostic,
at the argument that is passed as the selector, with the text of that argument; it moves to
the lambda in the argument, and nothing else about it changes. -/
theorem parentheses_transparent :
    (∀ e : Expr, e.strip.hasParens = false ∧ (e.strip = e ↔ e.hasParens = false)) ∧
    (∀ (e : Expr) (max : Nat), (e.strip.lambda? = none ↔ e.lambda? = none) ∧
      e.strip.verdict? max = (e.verdict? max).map Verdict.strip) ∧
    ∀ (r : Rule) (file : SourceFile) (c : Call),
      ((∀ n, (r.rejection? file.methods c).map Rejection.reason ≠ some (.parameterCount n)) →
        r.checkCall file c.strip = r.checkCall file c) ∧
      ∀ n, (r.rejection? file.methods c).map Rejection.reason = some (.parameterCount n) →
        (r.checkCall file c).length = r.diagnostics.length ∧
        ∃ x ∈ c.arguments, ∃ ps body span, file.methods.PassesSelector c ⟨x.value, ⟨ps, body⟩⟩ ∧
          x.value.Encloses (.lambda ps body span) ∧ ps.length = n ∧
          List.Forall₂ (Violation.Moved file x.value.span span)
            (r.checkCall file c) (r.checkCall file c.strip) := by
  refine ⟨fun e => ⟨e.hasParens_strip, ?_, e.strip_of_hasParens_false⟩, fun e max => ?_, ?_⟩
  · intro h
    rw [← h]
    exact e.hasParens_strip
  · exact ⟨by rw [Expr.lambda?_strip, Option.map_eq_none_iff], e.verdict?_strip max⟩
  · intro r file c
    exact ⟨Rule.checkCall_strip_of_other_reason, fun n => Rule.checkCall_strip_of_parameterCount⟩

/-- A lambda with two parameters, in parentheses. -/
def pairFile : SourceFile := .under ⟨"/work"⟩ ⟨"/work/a.cs"⟩ "map.Ignore(((a, b) => a));"

def pairLambda : Expr :=
  .lambda ["a", "b"] (.identifier "a" { offset := 22, length := 1, column := 22 })
    { offset := 12, length := 11, column := 12 }

def pairCall : Call where
  callee := ignoreName
  form := .extension
  arguments :=
    [{ position := 0, value := .paren pairLambda { offset := 11, length := 13, column := 11 } }]
  span := { length := 25 }

/-- The violation stands at the parentheses and quotes them. Without them it stands at the
lambda. -/
theorem parentheses_transparent_pair :
    (Rule.ignoreExpression.rejection? pairFile.methods pairCall).map Rejection.reason =
        some (.parameterCount 2) ∧
      (Rule.ignoreExpression.checkCall pairFile pairCall).map (·.location) =
        [⟨⟨"a.cs"⟩, 0, 11, 11, 13⟩] ∧
      List.Forall₂
        (Violation.Moved pairFile { offset := 11, length := 13, column := 11 } pairLambda.span)
        (Rule.ignoreExpression.checkCall pairFile pairCall)
        (Rule.ignoreExpression.checkCall pairFile pairCall.strip) ∧
      pairFile.snippet { offset := 11, length := 13, column := 11 } = "((a, b) => a)" ∧
      pairFile.snippet pairLambda.span = "(a, b) => a" := by
  have hreason : (Rule.ignoreExpression.rejection? pairFile.methods pairCall).map
      Rejection.reason = some (.parameterCount 2) := by
    decide +kernel
  obtain ⟨-, -, hrule⟩ := parentheses_transparent
  obtain ⟨-, x, hx, ps, body, span, -, hl, -, hmoved⟩ :=
    (hrule Rule.ignoreExpression pairFile pairCall).2 2 hreason
  obtain rfl := List.mem_singleton.mp hx
  have hspan : span = pairLambda.span := by
    have hbare := (Expr.encloses_iff_bare_eq rfl).mp hl
    exact (congrArg Expr.span hbare).symm
  rw [hspan] at hmoved
  exact ⟨hreason, by decide +kernel, hmoved, by decide +kernel, by decide +kernel⟩

end SelectorCheck
