import SelectorCheck.Call
import SelectorCheck.Event
import SelectorCheck.Method

/-
  Matching a call with a watched method and binding its arguments to slots.

  The slots of a method are the parameters that a form leaves to be filled:
  receiver and parameters in ordinary form, parameters alone in extension form.
  A named argument goes to the first slot with its name, any other to the slot
  at its position. A method accepts a call if every slot receives exactly one
  argument. The first entry of the table that accepts a call decides, whatever
  its arguments hold.
-/

namespace SelectorCheck

/-- A call with the method that accepts it and the argument of every slot, in
slot order. -/
structure BoundCall where
  method : Method
  call : Call
  bindings : List (String × Argument)

/-- Why a method does not accept a call of its name. -/
inductive Mismatch where
  /-- The call goes through another type. -/
  | declaredElsewhere (type : String)
  /-- The method may not be called in this form. -/
  | formRefused (form : CallForm)
  /-- The number of arguments is not the number of slots. -/
  | argumentCount (given expected : Nat)
  /-- An argument has no slot, or two arguments have the same one. -/
  | unbound

/-- The log line for a mismatch of a call with `m`, if it is logged. -/
def Mismatch.event? (m : Method) (c : Call) : Mismatch → Option Event
  | declaredElsewhere type =>
    some ⟨.trace, s!"{c.callee}: declared on {type}, expected {m.declaringType}"⟩
  | formRefused form => some ⟨.trace, s!"{c.callee}: {form.word} form not allowed"⟩
  | argumentCount given expected =>
    some ⟨.trace, s!"{c.callee}: {given} arguments, expected {expected}"⟩
  | unbound => none

namespace Binding

def slotOf (slots : List String) (a : Argument) : Option Nat :=
  match a.name with
  | some name => slots.findIdx? (· == name)
  | none => some a.position

/-- Puts each argument into its slot, and fails on an argument without a slot
and on a slot that is taken. -/
def fill (slots : List String) : List (Option Argument) → List Argument →
    Option (List (Option Argument))
  | bound, [] => some bound
  | bound, a :: as =>
    match slotOf slots a with
    | none => none
    | some i =>
      match bound[i]? with
      | some none => fill slots (bound.set i (some a)) as
      | _ => none

def all? {α : Type} : List (Option α) → Option (List α)
  | [] => some []
  | none :: _ => none
  | some a :: rest => (all? rest).map (a :: ·)

/-- The argument of every slot, in slot order. -/
def bind (slots : List String) (arguments : List Argument) : Option (List Argument) :=
  match fill slots (slots.map fun _ => none) arguments with
  | some bound => all? bound
  | none => none

end Binding

namespace Method

/-- The slots of a method in a form, if the form is allowed. -/
def slots? (m : Method) : CallForm → Option (List String)
  | .ordinary => if m.ordinary then some (m.receiver :: m.parameters) else none
  | .extension => if m.extension then some m.parameters else none

/-- Whether the type a call goes through, if it names one, is the declaring
type. -/
def agreesOnType (m : Method) (c : Call) : Bool :=
  match c.declaringType with
  | some type => m.isDeclaredBy type
  | none => true

/-- Binds the arguments of a call to the slots of `m`. The name of the call is
not looked at. -/
def accept (m : Method) (c : Call) : Except Mismatch BoundCall :=
  if !m.agreesOnType c then .error (.declaredElsewhere (c.declaringType.getD ""))
  else
    match m.slots? c.form with
    | none => .error (.formRefused c.form)
    | some slots =>
      if c.arguments.length ≠ slots.length then
        .error (.argumentCount c.arguments.length slots.length)
      else
        match Binding.bind slots c.arguments with
        | none => .error .unbound
        | some bound => .ok ⟨m, c, slots.zip bound⟩

end Method

def firstAccepting (c : Call) : List Method → Option BoundCall
  | [] => none
  | m :: ms =>
    match m.accept c with
    | .ok b => some b
    | .error _ => firstAccepting c ms

/-- The log of trying the methods one by one, up to the first that accepts. -/
def acceptingEvents (c : Call) : List Method → List Event
  | [] => []
  | m :: ms =>
    match m.accept c with
    | .ok _ => []
    | .error e => (e.event? m c).toList ++ acceptingEvents c ms

namespace MethodTable

/-- Matches a call with the first entry of its name that accepts it. -/
def bind? (t : MethodTable) (c : Call) : Option BoundCall :=
  firstAccepting c (t.candidates c.callee)

def bindEvents (t : MethodTable) (c : Call) : List Event :=
  acceptingEvents c (t.candidates c.callee)

end MethodTable

/-- The argument bound to a parameter: the first one, if the name is repeated. -/
def BoundCall.argument? (b : BoundCall) (parameter : String) : Option Argument :=
  (b.bindings.find? (·.1 == parameter)).map (·.2)

end SelectorCheck
