import SelectorCheck.Expr

/-
  Calls found in source.

  A call is written through the type that declares the method, or in extension
  form on a receiver. The receiver of an extension call is not among its
  arguments.
-/

namespace SelectorCheck

/-- The two ways to write a call. -/
inductive CallForm where
  /-- Through the declaring type, receiver first: `Maps.Ignore(map, l => l.Link)`. -/
  | ordinary
  /-- On the receiver: `map.Ignore(l => l.Link)`. -/
  | extension
deriving DecidableEq

def CallForm.word : CallForm → String
  | .ordinary => "ordinary"
  | .extension => "extension"

/-- A call found in source. -/
structure Call where
  /-- Name of the method, without type arguments. -/
  callee : String
  /-- The type the method is called through, if the source names one. -/
  declaringType : Option String := none
  form : CallForm
  /-- Arguments in written order. -/
  arguments : List Argument := []
  span : Span := {}

namespace Call

/-- A call on a receiver, without arguments so far. -/
def onReceiver (callee : String) : Call :=
  { callee, form := .extension }

/-- A call through a type, without arguments so far. -/
def through (type callee : String) : Call :=
  { callee, declaringType := some type, form := .ordinary }

/-- The call with one more argument, at the next position. -/
def push (c : Call) (name : Option String) (value : Expr) : Call :=
  { c with arguments := c.arguments ++ [{ name, position := c.arguments.length, value }] }

def hasNamedArguments (c : Call) : Bool :=
  c.arguments.any (·.name.isSome)

end Call

end SelectorCheck
