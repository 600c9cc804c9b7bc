import SelectorCheck.FrontEnd
import SelectorCheck.Text.Blank
import SelectorCheck.Tree.Lowering

/-
  The calls of a syntax tree.

  Without type information the form of a call is read off its spelling:
  `Type.Method(...)` is ordinary if `Type` names a watched declaring type,
  `receiver.Method(...)` and `receiver?.Method(...)` are extension calls, and
  `Method(...)` is ordinary with the type left open. A call of a watched name
  whose text has syntax errors is left out, with a line in the log.
-/

namespace SelectorCheck

namespace Node

/-- The node that names the function of a call, for the spellings that can be a
watched call. -/
def calleeName? (function : Node) : Option Node :=
  match function.meaning with
  | .memberAccess | .memberBinding => function.child? "name"
  | .conditionalAccess =>
    (function.namedChildren.find? (·.kind == "member_binding_expression")).bind (·.child? "name")
  | .identifier | .genericName => some function
  | _ => none

/-- The form of a call with this function, and the type it goes through. -/
def callForm (methods : MethodTable) (source : String) (function : Node) :
    Option String × CallForm :=
  match function.meaning with
  | .memberAccess =>
    match function.child? "expression" with
    | some receiver =>
      let type := Text.trim (receiver.text source)
      if methods.declares type then (some type, .ordinary) else (none, .extension)
    | none => (none, .extension)
  | .identifier | .genericName => (none, .ordinary)
  | _ => (none, .extension)

/-- The function of an invocation and the watched name it is called by. -/
def watchedName? (methods : MethodTable) (source : String) (n : Node) : Option (Node × String) :=
  if n.meaning ≠ .invocation then none
  else
    match n.child? "function" with
    | none => none
    | some function =>
      match function.calleeName? with
      | none => none
      | some name =>
        let callee := Lowering.simpleName source name
        if (methods.candidates callee).isEmpty then none else some (function, callee)

/-- The call of a watched method at a node, unless its text has syntax errors. -/
def watchedCall? (methods : MethodTable) (source : String) (n : Node) : Option Call :=
  match n.watchedName? methods source with
  | none => none
  | some (function, callee) =>
    if n.hasError then none
    else
      let (declaringType, form) := callForm methods source function
      some { callee, declaringType, form, arguments := Lowering.listed source n.children,
             span := n.span }

def watchedCallEvents (methods : MethodTable) (source : String) (n : Node) : List Event :=
  match n.watchedName? methods source with
  | none => []
  | some (_, callee) =>
    if n.hasError then
      [⟨.trace,
        s!"{callee} at {n.span.line}:{n.span.column}: skipped, contains syntax errors"⟩]
    else []

def calls (methods : MethodTable) (source : String) (root : Node) : List Call :=
  (visit [root]).filterMap (watchedCall? methods source)

def callsEvents (methods : MethodTable) (source : String) (root : Node) : List Event :=
  (visit [root]).flatMap (watchedCallEvents methods source)

end Node

/-- The front end for C#, given the grammar as a function from texts to syntax
trees. -/
def FrontEnd.csharp (parse : String → Option Node) : FrontEnd where
  language := "csharp"
  extensions := [".cs"]
  read methods source :=
    match parse source with
    | some root => .ok (root.calls methods source)
    | none => .error (.source "csharp")
  readEvents methods source :=
    match parse source with
    | some root => root.callsEvents methods source
    | none => []

end SelectorCheck
