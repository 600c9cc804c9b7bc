import SelectorCheck.Expr
import SelectorCheck.Tree.Node

/-
  Reading expressions off a syntax tree.

  Each kind of node that matters has its shape of expression. A node that lacks
  a part its shape needs, and a node of any other kind, becomes `other` under
  its kind, so that nothing malformed is taken for a member path. The children
  that are read are the first in a field, the first named one, or the last named
  one; the readers below recurse along the list of children, so every expression
  is built from a proper subtree.
-/

namespace SelectorCheck

/-- The kinds of nodes that have a meaning of their own. -/
inductive NodeKind where
  | identifier
  | genericName
  | memberAccess
  | memberBinding
  | conditionalAccess
  | cast
  | parenthesized
  | lambda
  | invocation
  | binary
  /-- A test against a type, with its keyword. -/
  | typeTest (keyword : String)
  | unary
  | await
  | conditional
  | elementAccess
  | block
  | literal
  | other
deriving DecidableEq

namespace NodeKind

def isLiteral (kind : String) : Bool :=
  "_literal".toList.isSuffixOf kind.toList

/-- The meaning of a kind. -/
def ofText : String → NodeKind
  | "identifier" => identifier
  | "generic_name" => genericName
  | "member_access_expression" => memberAccess
  | "member_binding_expression" => memberBinding
  | "conditional_access_expression" => conditionalAccess
  | "cast_expression" => cast
  | "parenthesized_expression" => parenthesized
  | "lambda_expression" => lambda
  | "simple_lambda_expression" => lambda
  | "parenthesized_lambda_expression" => lambda
  | "invocation_expression" => invocation
  | "binary_expression" => binary
  | "as_expression" => typeTest "as"
  | "is_expression" => typeTest "is"
  | "prefix_unary_expression" => unary
  | "postfix_unary_expression" => unary
  | "await_expression" => await
  | "conditional_expression" => conditional
  | "element_access_expression" => elementAccess
  | "block" => block
  | "interpolated_string_expression" => literal
  | kind => if isLiteral kind then literal else other

end NodeKind

def Token.meaning (t : Token) : NodeKind := NodeKind.ofText t.kind

namespace Lowering

def isIdentifier (n : Node) : Bool := n.kind == "identifier"

def firstIdentifier? (nodes : List Node) : Option Node :=
  nodes.find? fun n => n.named && isIdentifier n

/-- The name of an identifier or of a generic name without its type arguments. -/
def simpleName (source : String) (n : Node) : String :=
  match n.meaning, firstIdentifier? n.children with
  | .genericName, some name => name.text source
  | _, _ => n.text source

/-- Whether a node names a parameter by its whole text. -/
def isBareParameter (n : Node) : Bool :=
  n.kind == "identifier" || n.kind == "implicit_parameter"

/-- The parameter name that a member of a parameter list gives. -/
def parameterName? (source : String) (n : Node) : Option String :=
  if n.kind == "parameter" then (n.child? "name").map (·.text source)
  else if isBareParameter n then some (n.text source)
  else none

/-- The parameter names of a lambda with the given children. -/
def parameterNames (source : String) (children : List Node) : List String :=
  match (Node.inField? "parameters" children).or (Node.inField? "parameter" children) with
  | none => []
  | some n =>
    if isBareParameter n then [n.text source]
    else n.namedChildren.filterMap (parameterName? source)

/-- The name an argument with the given children is passed under: the name of a
name marker, else the name field, else an identifier before a colon. -/
def argumentName? (source : String) (children : List Node) : Option String :=
  match children.find? (·.kind == "name_colon") with
  | some marker => (firstIdentifier? marker.children).map (·.text source)
  | none =>
    match Node.inField? "name" children with
    | some n => some (n.text source)
    | none =>
      match children with
      | first :: colon :: _ :: _ =>
        if isIdentifier first && colon.kind == ":" then some (first.text source) else none
      | _ => none

/-- Whether a child of an argument may be its value. -/
def isArgumentValue (n : Node) : Bool := n.named && n.kind != "name_colon"

/-- The operator of a unary expression with the given children: the first that
is punctuation. -/
def unaryOperator (source : String) (children : List Node) : String :=
  match children.find? fun n => !n.named with
  | some n => n.text source
  | none => ""

mutual

def expr (source : String) : Node → Expr
  | ⟨t, cs⟩ =>
    let s := t.span
    let lowered : Option Expr :=
      match t.meaning with
      | .identifier => some (.identifier (t.text source) s)
      | .genericName => some (.identifier (simpleName source ⟨t, cs⟩) s)
      | .memberAccess =>
        match first source (·.isIn "expression") cs, Node.inField? "name" cs with
        | some receiver, some name => some (.member receiver (simpleName source name) s)
        | _, _ => none
      | .cast =>
        match Node.inField? "type" cs, first source (·.isIn "value") cs with
        | some type, some operand => some (.cast (type.text source) operand s)
        | _, _ => none
      | .parenthesized => (first source (·.named) cs).map fun inner => .paren inner s
      | .lambda =>
        ((first source (·.isIn "body") cs).or (last source (·.named) cs)).map fun body =>
          .lambda (parameterNames source cs) body s
      | .invocation =>
        (first source (·.isIn "function") cs).map fun callee => .call callee (listed source cs) s
      | .binary =>
        match Node.inField? "operator" cs, first source (·.isIn "left") cs,
          first source (·.isIn "right") cs with
        | some operator, some left, some right =>
          some (.binary (operator.text source) left right s)
        | _, _, _ => none
      | .typeTest keyword =>
        ((first source (·.isIn "left") cs).or (first source (·.named) cs)).map fun left =>
          .binary keyword left (.other "type") s
      | .unary =>
        (first source (·.named) cs).map fun operand =>
          .unary (unaryOperator source cs) operand s
      | .await => (first source (·.named) cs).map fun operand => .unary "await" operand s
      | .conditional => some (.conditional s)
      | .elementAccess =>
        (first source (·.isIn "expression") cs).map fun receiver => .element receiver s
      | .block => some (.block s)
      | .literal => some (.literal (t.text source) s)
      | .memberBinding | .conditionalAccess | .other => none
    lowered.getD (.other t.kind s)

/-- The expression of the first node that satisfies `p`. -/
def first (source : String) (p : Node → Bool) : List Node → Option Expr
  | [] => none
  | n :: ns => if p n then some (expr source n) else first source p ns

/-- The expression of the last node that satisfies `p`. -/
def last (source : String) (p : Node → Bool) : List Node → Option Expr
  | [] => none
  | n :: ns =>
    match last source p ns with
    | some e => some e
    | none => if p n then some (expr source n) else none

/-- The arguments in the first argument list among an invocation's children. -/
def listed (source : String) : List Node → List Argument
  | [] => []
  | ⟨t, cs⟩ :: ns =>
    if t.isIn "arguments" then arguments source 0 cs else listed source ns

/-- The arguments among the members of an argument list, with positions counted
from `position`. A member without a value has a position but is left out. -/
def arguments (source : String) (position : Nat) : List Node → List Argument
  | [] => []
  | ⟨t, cs⟩ :: ns =>
    if t.named && t.kind == "argument" then
      match last source isArgumentValue cs with
      | some value =>
        { name := argumentName? source cs, position, value } ::
          arguments source (position + 1) ns
      | none => arguments source (position + 1) ns
    else arguments source position ns

end

end Lowering

end SelectorCheck
