import SelectorCheck.Span

/-
  Expressions as the checker sees them.

  An expression keeps its shape and the span of every node. Shapes that no rule
  looks into keep only their name. Parentheses are kept as nodes, because they
  have spans of their own, and every reader looks through them with `bare`.
-/

namespace SelectorCheck

/-- One argument of a call: the name it is passed under, if any, its place in
the written list, and its value. -/
structure Arg (α : Type) where
  name : Option String := none
  position : Nat
  value : α
deriving Inhabited

/-- An expression with the span of each node. -/
inductive Expr where
  /-- A bare name. -/
  | identifier (name : String) (span : Span := {})
  /-- `receiver.member`. -/
  | member (receiver : Expr) (member : String) (span : Span := {})
  /-- `(target)operand`. -/
  | cast (target : String) (operand : Expr) (span : Span := {})
  /-- `(inner)`. -/
  | paren (inner : Expr) (span : Span := {})
  /-- `parameters => body`. -/
  | lambda (parameters : List String) (body : Expr) (span : Span := {})
  /-- `callee(arguments)`. -/
  | call (callee : Expr) (arguments : List (Arg Expr)) (span : Span := {})
  /-- `left operator right`. -/
  | binary (operator : String) (left right : Expr) (span : Span := {})
  /-- `operator operand`, or the operand first. -/
  | unary (operator : String) (operand : Expr) (span : Span := {})
  /-- A choice between two values. -/
  | conditional (span : Span := {})
  /-- `receiver[...]`. -/
  | element (receiver : Expr) (span : Span := {})
  /-- A literal as written. -/
  | literal (text : String) (span : Span := {})
  /-- A statement block. -/
  | block (span : Span := {})
  /-- Anything else, under the name its front end gives it. -/
  | other (kind : String) (span : Span := {})
deriving Inhabited

abbrev Argument := Arg Expr

structure Lambda where
  parameters : List String
  body : Expr

namespace Expr

def span : Expr → Span
  | identifier _ s | member _ _ s | cast _ _ s | paren _ s | lambda _ _ s | call _ _ s
  | binary _ _ _ s | unary _ _ s | conditional s | element _ s | literal _ s | block s
  | other _ s => s

/-- The same expression with the span of its outermost node replaced. -/
def withSpan (s : Span) : Expr → Expr
  | identifier n _ => identifier n s
  | member r m _ => member r m s
  | cast t e _ => cast t e s
  | paren e _ => paren e s
  | lambda ps b _ => lambda ps b s
  | call f as _ => call f as s
  | binary o l r _ => binary o l r s
  | unary o e _ => unary o e s
  | conditional _ => conditional s
  | element r _ => element r s
  | literal t _ => literal t s
  | block _ => block s
  | other k _ => other k s

/-- What a reader calls the outermost node. -/
def shape : Expr → String
  | identifier .. => "identifier"
  | member .. => "member access"
  | cast .. => "cast"
  | paren .. => "parenthesized expression"
  | lambda .. => "lambda"
  | call .. => "method call"
  | binary .. => "binary operator"
  | unary .. => "unary operator"
  | conditional .. => "conditional expression"
  | element .. => "indexer"
  | literal .. => "literal"
  | block .. => "statement block"
  | other kind _ => kind

/-- The expression inside any number of enclosing parentheses. -/
def bare : Expr → Expr
  | paren inner _ => inner.bare
  | e => e

/-- The lambda inside any number of enclosing parentheses. -/
def lambda? (e : Expr) : Option Lambda :=
  match e.bare with
  | lambda parameters body _ => some { parameters, body }
  | _ => none

/-- Unnamed arguments in order, with positions counted from `start`. -/
def positional (start : Nat) : List Expr → List Argument
  | [] => []
  | e :: es => { position := start, value := e } :: positional (start + 1) es

/-- The call of a named function with unnamed arguments. -/
def apply (function : String) (arguments : List Expr) : Expr :=
  call (identifier function) (positional 0 arguments)

end Expr

end SelectorCheck
