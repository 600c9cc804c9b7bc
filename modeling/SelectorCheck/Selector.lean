import SelectorCheck.Binding

/-
  Selectors: the lambdas that must denote a member path.

  A selector is usable if its one parameter is followed by member accesses
  only, with at most one cast around the whole chain, and if there are not more
  accesses than allowed. Parentheses never matter. A rejection carries the
  reason and the expression that broke the pattern: the first one met on the way
  from the body to the parameter, or the whole chain if it is merely too long.
-/

namespace SelectorCheck

/-- A lambda passed for a selector parameter, with the argument it is written
in, parentheses included. -/
structure Selector where
  argument : Expr
  lambda : Lambda

namespace BoundCall

/-- The selector of a bound call, if the argument for the selector parameter is
a lambda. Other values cannot be inspected. -/
def selector? (b : BoundCall) : Option Selector :=
  match b.argument? b.method.selector with
  | none => none
  | some a => a.value.lambda?.map fun lambda => ⟨a.value, lambda⟩

/-- The log of `selector?`: a line if the argument is not a lambda. -/
def selectorEvents (b : BoundCall) : List Event :=
  match b.argument? b.method.selector with
  | none => []
  | some a =>
    match a.value.lambda? with
    | some _ => []
    | none =>
      [⟨.trace,
        s!"{b.call.callee}: {b.method.selector} is a {a.value.bare.shape}, not a lambda"⟩]

end BoundCall

/-- A parameter and the members read from it, outward. -/
structure MemberPath where
  parameter : String
  members : List String
deriving DecidableEq

namespace MemberPath

def depth (p : MemberPath) : Nat := p.members.length

def text (p : MemberPath) : String :=
  p.members.foldl (fun s m => s ++ "." ++ m) p.parameter

end MemberPath

inductive Reason where
  /-- The lambda has not exactly one parameter. -/
  | parameterCount (count : Nat)
  | call
  | operator
  | conditional
  | elementAccess
  /-- A cast anywhere but around the whole chain. -/
  | misplacedCast
  /-- The chain ends at something other than the parameter. -/
  | notRootedAtParameter
  | chainTooDeep (depth max : Nat)
  | block
  /-- Any other shape, under its name. -/
  | unsupported (what : String)
deriving DecidableEq

/-- The words for a reason, to stand after "because". -/
def Reason.text : Reason → String
  | parameterCount n => s!"the lambda takes {n} parameters instead of one"
  | call => "it contains a method call"
  | operator => "it contains an operator"
  | conditional => "it contains a conditional expression"
  | elementAccess => "it contains an indexer"
  | misplacedCast => "a cast is only allowed around the whole member access"
  | notRootedAtParameter => "the member access does not start at the lambda parameter"
  | chainTooDeep depth max => s!"it accesses {depth} members in a row, at most {max} allowed"
  | block => "the lambda has a statement body"
  | unsupported what => s!"it contains an unsupported {what}"

/-- A rejected selector: the reason, and the expression that broke the pattern. -/
structure Rejection where
  reason : Reason
  offending : Expr

inductive Verdict where
  /-- A member path. -/
  | simpleChain (path : MemberPath)
  /-- One cast around a member path. -/
  | castChain (type : String) (path : MemberPath)
  | invalid (rejection : Rejection)

def Verdict.isValid : Verdict → Bool
  | invalid _ => false
  | _ => true

/-- Number of member accesses allowed unless a rule says otherwise. -/
def defaultMaxDepth : Nat := 1

namespace Selector

/-- The members read on the way from an expression to the parameter, listed
from the parameter outward. -/
def members (parameter : String) : Expr → Except Rejection (List String)
  | .paren inner _ => members parameter inner
  | .member receiver m _ =>
    match members parameter receiver with
    | .ok ms => .ok (ms ++ [m])
    | .error r => .error r
  | .identifier name s =>
    if name = parameter then .ok []
    else .error ⟨.notRootedAtParameter, .identifier name s⟩
  | .literal t s => .error ⟨.notRootedAtParameter, .literal t s⟩
  | .cast t e s => .error ⟨.misplacedCast, .cast t e s⟩
  | .call f as s => .error ⟨.call, .call f as s⟩
  | .binary o l r s => .error ⟨.operator, .binary o l r s⟩
  | .unary o e s => .error ⟨.operator, .unary o e s⟩
  | .conditional s => .error ⟨.conditional, .conditional s⟩
  | .element r s => .error ⟨.elementAccess, .element r s⟩
  | .block s => .error ⟨.block, .block s⟩
  | .lambda ps b s =>
    .error ⟨.unsupported (Expr.lambda ps b s).shape, .lambda ps b s⟩
  | .other k s => .error ⟨.unsupported (Expr.other k s).shape, .other k s⟩

/-- The type of the cast around a body, if there is one, and the expression
inside it. -/
def splitCast (body : Expr) : Option String × Expr :=
  match body.bare with
  | .cast target operand _ => (some target, operand.bare)
  | e => (none, e)

/-- Decides whether a selector is usable with at most `max` member accesses. -/
def classify (s : Selector) (max : Nat) : Verdict :=
  match s.lambda.parameters with
  | [parameter] =>
    let (castType, chain) := splitCast s.lambda.body
    match members parameter chain with
    | .error rejection => .invalid rejection
    | .ok ms =>
      if max < ms.length then .invalid ⟨.chainTooDeep ms.length max, chain⟩
      else
        match castType with
        | some type => .castChain type ⟨parameter, ms⟩
        | none => .simpleChain ⟨parameter, ms⟩
  | parameters => .invalid ⟨.parameterCount parameters.length, s.argument⟩

end Selector

end SelectorCheck
