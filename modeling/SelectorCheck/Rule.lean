import SelectorCheck.Report
import SelectorCheck.Selector
import SelectorCheck.Text.Slice

/-
  Rules: what is reported for the rejected selectors of one method.

  A rule watches one method and lists the diagnostics that each rejected
  selector raises. The two built-in rules watch the two standard methods;
  `LinkAndIgnore` uses its selector twice, so its rule raises two diagnostics.
-/

namespace SelectorCheck

structure SourceFile where
  path : Path
  content : String
  /-- The path as reported. -/
  relativePath : Path
  /-- The watched methods in effect. -/
  methods : MethodTable

namespace SourceFile

def under (root path : Path) (content : String) (methods : MethodTable := .standard) :
    SourceFile :=
  { path, content, relativePath := path.relativeTo root, methods }

def location (f : SourceFile) (s : Span) : Location := s.location f.relativePath

/-- The text of a span, or no text if the span is not a slice of the content. -/
def snippet (f : SourceFile) (s : Span) : String :=
  Text.slice f.content s.offset.toNat s.stop.toNat

end SourceFile

/-- A diagnostic that a rule raises: its identifier, and what the selector
cannot be used for. -/
structure Descriptor where
  code : String
  concern : String
deriving DecidableEq

def Reason.advice : Reason → String
  | .parameterCount _ => "Pass a lambda with exactly one parameter, e.g. `x => x.Property`"
  | .chainTooDeep _ max =>
    s!"Select at most {max} member(s) of the lambda parameter, e.g. `x => x.Property`"
  | .misplacedCast => "Move the cast outside the member access, e.g. `x => (T)x.Property`"
  | _ => "Use a lambda that only reads a member of its parameter, e.g. `x => x.Property`"

/-- A message that quotes a text, unless there is none to quote. -/
def withQuote (base text : String) : String :=
  if text = "" then base else base ++ " (`" ++ text ++ "`)"

namespace Rejection

/-- The message of one diagnostic, with the offending text if there is any. -/
def message (r : Rejection) (file : SourceFile) (call : Call) (d : Descriptor) : String :=
  withQuote s!"{call.callee} selector cannot be used {d.concern} because {r.reason.text}"
    (file.snippet r.offending.span)

/-- The label at the call, unless the call has no extent. -/
def callLabels (file : SourceFile) (call : Call) : List Label :=
  if call.span.length = 0 then []
  else [{ location := file.location call.span, message := s!"in this call to {call.callee}" }]

/-- One violation for each descriptor, all at the offending expression. -/
def violations (r : Rejection) (file : SourceFile) (rule : String) (severity : Severity)
    (descriptors : List Descriptor) (call : Call) : List Violation :=
  descriptors.map fun d =>
    { code := d.code, rule, severity
      location := file.location r.offending.span
      message := r.message file call d
      suggestion := some r.reason.advice
      labels := callLabels file call }

end Rejection

structure Rule where
  name : String
  /-- Root identifier of the diagnostics. -/
  code : String
  description : String := ""
  severity : Severity := .error
  /-- Name of the method whose selector is inspected. -/
  method : String
  /-- Raised in order for each rejected selector. -/
  diagnostics : List Descriptor
  maxDepth : Nat := defaultMaxDepth
deriving DecidableEq

namespace Rule

/-- The rejection of a call's selector, if the rule watches the call, the call
is bound, its selector is a lambda and that lambda is not usable. -/
def rejection? (r : Rule) (methods : MethodTable) (c : Call) : Option Rejection :=
  if c.callee ≠ r.method then none
  else
    match (methods.bind? c).bind BoundCall.selector? with
    | none => none
    | some selector =>
      match selector.classify r.maxDepth with
      | .invalid rejection => some rejection
      | _ => none

def checkCall (r : Rule) (file : SourceFile) (c : Call) : List Violation :=
  match r.rejection? file.methods c with
  | some rejection => rejection.violations file r.name r.severity r.diagnostics c
  | none => []

/-- The violations of all the calls of a file, in order. -/
def check (r : Rule) (file : SourceFile) (calls : List Call) : List Violation :=
  calls.flatMap (r.checkCall file)

def checkEvents (r : Rule) (file : SourceFile) (c : Call) : List Event :=
  if c.callee ≠ r.method then []
  else
    file.methods.bindEvents c ++
      match file.methods.bind? c with
      | none => []
      | some bound =>
        bound.selectorEvents ++
          match r.rejection? file.methods c with
          | none => []
          | some rejection =>
            [⟨.debug, s!"{r.name}: {c.callee} selector rejected ({rejection.reason.text})"⟩]

/-- Selectors of `LinkAndIgnore`: unusable as a link target and as an ignore
path. -/
def linkAndIgnore : Rule where
  name := "incorrect-link-and-ignore"
  code := "TH1001"
  description := "LinkAndIgnore selectors must be a member access on the lambda parameter"
  method := linkAndIgnoreName
  diagnostics := [⟨"TH1001A", "as a link target"⟩, ⟨"TH1001B", "as an ignore path"⟩]

/-- Selectors of `Ignore`: unusable as an ignore path. -/
def ignoreExpression : Rule where
  name := "incorrect-ignore-expression"
  code := "TH1002"
  description := "Ignore selectors must be a member access on the lambda parameter"
  method := ignoreName
  diagnostics := [⟨"TH1002", "as an ignore path"⟩]

def builtIn : List Rule := [linkAndIgnore, ignoreExpression]

/-- Whether a key names the rule: by name, or by one of its codes in any case. -/
def answersTo (r : Rule) (key : String) : Bool :=
  r.name == key || Text.sameIgnoringCase r.code key
    || r.diagnostics.any (Text.sameIgnoringCase ·.code key)

/-- The first built-in rule that a key names. -/
def find? (key : String) : Option Rule := builtIn.find? (·.answersTo key)

end Rule

end SelectorCheck
