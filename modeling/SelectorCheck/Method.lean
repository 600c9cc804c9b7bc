import SelectorCheck.Text.Blank
import SelectorCheck.Text.Pieces

/-
  Watched methods: the configuration methods whose selector argument is
  inspected.

  A method names the parameters that follow its receiver and says which of them
  takes the selector. A definition is consistent if it allows a calling form,
  declares its selector parameter and repeats no parameter name; `problem?`
  gives the first inconsistency.
-/

namespace SelectorCheck

/-- The name of the method with a selector alone. -/
def ignoreName : String := "Ignore"

/-- The name of the method with a relation and a selector. -/
def linkAndIgnoreName : String := "LinkAndIgnore"

/-- The type that declares the standard methods. -/
def standardType : String := "TransformationMapExtensions"

/-- A configuration method whose selector argument is inspected. -/
structure Method where
  name : String
  declaringType : String := standardType
  /-- Name of the parameter that takes the receiver in ordinary form. -/
  receiver : String := "transformationMap"
  /-- Parameters after the receiver. -/
  parameters : List String
  /-- The parameter that takes the selector. -/
  selector : String := "selector"
  /-- Whether the method may be called in ordinary form. -/
  ordinary : Bool := true
  /-- Whether the method may be called in extension form. -/
  extension : Bool := true
deriving DecidableEq

/-- The last segment of a type name, after namespaces and alias qualifiers, and
without blanks around it. -/
def lastSegment (type : String) : String :=
  String.ofList (Text.trimChars (Text.afterLast (fun c => c == '.' || c == ':') type.toList))

/-- The first name that already occurs in `seen` or earlier in the list. -/
def firstRepeated (seen : List String) : List String → Option String
  | [] => none
  | p :: ps => if p ∈ seen then some p else firstRepeated (p :: seen) ps

namespace Method

/-- Whether a type name, qualified or not, names the declaring type. -/
def isDeclaredBy (m : Method) (type : String) : Bool :=
  lastSegment type == lastSegment m.declaringType

/-- Why a definition is inconsistent. -/
inductive Problem where
  | noForm
  | selectorUndeclared
  | repeated (parameter : String)
deriving DecidableEq

/-- The first inconsistency of a definition. -/
def problem? (m : Method) : Option Problem :=
  if !m.ordinary && !m.extension then some .noForm
  else if m.selector ∉ m.parameters then some .selectorUndeclared
  else (firstRepeated [] (m.receiver :: m.parameters)).map .repeated

def Problem.message (m : Method) : Problem → String
  | .noForm => s!"method '{m.name}' allows no calling form"
  | .selectorUndeclared =>
    s!"method '{m.name}': selector parameter '{m.selector}' is not declared"
  | .repeated p => s!"method '{m.name}': duplicate parameter '{p}'"

end Method

/-- The watched methods, in the order in which they are tried. -/
structure MethodTable where
  methods : List Method
deriving DecidableEq

namespace MethodTable

def standard : MethodTable :=
  ⟨[{ name := ignoreName, parameters := ["selector"] },
    { name := linkAndIgnoreName, parameters := ["relation", "selector"] }]⟩

/-- The table with more methods after its own. -/
def extend (t : MethodTable) (more : List Method) : MethodTable :=
  ⟨t.methods ++ more⟩

def candidates (t : MethodTable) (name : String) : List Method :=
  t.methods.filter (·.name == name)

/-- Whether a type name, qualified or not, declares any entry. -/
def declares (t : MethodTable) (type : String) : Bool :=
  t.methods.any (·.isDeclaredBy type)

end MethodTable

end SelectorCheck
