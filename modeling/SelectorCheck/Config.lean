import SelectorCheck.Event
import SelectorCheck.Rule
import SelectorCheck.Toml.Value

/-
  Configurations: the failure threshold, where to look for files, extra watched
  methods, and settings of rules.

  Extra methods may only add layouts of the two standard methods, and each must be
  consistent; `problem?` gives the first entry that is not.
-/

namespace SelectorCheck

/-- Where files are looked for. -/
structure SearchSettings where
  root : Path := ⟨"."⟩
  /-- Patterns of files that are left out. -/
  excluded : List String := ["**/bin/**", "**/obj/**"]
  /-- Patterns of the files that are taken: all of them if there is no pattern. -/
  included : List String := []
  /-- Whether `.gitignore` files count. -/
  respectGitignore : Bool := true
  /-- The number of files analyzed at the same time. -/
  parallelism : Option Nat := none
deriving DecidableEq

/-- Settings of one rule. -/
structure RuleSettings where
  enabled : Option Bool := none
  /-- Severity in place of the rule's own. -/
  severity : Option Severity := none
  /-- All other settings. -/
  options : List (String × Toml.Value) := []

/-- The value of an option that is an integer and not negative. -/
def RuleSettings.count? (s : RuleSettings) (option : String) : Option Nat :=
  match s.options.lookup option with
  | some (.integer n) => if 0 ≤ n then some n.toNat else none
  | _ => none

structure Config where
  failOn : Option Severity := none
  search : SearchSettings := {}
  /-- Extra watched methods, after the standard ones. -/
  methods : List Method := []
  /-- Settings by the name of the rule; names are distinct. -/
  rules : List (String × RuleSettings) := []

namespace Config

/-- Why an extra method is refused. -/
inductive MethodProblem where
  | unknownName
  | inconsistent (problem : Method.Problem)
deriving DecidableEq

/-- The words for the refusal of `m`. -/
def MethodProblem.message (m : Method) : MethodProblem → String
  | unknownName =>
    s!"unknown method '{m.name}', expected {ignoreName} or {linkAndIgnoreName}"
  | inconsistent problem => problem.message m

/-- Why an extra method is refused, if it is. -/
def methodProblem? (m : Method) : Option MethodProblem :=
  if m.name ≠ ignoreName ∧ m.name ≠ linkAndIgnoreName then some .unknownName
  else m.problem?.map .inconsistent

/-- The first method that is refused, with its index counted from `index`. -/
def firstProblem? (index : Nat) : List Method → Option (Nat × Method × MethodProblem)
  | [] => none
  | m :: rest =>
    match methodProblem? m with
    | some problem => some (index, m, problem)
    | none => firstProblem? (index + 1) rest

/-- Why a configuration is refused. -/
inductive Error where
  /-- The file cannot be read as text. -/
  | unreadable
  /-- The text is no document, or a setting has the wrong type. -/
  | malformed
  /-- An extra method is refused. -/
  | method (index : Nat) (m : Method) (problem : MethodProblem)
deriving DecidableEq

def Error.message : Error → String
  | unreadable => "Failed to read config file"
  | malformed => "Failed to parse config"
  | method index m problem => s!"Invalid config: methods[{index}]: {problem.message m}"

/-- The reason to refuse the configuration, if there is one. -/
def problem? (c : Config) : Option Error :=
  (firstProblem? 0 c.methods).map fun (index, m, problem) => .method index m problem

/-- The configuration, if nothing is wrong with it. -/
def validate (c : Config) : Except Error Config :=
  match c.problem? with
  | some e => .error e
  | none => .ok c

def settings? (c : Config) (rule : String) : Option RuleSettings := c.rules.lookup rule

/-- Whether a rule is enabled. It is unless its settings say otherwise. -/
def isEnabled (c : Config) (rule : String) : Bool :=
  match c.settings? rule with
  | some s => s.enabled.getD true
  | none => true

/-- The severity that a rule's violations have in place of the rule's own. -/
def severity? (c : Config) (rule : String) : Option Severity :=
  (c.settings? rule).bind (·.severity)

/-- The least severity that makes a check fail. -/
def threshold (c : Config) : Severity := c.failOn.getD .error

/-- The watched methods: the standard ones and the extra ones. -/
def methodTable (c : Config) : MethodTable := MethodTable.standard.extend c.methods

/-- The option for the greatest number of members in a selector. -/
def depthOption : String := "max_chain_depth"

def depth? (c : Config) (rule : String) : Option Nat :=
  (c.settings? rule).bind (·.count? depthOption)

/-- A rule with its settings applied. Severity and enablement are applied by the
analysis. -/
def applyTo (c : Config) (r : Rule) : Rule :=
  match c.depth? r.name with
  | some d => { r with maxDepth := d }
  | none => r

/-- The built-in rules with their settings applied. -/
def builtInRules (c : Config) : List Rule := Rule.builtIn.map c.applyTo

def builtInEvents (c : Config) : List Event :=
  Rule.builtIn.filterMap fun r =>
    (c.depth? r.name).map fun d => ⟨.debug, s!"{r.name}: {depthOption} = {d}"⟩

end Config

end SelectorCheck
