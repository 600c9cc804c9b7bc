import SelectorCheck.Config
import SelectorCheck.Toml.Document

/-
  Configurations as TOML documents.

  Settings go by name and unknown names are skipped. The search settings and each
  method may also be written as an array of their settings in order. A severity is
  its word, or a table with the word as its only key and nothing under it. A date
  where a table is wanted stands for a table with its text under `dateKey`. In the
  options of a rule it is the other way round: a table that starts with `dateKey`
  stands for a date, and must hold the text of one and nothing else.
-/

namespace SelectorCheck

namespace Toml.Value

/-- The key under which a date is an entry of its own. -/
def dateKey : String := "$__toml_private_datetime"

def text? : Value → Option String
  | string s => some s
  | _ => none

def flag? : Value → Option Bool
  | boolean b => some b
  | _ => none

def count? : Value → Option Nat
  | integer n => if 0 ≤ n then some n.toNat else none
  | _ => none

def texts? : Value → Option (List String)
  | array items => items.mapM text?
  | _ => none

/-- The value as the entries of a table. -/
def entries? : Value → Option (List (String × Value))
  | table entries => some entries
  | dateTime text => some [(dateKey, .string text)]
  | _ => none

/-- The value as settings with the given names in order. -/
def settings? (names : List String) : Value → Option (List (String × Value))
  | array items => some (names.zip items)
  | v => v.entries?

/-- Whether the value is a table or an array with nothing in it. -/
def isEmpty : Value → Bool
  | table [] => true
  | array [] => true
  | _ => false

def severity? : Value → Option Severity
  | string word => Severity.ofWord? word
  | table [(word, inner)] => if inner.isEmpty then Severity.ofWord? word else none
  | _ => none

/-- The date that the entries of a table stand for, `first` being the value under
`dateKey` and `rest` the entries after it. -/
def date? (first : Value) (rest : List (String × Value)) : Option Value :=
  match first, rest with
  | string text, [] => (Toml.DateTime.ofText? text).map dateTime
  | _, _ => none

mutual

/-- The value as an option of a rule. -/
def option? : Value → Option Value
  | array items => (items? items).map array
  | table [] => some (table [])
  | table ((key, v) :: rest) =>
    if key = dateKey then date? v rest
    else do
      let first ← v.option?
      return table ((key, first) :: (← options? rest))
  | v => some v

/-- The values of an array as options. -/
def items? : List Value → Option (List Value)
  | [] => some []
  | v :: rest => do return (← v.option?) :: (← items? rest)

/-- The entries of a table with their values as options. -/
def options? : List (String × Value) → Option (List (String × Value))
  | [] => some []
  | (key, v) :: rest => do
    let v ← v.option?
    return (key, v) :: (← options? rest)

end

end Toml.Value

namespace Config

open Toml (Value)

/-- The setting under a name as `read` takes it, or `default` if it is missing. -/
def setting (entries : List (String × Value)) (name : String) (default : α)
    (read : Value → Option α) : Option α :=
  match entries.lookup name with
  | none => some default
  | some v => read v

/-- The setting under a name that may not be missing. -/
def required (entries : List (String × Value)) (name : String) (read : Value → Option α) :
    Option α :=
  (entries.lookup name).bind read

def readSearch (v : Value) : Option SearchSettings := do
  let es ← v.settings? ["root", "exclude", "include", "respect_gitignore", "parallelism"]
  let usual : SearchSettings := {}
  return {
    root := ← setting es "root" usual.root fun v => v.text?.map Path.mk
    excluded := ← setting es "exclude" usual.excluded Value.texts?
    included := ← setting es "include" usual.included Value.texts?
    respectGitignore := ← setting es "respect_gitignore" usual.respectGitignore Value.flag?
    parallelism := ← setting es "parallelism" usual.parallelism fun v => v.count?.map some }

def readMethod (v : Value) : Option Method := do
  let es ← v.settings? ["name", "declaring_type", "receiver_parameter", "parameters",
    "selector_parameter", "ordinary", "extension"]
  let usual : Method := { name := "", parameters := [] }
  return {
    name := ← required es "name" Value.text?
    declaringType := ← required es "declaring_type" Value.text?
    receiver := ← setting es "receiver_parameter" usual.receiver Value.text?
    parameters := ← required es "parameters" Value.texts?
    selector := ← setting es "selector_parameter" usual.selector Value.text?
    ordinary := ← setting es "ordinary" usual.ordinary Value.flag?
    extension := ← setting es "extension" usual.extension Value.flag? }

def readMethods : Value → Option (List Method)
  | .array items => items.mapM readMethod
  | _ => none

def readRule (v : Value) : Option RuleSettings := do
  let es ← v.entries?
  return {
    enabled := ← setting es "enabled" none fun v => v.flag?.map some
    severity := ← setting es "severity" none fun v => v.severity?.map some
    options := ← Value.options? (es.filter fun (name, _) => name != "enabled" && name != "severity") }

def readRules (v : Value) : Option (List (String × RuleSettings)) := do
  (← v.entries?).mapM fun (name, v) => do return (name, ← readRule v)

/-- Reads a configuration from the entries of a document. -/
def ofEntries (es : List (String × Value)) : Option Config := do
  return {
    failOn := ← setting es "fail_on" none fun v => v.severity?.map some
    search := ← setting es "analyzer" {} readSearch
    methods := ← setting es "methods" [] readMethods
    rules := ← setting es "rules" [] readRules }

def parse (text : String) : Except Error Config :=
  match (Toml.parse text).bind ofEntries with
  | some c => c.validate
  | none => .error .malformed

/-- The configuration that the bytes of a file write. -/
def ofBytes (bytes : ByteArray) : Except Error Config :=
  match String.fromUTF8? bytes with
  | some text => parse text
  | none => .error .unreadable

end Config

end SelectorCheck
