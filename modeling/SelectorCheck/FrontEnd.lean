import SelectorCheck.Call
import SelectorCheck.Event
import SelectorCheck.Method

/-
  Front ends: readers of source languages.

  A front end says which file extensions it handles and reads the calls out of
  a text. It sees the method table, because only calls of watched names matter
  and because declaring types tell ordinary calls from extension calls.
-/

namespace SelectorCheck

/-- Why a text cannot be read. -/
inductive ReadError where
  /-- The grammar of the language is not available. -/
  | grammar (language message : String)
  /-- The text has no syntax tree. -/
  | source (language : String)
deriving DecidableEq

def ReadError.message : ReadError → String
  | grammar language message => s!"failed to load {language} grammar: {message}"
  | source language => s!"failed to parse {language} source"

/-- A reader of one source language. -/
structure FrontEnd where
  language : String
  /-- Extensions, with or without leading dots. -/
  extensions : List String
  /-- The calls of a text to watched names, in source order. -/
  read : MethodTable → String → Except ReadError (List Call)
  /-- The log of `read`. -/
  readEvents : MethodTable → String → List Event := fun _ _ => []

def dropDots (extension : String) : String :=
  String.ofList (extension.toList.dropWhile (· == '.'))

/-- Whether the front end handles an extension, given without its dot. -/
def FrontEnd.handles (f : FrontEnd) (extension : String) : Bool :=
  f.extensions.any (dropDots · == extension)

end SelectorCheck
