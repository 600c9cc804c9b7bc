/-
  Values of TOML, without the values of floats.
-/

namespace SelectorCheck.Toml

inductive Value where
  | string (text : String)
  | integer (n : Int)
  | float
  | boolean (b : Bool)
  /-- A date, a time or both, in canonical text. -/
  | dateTime (text : String)
  | array (items : List Value)
  /-- Keys are distinct. -/
  | table (entries : List (String × Value))
deriving Inhabited

end SelectorCheck.Toml
