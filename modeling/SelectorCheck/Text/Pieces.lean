/-
  Cutting a text at separators and putting the pieces together again.

  `pieces` keeps empty pieces, so joining gives the text back.
-/

namespace SelectorCheck.Text

/-- The pieces between the elements that satisfy `sep`, empty ones included.
There is always at least one piece. -/
def piecesOf (sep : α → Bool) : List α → List (List α)
  | [] => [[]]
  | c :: cs =>
    if sep c then [] :: piecesOf sep cs
    else
      match piecesOf sep cs with
      | [] => [[c]]
      | p :: ps => (c :: p) :: ps

/-- The pieces of a text between occurrences of the character `sep`. -/
def pieces (sep : Char) (s : String) : List String :=
  (piecesOf (· == sep) s.toList).map String.ofList

def join (sep : String) : List String → String
  | [] => ""
  | [p] => p
  | p :: q :: ps => p ++ sep ++ join sep (q :: ps)

/-- The characters after the last one that satisfies `sep`: all of them if none
does. -/
def afterLast (sep : Char → Bool) (cs : List Char) : List Char :=
  (cs.reverse.takeWhile (fun c => !sep c)).reverse

/-- What follows `start` in a text that starts with it. -/
def afterStart? (start text : String) : Option String :=
  if start.toList.isPrefixOf text.toList then
    some (String.ofList (text.toList.drop start.length))
  else none

def padEnd (width : Nat) (text : String) : String :=
  text ++ String.ofList (List.replicate (width - text.length) ' ')

end SelectorCheck.Text
