/-
  Texts with marks on their rests.

  A pattern is matched from its end. First the empty rest of the text is marked;
  then each element of the pattern, from the last to the first, moves the marks to
  the rests from which it leads to a marked one. The pattern matches the text if the
  text itself is marked at last. So one pass over the text for each element is
  enough, whatever the pattern.

    `atEnd`    only the empty rest
    `one`      the rests that one element leads to a marked one
    `skip`     the rests that any number of elements lead to a marked one
    `past`     the rests with an element right before a marked one
    `toEnd`    all the rests, if the empty one is marked
    `either`   the rests that one of two markings marks
-/

namespace SelectorCheck.Text

/-- A text in which every rest is marked or not, from the text itself to the empty
one. -/
inductive Marked (α : Type) where
  | done (mark : Bool)
  | more (mark : Bool) (x : α) (rest : Marked α)
deriving Inhabited

namespace Marked

def mark {α : Type} : Marked α → Bool
  | done m => m
  | more m _ _ => m

/-- The text with only the empty rest marked. -/
def atEnd {α : Type} : List α → Marked α
  | [] => done true
  | x :: xs => more false x (atEnd xs)

/-- Marks the rests whose first element satisfies `p` and stands before a marked
rest. -/
def one {α : Type} (p : α → Bool) : Marked α → Marked α
  | done _ => done false
  | more _ x rest => more (p x && rest.mark) x (one p rest)

/-- Marks the rests from which elements that satisfy `p`, if any, lead to a marked
one. -/
def skip {α : Type} (p : α → Bool) : Marked α → Marked α
  | done m => done m
  | more m x rest =>
    let after := skip p rest
    more (m || (p x && after.mark)) x after

/-- Marks the rests in which some element that satisfies `p` stands before a marked
rest. -/
def past {α : Type} (p : α → Bool) : Marked α → Marked α
  | done _ => done false
  | more _ x rest =>
    let after := past p rest
    more ((p x && rest.mark) || after.mark) x after

/-- Marks all the rests if the empty one is marked, and none otherwise. -/
def toEnd {α : Type} : Marked α → Marked α
  | done m => done m
  | more _ x rest =>
    let after := toEnd rest
    more after.mark x after

/-- Marks what one of two markings of a text marks. -/
def either {α : Type} : Marked α → Marked α → Marked α
  | done m, other => done (m || other.mark)
  | more m x rest, done n => more (m || n) x rest
  | more m x rest, more n _ other => more (m || n) x (either rest other)

def clear {α : Type} : Marked α → Marked α
  | done _ => done false
  | more _ x rest => more false x (clear rest)

end Marked

end SelectorCheck.Text
