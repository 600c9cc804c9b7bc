/-
  Regions of source text.

  A span is what a front end reports about a piece of syntax: where it starts,
  in bytes and as line and column, and how many bytes it takes. The numbers are
  machine words and come from outside, so nothing is assumed about them: the
  byte after a span is computed with wrap-around.
-/

namespace SelectorCheck

/-- A region of source text. Lines and columns count from one; the span of
syntax that stands nowhere is all zeros. -/
structure Span where
  /-- Byte position of the first character. -/
  offset : UInt64 := 0
  /-- Length in bytes. -/
  length : UInt64 := 0
  line : UInt64 := 0
  column : UInt64 := 0
deriving DecidableEq, Inhabited

/-- The byte position after the span, modulo the word size. -/
def Span.stop (s : Span) : UInt64 := s.offset + s.length

end SelectorCheck
