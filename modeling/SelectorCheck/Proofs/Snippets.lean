import Mathlib.Algebra.GroupWithZero.Nat
import SelectorCheck.Proofs.Places

/-
  What the text of a span is.

  Spans come from front ends and nothing is known about their numbers. The text of a span
  is cut out of the content at two byte positions, and the second of them is a sum of two
  machine words. A sum past the word size comes out below the first position, so there is
  no slice then, whatever stands between the two positions.

  What is proved:
    1. `exists_slice?`, `boundaries_of_slice?`: there is a slice between two character
       boundaries in order, with the bytes between them, and nowhere else.
    2. `Span.stop_lt_offset_of_wraps`: an end that wraps around comes before the start.
    3. `snippet_exact`: the text of a span is the selected bytes, or no text.
-/

namespace SelectorCheck

/-! ## Slices -/

namespace Text

/-- Position `n` does not divide a character: the text is a text of `n` bytes and another
text after it. -/
def IsCharBoundary (text : String) (n : Nat) : Prop :=
  ∃ before after, text = before ++ after ∧ before.utf8ByteSize = n

theorem isCharBoundary_iff_isValid {text : String} {n : Nat} :
    IsCharBoundary text n ↔ String.Pos.Raw.IsValid text ⟨n⟩ := by
  rw [String.Pos.Raw.isValid_iff_exists_append]
  simp only [IsCharBoundary, String.Pos.Raw.ext_iff, String.byteIdx_rawEndPos, eq_comm]

instance (text : String) (n : Nat) : Decidable (IsCharBoundary text n) :=
  decidable_of_iff (String.Pos.Raw.isValid text ⟨n⟩ = true)
    (String.Pos.Raw.isValid_eq_true_iff.trans isCharBoundary_iff_isValid.symm)

theorem pos?_eq_some_iff {s : String} {p : String.Pos.Raw} {q : s.Pos} :
    s.pos? p = some q ↔ q.offset = p := by
  by_cases hvalid : p.IsValid s
  · obtain ⟨q', hq', rfl⟩ := pos?_of_isValid hvalid
    rw [hq', Option.some_inj, String.Pos.ext_iff, eq_comm]
  · have hnone : s.pos? p = none := by
      simpa [String.pos?, String.Slice.pos?] using hvalid
    rw [hnone]
    constructor
    · intro h
      cases h
    · rintro rfl
      exact absurd q.isValid hvalid

theorem slice?_eq_some_iff {text part : String} {start stop : Nat} :
    slice? text start stop = some part ↔
      start ≤ stop ∧ ∃ b e : text.Pos, b.offset = ⟨start⟩ ∧ e.offset = ⟨stop⟩ ∧
        text.extract b e = part := by
  unfold slice?
  split
  next hle =>
    constructor
    · intro h
      split at h
      next b e hb he =>
        exact ⟨hle, b, e, pos?_eq_some_iff.mp hb, pos?_eq_some_iff.mp he, Option.some.inj h⟩
      next => cases h
    · rintro ⟨-, b, e, hb, he, rfl⟩
      rw [pos?_eq_some_iff.mpr hb, pos?_eq_some_iff.mpr he]
  next hle =>
    constructor
    · intro h
      cases h
    · intro h
      exact absurd h.1 hle

/-- Between two boundaries in order there is a slice, and it has the bytes between them. -/
theorem exists_slice? {text : String} {start stop : Nat} (hle : start ≤ stop)
    (hstart : IsCharBoundary text start) (hstop : IsCharBoundary text stop) :
    ∃ part, slice? text start stop = some part ∧
      part.toByteArray = text.toByteArray.extract start stop := by
  let b : text.Pos := ⟨⟨start⟩, isCharBoundary_iff_isValid.mp hstart⟩
  let e : text.Pos := ⟨⟨stop⟩, isCharBoundary_iff_isValid.mp hstop⟩
  exact ⟨text.extract b e, slice?_eq_some_iff.mpr ⟨hle, b, e, rfl, rfl, rfl⟩,
    String.toByteArray_extract⟩

theorem boundaries_of_slice? {text part : String} {start stop : Nat}
    (h : slice? text start stop = some part) :
    start ≤ stop ∧ IsCharBoundary text start ∧ IsCharBoundary text stop := by
  obtain ⟨hle, b, e, hb, he, -⟩ := slice?_eq_some_iff.mp h
  refine ⟨hle, isCharBoundary_iff_isValid.mpr ?_, isCharBoundary_iff_isValid.mpr ?_⟩
  · exact hb ▸ b.isValid
  · exact he ▸ e.isValid

theorem IsCharBoundary.le_size {text : String} {n : Nat} (h : IsCharBoundary text n) :
    n ≤ text.utf8ByteSize := by
  obtain ⟨before, after, rfl, rfl⟩ := h
  simp

end Text

/-! ## The end of a span -/

namespace Span

/-- A span is a part of a text: it ends inside the text, its end taken as a number and not
as a word, and it divides no character. -/
structure Selects (s : Span) (text : String) : Prop where
  inside : s.offset.toNat + s.length.toNat ≤ text.utf8ByteSize
  start : Text.IsCharBoundary text s.offset.toNat
  stop : Text.IsCharBoundary text (s.offset.toNat + s.length.toNat)

theorem toNat_stop_of_fits {s : Span} (h : s.offset.toNat + s.length.toNat < 2 ^ 64) :
    s.stop.toNat = s.offset.toNat + s.length.toNat := by
  rw [Span.stop, UInt64.toNat_add]
  exact Nat.mod_eq_of_lt h

/-- A sum past the word size loses more than the length gives. -/
theorem stop_lt_offset_of_wraps {s : Span} (h : 2 ^ 64 ≤ s.offset.toNat + s.length.toNat) :
    s.stop.toNat < s.offset.toNat := by
  have hoffset := s.offset.toNat_lt
  have hlength := s.length.toNat_lt
  rw [Span.stop, UInt64.toNat_add]
  omega

theorem fits_of_offset_le_stop {s : Span} (h : s.offset.toNat ≤ s.stop.toNat) :
    s.offset.toNat + s.length.toNat < 2 ^ 64 := by
  by_contra hwraps
  exact absurd (stop_lt_offset_of_wraps (Nat.not_lt.mp hwraps)) (Nat.not_lt.mpr h)

end Span

/-! ## The text of a span -/

namespace SourceFile

theorem snippet_of_selects {file : SourceFile} (hsize : file.content.utf8ByteSize < 2 ^ 64)
    {s : Span} (h : s.Selects file.content) :
    (file.snippet s).toByteArray =
      file.content.toByteArray.extract s.offset.toNat (s.offset.toNat + s.length.toNat) := by
  have hstop := Span.toNat_stop_of_fits (h.inside.trans_lt hsize)
  obtain ⟨part, hpart, hbytes⟩ := Text.exists_slice? (Nat.le_add_right _ _) h.start h.stop
  rw [snippet, hstop, Text.slice, hpart]
  exact hbytes

/-- Text is found only where the span selects it, in a text of any size. -/
theorem selects_of_snippet {file : SourceFile} {s : Span} (h : file.snippet s ≠ "") :
    s.Selects file.content := by
  obtain ⟨part, hpart⟩ : ∃ part,
      Text.slice? file.content s.offset.toNat s.stop.toNat = some part := by
    rw [← Option.ne_none_iff_exists']
    intro hnone
    exact h (by rw [snippet, Text.slice, hnone, Option.getD_none])
  obtain ⟨hle, hstart, hstop⟩ := Text.boundaries_of_slice? hpart
  rw [Span.toNat_stop_of_fits (Span.fits_of_offset_le_stop hle)] at hstop
  exact ⟨hstop.le_size, hstart, hstop⟩

theorem snippet_in_place {file : SourceFile} (hsize : file.content.utf8ByteSize < 2 ^ 64)
    {s : Span} (h : s.Selects file.content) :
    ∃ before after, file.content = before ++ file.snippet s ++ after ∧
      before.utf8ByteSize = s.offset.toNat ∧
      (file.snippet s).utf8ByteSize = s.length.toNat := by
  have hstop := Span.toNat_stop_of_fits (h.inside.trans_lt hsize)
  obtain ⟨before, after, htext, hbefore, hlength⟩ := Text.slice_of_boundaries
    (Nat.le_add_right _ _) (Text.isCharBoundary_iff_isValid.mp h.start)
    (Text.isCharBoundary_iff_isValid.mp h.stop)
  rw [snippet, hstop]
  refine ⟨before, after, htext, hbefore, ?_⟩
  rw [hlength, Nat.add_sub_cancel_left]

/-- **The text of a span is exactly what the span selects, or no text.** In a text that a
machine can hold, a span that ends inside the text and divides no character has the bytes
from its offset to its offset plus its length. Every other span has no text, also if the sum
of offset and length wraps around. So any text that is returned stands in the content at the
offset of the span and is as long as the span says. -/
theorem snippet_exact (file : SourceFile) (hsize : file.content.utf8ByteSize < 2 ^ 64)
    (s : Span) :
    (s.Selects file.content → (file.snippet s).toByteArray =
      file.content.toByteArray.extract s.offset.toNat (s.offset.toNat + s.length.toNat)) ∧
    (¬ s.Selects file.content → file.snippet s = "") ∧
    (2 ^ 64 ≤ s.offset.toNat + s.length.toNat → file.snippet s = "") ∧
    (file.snippet s ≠ "" →
      ∃ before after, file.content = before ++ file.snippet s ++ after ∧
        before.utf8ByteSize = s.offset.toNat ∧
        (file.snippet s).utf8ByteSize = s.length.toNat) := by
  have hempty : ¬ s.Selects file.content → file.snippet s = "" := by
    intro hnot
    by_contra hsome
    exact hnot (selects_of_snippet hsome)
  refine ⟨snippet_of_selects hsize, hempty, ?_, ?_⟩
  · intro hwraps
    refine hempty fun hselects => ?_
    exact absurd (hselects.inside.trans_lt hsize) (Nat.not_lt.mpr hwraps)
  · intro hsome
    exact snippet_in_place hsize (selects_of_snippet hsome)

/-- A text in which not every position is a boundary: the second character has two bytes. -/
def accentedFile : SourceFile := .under ⟨"/work"⟩ ⟨"/work/a.cs"⟩ "lé.Link"

/-- The name is found, half of a character is no text, and an end that wraps around to the
first boundary gives no text although the text has boundaries at both positions. -/
theorem snippet_exact_accented :
    accentedFile.content.utf8ByteSize < 2 ^ 64 ∧
      accentedFile.snippet { offset := 4, length := 4 } = "Link" ∧
      accentedFile.snippet { offset := 2, length := 2 } = "" ∧
      Text.IsCharBoundary accentedFile.content 4 ∧
      (Span.stop { offset := 4, length := 18446744073709551613 }).toNat = 1 ∧
      Text.IsCharBoundary accentedFile.content 1 ∧
      accentedFile.snippet { offset := 4, length := 18446744073709551613 } = "" := by
  have hsize : accentedFile.content.utf8ByteSize < 2 ^ 64 := by decide +kernel
  have hselects : Span.Selects { offset := 4, length := 4 } accentedFile.content :=
    ⟨by decide +kernel, by decide +kernel, by decide +kernel⟩
  have hdivides : ¬ Span.Selects { offset := 2, length := 2 } accentedFile.content := by
    intro h
    exact absurd h.start (by decide +kernel)
  refine ⟨hsize, ?_, (snippet_exact accentedFile hsize _).2.1 hdivides, by decide +kernel,
    by decide +kernel, by decide +kernel, ?_⟩
  · rw [← String.toByteArray_inj, (snippet_exact accentedFile hsize _).1 hselects]
    decide +kernel
  · exact (snippet_exact accentedFile hsize _).2.2.1 (by decide)

end SourceFile

end SelectorCheck
