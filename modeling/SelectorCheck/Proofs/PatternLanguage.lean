import SelectorCheck.Glob

/-
  The language of path patterns.

  A pattern matches a text if the text can be cut into pieces, one for each token, such
  that every token takes its piece. What a token takes may depend on what is left after
  it: `**` takes nothing, or everything up to a slash, or all there is. `Takes` says so
  for one token and `Take` for a list of them, from left to right. The matcher goes from
  right to left and moves marks instead of cutting; the theorems say that it finds a cut
  whenever there is one.

  What is proved:
    1. One lemma for each way of moving marks (`Marks.one` to `Marks.either`).
    2. `matchTokens_iff`: the matcher decides the language.
    3. `tokensFrom_ordinary`, `reverse_prefix_of_tokensFrom`: how a pattern text with
       ordinary characters is read.
-/

namespace SelectorCheck

/-! ## Marks -/

namespace Text.Marked
variable {α : Type}

/-- Of the rests of a text, exactly those with the property are marked. -/
inductive Marks (P : List α → Prop) : Marked α → List α → Prop
  | done {m : Bool} : (m = true ↔ P []) → Marks P (.done m) []
  | more {m : Bool} {x : α} {rest : Marked α} {xs : List α} :
      (m = true ↔ P (x :: xs)) → Marks P rest xs → Marks P (.more m x rest) (x :: xs)

theorem marks_atEnd (text : List α) : Marks (· = []) (atEnd text) text := by
  induction text with
  | nil => exact .done (by simp)
  | cons x xs ih => exact .more (by simp) ih

namespace Marks
variable {P Q : List α → Prop} {m n : Marked α} {text : List α}

theorem mark_iff (h : Marks P m text) : m.mark = true ↔ P text := by
  cases h with
  | done hm => exact hm
  | more hm _ => exact hm

theorem congr (h : Marks P m text) (hPQ : ∀ rest, P rest ↔ Q rest) : Marks Q m text := by
  induction h with
  | done hm => exact .done (hm.trans (hPQ _))
  | more hm _ ih => exact .more (hm.trans (hPQ _)) ih

theorem one (p : α → Bool) (h : Marks P m text) :
    Marks (fun s => ∃ x rest, s = x :: rest ∧ p x = true ∧ P rest) (m.one p) text := by
  induction h with
  | done _ => exact .done (by simp)
  | @more _ x _ xs _ hrest ih =>
    refine .more ?_ ih
    rw [Bool.and_eq_true, hrest.mark_iff]
    constructor
    · intro h
      exact ⟨x, xs, rfl, h⟩
    · intro h
      obtain ⟨_, _, hsplit, h⟩ := h
      obtain ⟨rfl, rfl⟩ := List.cons.inj hsplit
      exact h

theorem skip (p : α → Bool) (h : Marks P m text) :
    Marks (fun s => ∃ w rest, s = w ++ rest ∧ (∀ x ∈ w, p x = true) ∧ P rest) (m.skip p) text := by
  induction h with
  | done hm =>
    refine .done (hm.trans ?_)
    constructor
    · intro h
      exact ⟨[], [], rfl, by simp, h⟩
    · intro h
      obtain ⟨w, rest, hsplit, _, h⟩ := h
      obtain ⟨_, rfl⟩ := List.append_eq_nil_iff.mp hsplit.symm
      exact h
  | @more m x _ xs hm _ ih =>
    refine .more ?_ ih
    rw [Bool.or_eq_true, Bool.and_eq_true, hm, ih.mark_iff]
    -- nothing is skipped, or the first element and then what is skipped after it
    constructor
    · intro h
      rcases h with h | ⟨hx, w, rest, rfl, hw, h⟩
      · exact ⟨[], x :: xs, rfl, by simp, h⟩
      · exact ⟨x :: w, rest, rfl, by simpa [hx] using hw, h⟩
    · intro h
      obtain ⟨w, rest, hsplit, hw, h⟩ := h
      cases w with
      | nil => exact .inl (hsplit ▸ h)
      | cons y w =>
        obtain ⟨rfl, rfl⟩ := List.cons.inj hsplit
        exact .inr ⟨hw _ List.mem_cons_self, w, rest, rfl,
          fun z hz => hw z (List.mem_cons_of_mem _ hz), h⟩

theorem past (p : α → Bool) (h : Marks P m text) :
    Marks (fun s => ∃ w x rest, s = w ++ x :: rest ∧ p x = true ∧ P rest) (m.past p) text := by
  induction h with
  | done _ => exact .done (by simp)
  | @more m x _ xs _ hrest ih =>
    refine .more ?_ ih
    rw [Bool.or_eq_true, Bool.and_eq_true, hrest.mark_iff, ih.mark_iff]
    constructor
    · intro h
      rcases h with ⟨hx, h⟩ | ⟨w, y, rest, rfl, hy, h⟩
      · exact ⟨[], x, xs, rfl, hx, h⟩
      · exact ⟨x :: w, y, rest, rfl, hy, h⟩
    · intro h
      obtain ⟨w, y, rest, hsplit, hy, h⟩ := h
      cases w with
      | nil =>
        obtain ⟨rfl, rfl⟩ := List.cons.inj hsplit
        exact .inl ⟨hy, h⟩
      | cons z w =>
        obtain ⟨rfl, rfl⟩ := List.cons.inj hsplit
        exact .inr ⟨w, y, rest, rfl, hy, h⟩

theorem toEnd (h : Marks P m text) : Marks (fun _ => P []) m.toEnd text := by
  induction h with
  | done hm => exact .done hm
  | more _ _ ih => exact .more ih.mark_iff ih

theorem either (hm : Marks P m text) (hn : Marks Q n text) :
    Marks (fun s => P s ∨ Q s) (m.either n) text := by
  induction hm generalizing n with
  | done hm => exact .done (by simp [hm, hn.mark_iff])
  | more hm _ ih =>
    cases hn with
    | more hn hrest => exact .more (by simp [hm, hn]) (ih hrest)

end Marks

end Text.Marked

/-! ## Cutting a text among tokens -/

namespace Glob

/-- The token may take a piece of a text and leave the rest. -/
def Token.Takes : Token → List Char → List Char → Prop
  | anySequence, _, _ => True
  | anyRecursive, taken, rest => taken = [] ∨ (∃ before, taken = before ++ ['/']) ∨ rest = []
  | t, taken, _ => ∃ c, taken = [c] ∧ t.accepts c = true

/-- The tokens take a piece of a text, each a piece of its own, and leave the rest. -/
def Take : List Token → List Char → List Char → Prop
  | [], taken, _ => taken = []
  | t :: ts, taken, rest =>
    ∃ first others, taken = first ++ others ∧ t.Takes first (others ++ rest) ∧ Take ts others rest

theorem take_append {ts us : List Token} {taken rest : List Char} :
    Take (ts ++ us) taken rest ↔
      ∃ left right, taken = left ++ right ∧ Take ts left (right ++ rest) ∧ Take us right rest := by
  induction ts generalizing taken with
  | nil =>
    constructor
    · intro h
      exact ⟨[], taken, rfl, rfl, h⟩
    · intro h
      obtain ⟨_, _, rfl, rfl, h⟩ := h
      exact h
  | cons t ts ih =>
    simp only [List.cons_append, Take, ih]
    constructor
    · intro h
      obtain ⟨first, _, rfl, hfirst, left, right, rfl, hleft, hright⟩ := h
      rw [List.append_assoc] at hfirst
      exact ⟨first ++ left, right, by simp, ⟨first, left, rfl, hfirst, hleft⟩, hright⟩
    · intro h
      obtain ⟨_, right, rfl, ⟨first, left, rfl, hfirst, hleft⟩, hright⟩ := h
      rw [← List.append_assoc] at hfirst
      exact ⟨first, left ++ right, by simp, hfirst, left, right, rfl, hleft, hright⟩

theorem take_chars {cs : List Char} {taken rest : List Char} :
    Take (cs.map .char) taken rest ↔ taken = cs := by
  induction cs generalizing taken with
  | nil => simp [Take]
  | cons c cs ih => simp [Take, Token.Takes, Token.accepts, ih]

theorem marks_reach (t : Token) {P : List Char → Prop} {m : Text.Marked Char} {text : List Char}
    (h : m.Marks P text) :
    (t.reach m).Marks
      (fun s => ∃ taken rest, s = taken ++ rest ∧ t.Takes taken rest ∧ P rest) text := by
  cases t with
  | anySequence =>
    refine (h.skip fun _ => true).congr fun s => ?_
    simp [Token.Takes]
  | anyRecursive =>
    refine ((h.either (h.past (· == '/'))).either h.toEnd).congr fun s => ?_
    simp only [Token.Takes, beq_iff_eq]
    constructor
    · intro hs
      rcases hs with (hs | ⟨w, _, rest, rfl, rfl, hs⟩) | hs
      · exact ⟨[], s, rfl, .inl rfl, hs⟩
      · exact ⟨w ++ ['/'], rest, by simp, .inr (.inl ⟨w, rfl⟩), hs⟩
      · exact ⟨s, [], by simp, .inr (.inr rfl), hs⟩
    · intro hs
      obtain ⟨_, rest, rfl, rfl | ⟨w, rfl⟩ | rfl, hs⟩ := hs
      · exact .inl (.inl hs)
      · exact .inl (.inr ⟨w, '/', rest, by simp, rfl, hs⟩)
      · exact .inr hs
  | char _ | anyChar | within _ | except _ =>
    refine (h.one _).congr fun s => ?_
    simp only [Token.Takes]
    constructor
    · intro hs
      obtain ⟨c, rest, rfl, hc, hs⟩ := hs
      exact ⟨[c], rest, rfl, ⟨c, rfl, hc⟩, hs⟩
    · intro hs
      obtain ⟨_, rest, rfl, ⟨c, rfl, hc⟩, hs⟩ := hs
      exact ⟨c, rest, rfl, hc, hs⟩

theorem matchTokens_iff {tokens : List Token} {text : List Char} :
    matchTokens tokens text = true ↔ Take tokens text [] := by
  have hmarks : (tokens.foldr Token.reach (.atEnd text)).Marks (Take tokens · []) text := by
    induction tokens with
    | nil => exact Text.Marked.marks_atEnd text
    | cons t ts ih => exact (marks_reach t ih).congr fun s => by simp [Take]
  exact hmarks.mark_iff

/-! ## Reading a pattern -/

/-- A character that stands for itself in a pattern. -/
def isOrdinary (c : Char) : Bool := c != '?' && c != '*' && c != '['

theorem tokenAt_ordinary {c : Char} (h : isOrdinary c = true) (position : Nat)
    (before : Option Char) (after : List Char) :
    tokenAt position before c after = .ok (.char c, 1) := by
  simp [isOrdinary] at h
  simp [tokenAt, h]

theorem tokensFrom_ordinary {cs : List Char} (h : ∀ c ∈ cs, isOrdinary c = true)
    (rest : List Char) (position : Nat) (before : Option Char) (tokens : List Token) :
    ∃ position' before', tokensFrom 0 position before tokens (cs ++ rest) =
      tokensFrom 0 position' before' ((cs.map Token.char).reverse ++ tokens) rest := by
  induction cs generalizing position before tokens with
  | nil => exact ⟨position, before, rfl⟩
  | cons c cs ih =>
    have hc := tokenAt_ordinary (h c List.mem_cons_self) position before (cs ++ rest)
    have ih := ih (fun x hx => h x (List.mem_cons_of_mem c hx)) (position + 1) (some c)
      (.char c :: tokens)
    simpa [tokensFrom, hc, push] using ih

theorem eq_of_tokensFrom_ordinary {cs : List Char} (h : ∀ c ∈ cs, isOrdinary c = true)
    {position : Nat} {before : Option Char} {tokens out : List Token}
    (hread : tokensFrom 0 position before tokens cs = .ok out) :
    out = tokens.reverse ++ cs.map Token.char := by
  obtain ⟨_, _, heq⟩ := tokensFrom_ordinary h [] position before tokens
  rw [List.append_nil] at heq
  rw [heq, tokensFrom] at hread
  simpa using (Except.ok.inj hread).symm

theorem reverse_prefix_of_tokensFrom {cs : List Char} {skip position : Nat}
    {before : Option Char} {tokens out : List Token}
    (h : tokensFrom skip position before tokens cs = .ok out) : tokens.reverse <+: out := by
  induction cs generalizing skip position before tokens with
  | nil =>
    obtain rfl := Except.ok.inj h
    exact List.prefix_refl _
  | cons c cs ih =>
    cases skip with
    | succ skip => exact ih h
    | zero =>
      simp only [tokensFrom] at h
      split at h
      · cases h
      next t length _ =>
        refine List.IsPrefix.trans ?_ (ih h)
        unfold push
        split
        · exact List.prefix_refl _
        · simp

theorem tokensFrom_recursive (rest : List Char) :
    tokensFrom 0 0 none [] ('*' :: '*' :: '/' :: rest) =
      tokensFrom 0 3 (some '/') [.anyRecursive] rest := rfl

theorem tokensFrom_sequence {rest : List Char} (h : rest.head? ≠ some '*') (position : Nat)
    (before : Option Char) (tokens : List Token) :
    tokensFrom 0 position before tokens ('*' :: rest) =
      tokensFrom 0 (position + 1) (some '*') (.anySequence :: tokens) rest := by
  have htoken : tokenAt position before '*' rest = .ok (.anySequence, 1) := by
    unfold tokenAt
    cases rest with
    | nil => rfl
    | cons c rest =>
      have hc : c ≠ '*' := by simpa using h
      split <;> simp_all
  simp [tokensFrom, htoken, push]

theorem tokensFrom_of_parse {pattern : String} {g : Glob} (h : parse pattern = .ok g) :
    tokensFrom 0 0 none [] pattern.toList = .ok g.tokens := by
  unfold parse at h
  split at h
  next tokens htokens =>
    obtain rfl := Except.ok.inj h
    exact htokens
  next => cases h

theorem exists_pattern_of_mem {patterns : List String} {gs : List Glob}
    (h : parseAll patterns = .ok gs) {g : Glob} (hg : g ∈ gs) :
    ∃ pattern ∈ patterns, parse pattern = .ok g := by
  induction patterns generalizing gs with
  | nil =>
    obtain rfl := Except.ok.inj h
    cases hg
  | cons pattern patterns ih =>
    unfold parseAll at h
    split at h
    · cases h
    next first hfirst =>
      split at h
      · cases h
      next others hothers =>
        obtain rfl := Except.ok.inj h
        rcases List.mem_cons.mp hg with rfl | hg
        · exact ⟨pattern, List.mem_cons_self, hfirst⟩
        · obtain ⟨pattern, hmem, hparse⟩ := ih hothers hg
          exact ⟨pattern, List.mem_cons_of_mem _ hmem, hparse⟩

end Glob

end SelectorCheck
