import Mathlib.Data.List.TakeWhile
import SelectorCheck.Analyzer
import SelectorCheck.Proofs.PatternLanguage
import SelectorCheck.Proofs.RelativePaths

/-
  Moving a project to another root.

  A file is looked up in the patterns twice: by its path below the root and by its whole
  path. The path below the root moves with the project, but the whole path holds the root,
  and a pattern that starts with wildcards may find what it asks for there: `**/bin/**`
  takes every file of a project that lies in a directory `bin`. So a move can change which
  files are left out, and the theorems say exactly when it does.

  The tokens of a pattern are its leading wildcards and the rest. What the wildcards take
  they also take with the root before it, and the other way round. So a match of the whole
  path is either a match of the relative path, or a match in which the rest of the pattern
  begins within the root.

  What is proved:
    1. `take_below_iff`, `acceptsBelow_join_iff`: a pattern matches a file below a root if
       it matches the relative path alone, or if it reaches into the root.
    2. `not_reachesInto_of_clearOf`: patterns that cannot reach into a root, by their text.
    3. `relocated_choice_iff`: a move keeps the choice of a file exactly if one pattern
       settles it alone, or if some pattern reaches into both roots or none into either.
    4. `relocated_choice_changed`: two roots between which a choice changes.
-/

namespace SelectorCheck

namespace Glob

/-! ## Leading wildcards -/

def Token.isWild : Token → Bool
  | anySequence | anyRecursive => true
  | _ => false

section Wild
variable {t : Token} {ts : List Token} {before taken rest : List Char}

theorem Token.takes_nil (h : t.isWild = true) (rest : List Char) : t.Takes [] rest := by
  cases t <;> simp_all [isWild, Takes]

theorem Token.takes_of_append (h : t.isWild = true) (ht : t.Takes (before ++ taken) rest) :
    t.Takes taken rest := by
  cases t with
  | anySequence => exact trivial
  | anyRecursive =>
    rcases ht with hnil | ⟨w, hw⟩ | hrest
    · exact .inl (List.append_eq_nil_iff.mp hnil).2
    · -- the last character of what is taken stays
      rcases List.suffix_concat_iff.mp ⟨before, hw⟩ with hnil | ⟨w, hw, _⟩
      · exact .inl hnil
      · exact .inr (.inl ⟨w, hw⟩)
    · exact .inr (.inr hrest)
  | char _ | anyChar | within _ | except _ => cases h

theorem Token.takes_append (h : t.isWild = true) (b : List Char) (ht : t.Takes taken rest) :
    t.Takes (b ++ '/' :: taken) rest := by
  cases t with
  | anySequence => exact trivial
  | anyRecursive =>
    rcases ht with rfl | ⟨w, rfl⟩ | hrest
    · exact .inr (.inl ⟨b, rfl⟩)
    · exact .inr (.inl ⟨b ++ '/' :: w, by simp⟩)
    · exact .inr (.inr hrest)
  | char _ | anyChar | within _ | except _ => cases h

theorem take_of_append (h : ∀ t ∈ ts, t.isWild = true) (ht : Take ts (before ++ taken) rest) :
    Take ts taken rest := by
  induction ts generalizing before with
  | nil => exact (List.append_eq_nil_iff.mp ht).2
  | cons t ts ih =>
    have hwild := h t List.mem_cons_self
    obtain ⟨first, others, hsplit, hfirst, hothers⟩ := ht
    rcases List.append_eq_append_iff.mp hsplit with ⟨cut, rfl, rfl⟩ | ⟨cut, rfl, rfl⟩
    · exact ⟨cut, others, rfl, t.takes_of_append hwild hfirst, hothers⟩
    · have hothers := ih (fun t ht => h t (List.mem_cons_of_mem _ ht)) hothers
      exact ⟨[], taken, rfl, t.takes_nil hwild _, hothers⟩

theorem ne_nil_of_take (ht : Take ts taken rest) (hne : taken ≠ []) : ts ≠ [] := by
  rintro rfl
  exact hne ht

theorem take_slash_append (h : ∀ t ∈ ts, t.isWild = true) (hne : ts ≠ []) (b : List Char)
    (ht : Take ts taken rest) : Take ts (b ++ '/' :: taken) rest := by
  cases ts with
  | nil => exact absurd rfl hne
  | cons t ts =>
    obtain ⟨first, others, rfl, hfirst, hothers⟩ := ht
    exact ⟨b ++ '/' :: first, others, by simp, t.takes_append (h t List.mem_cons_self) b hfirst,
      hothers⟩

end Wild

def lead (g : Glob) : List Token := g.tokens.takeWhile Token.isWild

def core (g : Glob) : List Token := g.tokens.dropWhile Token.isWild

theorem lead_append_core (g : Glob) : g.lead ++ g.core = g.tokens := List.takeWhile_append_dropWhile

theorem lead_core_eq {g : Glob} {leading rest : List Token} (htokens : g.tokens = leading ++ rest)
    (hleading : ∀ t ∈ leading, t.isWild = true) (hrest : ∀ t ∈ rest.head?, t.isWild = false) :
    g.lead = leading ∧ g.core = rest := by
  have hstop : rest.takeWhile Token.isWild = [] ∧ rest.dropWhile Token.isWild = rest := by
    cases rest with
    | nil => exact ⟨rfl, rfl⟩
    | cons t ts => simp [hrest t rfl]
  rw [lead, core, htokens, List.takeWhile_append_of_pos hleading,
    List.dropWhile_append_of_pos hleading, hstop.1, hstop.2, List.append_nil]
  exact ⟨rfl, rfl⟩

/-! ## Matching below a root -/

/-- The pattern matches a relative path, whatever the root. -/
def MatchesAlone (g : Glob) (p : Path) : Prop :=
  Take g.tokens p.tidy.text.toList [] ∨ g.lead ≠ [] ∧ Take g.tokens p.text.toList []

/-- The pattern matches a path below a root in such a way that what follows its leading
wildcards begins within the root. -/
def ReachesInto (g : Glob) (root p : Path) : Prop :=
  ∃ before after, root.base = before ++ after ∧ after ≠ [] ∧
    Take g.lead before (after ++ p.text.toList) ∧ Take g.core (after ++ p.text.toList) []

theorem take_below_iff (g : Glob) (root p : Path) :
    Take g.tokens (root.base ++ p.text.toList) [] ↔
      g.lead ≠ [] ∧ Take g.tokens p.text.toList [] ∨ g.ReachesInto root p := by
  have hwild : ∀ t ∈ g.lead, t.isWild = true := fun t => List.mem_takeWhile_imp
  obtain ⟨b, hbase, _⟩ := root.exists_base
  have hne : root.base ≠ [] := by simp [hbase]
  rw [← g.lead_append_core, take_append, take_append]
  simp only [List.append_nil]
  constructor
  · intro h
    obtain ⟨left, right, hsplit, hleft, hright⟩ := h
    rcases List.append_eq_append_iff.mp hsplit with ⟨cut, rfl, hp⟩ | ⟨cut, hcut, rfl⟩
    · -- the wildcards take the root and more
      have hlead := ne_nil_of_take hleft (List.append_ne_nil_of_left_ne_nil hne cut)
      exact .inl ⟨hlead, cut, right, hp, take_of_append hwild hleft, hright⟩
    · by_cases hnil : cut = []
      · -- the wildcards take just the root
        rw [hnil, List.append_nil] at hcut
        rw [hnil, List.nil_append, ← hcut] at hleft
        rw [hnil] at hright
        have hlead := ne_nil_of_take hleft hne
        rw [← List.append_nil root.base] at hleft
        exact .inl ⟨hlead, [], p.text.toList, rfl, take_of_append hwild hleft, hright⟩
      · exact .inr ⟨left, cut, hcut, hnil, hleft, hright⟩
  · intro h
    rcases h with ⟨hlead, left, right, hp, hleft, hright⟩ | ⟨before, after, hsplit, _, hlead, hcore⟩
    · refine ⟨b ++ '/' :: left, right, ?_, take_slash_append hwild hlead b hleft, hright⟩
      simp [hbase, hp]
    · exact ⟨before, after ++ p.text.toList, by simp [hsplit], hlead, hcore⟩

theorem acceptsBelow_join_iff (g : Glob) {root p : Path} (hroot : root.isAbsolute = true)
    (hp : p.isAbsolute = false) :
    g.acceptsBelow root (root.join p) = true ↔ g.MatchesAlone p ∨ g.ReachesInto root p := by
  rw [acceptsBelow, Bool.or_eq_true, accepts, accepts, matchTokens_iff, matchTokens_iff,
    Path.relativeTo_join hroot hp, Path.toList_join hroot hp, take_below_iff, MatchesAlone,
    or_assoc]

/-! ## Patterns that stay clear of a root -/

/-- An ordinary character that may stand in a name. -/
def isNameChar (c : Char) : Bool := isOrdinary c && c != '/'

/-- Pattern texts that cannot match by what stands in the root. -/
inductive ClearOf (root : Path) : List Char → Prop
  /-- The pattern starts with a name. -/
  | name {c : Char} {rest : List Char} (hc : isNameChar c = true) : ClearOf root (c :: rest)
  /-- After wildcards comes what a name ends with, and nothing else. -/
  | ending {wildcards chars : List Char}
      (hwildcards : wildcards ∈ [['*'], ['*', '*', '/'], ['*', '*', '/', '*']])
      (hchars : ∀ c ∈ chars, isNameChar c = true) : ClearOf root (wildcards ++ chars)
  /-- After `**` comes the name of a directory that is not in the root. -/
  | directory {chars rest : List Char} (hchars : ∀ c ∈ chars, isNameChar c = true)
      (habsent : String.ofList chars ∉ Text.pieces '/' root.text) :
      ClearOf root ('*' :: '*' :: '/' :: (chars ++ '/' :: rest))

section Reaching
variable {g : Glob} {root p : Path} {chars : List Char}

theorem not_reachesInto_of_char (hroot : root.isAbsolute = true) {c : Char} {ts : List Token}
    (htokens : g.tokens = [] ++ .char c :: ts) (hc : c ≠ '/') : ¬ g.ReachesInto root p := by
  intro h
  obtain ⟨before, after, hsplit, _, hlead, hcore⟩ := h
  have ⟨hnil, htail⟩ := lead_core_eq htokens (by simp) (by simp [Token.isWild])
  rw [hnil] at hlead
  rw [htail] at hcore
  obtain rfl : before = [] := hlead
  obtain ⟨_, others, hfirst, ⟨d, rfl, hd⟩, _⟩ := hcore
  have hhead := Path.head?_base hroot
  rw [hsplit, List.nil_append] at hhead
  obtain ⟨after, rfl⟩ := List.head?_eq_some_iff.mp hhead
  obtain rfl : '/' = d := (List.cons.inj hfirst).1
  have hslash : '/' = c := by simpa [Token.accepts] using hd
  exact hc hslash.symm

theorem not_reachesInto_of_chars (htail : g.core = chars.map .char) (hchars : '/' ∉ chars) :
    ¬ g.ReachesInto root p := by
  intro h
  obtain ⟨before, after, hsplit, hne, _, hcore⟩ := h
  rw [htail, take_chars] at hcore
  obtain ⟨a, rfl⟩ := Path.exists_slash_of_base_eq hsplit hne
  apply hchars
  rw [← hcore]
  simp

/-- A text that starts with characters and their first slash keeps this start if it is cut
after some slash. -/
theorem exists_slash_append {a more right : List Char}
    (h : (a ++ ['/']) ++ more = (chars ++ ['/']) ++ right) (hchars : '/' ∉ chars) :
    ∃ between, a ++ ['/'] = chars ++ '/' :: between := by
  rcases List.append_eq_append_iff.mp h with ⟨cut, hcut, _⟩ | ⟨cut, hcut, _⟩
  · rcases List.suffix_concat_iff.mp ⟨a ++ ['/'], hcut.symm⟩ with rfl | ⟨w, rfl, _⟩
    · exact ⟨[], by simpa using hcut.symm⟩
    · have hcut : chars ++ ['/'] = (a ++ '/' :: w) ++ ['/'] := by simpa using hcut
      rw [List.append_cancel_right hcut] at hchars
      simp at hchars
  · exact ⟨cut, by simpa using hcut⟩

theorem not_reachesInto_of_directory (hroot : root.isAbsolute = true) {ts : List Token}
    (htokens : g.tokens = [.anyRecursive] ++ ((chars ++ ['/']).map .char ++ ts))
    (hchars : '/' ∉ chars) (habsent : String.ofList chars ∉ Text.pieces '/' root.text) :
    ¬ g.ReachesInto root p := by
  intro h
  obtain ⟨before, after, hsplit, hne, hlead, hcore⟩ := h
  have ⟨hrecursive, htail⟩ := lead_core_eq htokens (by simp [Token.isWild])
    (by cases chars <;> simp [Token.isWild])
  rw [hrecursive] at hlead
  rw [htail, take_append] at hcore
  obtain ⟨left, right, hcut, hleft, _⟩ := hcore
  obtain rfl := take_chars.mp hleft
  obtain ⟨before, _, rfl, htakes, rfl⟩ := hlead
  rw [List.nil_append] at htakes
  have hbefore : before = [] ∨ ∃ w, before = w ++ ['/'] := by
    rcases htakes with hnil | hslash | hrest
    · exact .inl hnil
    · exact .inr hslash
    · exact absurd (List.append_eq_nil_iff.mp hrest).1 hne
  obtain ⟨a, rfl⟩ := Path.exists_slash_of_base_eq hsplit hne
  obtain ⟨between, hbetween⟩ := exists_slash_append hcut hchars
  rw [List.append_nil, hbetween] at hsplit
  exact habsent (Path.mem_pieces_of_base_eq hroot hsplit hbefore hchars)

theorem ordinary_of_isNameChar (h : ∀ c ∈ chars, isNameChar c = true) :
    (∀ c ∈ chars, isOrdinary c = true) ∧ '/' ∉ chars := by
  refine ⟨fun c hc => ?_, fun hslash => ?_⟩
  · exact (Bool.and_eq_true_iff.mp (h c hc)).1
  · exact absurd (h '/' hslash) (by decide)

theorem tokens_of_name {c : Char} (hc : isOrdinary c = true) {rest : List Char}
    (htokens : tokensFrom 0 0 none [] (c :: rest) = .ok g.tokens) :
    ∃ ts, g.tokens = [] ++ .char c :: ts := by
  have hordinary : ∀ d ∈ [c], isOrdinary d = true := by simpa using hc
  obtain ⟨position, before, hread⟩ := tokensFrom_ordinary hordinary rest 0 none []
  rw [← List.singleton_append, hread] at htokens
  obtain ⟨ts, hts⟩ := reverse_prefix_of_tokensFrom htokens
  exact ⟨ts, hts.symm⟩

theorem core_of_ending (hordinary : ∀ c ∈ chars, isOrdinary c = true) {wildcards : List Char}
    (hwildcards : wildcards ∈ [['*'], ['*', '*', '/'], ['*', '*', '/', '*']])
    (htokens : tokensFrom 0 0 none [] (wildcards ++ chars) = .ok g.tokens) :
    g.core = chars.map .char := by
  have hstar : chars.head? ≠ some '*' := by
    intro hhead
    exact absurd (hordinary '*' (List.mem_of_head? hhead)) (by decide)
  obtain ⟨tokens, position, before, hwild, hread⟩ : ∃ tokens position before,
      (∀ t ∈ tokens, t.isWild = true) ∧
        tokensFrom 0 position before tokens chars = .ok g.tokens := by
    simp only [List.mem_cons, List.not_mem_nil, or_false] at hwildcards
    rcases hwildcards with rfl | rfl | rfl
    · rw [List.singleton_append, tokensFrom_sequence hstar] at htokens
      exact ⟨[.anySequence], _, _, by simp [Token.isWild], htokens⟩
    · simp only [List.cons_append, List.nil_append, tokensFrom_recursive] at htokens
      exact ⟨[.anyRecursive], _, _, by simp [Token.isWild], htokens⟩
    · simp only [List.cons_append, List.nil_append, tokensFrom_recursive,
        tokensFrom_sequence hstar] at htokens
      exact ⟨[.anySequence, .anyRecursive], _, _, by simp [Token.isWild], htokens⟩
  have hg := eq_of_tokensFrom_ordinary hordinary hread
  exact (lead_core_eq hg (by simpa using hwild) (by cases chars <;> simp [Token.isWild])).2

theorem tokens_of_directory (hordinary : ∀ c ∈ chars, isOrdinary c = true) {rest : List Char}
    (htokens : tokensFrom 0 0 none [] ('*' :: '*' :: '/' :: (chars ++ '/' :: rest)) =
      .ok g.tokens) :
    ∃ ts, g.tokens = [.anyRecursive] ++ ((chars ++ ['/']).map .char ++ ts) := by
  have hslash : ∀ c ∈ chars ++ ['/'], isOrdinary c = true := by
    intro c hc
    rcases List.mem_append.mp hc with hc | hc
    · exact hordinary c hc
    · rw [List.mem_singleton.mp hc]
      rfl
  obtain ⟨position, before, hread⟩ := tokensFrom_ordinary hslash rest 3 (some '/') [.anyRecursive]
  rw [tokensFrom_recursive, List.append_cons, hread] at htokens
  obtain ⟨ts, hts⟩ := reverse_prefix_of_tokensFrom htokens
  refine ⟨ts, ?_⟩
  rw [← hts]
  simp

theorem not_reachesInto_of_clearOf (hroot : root.isAbsolute = true) {pattern : String}
    (hparse : parse pattern = .ok g) (hclear : ClearOf root pattern.toList) :
    ¬ g.ReachesInto root p := by
  have htokens := tokensFrom_of_parse hparse
  generalize pattern.toList = text at htokens hclear
  cases hclear with
  | @name c rest hc =>
    have ⟨hordinary, hslash⟩ : isOrdinary c = true ∧ c ≠ '/' := by simpa [isNameChar] using hc
    obtain ⟨ts, hts⟩ := tokens_of_name hordinary htokens
    exact not_reachesInto_of_char hroot hts hslash
  | ending hwildcards hchars =>
    have ⟨hordinary, hslash⟩ := ordinary_of_isNameChar hchars
    exact not_reachesInto_of_chars (core_of_ending hordinary hwildcards htokens) hslash
  | directory hchars habsent =>
    have ⟨hordinary, hslash⟩ := ordinary_of_isNameChar hchars
    obtain ⟨ts, hts⟩ := tokens_of_directory hordinary htokens
    exact not_reachesInto_of_directory hroot hts hslash habsent

end Reaching

/-! ## Lists of patterns -/

/-- Patterns decide alike about a relative path below two roots: one of them settles it
alone, or they reach into both roots or into neither. -/
def DecideAlike (gs : List Glob) (root root' p : Path) : Prop :=
  (∃ g ∈ gs, g.MatchesAlone p) ∨
    ((∃ g ∈ gs, g.ReachesInto root p) ↔ ∃ g ∈ gs, g.ReachesInto root' p)

section Lists
variable {root root' p : Path}

theorem any_acceptsBelow_join_iff (gs : List Glob) (hroot : root.isAbsolute = true)
    (hp : p.isAbsolute = false) :
    gs.any (·.acceptsBelow root (root.join p)) = true ↔
      (∃ g ∈ gs, g.MatchesAlone p) ∨ ∃ g ∈ gs, g.ReachesInto root p := by
  simp only [List.any_eq_true, acceptsBelow_join_iff _ hroot hp, and_or_left, exists_or]

theorem any_acceptsBelow_eq_iff (gs : List Glob) (hroot : root.isAbsolute = true)
    (hroot' : root'.isAbsolute = true) (hp : p.isAbsolute = false) :
    gs.any (·.acceptsBelow root (root.join p)) = gs.any (·.acceptsBelow root' (root'.join p)) ↔
      DecideAlike gs root root' p := by
  rw [Bool.eq_iff_iff, any_acceptsBelow_join_iff gs hroot hp,
    any_acceptsBelow_join_iff gs hroot' hp, DecideAlike]
  by_cases h : ∃ g ∈ gs, g.MatchesAlone p
  · simp only [h, true_or]
  · simp only [h, false_or]

theorem decideAlike_of_clearOf (hroot : root.isAbsolute = true) (hroot' : root'.isAbsolute = true)
    {patterns : List String} {gs : List Glob} (hparse : parseAll patterns = .ok gs)
    (hclear : ∀ pattern ∈ patterns,
      ClearOf root pattern.toList ∧ ClearOf root' pattern.toList) :
    DecideAlike gs root root' p := by
  have hnone : ∀ g ∈ gs, ¬ g.ReachesInto root p ∧ ¬ g.ReachesInto root' p := by
    intro g hg
    obtain ⟨pattern, hmem, hg⟩ := exists_pattern_of_mem hparse hg
    have ⟨hclear, hclear'⟩ := hclear pattern hmem
    exact ⟨not_reachesInto_of_clearOf hroot hg hclear,
      not_reachesInto_of_clearOf hroot' hg hclear'⟩
  right
  constructor
  · intro h
    obtain ⟨g, hg, hreach⟩ := h
    exact absurd hreach (hnone g hg).1
  · intro h
    obtain ⟨g, hg, hreach⟩ := h
    exact absurd hreach (hnone g hg).2

end Lists

end Glob

/-! ## Moving a project -/

namespace Analyzer

def movedTo (a : Analyzer) (root : Path) : Analyzer := { a with root }

section Moved
variable (a : Analyzer) {root' p : Path} (hroot : a.root.isAbsolute = true)
  (hroot' : root'.isAbsolute = true) (hp : p.isAbsolute = false)
include hroot hroot' hp

theorem excludes_movedTo_iff :
    a.excludes (a.root.join p) = (a.movedTo root').excludes (root'.join p) ↔
      Glob.DecideAlike a.excluded a.root root' p :=
  Glob.any_acceptsBelow_eq_iff a.excluded hroot hroot' hp

theorem includes_movedTo_iff :
    a.includes (a.root.join p) = (a.movedTo root').includes (root'.join p) ↔
      a.included = [] ∨ Glob.DecideAlike a.included a.root root' p := by
  have hany := Glob.any_acceptsBelow_eq_iff a.included hroot hroot' hp
  unfold includes movedTo
  cases hincluded : a.included with
  | nil => simp
  | cons g gs =>
    rw [hincluded] at hany
    simpa using hany

end Moved

namespace Setup

theorem build_movedTo {s : Setup} {current root : Path} {a : Analyzer}
    (hroot : root.isAbsolute = true)
    (h : ({ s with root := some root } : Setup).build current = .ok a) :
    a.root = root ∧ Glob.parseAll (s.excluded ++ s.config.search.excluded) = .ok a.excluded ∧
      Glob.parseAll (s.included ++ s.config.search.included) = .ok a.included ∧
      ∀ root', root'.isAbsolute = true →
        ({ s with root := some root' } : Setup).build current = .ok (a.movedTo root') := by
  unfold build at h ⊢
  dsimp only at h ⊢
  split at h
  · cases h
  · cases h
  next excluded included hexcluded hincluded =>
    obtain rfl := Except.ok.inj h
    refine ⟨by simp [Path.join, hroot], hexcluded, hincluded, fun root' hroot' => ?_⟩
    simp [movedTo, Path.join, hroot']

/-- Moving a project to another root keeps the choice of a file exactly if the patterns
decide alike about it below the two roots, as those do that are clear of both. -/
theorem relocated_choice_iff (s : Setup) (current root root' p : Path)
    (hroot : root.isAbsolute = true) (hroot' : root'.isAbsolute = true)
    (hp : p.isAbsolute = false) {a : Analyzer}
    (hbuild : ({ s with root := some root } : Setup).build current = .ok a) :
    ({ s with root := some root' } : Setup).build current = .ok (a.movedTo root') ∧
      (a.excludes (root.join p) = (a.movedTo root').excludes (root'.join p) ↔
        Glob.DecideAlike a.excluded root root' p) ∧
      (a.includes (root.join p) = (a.movedTo root').includes (root'.join p) ↔
        a.included = [] ∨ Glob.DecideAlike a.included root root' p) ∧
      ((∀ pattern ∈ s.excluded ++ s.config.search.excluded,
          Glob.ClearOf root pattern.toList ∧ Glob.ClearOf root' pattern.toList) →
        a.excludes (root.join p) = (a.movedTo root').excludes (root'.join p)) ∧
      ((∀ pattern ∈ s.included ++ s.config.search.included,
          Glob.ClearOf root pattern.toList ∧ Glob.ClearOf root' pattern.toList) →
        a.includes (root.join p) = (a.movedTo root').includes (root'.join p)) := by
  obtain ⟨rfl, hexcluded, hincluded, hothers⟩ := build_movedTo hroot hbuild
  have hexcludes := a.excludes_movedTo_iff hroot hroot' hp
  have hincludes := a.includes_movedTo_iff hroot hroot' hp
  refine ⟨hothers root' hroot', hexcludes, hincludes, fun hclear => ?_, fun hclear => ?_⟩
  · exact hexcludes.mpr (Glob.decideAlike_of_clearOf hroot hroot' hexcluded hclear)
  · exact hincludes.mpr (.inr (Glob.decideAlike_of_clearOf hroot hroot' hincluded hclear))

theorem clearOf_default {root : Path} (hbin : "bin" ∉ Text.pieces '/' root.text)
    (hobj : "obj" ∉ Text.pieces '/' root.text) :
    ∀ pattern ∈ ({} : Config).search.excluded, Glob.ClearOf root pattern.toList := by
  intro pattern hpattern
  have hpattern : pattern = "**/bin/**" ∨ pattern = "**/obj/**" := by simpa using hpattern
  rcases hpattern with rfl | rfl
  · have hchars : ∀ c ∈ ['b', 'i', 'n'], Glob.isNameChar c = true := by
      simp [Glob.isNameChar, Glob.isOrdinary]
    exact @Glob.ClearOf.directory root ['b', 'i', 'n'] ['*', '*'] hchars hbin
  · have hchars : ∀ c ∈ ['o', 'b', 'j'], Glob.isNameChar c = true := by
      simp [Glob.isNameChar, Glob.isOrdinary]
    exact @Glob.ClearOf.directory root ['o', 'b', 'j'] ['*', '*'] hchars hobj

def librarySources : Setup :=
  { rules := [], frontEnds := [], included := ["lib/**", "**/*.cs"] }

theorem relocated_choice_of_clear :
    ∃ a : Analyzer,
      ({ librarySources with root := some ⟨"/work/app"⟩ } : Setup).build ⟨"/"⟩ = .ok a ∧
      ({ librarySources with root := some ⟨"/srv/app"⟩ } : Setup).build ⟨"/"⟩ =
        .ok (a.movedTo ⟨"/srv/app"⟩) ∧
      a.excludes (Path.join ⟨"/work/app"⟩ ⟨"lib/obj/a.cs"⟩) =
        (a.movedTo ⟨"/srv/app"⟩).excludes (Path.join ⟨"/srv/app"⟩ ⟨"lib/obj/a.cs"⟩) ∧
      a.includes (Path.join ⟨"/work/app"⟩ ⟨"lib/obj/a.cs"⟩) =
        (a.movedTo ⟨"/srv/app"⟩).includes (Path.join ⟨"/srv/app"⟩ ⟨"lib/obj/a.cs"⟩) := by
  obtain ⟨a, ha⟩ : ∃ a : Analyzer,
      ({ librarySources with root := some ⟨"/work/app"⟩ } : Setup).build ⟨"/"⟩ = .ok a :=
    ⟨_, rfl⟩
  have ⟨hbuild, _, _, hexcludes, hincludes⟩ := relocated_choice_iff librarySources ⟨"/"⟩
    ⟨"/work/app"⟩ ⟨"/srv/app"⟩ ⟨"lib/obj/a.cs"⟩ rfl rfl rfl ha
  refine ⟨a, ha, hbuild, hexcludes fun pattern hpattern => ?_, hincludes fun pattern hpattern => ?_⟩
  · exact ⟨clearOf_default (by decide +kernel) (by decide +kernel) pattern hpattern,
      clearOf_default (by decide +kernel) (by decide +kernel) pattern hpattern⟩
  · have hclear : ∀ root : Path, Glob.ClearOf root pattern.toList := by
      intro root
      have hpattern : pattern = "lib/**" ∨ pattern = "**/*.cs" := by
        simpa [librarySources] using hpattern
      rcases hpattern with rfl | rfl
      · exact @Glob.ClearOf.name root 'l' ['i', 'b', '/', '*', '*'] (by decide)
      · exact @Glob.ClearOf.ending root ['*', '*', '/', '*'] ['.', 'c', 's'] (by simp)
          (by simp [Glob.isNameChar, Glob.isOrdinary])
    exact ⟨hclear _, hclear _⟩

/-- Patterns that do not start with a slash can still tell two roots apart: the file is
left out below `bin`. -/
theorem relocated_choice_changed :
    ¬ ∀ (s : Setup) (current root root' p : Path) (a a' : Analyzer),
      (∀ pattern ∈ (s.excluded ++ s.config.search.excluded) ++
        (s.included ++ s.config.search.included), pattern.toList.head? ≠ some '/') →
      root.isAbsolute = true → root'.isAbsolute = true → p.isAbsolute = false →
      ({ s with root := some root } : Setup).build current = .ok a →
      ({ s with root := some root' } : Setup).build current = .ok a' →
      a.excludes (root.join p) = a'.excludes (root'.join p) ∧
        a.includes (root.join p) = a'.includes (root'.join p) := by
  intro h
  have hsame := h librarySources ⟨"/"⟩ ⟨"/work/src"⟩ ⟨"/work/bin"⟩ ⟨"lib/a.cs"⟩ _ _
    (by decide +kernel) rfl rfl rfl rfl rfl
  exact absurd hsame.1 (by decide +kernel)

end Setup

end Analyzer

end SelectorCheck
