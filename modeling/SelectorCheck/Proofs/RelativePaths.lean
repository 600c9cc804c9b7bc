import SelectorCheck.Proofs.Order

/-
  Paths below a root.

  A path that is printed relative to a root is cut as a list of segments and spelled
  again. The spelling may differ from the one it was cut from, because segments that
  say nothing are dropped at both ends, but its components are those of the path
  without those of the root. So two paths below one root stand in the same order as
  their spellings relative to it.

  What is proved:
    1. `Text.pieces_join`: pieces that hold no separator are found again in their join.
    2. `components_spell`: what a start and segments say is what their spelling says.
    3. `components_relativeTo`: the components of a path below a root are those of the
       root and then those of the relative path.
    4. `compare_relativeTo`: taking the root away keeps the order.
    5. `relativeTo_join`: a relative path that was joined to a root is found again, without
       idle segments at its ends, whatever the root.
-/

namespace SelectorCheck

/-! ## Pieces and their join -/

namespace Text

section Pieces
variable {α : Type} {sep : α → Bool}

theorem piecesOf_ne_nil (cs : List α) : piecesOf sep cs ≠ [] := by
  cases cs with
  | nil => simp [piecesOf]
  | cons c cs =>
    rw [piecesOf]
    split
    · simp
    · split <;> simp

theorem piecesOf_of_plain {p : List α} (hp : ∀ c ∈ p, sep c = false) : piecesOf sep p = [p] := by
  induction p with
  | nil => rfl
  | cons c p ih =>
    rw [piecesOf, ih fun x hx => hp x (List.mem_cons_of_mem c hx)]
    simp [hp c List.mem_cons_self]

theorem piecesOf_append_cons (cs : List α) {s : α} (hs : sep s = true) (rest : List α) :
    piecesOf sep (cs ++ s :: rest) = piecesOf sep cs ++ piecesOf sep rest := by
  induction cs with
  | nil => simp [piecesOf, hs]
  | cons c cs ih =>
    rw [List.cons_append, piecesOf, piecesOf, ih]
    split
    · rfl
    · cases hcs : piecesOf sep cs with
      | nil => exact absurd hcs (piecesOf_ne_nil cs)
      | cons p ps => rfl

theorem plain_of_mem_piecesOf {cs p : List α} (h : p ∈ piecesOf sep cs) :
    ∀ c ∈ p, sep c = false := by
  induction cs generalizing p with
  | nil =>
    obtain rfl : p = [] := by simpa [piecesOf] using h
    intro c hc
    cases hc
  | cons c cs ih =>
    rw [piecesOf] at h
    cases hc : sep c with
    | true =>
      rw [if_pos hc] at h
      rcases List.mem_cons.mp h with rfl | h
      · intro x hx; cases hx
      · exact ih h
    | false =>
      rw [if_neg (by simp [hc])] at h
      cases hpieces : piecesOf sep cs with
      | nil => exact absurd hpieces (piecesOf_ne_nil cs)
      | cons q qs =>
        rw [hpieces] at h ih
        rcases List.mem_cons.mp h with rfl | h
        · intro x hx
          rcases List.mem_cons.mp hx with rfl | hx
          · exact hc
          · exact ih List.mem_cons_self x hx
        · exact ih (List.mem_cons_of_mem q h)

end Pieces

/-- A text without slashes. -/
def Plain (s : String) : Prop := ∀ c ∈ s.toList, (c == '/') = false

theorem plain_of_mem_pieces {t s : String} (h : s ∈ pieces '/' t) : Plain s := by
  obtain ⟨p, hp, rfl⟩ := List.mem_map.mp h
  intro c hc
  rw [String.toList_ofList] at hc
  exact plain_of_mem_piecesOf hp c hc

theorem pieces_of_plain {s : String} (h : Plain s) : pieces '/' s = [s] := by
  rw [pieces, piecesOf_of_plain h]
  simp

theorem pieces_ne_nil (s : String) : pieces '/' s ≠ [] := by
  simp [pieces, piecesOf_ne_nil]

theorem pieces_append_slash (s t : String) :
    pieces '/' (s ++ "/" ++ t) = pieces '/' s ++ pieces '/' t := by
  have hchars : (s ++ "/" ++ t).toList = s.toList ++ '/' :: t.toList := by simp
  rw [pieces, hchars, piecesOf_append_cons _ rfl, List.map_append]
  rfl

theorem pieces_slash {s : String} (h : Plain s) (t : String) :
    pieces '/' (s ++ "/" ++ t) = s :: pieces '/' t := by
  rw [pieces_append_slash, pieces_of_plain h, List.singleton_append]

theorem pieces_join {segments : List String} (hne : segments ≠ [])
    (h : ∀ s ∈ segments, Plain s) : pieces '/' (join "/" segments) = segments := by
  induction segments with
  | nil => exact absurd rfl hne
  | cons s rest ih =>
    cases rest with
    | nil => exact pieces_of_plain (h s List.mem_cons_self)
    | cons r rest =>
      rw [join, pieces_slash (h s List.mem_cons_self)]
      rw [ih (by simp) fun x hx => h x (List.mem_cons_of_mem s hx)]

end Text

/-! ## Spelling a path -/

namespace Path

/-- A start and segments that a spelling keeps apart: no segment holds a slash, and
without a start the first segment is not one that would be read as a start. -/
structure Spelled (start : Option Component) (segments : List String) : Prop where
  known : start = none ∨ start = some .root ∨ start = some .here
  plain : ∀ s ∈ segments, Text.Plain s
  first : start = none → ∀ s ∈ segments.head?, s ≠ "" ∧ s ≠ "."

theorem parts_spelled (p : Path) : Spelled p.parts.1 p.parts.2 := by
  have hplain : ∀ s ∈ Text.pieces '/' p.text, Text.Plain s := fun s => Text.plain_of_mem_pieces
  unfold parts
  split
  next rest hpieces =>
    rw [hpieces] at hplain
    split
    · exact ⟨.inl rfl, by simp, by simp⟩
    · exact ⟨.inr (.inl rfl), fun s hs => hplain s (List.mem_cons_of_mem _ hs), by simp⟩
  next rest hpieces =>
    rw [hpieces] at hplain
    exact ⟨.inr (.inr rfl), fun s hs => hplain s (List.mem_cons_of_mem _ hs), by simp⟩
  next segments hnotEmpty hnotHere =>
    refine ⟨.inl rfl, hplain, fun _ s hs => ?_⟩
    obtain ⟨rest, hrest⟩ := List.head?_eq_some_iff.mp hs
    exact ⟨fun e => hnotEmpty rest (e ▸ hrest), fun e => hnotHere rest (e ▸ hrest)⟩

theorem components_spell {start : Option Component} {segments : List String}
    (h : Spelled start segments) :
    (spell start segments).components =
      start.toList ++ segments.filterMap Component.ofSegment? := by
  obtain ⟨hstart, hplain, hfirst⟩ := h
  have hdot : Text.Plain "." := by simp [Text.Plain]
  have hempty : Text.Plain "" := by simp [Text.Plain]
  cases segments with
  | nil =>
    rcases hstart with rfl | rfl | rfl
    · rfl
    · decide
    · decide
  | cons s rest =>
    have hjoin : Text.pieces '/' (Text.join "/" (s :: rest)) = s :: rest :=
      Text.pieces_join (by simp) hplain
    rcases hstart with rfl | rfl | rfl
    · obtain ⟨hne, hnd⟩ := hfirst rfl s rfl
      have hparts : (spell none (s :: rest)).parts = (none, s :: rest) := by
        simp only [spell, parts, hjoin]
        split
        next heq => exact absurd (List.cons.inj heq).1 hne
        next heq => exact absurd (List.cons.inj heq).1 hnd
        next => rfl
      rw [components, hparts]
    · have hparts : (spell (some .root) (s :: rest)).parts = (some .root, s :: rest) := by
        have hpieces := Text.pieces_slash hempty (Text.join "/" (s :: rest))
        simp only [String.empty_append, hjoin] at hpieces
        simp [spell, parts, hpieces]
      rw [components, hparts]
    · have hparts : (spell (some .here) (s :: rest)).parts = (some .here, s :: rest) := by
        have hpieces := Text.pieces_slash hdot (Text.join "/" (s :: rest))
        rw [hjoin] at hpieces
        have htext : "./" ++ Text.join "/" (s :: rest) =
            "." ++ "/" ++ Text.join "/" (s :: rest) := rfl
        simp only [spell, parts, htext, hpieces]
      rw [components, hparts]

/-! ## Segments that say nothing -/

theorem ofSegment?_of_isIdle {s : String} (h : isIdle s = true) :
    Component.ofSegment? s = none := by
  simpa [isIdle] using h

theorem filterMap_dropWhile_isIdle (segments : List String) :
    (segments.dropWhile isIdle).filterMap Component.ofSegment? =
      segments.filterMap Component.ofSegment? := by
  induction segments with
  | nil => rfl
  | cons s rest ih =>
    cases hs : isIdle s with
    | true => rw [List.dropWhile_cons_of_pos hs, ih, List.filterMap_cons, ofSegment?_of_isIdle hs]
    | false => rw [List.dropWhile_cons_of_neg (by simp [hs])]

theorem filterMap_trimEnd (segments : List String) :
    (trimEnd segments).filterMap Component.ofSegment? =
      segments.filterMap Component.ofSegment? := by
  rw [trimEnd, List.filterMap_reverse, filterMap_dropWhile_isIdle, ← List.filterMap_reverse,
    List.reverse_reverse]

theorem trimEnd_prefix (segments : List String) : trimEnd segments <+: segments := by
  have hsuffix := List.dropWhile_suffix (l := segments.reverse) isIdle
  rw [← List.reverse_prefix, List.reverse_reverse] at hsuffix
  exact hsuffix

theorem Spelled.of_isPrefix {start : Option Component} {segments front : List String}
    (h : Spelled start segments) (hfront : front <+: segments) : Spelled start front := by
  refine ⟨h.known, fun s hs => h.plain s (hfront.subset hs), fun hnone s hs => ?_⟩
  obtain ⟨rest, hrest⟩ := List.head?_eq_some_iff.mp hs
  obtain ⟨dropped, hdropped⟩ := hfront
  exact h.first hnone s (by rw [← hdropped, hrest]; rfl)

theorem Spelled.trimEnd {start : Option Component} {segments : List String}
    (h : Spelled start segments) : Spelled start (trimEnd segments) := by
  have hfront := trimEnd_prefix segments
  exact h.of_isPrefix hfront

theorem spelled_dropWhile_isIdle {segments : List String} (h : ∀ s ∈ segments, Text.Plain s) :
    Spelled none (segments.dropWhile isIdle) := by
  have hsuffix := List.dropWhile_suffix (l := segments) isIdle
  refine ⟨.inl rfl, fun s hs => h s (hsuffix.subset hs), fun _ s hs => ?_⟩
  have hbusy := List.head?_dropWhile_not isIdle segments
  rw [hs] at hbusy
  constructor
  · intro e; rw [e] at hbusy; cases hbusy
  · intro e; rw [e] at hbusy; cases hbusy

/-! ## The rest of a path below another -/

/-- The segments after those that spell the first components are found, and stand for
the other components. -/
theorem exists_dropComponents {cs : List Component} {segments : List String}
    (h : cs <+: segments.filterMap Component.ofSegment?) :
    ∃ rest, dropComponents cs segments = some rest ∧ rest <:+ segments ∧
      segments.filterMap Component.ofSegment? =
        cs ++ rest.filterMap Component.ofSegment? := by
  induction segments generalizing cs with
  | nil =>
    obtain rfl : cs = [] := by simpa using h
    exact ⟨[], rfl, List.suffix_refl _, rfl⟩
  | cons s segments ih =>
    cases cs with
    | nil => exact ⟨s :: segments, rfl, List.suffix_refl _, rfl⟩
    | cons c cs =>
      rw [List.filterMap_cons] at h ⊢
      rw [dropComponents]
      cases hs : Component.ofSegment? s with
      | none =>
        rw [hs] at h
        obtain ⟨rest, hdrop, hsuffix, hrest⟩ := ih h
        exact ⟨rest, hdrop, hsuffix.trans (List.suffix_cons s segments), hrest⟩
      | some d =>
        rw [hs] at h
        obtain ⟨rfl, hcs⟩ := List.cons_prefix_cons.mp h
        obtain ⟨rest, hdrop, hsuffix, hrest⟩ := ih hcs
        refine ⟨rest, by simpa using hdrop, hsuffix.trans (List.suffix_cons s segments), ?_⟩
        dsimp only
        rw [hrest, List.cons_append]

theorem components_rest {segments : List String} (h : ∀ s ∈ segments, Text.Plain s) :
    (relativeTo?.rest segments).components = segments.filterMap Component.ofSegment? := by
  rw [relativeTo?.rest, components_spell (spelled_dropWhile_isIdle h).trimEnd, filterMap_trimEnd,
    filterMap_dropWhile_isIdle]
  rfl

theorem components_relativeTo {p base : Path} (h : base.components <+: p.components) :
    p.components = base.components ++ (p.relativeTo base).components := by
  have hspelled := p.parts_spelled
  have hp : p.components = p.parts.1.toList ++ p.parts.2.filterMap Component.ofSegment? := rfl
  unfold relativeTo relativeTo?
  rw [hp] at h ⊢
  generalize p.parts = parts at hspelled h ⊢
  obtain ⟨start, segments⟩ := parts
  dsimp only at hspelled h ⊢
  cases hbase : base.components with
  | nil =>
    simp only [Option.getD_some, List.nil_append]
    rw [components_spell hspelled.trimEnd, filterMap_trimEnd]
  | cons c cs =>
    rw [hbase] at h
    cases start with
    | none =>
      obtain ⟨rest, hdrop, hsuffix, hrest⟩ := exists_dropComponents h
      have hplain : ∀ s ∈ rest, Text.Plain s := fun s hs => hspelled.plain s (hsuffix.subset hs)
      simp only [hdrop, Option.map_some, Option.getD_some, components_rest hplain]
      exact hrest
    | some s =>
      obtain ⟨rfl, hcs⟩ := List.cons_prefix_cons.mp h
      obtain ⟨rest, hdrop, hsuffix, hrest⟩ := exists_dropComponents hcs
      have hplain : ∀ s ∈ rest, Text.Plain s := fun s hs => hspelled.plain s (hsuffix.subset hs)
      simp only [if_true, hdrop, Option.map_some, Option.getD_some, components_rest hplain]
      simpa using hrest

theorem compareList_append (cs as bs : List Component) :
    Component.compareList (cs ++ as) (cs ++ bs) = Component.compareList as bs := by
  induction cs with
  | nil => rfl
  | cons c cs ih =>
    have hself : c.compare c = .eq := Std.ReflCmp.compare_self
    rw [List.cons_append, List.cons_append, Component.compareList, hself, ih]
    rfl

theorem compare_relativeTo {p q base : Path} (hp : base.components <+: p.components)
    (hq : base.components <+: q.components) :
    (p.relativeTo base).compare (q.relativeTo base) = p.compare q := by
  unfold Path.compare
  rw [components_relativeTo hp, components_relativeTo hq, compareList_append]

/-! ## Joining a root and taking it away -/

/-- The text of a root up to where a relative path is written after it. -/
def base (root : Path) : List Char :=
  if root.text.toList.getLast? = some '/' then root.text.toList else root.text.toList ++ ['/']

/-- The path without idle segments at its ends. -/
def tidy (p : Path) : Path := relativeTo?.rest (Text.pieces '/' p.text)

theorem parts_of_pieces {p : Path} {segments : List String}
    (h : Text.pieces '/' p.text = "" :: segments) (hne : segments ≠ []) :
    p.parts = (some .root, segments) := by
  simp [parts, h, hne]

theorem rest_cons_of_isIdle {s : String} (h : isIdle s = true) (segments : List String) :
    relativeTo?.rest (s :: segments) = relativeTo?.rest segments := by
  rw [relativeTo?.rest, List.dropWhile_cons_of_pos h, ← relativeTo?.rest]

/-- After the components of some segments are dropped, at most idle ones of them are left. -/
theorem map_dropComponents_above (above more : List String) :
    (dropComponents (above.filterMap Component.ofSegment?) (above ++ more)).map
      relativeTo?.rest = some (relativeTo?.rest more) := by
  induction above with
  | nil => simp [dropComponents]
  | cons s above ih =>
    rw [List.filterMap_cons, List.cons_append]
    cases hs : Component.ofSegment? s with
    | some c => simpa [dropComponents, hs] using ih
    | none =>
      dsimp only
      cases hcs : above.filterMap Component.ofSegment? with
      | nil =>
        rw [hcs, dropComponents, Option.map_some] at ih
        rw [dropComponents, Option.map_some, rest_cons_of_isIdle (by simp [isIdle, hs]), ih]
      | cons c cs =>
        rw [hcs] at ih
        rw [dropComponents, hs]
        exact ih

theorem exists_base (root : Path) :
    ∃ b, root.base = b ++ ['/'] ∧ (root.text.toList = b ++ ['/'] ∨ root.text.toList = b) := by
  unfold base
  split
  next hlast =>
    obtain ⟨b, hb⟩ := List.getLast?_eq_some_iff.mp hlast
    exact ⟨b, hb, .inl hb⟩
  next => exact ⟨root.text.toList, rfl, .inr rfl⟩

theorem exists_slash_of_base_eq {root : Path} {before after : List Char}
    (h : root.base = before ++ after) (hne : after ≠ []) : ∃ a, after = a ++ ['/'] := by
  obtain ⟨b, hbase, _⟩ := root.exists_base
  rcases List.suffix_concat_iff.mp ⟨before, h.symm.trans hbase⟩ with hnil | ⟨a, ha, _⟩
  · exact absurd hnil hne
  · exact ⟨a, ha⟩

section Joined
variable {root p : Path} (hroot : root.isAbsolute = true)
include hroot

theorem exists_text_of_isAbsolute : ∃ cs, root.text.toList = '/' :: cs := by
  rw [isAbsolute, beq_iff_eq] at hroot
  exact List.head?_eq_some_iff.mp hroot

theorem head?_base : root.base.head? = some '/' := by
  obtain ⟨cs, hcs⟩ := exists_text_of_isAbsolute hroot
  unfold base
  split <;> simp [hcs]

theorem toList_join (hp : p.isAbsolute = false) :
    (root.join p).text.toList = root.base ++ p.text.toList := by
  obtain ⟨cs, hcs⟩ := exists_text_of_isAbsolute hroot
  have hne : root.text ≠ "" := by
    intro h
    simp [h] at hcs
  unfold join base
  rw [if_neg (by simp [hp])]
  by_cases hlast : root.text.toList.getLast? = some '/'
  · simp [hlast]
  · simp [hlast, hne]

theorem exists_above :
    ∃ above : List String,
      (∀ rest, (Text.piecesOf (· == '/') (root.base ++ rest)).map String.ofList =
        "" :: (above ++ (Text.piecesOf (· == '/') rest).map String.ofList)) ∧
      (Text.pieces '/' root.text = "" :: (above ++ [""]) ∨
        Text.pieces '/' root.text = "" :: above ∧ above ≠ []) := by
  obtain ⟨cs, hcs⟩ := exists_text_of_isAbsolute hroot
  obtain ⟨b, hbase, hb⟩ := exists_base root
  have hpieces : ∀ rest, Text.piecesOf (· == '/') (b ++ '/' :: rest) =
      Text.piecesOf (· == '/') b ++ Text.piecesOf (· == '/') rest :=
    Text.piecesOf_append_cons b rfl
  cases b with
  | nil =>
    refine ⟨[], fun rest => by simp [hbase, Text.piecesOf], .inl ?_⟩
    rcases hb with hb | hb
    · simp [Text.pieces, hb, Text.piecesOf]
    · simp [hb] at hcs
  | cons c b =>
    obtain rfl : c = '/' := by
      rcases hb with hb | hb <;> rw [hb] at hcs <;> exact (List.cons.inj hcs).1
    have hfirst : Text.piecesOf (· == '/') ('/' :: b) = [] :: Text.piecesOf (· == '/') b := rfl
    rw [hfirst] at hpieces
    refine ⟨(Text.piecesOf (· == '/') b).map String.ofList, ?_, ?_⟩
    · intro rest
      rw [hbase, List.append_assoc, List.singleton_append, hpieces]
      simp
    · rw [Text.pieces]
      rcases hb with hb | hb
      · rw [hb, hpieces]
        simp [Text.piecesOf]
      · rw [hb, hfirst]
        simp [Text.piecesOf_ne_nil]

/-- What stands between slashes in the text above a relative path is a piece of the root. -/
theorem mem_pieces_of_base_eq {before chars more : List Char}
    (h : root.base = before ++ (chars ++ '/' :: more))
    (hbefore : before = [] ∨ ∃ w, before = w ++ ['/']) (hchars : '/' ∉ chars) :
    String.ofList chars ∈ Text.pieces '/' root.text := by
  obtain ⟨above, hbase, htext⟩ := exists_above hroot
  have hplain : ∀ c ∈ chars, (c == '/') = false := by
    intro c hc
    exact beq_eq_false_iff_ne.mpr fun e => hchars (e ▸ hc)
  have hpieces : Text.piecesOf (· == '/') (chars ++ '/' :: more) =
      chars :: Text.piecesOf (· == '/') more := by
    rw [Text.piecesOf_append_cons _ rfl, Text.piecesOf_of_plain hplain]
    rfl
  have hmem : chars ∈ Text.piecesOf (· == '/') root.base := by
    rcases hbefore with rfl | ⟨w, rfl⟩
    · rw [h, List.nil_append, hpieces]
      exact List.mem_cons_self
    · rw [h, List.append_assoc, List.singleton_append, Text.piecesOf_append_cons _ rfl, hpieces]
      simp
  have hmem := List.mem_map_of_mem (f := String.ofList) hmem
  have hbase := hbase []
  rw [List.append_nil] at hbase
  rw [hbase] at hmem
  rcases htext with htext | ⟨htext, _⟩
  · rwa [htext]
  · rw [← List.cons_append] at hmem
    rw [htext]
    rcases List.mem_append.mp hmem with hmem | hmem
    · exact hmem
    · -- the piece after the last slash, which is empty, as is the first
      have hempty : String.ofList chars = "" := by simpa [Text.piecesOf] using hmem
      rw [hempty]
      exact List.mem_cons_self

/-- A relative path is found again below the root that it was joined to. -/
theorem relativeTo_join (hp : p.isAbsolute = false) : (root.join p).relativeTo root = p.tidy := by
  obtain ⟨above, hbase, htext⟩ := exists_above hroot
  have hjoined : (root.join p).parts = (some .root, above ++ Text.pieces '/' p.text) := by
    apply parts_of_pieces
    · rw [Text.pieces, toList_join hroot hp]
      exact hbase p.text.toList
    · simp [Text.pieces_ne_nil]
  have hcomponents : root.components = .root :: above.filterMap Component.ofSegment? := by
    rcases htext with htext | ⟨htext, hne⟩
    · -- the slash at the end of the root adds an idle segment
      simp [components, parts_of_pieces htext, Component.ofSegment?]
    · rw [components, parts_of_pieces htext hne]
      rfl
  rw [relativeTo, relativeTo?, hjoined, hcomponents]
  simp [map_dropComponents_above, tidy]

end Joined

end Path

end SelectorCheck
