import SelectorCheck.Machine
import SelectorCheck.Proofs.RelativePaths

/-
  Lookups and entries.

  A lookup goes by the text of a path, and a directory has its entries whatever can be
  looked up in it. An entry is reached by the path of its directory and its name, if names
  can be looked up there; what is reached by such a path is an entry, or what a link leads
  to that is one.

  What is proved:
    1. `follow_append`, `exists_follow_of_concat`: a lookup goes on from where the lookup
       of fewer segments ends, with links anywhere on the way.
    2. `find?_child_of_entry`, `exists_entry_of_find?_child`: lookups of the entries of a
       directory.
-/

namespace SelectorCheck

namespace Text

theorem eq_empty_of_pieces {s : String} (h : pieces '/' s = [""]) : s = "" := by
  rw [← String.toList_eq_nil_iff]
  cases hchars : s.toList with
  | nil => rfl
  | cons c cs =>
    have hne : piecesOf (· == '/') cs ≠ [] := piecesOf_ne_nil cs
    rw [pieces, hchars, piecesOf] at h
    split at h
    · simp [hne] at h
    · cases hcs : piecesOf (· == '/') cs with
      | nil => exact absurd hcs hne
      | cons p ps => simp [hcs] at h

end Text

/-! ## Paths of entries -/

namespace Path

/-- A name that an entry of a directory can have: it holds no slash and is not empty and
not a step to another directory. -/
structure IsEntry (name : String) : Prop where
  plain : Text.Plain name
  named : Component.ofSegment? name = some (.name name)

namespace IsEntry
variable {name : String} (h : IsEntry name)
include h

theorem ne_empty : name ≠ "" := by
  rintro rfl
  exact nomatch h.named

theorem ne_here : name ≠ "." := by
  rintro rfl
  exact nomatch h.named

theorem ne_up : name ≠ ".." := by
  rintro rfl
  exact nomatch h.named

theorem isAbsolute_eq_false : isAbsolute ⟨name⟩ = false := by
  cases hhead : name.toList.head? with
  | none => simp [isAbsolute, hhead]
  | some c => simpa [isAbsolute, hhead] using h.plain c (List.mem_of_head? hhead)

theorem text_child (d : Path) :
    (d.child name).text =
      if d.text = "" ∨ d.text.toList.getLast? = some '/' then d.text ++ name
      else d.text ++ "/" ++ name := by
  rw [child, join, if_neg (by simp [h.isAbsolute_eq_false])]
  split <;> rfl

theorem text_child_ne (d : Path) : (d.child name).text ≠ "" := by
  rw [h.text_child]
  split <;> simp [h.ne_empty]

theorem utf8ByteSize_child_le (d : Path) :
    (d.child name).text.utf8ByteSize ≤ d.text.utf8ByteSize + (name.utf8ByteSize + 1) := by
  rw [h.text_child]
  split <;> simp only [String.utf8ByteSize_append]
  · omega
  · have : "/".utf8ByteSize = 1 := rfl
    omega

theorem isAbsolute_child (d : Path) : (d.child name).isAbsolute = d.isAbsolute := by
  unfold isAbsolute
  rw [h.text_child]
  by_cases hd : d.text = ""
  · have hname := h.isAbsolute_eq_false
    unfold isAbsolute at hname
    simp [hd, hname]
  · obtain ⟨c, cs, hchars⟩ : ∃ c cs, d.text.toList = c :: cs :=
      List.exists_cons_of_ne_nil (by simpa using hd)
    split <;> simp [hchars]

theorem join_child (p d : Path) : p.join (d.child name) = (p.join d).child name := by
  cases habsolute : d.isAbsolute with
  | true => rw [join, if_pos (by rw [h.isAbsolute_child, habsolute]), join, if_pos habsolute]
  | false =>
    -- the text before `d` ends no name
    obtain ⟨before, hbefore, hjoin⟩ : ∃ before : String,
        (before = "" ∨ before.toList.getLast? = some '/') ∧
          ∀ q : Path, q.isAbsolute = false → p.join q = ⟨before ++ q.text⟩ := by
      by_cases hp : p.text = "" ∨ p.text.toList.getLast? = some '/'
      · exact ⟨p.text, hp, fun q hq => by simp [join, hq, hp]⟩
      · exact ⟨p.text ++ "/", by simp, fun q hq => by simp [join, hq, hp]⟩
    have hends : (before ++ d.text = "" ∨ (before ++ d.text).toList.getLast? = some '/') ↔
        (d.text = "" ∨ d.text.toList.getLast? = some '/') := by
      by_cases hd : d.text = ""
      · simpa [hd] using hbefore
      · simp [hd]
    have hchild := h.isAbsolute_child d
    rw [habsolute] at hchild
    rw [hjoin _ hchild, hjoin d habsolute, Path.mk.injEq, h.text_child, h.text_child]
    simp only [hends]
    split <;> simp [String.append_assoc]

end IsEntry

/-- The pieces of an entry are those of its directory and then its name, which stands in
place of an empty last piece. -/
theorem pieces_child {d : Path} {name : String} (h : IsEntry name) (hd : d.text ≠ "") :
    ∃ pieces, Text.pieces '/' (d.child name).text = pieces ++ [name] ∧ pieces ≠ [] ∧
      (Text.pieces '/' d.text = pieces ++ [""] ∨
        Text.pieces '/' d.text = pieces ∧ pieces ≠ [""]) := by
  have hname := Text.pieces_of_plain h.plain
  rw [h.text_child]
  by_cases hlast : d.text.toList.getLast? = some '/'
  · obtain ⟨b, hb⟩ := List.getLast?_eq_some_iff.mp hlast
    have htext : d.text = String.ofList b ++ "/" := by
      rw [← String.toList_inj, hb]; simp
    refine ⟨Text.pieces '/' (String.ofList b), ?_, Text.pieces_ne_nil _, .inl ?_⟩
    · rw [if_pos (.inr hlast), htext, Text.pieces_append_slash, hname]
    · have hpieces := Text.pieces_append_slash (String.ofList b) ""
      rwa [String.append_empty, ← htext] at hpieces
  · refine ⟨Text.pieces '/' d.text, ?_, Text.pieces_ne_nil _, .inr ⟨rfl, ?_⟩⟩
    · rw [if_neg (by simp [hd, hlast]), Text.pieces_append_slash, hname]
    · exact fun hpieces => hd (Text.eq_empty_of_pieces hpieces)

end Path

/-! ## Entries -/

namespace FileTree

def isLink : FileTree → Bool
  | link _ => true
  | _ => false

theorem mem_entries_of_child? {t u : FileTree} {name : String} (h : t.child? name = some u) :
    (name, u) ∈ t.entries := by
  obtain ⟨before, after, hentries, -⟩ := List.lookup_eq_some_iff.mp h
  simp [hentries]

theorem exists_child?_of_mem {t u : FileTree} {name : String} (h : (name, u) ∈ t.entries) :
    ∃ v, t.child? name = some v :=
  Option.isSome_iff_exists.mp (List.lookup_isSome_iff.mpr ⟨_, h, by simp⟩)

theorem isDirectory_of_mem {t : FileTree} {entry : String × FileTree} (h : entry ∈ t.entries) :
    t.isDirectory = true := by
  cases t with
  | directory entries access => rfl
  | file content => cases h
  | link target => cases h

theorem mem_of_mem_listing {t : FileTree} {name : String} (h : name ∈ t.listing) :
    name ∈ t.entries.map (·.1) := by
  unfold listing at h
  dsimp only at h
  split at h
  · exact h
  · exact List.mem_of_mem_take h

/-! ## One segment after others -/

variable {root : FileTree} {trail reached last : Trail} {segments more : List String} {s : String}

theorem step_empty_eq_onward_iff :
    root.step reached "" = .onward last ↔
      (reached.target root).isDirectory = true ∧ reached = last := by
  unfold step
  cases hdirectory : (reached.target root).isDirectory <;> simp [hdirectory]

theorem step_empty_ne_link (target : Path) : root.step reached "" ≠ .link target := by
  unfold step
  cases hdirectory : (reached.target root).isDirectory <;> simp [hdirectory]

section Entry
variable {name : String} (h : Path.IsEntry name)
include h

theorem step_of_entry {t u : FileTree} (ht : reached.target root = t)
    (hdirectory : t.isDirectory = true) (hsearch : t.access.search = true)
    (hu : t.child? name = some u) (hlink : ∀ target, u ≠ .link target) :
    root.step reached name = .onward ((name, u) :: reached) := by
  simp only [step, ht, hdirectory, hsearch, h.ne_empty, h.ne_here, h.ne_up, hu, Bool.not_true,
    Bool.false_eq_true, if_false]

theorem exists_entry_of_step
    (hstep : root.step reached name = .onward last ∨ ∃ target, root.step reached name = .link target) :
    (reached.target root).isDirectory = true ∧
      ∃ u, (reached.target root).child? name = some u := by
  simp only [step, h.ne_empty, h.ne_here, h.ne_up, if_false] at hstep
  cases hdirectory : (reached.target root).isDirectory with
  | false => simp [hdirectory] at hstep
  | true =>
    refine ⟨rfl, ?_⟩
    cases hu : (reached.target root).child? name with
    | some u => exact ⟨u, rfl⟩
    | none =>
      rw [hu] at hstep
      cases hsearch : (reached.target root).access.search <;> simp [hdirectory, hsearch] at hstep

end Entry

/-! ## Lookups of more segments -/

theorem followNames_append {atLink : Trail → Path → List String → Except SystemError Trail}
    (hlink : ∀ trail target rest, atLink trail target rest = .ok reached →
      atLink trail target (rest ++ more) = .ok last)
    (hmore : root.followNames false atLink reached more = .ok last)
    (h : root.followNames false atLink trail segments = .ok reached) :
    root.followNames false atLink trail (segments ++ more) = .ok last := by
  induction segments generalizing trail with
  | nil =>
    obtain rfl := Except.ok.inj h
    exact hmore
  | cons s rest ih =>
    rw [List.cons_append, followNames]
    rw [followNames] at h
    cases hstep : root.step trail s with
    | onward next => rw [hstep] at h; exact ih h
    | link target => rw [hstep] at h; exact hlink _ _ _ h
    | missing => simp [hstep] at h
    | refused e => simp [hstep] at h

/-- A lookup goes on with more segments, if these are followed without links. -/
theorem follow_append {links : Nat}
    (hmore : ∀ atLink, root.followNames false atLink reached more = .ok last)
    (h : root.follow false links trail segments = .ok reached) :
    root.follow false links trail (segments ++ more) = .ok last := by
  -- what stands after a link is looked up with one link less
  induction links generalizing trail segments with
  | zero => exact followNames_append (by simp) (hmore _) h
  | succ links ih =>
    refine followNames_append ?_ (hmore _) h
    intro trail target rest htarget
    split at htarget
    · cases htarget
    · rw [if_neg ‹_›, ← List.append_assoc]
      exact ih htarget

theorem exists_followNames_of_concat
    {atLink : Trail → Path → List String → Except SystemError Trail}
    (hlink : ∀ trail target rest, atLink trail target (rest ++ [s]) = .ok last →
      ∃ reached, atLink trail target rest = .ok reached ∧
        (root.step reached s = .onward last ∨ ∃ target, root.step reached s = .link target))
    (h : root.followNames false atLink trail (segments ++ [s]) = .ok last) :
    ∃ reached, root.followNames false atLink trail segments = .ok reached ∧
      (root.step reached s = .onward last ∨ ∃ target, root.step reached s = .link target) := by
  induction segments generalizing trail with
  | nil =>
    refine ⟨trail, rfl, ?_⟩
    rw [List.nil_append, followNames] at h
    cases hstep : root.step trail s with
    | onward next =>
      simp only [hstep, followNames, Except.ok.injEq] at h
      exact .inl (by rw [h])
    | link target => exact .inr ⟨target, rfl⟩
    | missing => simp [hstep] at h
    | refused e => simp [hstep] at h
  | cons first rest ih =>
    rw [List.cons_append, followNames] at h
    rw [followNames]
    cases hstep : root.step trail first with
    | onward next => rw [hstep] at h; exact ih h
    | link target => rw [hstep] at h; exact hlink _ _ _ h
    | missing => simp [hstep] at h
    | refused e => simp [hstep] at h

/-- A lookup that goes through all segments goes through all but the last one, and leads
on from there. -/
theorem exists_follow_of_concat {links : Nat}
    (h : root.follow false links trail (segments ++ [s]) = .ok last) :
    ∃ reached, root.follow false links trail segments = .ok reached ∧
      (root.step reached s = .onward last ∨ ∃ target, root.step reached s = .link target) := by
  induction links generalizing trail segments with
  | zero => exact exists_followNames_of_concat (by simp) h
  | succ links ih =>
    refine exists_followNames_of_concat ?_ h
    intro trail target rest htarget
    split at htarget
    · cases htarget
    · rw [if_neg ‹_›]
      rw [← List.append_assoc] at htarget
      exact ih htarget

/-! ## Entries by their paths -/

section Child
variable {p : Path} {name : String} {t u : FileTree}

theorem find?_eq_some_iff :
    root.find? p = some t ↔ ∃ trail, root.trail p = .ok trail ∧ trail.target root = t := by
  unfold find?
  cases root.trail p <;> simp [Except.toOption]

theorem trail_of_pieces (h : Text.pieces '/' p.text = "" :: segments) (hne : segments ≠ []) :
    root.trail p = root.follow false maxLinks [] segments := by
  obtain ⟨s, rest, rfl⟩ := List.exists_cons_of_ne_nil hne
  simp only [FileTree.trail, h]

theorem exists_pieces_of_trail (h : root.trail p = .ok trail) :
    ∃ segments, Text.pieces '/' p.text = "" :: segments ∧ segments ≠ [] := by
  unfold FileTree.trail at h
  split at h
  next s rest hpieces => exact ⟨s :: rest, hpieces, by simp⟩
  next => cases h

/-- The lookup of an entry is that of its directory with one more segment, whether or not
the path of the directory ends in a slash. -/
theorem exists_segments_of_child (h : Path.IsEntry name) {tail : List String}
    (hp : Text.pieces '/' p.text = "" :: tail) (hne : tail ≠ []) :
    ∃ segments,
      root.trail (p.child name) = root.follow false maxLinks [] (segments ++ [name]) ∧
      ∀ reached, (reached.target root).isDirectory = true →
        (root.trail p = .ok reached ↔
          root.follow false maxLinks [] segments = .ok reached) := by
  have htext : p.text ≠ "" := by
    intro hempty
    rw [hempty] at hp
    exact hne (List.cons.inj hp).2.symm
  obtain ⟨pieces, hchild, hpieces, hslash | ⟨hplain, -⟩⟩ := Path.pieces_child h htext
  · obtain ⟨first, segments, rfl⟩ := List.exists_cons_of_ne_nil hpieces
    rw [hp, List.cons_append] at hslash
    obtain ⟨rfl, rfl⟩ := List.cons.inj hslash
    rw [List.cons_append] at hchild
    refine ⟨segments, trail_of_pieces hchild (by simp), fun reached hdirectory => ?_⟩
    rw [trail_of_pieces hp hne]
    refine ⟨fun hreached => ?_, fun hreached => ?_⟩
    · obtain ⟨before, hbefore, hstep | ⟨target, hstep⟩⟩ := exists_follow_of_concat hreached
      · rwa [(step_empty_eq_onward_iff.mp hstep).2] at hbefore
      · exact absurd hstep (step_empty_ne_link target)
    · refine follow_append (fun atLink => ?_) hreached
      rw [followNames, step_empty_eq_onward_iff.mpr ⟨hdirectory, rfl⟩]
      rfl
  · rw [← hplain, hp, List.cons_append] at hchild
    exact ⟨tail, trail_of_pieces hchild (by simp), fun reached _ => by rw [trail_of_pieces hp hne]⟩

theorem find?_child_of_entry (h : Path.IsEntry name) (ht : root.find? p = some t)
    (hdirectory : t.isDirectory = true) (hsearch : t.access.search = true)
    (hu : t.child? name = some u) (hlink : ∀ target, u ≠ .link target) :
    root.find? (p.child name) = some u := by
  obtain ⟨reached, hreached, htarget⟩ := find?_eq_some_iff.mp ht
  obtain ⟨tail, hp, hne⟩ := exists_pieces_of_trail hreached
  obtain ⟨segments, hchild, hparent⟩ := exists_segments_of_child h hp hne
  have hfollow := (hparent reached (htarget ▸ hdirectory)).mp hreached
  have hstep := step_of_entry h htarget hdirectory hsearch hu hlink
  rw [find?_eq_some_iff]
  refine ⟨(name, u) :: reached, ?_, rfl⟩
  rw [hchild]
  refine follow_append (fun atLink => ?_) hfollow
  rw [followNames, hstep]
  rfl

theorem exists_entry_of_find?_child (h : Path.IsEntry name)
    (hfind : root.find? (p.child name) = some u) :
    ∃ t, root.find? p = some t ∧ t.isDirectory = true ∧ ∃ v, t.child? name = some v := by
  obtain ⟨last, hlast, -⟩ := find?_eq_some_iff.mp hfind
  obtain ⟨tail, hp, hne⟩ : ∃ tail, Text.pieces '/' p.text = "" :: tail ∧ tail ≠ [] := by
    obtain ⟨rest, hrest, hrestNe⟩ := exists_pieces_of_trail hlast
    by_cases htext : p.text = ""
    · -- the entry of no directory is a name, and starts at no root
      rw [h.text_child, if_pos (.inl htext), htext, String.empty_append,
        Text.pieces_of_plain h.plain] at hrest
      exact absurd (List.cons.inj hrest).2.symm hrestNe
    · obtain ⟨pieces, hchild, hpieces, hparent⟩ := Path.pieces_child h htext
      obtain ⟨first, segments, rfl⟩ := List.exists_cons_of_ne_nil hpieces
      rw [hchild, List.cons_append] at hrest
      obtain ⟨rfl, -⟩ := List.cons.inj hrest
      rcases hparent with hslash | ⟨hplain, hnotEmpty⟩
      · exact ⟨_, hslash, by simp⟩
      · exact ⟨segments, hplain, fun hnil => hnotEmpty (by rw [hnil])⟩
  obtain ⟨segments, hchild, hparent⟩ := exists_segments_of_child h hp hne
  rw [hchild] at hlast
  obtain ⟨reached, hreached, hstep⟩ := exists_follow_of_concat hlast
  obtain ⟨hdirectory, v, hv⟩ := exists_entry_of_step h hstep
  exact ⟨_, find?_eq_some_iff.mpr ⟨reached, (hparent reached hdirectory).mpr hreached, rfl⟩,
    hdirectory, v, hv⟩

end Child

end FileTree

end SelectorCheck
