import Mathlib.Data.List.Infix
import SelectorCheck.Command.ConfigSource
import SelectorCheck.Proofs.Lookup

/-
  Where the configuration is found.

  The search goes from a place outward, directory by directory. A directory is first asked
  for its own configuration and then for the signs of a boundary, so a boundary directory
  is still searched and nothing above it is. What is said here does not depend on the
  spelling of the place: the directories of the search are the initial segments of its
  components, and the file that is found lies in one of them only.

  A sign counts if it is seen. A link `.git` that leads nowhere, a directory that cannot
  be searched or listed, and a path that is too long for the system hide one, and then the
  search goes on past the directory that holds it.

  What is proved:
    1. `components_ancestors`, `components_child`: the components of the directories above
       a place and of their entries.
    2. `searchIn_eq_some_iff`, `isBoundary_iff`: what a search through directories finds,
       and what ends it.
    3. `holdsSign_of_bounds`, `bounds_of_holdsSign`: the signs that are seen and those that
       are held.
    4. `source_is_nearest`: where the configuration comes from, for every file system,
       place, named file and directory for all projects.
    5. `dangling_repository_passed`: a sign that is held and not seen.
-/

namespace SelectorCheck

/-! ## The directories above a place -/

namespace Path

theorem components_above {start : Option Component} {backwards : List String}
    (h : Spelled start backwards.reverse) :
    (start.toList ++ backwards.reverse.filterMap Component.ofSegment?) ::
        (above start backwards).map components =
      (backwards.reverse.filterMap Component.ofSegment?).inits.reverse.map (start.toList ++ ·) ++
        if start = some .here then [[]] else [] := by
  induction backwards with
  | nil =>
    by_cases hstart : start = some .here
    · subst hstart; rfl
    · simp [above, hstart]
  | cons s before ih =>
    rw [List.reverse_cons] at h ⊢
    have hbefore : Spelled start before.reverse := h.of_isPrefix (List.prefix_append _ _)
    have ih := ih hbefore
    rw [above, List.filterMap_append]
    cases hs : isIdle s with
    | true => simpa [ofSegment?_of_isIdle hs] using ih
    | false =>
      obtain ⟨c, hc⟩ : ∃ c, Component.ofSegment? s = some c :=
        Option.isSome_iff_exists.mp (by simpa [isIdle] using hs)
      have hspell : (spell start (Path.trimEnd before.reverse)).components =
          start.toList ++ before.reverse.filterMap Component.ofSegment? := by
        rw [components_spell hbefore.trimEnd, filterMap_trimEnd]
      have hlast : [s].filterMap Component.ofSegment? = [c] := by simp [hc]
      rw [if_neg (by simp), List.map_cons, hspell, ih, hlast, List.inits_append]
      simp

theorem root_notMem_filterMap (segments : List String) :
    Component.root ∉ segments.filterMap Component.ofSegment? := by
  intro h
  obtain ⟨s, -, hs⟩ := List.mem_filterMap.mp h
  unfold Component.ofSegment? at hs
  split_ifs at hs <;> cases hs

/-- The directories of a search are the initial segments of the components of its start,
the longest first. The empty one, where a relative start ends, is not above the root. -/
theorem components_ancestors (p : Path) :
    p.ancestors.map components =
      if p.components.head? = some .root then p.components.inits.tail.reverse
      else p.components.inits.reverse := by
  have hspelled : Spelled p.parts.1 p.parts.2.reverse.reverse := by
    rw [List.reverse_reverse]; exact p.parts_spelled
  have habove := components_above hspelled
  rw [List.reverse_reverse] at habove
  have hhead : (p.parts.2.filterMap Component.ofSegment?).head? ≠ some .root :=
    fun h => root_notMem_filterMap _ (List.mem_of_head? h)
  have hcomponents : p.components =
    p.parts.1.toList ++ p.parts.2.filterMap Component.ofSegment? := rfl
  rw [ancestors, List.map_cons, hcomponents, habove]
  generalize p.parts.2.filterMap Component.ofSegment? = cs at hhead ⊢
  rcases hspelled.known with hstart | hstart | hstart <;> rw [hstart]
  · simp [hhead]
  · simp
  · simp

theorem pairwise_length_inits {α : Type} (as : List α) :
    as.inits.Pairwise fun front longer => front.length < longer.length := by
  induction as with
  | nil => simp
  | cons a as ih =>
    rw [List.inits_cons, List.pairwise_cons]
    refine ⟨by simp, List.pairwise_map.mpr (ih.imp fun hlt => by simpa using hlt)⟩

theorem pairwise_ancestors (p : Path) :
    p.ancestors.Pairwise fun d e => e.components.length < d.components.length := by
  have hinits := pairwise_length_inits p.components
  have hchain : (p.ancestors.map components).Pairwise fun cs ds => ds.length < cs.length := by
    rw [components_ancestors]
    split
    · exact List.pairwise_reverse.mpr hinits.tail
    · exact List.pairwise_reverse.mpr hinits
  exact List.pairwise_map.mp hchain

/-! ## The entries of a directory -/

/-- What the first piece of a path with more pieces stands for. -/
def startOf (s : String) : List Component :=
  if s = "" then [.root] else if s = "." then [.here] else (Component.ofSegment? s).toList

theorem components_of_pieces {p : Path} {s : String} {rest : List String}
    (h : Text.pieces '/' p.text = s :: rest) (hne : rest = [] → s ≠ "") :
    p.components = startOf s ++ rest.filterMap Component.ofSegment? := by
  unfold components parts startOf
  rw [h]
  split
  next heq =>
    obtain ⟨rfl, rfl⟩ := List.cons.inj heq
    rw [if_neg fun hnil => hne hnil rfl]
    rfl
  next heq => obtain ⟨rfl, rfl⟩ := List.cons.inj heq; rfl
  next hempty hhere =>
    have hs : s ≠ "" := fun e => hempty rest (by rw [e])
    have hdot : s ≠ "." := fun e => hhere rest (by rw [e])
    rw [if_neg hs, if_neg hdot, List.filterMap_cons]
    cases Component.ofSegment? s <;> rfl

theorem IsEntry.startOf {name : String} (h : IsEntry name) : startOf name = [.name name] := by
  rw [Path.startOf, if_neg h.ne_empty, if_neg h.ne_here, h.named]
  rfl

theorem components_child (d : Path) {name : String} (h : IsEntry name) :
    (d.child name).components = d.components ++ [.name name] := by
  have hname : [name].filterMap Component.ofSegment? = [.name name] := by simp [h.named]
  by_cases hd : d.text = ""
  · have htext : (d.child name).text = name := by
      rw [h.text_child, if_pos (.inl hd), hd, String.empty_append]
    have hpieces : Text.pieces '/' (d.child name).text = [name] := by
      rw [htext, Text.pieces_of_plain h.plain]
    have hnone : d.components = [] := by
      obtain ⟨text⟩ := d
      subst hd
      rfl
    rw [components_of_pieces hpieces fun _ => h.ne_empty, h.startOf, hnone]
    rfl
  · obtain ⟨pieces, hchild, hne, hdirectory⟩ := pieces_child h hd
    obtain ⟨s, rest, rfl⟩ := List.exists_cons_of_ne_nil hne
    rw [List.cons_append] at hchild
    rw [components_of_pieces hchild (by simp), List.filterMap_append, hname]
    rcases hdirectory with hslash | ⟨hplain, hnotEmpty⟩
    · rw [List.cons_append] at hslash
      rw [components_of_pieces hslash (by simp), List.filterMap_append]
      simp [Component.ofSegment?]
    · rw [components_of_pieces hplain fun hnil e => hnotEmpty (by rw [hnil, e])]
      simp

theorem nameExtension?_append {stem extension : String} (hstem : stem ≠ "")
    (hplain : '.' ∉ extension.toList) :
    nameExtension? (stem ++ "." ++ extension) = some extension := by
  have hchars : (stem ++ "." ++ extension).toList.reverse =
      extension.toList.reverse ++ '.' :: stem.toList.reverse := by simp
  have hending : ∀ c ∈ extension.toList.reverse, decide (c ≠ '.') = true := by
    intro c hc
    exact decide_eq_true fun e => hplain (by simpa [e] using hc)
  obtain ⟨x, before, hbefore⟩ : ∃ x before, stem.toList.reverse = x :: before :=
    List.exists_cons_of_ne_nil (by simpa using hstem)
  simp only [nameExtension?, hchars, hbefore, List.dropWhile_append_of_pos hending,
    List.takeWhile_append_of_pos hending]
  simp

theorem exists_stem_of_nameExtension? {name extension : String}
    (h : nameExtension? name = some extension) :
    '.' ∉ extension.toList ∧ ∃ stem, stem ≠ "" ∧ name = stem ++ "." ++ extension := by
  unfold nameExtension? at h
  have hsplit := List.takeWhile_append_dropWhile (p := (· ≠ '.')) (l := name.toList.reverse)
  have hdot := List.head?_dropWhile_not (· ≠ '.') name.toList.reverse
  have hplain : ∀ c ∈ name.toList.reverse.takeWhile (· ≠ '.'), c ≠ '.' := by
    intro c hc
    simpa using List.all_eq_true.mp List.all_takeWhile c hc
  dsimp only at h
  generalize name.toList.reverse.takeWhile (· ≠ '.') = ending at h hsplit hplain
  generalize name.toList.reverse.dropWhile (· ≠ '.') = rest at h hsplit hdot
  match rest with
  | [] => cases h
  | [_] => cases h
  | c :: x :: before =>
    obtain rfl : String.ofList ending.reverse = extension := Option.some.inj h
    obtain rfl : c = '.' := by simpa using hdot
    refine ⟨fun hmem => hplain '.' (by simpa using hmem) rfl, ?_⟩
    refine ⟨String.ofList (x :: before).reverse, by simp, ?_⟩
    rw [← String.toList_inj, ← List.reverse_inj, ← hsplit]
    simp

theorem nameExtension?_eq_some_iff {name extension : String} :
    nameExtension? name = some extension ↔
      '.' ∉ extension.toList ∧ ∃ stem, stem ≠ "" ∧ name = stem ++ "." ++ extension := by
  refine ⟨exists_stem_of_nameExtension?, ?_⟩
  rintro ⟨hplain, stem, hstem, rfl⟩
  exact nameExtension?_append hstem hplain

end Path

/-! ## Configurations and boundaries -/

namespace Machine

open Command

/-- The directory holds a file with the name. -/
def HoldsFile (m : Machine) (d : Path) (name : String) : Prop :=
  ∃ content, m.find? (d.child name) = some (.file content)

/-- The name of the configuration file that a directory holds: the plain name is
preferred to the hidden one. -/
inductive ConfigName (m : Machine) (d : Path) : String → Prop where
  | plain : m.HoldsFile d "selector-lint.toml" → ConfigName m d "selector-lint.toml"
  | hidden : ¬ m.HoldsFile d "selector-lint.toml" → m.HoldsFile d ".selector-lint.toml" →
      ConfigName m d ".selector-lint.toml"

/-- The directory holds a configuration file, under either name. -/
def HoldsConfig (m : Machine) (d : Path) : Prop :=
  m.HoldsFile d "selector-lint.toml" ∨ m.HoldsFile d ".selector-lint.toml"

/-- A repository or a solution is seen in the directory. -/
def Bounds (m : Machine) (d : Path) : Prop :=
  m.find? (d.child ".git") ≠ none ∨ ∃ stem, stem ≠ "" ∧ stem ++ ".sln" ∈ m.listing d

/-- The directory is on the way from the start outward, holds a configuration, and no
directory nearer to the start holds a configuration or ends the search. -/
def Nearest (m : Machine) (ends : Path → Prop) (start d : Path) : Prop :=
  ∃ nearer farther, start.ancestors = nearer ++ d :: farther ∧
    (∀ e ∈ nearer, ¬ m.HoldsConfig e ∧ ¬ ends e) ∧ m.HoldsConfig d

variable {m : Machine} {d file : Path}

theorem isFile_child_iff {name : String} :
    m.isFile (d.child name) = true ↔ m.HoldsFile d name := by
  unfold isFile HoldsFile
  cases m.find? (d.child name) with
  | none => simp
  | some t => cases t <;> simp [FileTree.isFile]

theorem holdsConfig_iff_exists : m.HoldsConfig d ↔ ∃ name, m.ConfigName d name := by
  constructor
  · intro h
    by_cases hplain : m.HoldsFile d "selector-lint.toml"
    · exact ⟨_, .plain hplain⟩
    · exact ⟨_, .hidden hplain (h.resolve_left hplain)⟩
  · rintro ⟨name, hplain | ⟨-, hhidden⟩⟩
    · exact .inl hplain
    · exact .inr hhidden

theorem projectFile?_eq_some_iff :
    m.projectFile? d = some file ↔ ∃ name, m.ConfigName d name ∧ file = d.child name := by
  simp only [projectFile?, ConfigSource.projectNames, List.map_cons, List.map_nil,
    List.find?_cons]
  constructor
  · intro h
    split at h
    next hplain => exact ⟨_, .plain (isFile_child_iff.mp hplain), (Option.some.inj h).symm⟩
    next hplain =>
      split at h
      next hhidden =>
        refine ⟨_, .hidden ?_ (isFile_child_iff.mp hhidden), (Option.some.inj h).symm⟩
        rw [← isFile_child_iff, hplain]
        exact Bool.false_ne_true
      next => cases h
  · rintro ⟨name, hname, rfl⟩
    cases hname with
    | plain hplain => rw [isFile_child_iff.mpr hplain]
    | hidden hplain hhidden =>
      rw [← isFile_child_iff, Bool.not_eq_true] at hplain
      rw [hplain, isFile_child_iff.mpr hhidden]

theorem projectFile?_eq_none_iff : m.projectFile? d = none ↔ ¬ m.HoldsConfig d := by
  rw [holdsConfig_iff_exists, Option.eq_none_iff_forall_ne_some]
  constructor
  · rintro h ⟨name, hname⟩
    exact h _ (projectFile?_eq_some_iff.mpr ⟨name, hname, rfl⟩)
  · intro h file hfile
    obtain ⟨name, hname, -⟩ := projectFile?_eq_some_iff.mp hfile
    exact h ⟨name, hname⟩

theorem isBoundary_iff : m.isBoundary d = true ↔ m.Bounds d := by
  have hsln : ∀ name, Path.nameExtension? name = some "sln" ↔
      ∃ stem, stem ≠ "" ∧ name = stem ++ ".sln" := by
    intro name
    simp only [Path.nameExtension?_eq_some_iff, String.append_assoc]
    exact and_iff_right (by decide)
  rw [isBoundary, Bool.or_eq_true, present, Option.isSome_iff_ne_none]
  refine or_congr_right ?_
  simp only [List.any_eq_true, beq_iff_eq, hsln]
  refine ⟨?_, ?_⟩
  · rintro ⟨_, hlisted, stem, hstem, rfl⟩
    exact ⟨stem, hstem, hlisted⟩
  · rintro ⟨stem, hstem, hlisted⟩
    exact ⟨_, hlisted, stem, hstem, rfl⟩

theorem searchIn_cons_of_projectFile? {farther : List Path} (h : m.projectFile? d = some file) :
    m.searchIn (d :: farther) = some file := by
  rw [searchIn, h]

theorem searchIn_cons_of_bounds {farther : List Path} (hconfig : ¬ m.HoldsConfig d)
    (hbounds : m.Bounds d) : m.searchIn (d :: farther) = none := by
  rw [searchIn, projectFile?_eq_none_iff.mpr hconfig, if_pos (isBoundary_iff.mpr hbounds)]

theorem searchIn_cons_of_passed {farther : List Path} (hconfig : ¬ m.HoldsConfig d)
    (hbounds : ¬ m.Bounds d) : m.searchIn (d :: farther) = m.searchIn farther := by
  rw [searchIn, projectFile?_eq_none_iff.mpr hconfig, if_neg (mt isBoundary_iff.mp hbounds)]

/-- A search through directories finds the file of the first that holds one, if none
before it ends the search. -/
theorem searchIn_eq_some_iff {directories : List Path} :
    m.searchIn directories = some file ↔
      ∃ nearer d farther, directories = nearer ++ d :: farther ∧
        (∀ e ∈ nearer, ¬ m.HoldsConfig e ∧ ¬ m.Bounds e) ∧
        ∃ name, m.ConfigName d name ∧ file = d.child name := by
  constructor
  · intro h
    induction directories with
    | nil => cases h
    | cons d rest ih =>
      cases hfile : m.projectFile? d with
      | some found =>
        rw [searchIn_cons_of_projectFile? hfile, Option.some.injEq] at h
        subst h
        exact ⟨[], d, rest, rfl, by simp, projectFile?_eq_some_iff.mp hfile⟩
      | none =>
        have hconfig := projectFile?_eq_none_iff.mp hfile
        by_cases hbounds : m.Bounds d
        · rw [searchIn_cons_of_bounds hconfig hbounds] at h
          cases h
        · rw [searchIn_cons_of_passed hconfig hbounds] at h
          obtain ⟨nearer, e, farther, rfl, hnearer, hfound⟩ := ih h
          exact ⟨d :: nearer, e, farther, rfl,
            List.forall_mem_cons.mpr ⟨⟨hconfig, hbounds⟩, hnearer⟩, hfound⟩
  · rintro ⟨nearer, d, farther, rfl, hnearer, hfound⟩
    induction nearer with
    | nil => exact searchIn_cons_of_projectFile? (projectFile?_eq_some_iff.mpr hfound)
    | cons e nearer ih =>
      obtain ⟨⟨hconfig, hbounds⟩, hrest⟩ := List.forall_mem_cons.mp hnearer
      rw [List.cons_append, searchIn_cons_of_passed hconfig hbounds]
      exact ih hrest

/-! ## Where the configuration comes from -/

theorem isEntry_of_mem_projectNames {name : String} (h : name ∈ ConfigSource.projectNames) :
    Path.IsEntry name := by
  simp only [ConfigSource.projectNames, List.mem_cons, List.not_mem_nil, or_false] at h
  rcases h with rfl | rfl
  · exact ⟨by simp [Text.Plain], by decide⟩
  · exact ⟨by simp [Text.Plain], by decide⟩

theorem ConfigName.mem_projectNames {name : String} (h : m.ConfigName d name) :
    name ∈ ConfigSource.projectNames := by
  cases h <;> simp [ConfigSource.projectNames]

section Source
variable {start : Path} {globalDirectory : Option Path}

theorem searchIn_ancestors_eq_some_iff :
    m.searchIn start.ancestors = some file ↔
      ∃ d name, m.Nearest m.Bounds start d ∧ m.ConfigName d name ∧ file = d.child name := by
  rw [searchIn_eq_some_iff]
  constructor
  · rintro ⟨nearer, d, farther, hchain, hnearer, name, hname, hfile⟩
    have hconfig : m.HoldsConfig d := holdsConfig_iff_exists.mpr ⟨name, hname⟩
    exact ⟨d, name, ⟨nearer, farther, hchain, hnearer, hconfig⟩, hname, hfile⟩
  · rintro ⟨d, name, ⟨nearer, farther, hchain, hnearer, -⟩, hname, hfile⟩
    exact ⟨nearer, d, farther, hchain, hnearer, name, hname, hfile⟩

theorem searchIn_ancestors_eq_none_iff :
    m.searchIn start.ancestors = none ↔ ∀ d, ¬ m.Nearest m.Bounds start d := by
  rw [Option.eq_none_iff_forall_ne_some]
  constructor
  · rintro h d ⟨nearer, farther, hchain, hnearer, hconfig⟩
    obtain ⟨name, hname⟩ := holdsConfig_iff_exists.mp hconfig
    exact h _ (searchIn_eq_some_iff.mpr ⟨nearer, d, farther, hchain, hnearer, name, hname, rfl⟩)
  · intro h file hfile
    obtain ⟨d, -, hd, -, -⟩ := searchIn_ancestors_eq_some_iff.mp hfile
    exact h d hd

theorem sourceFrom_of_found (h : m.searchIn start.ancestors = some file) :
    m.sourceFrom start none globalDirectory = .project file := by
  rw [sourceFrom, h]

theorem sourceFrom_of_not_found (h : m.searchIn start.ancestors = none)
    (globalDirectory : Option Path) :
    (∃ g, globalDirectory = some g ∧ m.find? (g.child "config.toml") ≠ none ∧
      m.sourceFrom start none globalDirectory = .global (g.child "config.toml")) ∨
    (∀ g, globalDirectory = some g → m.find? (g.child "config.toml") = none) ∧
      m.sourceFrom start none globalDirectory = .default := by
  rw [sourceFrom, h]
  cases globalDirectory with
  | none => exact .inr ⟨nofun, rfl⟩
  | some g =>
    cases hfind : m.find? (g.child "config.toml") with
    | none =>
      refine .inr ⟨?_, by simp [ConfigSource.globalName, present, hfind]⟩
      rintro _ ⟨⟩
      exact hfind
    | some t =>
      exact .inl ⟨g, rfl, by simp [hfind], by simp [ConfigSource.globalName, present, hfind]⟩

theorem sourceFrom_eq_project_iff :
    m.sourceFrom start none globalDirectory = .project file ↔
      m.searchIn start.ancestors = some file := by
  refine ⟨fun h => ?_, sourceFrom_of_found⟩
  cases hsearch : m.searchIn start.ancestors with
  | some found =>
    rw [sourceFrom_of_found hsearch] at h
    cases h
    rfl
  | none =>
    rcases sourceFrom_of_not_found hsearch globalDirectory with ⟨g, -, -, hsource⟩ | ⟨-, hsource⟩
    · cases hsource.symm.trans h
    · cases hsource.symm.trans h

theorem sourceFrom_eq_global_iff :
    m.sourceFrom start none globalDirectory = .global file ↔
      m.searchIn start.ancestors = none ∧
        ∃ g, globalDirectory = some g ∧ file = g.child "config.toml" ∧ m.find? file ≠ none := by
  cases hsearch : m.searchIn start.ancestors with
  | some found => simp [sourceFrom_of_found hsearch]
  | none =>
    rcases sourceFrom_of_not_found hsearch globalDirectory with
      ⟨g, rfl, hfind, hsource⟩ | ⟨hnone, hsource⟩
    · rw [hsource]
      constructor
      · rintro ⟨⟩
        exact ⟨rfl, g, rfl, rfl, hfind⟩
      · rintro ⟨-, _, ⟨⟩, rfl, -⟩
        rfl
    · rw [hsource]
      refine ⟨nofun, ?_⟩
      rintro ⟨-, g, hg, rfl, hfind⟩
      exact absurd (hnone g hg) hfind

theorem sourceFrom_eq_default_iff :
    m.sourceFrom start none globalDirectory = .default ↔
      m.searchIn start.ancestors = none ∧
        ∀ g, globalDirectory = some g → m.find? (g.child "config.toml") = none := by
  cases hsearch : m.searchIn start.ancestors with
  | some found => simp [sourceFrom_of_found hsearch]
  | none =>
    rcases sourceFrom_of_not_found hsearch globalDirectory with
      ⟨g, rfl, hfind, hsource⟩ | ⟨hnone, hsource⟩
    · rw [hsource]
      refine ⟨nofun, ?_⟩
      rintro ⟨-, hnone⟩
      exact absurd (hnone g rfl) hfind
    · exact ⟨fun _ => ⟨rfl, hnone⟩, fun _ => hsource⟩

theorem subset_of_append_cons_eq {α : Type} {b d : α} {nearer above passed farther : List α}
    (h : nearer ++ b :: above = passed ++ d :: farther) (hb : b ∉ passed) : above ⊆ farther := by
  rcases List.append_eq_append_iff.mp h with ⟨between, rfl, htail⟩ | ⟨between, rfl, htail⟩
  · cases between with
    | nil => exact (List.cons.inj htail).2 ▸ List.Subset.refl _
    | cons x between =>
      obtain ⟨rfl, -⟩ := List.cons.inj htail
      exact absurd (by simp) hb
  · cases between with
    | nil => exact (List.cons.inj htail).2 ▸ List.Subset.refl _
    | cons x between =>
      rw [(List.cons.inj htail).2]
      exact fun e he => by simp [he]

theorem components_ne_of_searchIn {nearer above : List Path} {b e : Path} {name : String}
    (hchain : start.ancestors = nearer ++ b :: above) (hb : m.Bounds b) (he : e ∈ above)
    (hname : name ∈ ConfigSource.projectNames)
    (hfile : m.searchIn start.ancestors = some file) :
    file.components ≠ (e.child name).components := by
  obtain ⟨passed, d, farther, hsplit, hpassed, found, hfound, rfl⟩ :=
    searchIn_eq_some_iff.mp hfile
  -- the boundary was not passed, so what is above it is farther than where the search ended
  have hfarther : e ∈ farther :=
    subset_of_append_cons_eq (hchain.symm.trans hsplit) (fun h => (hpassed b h).2 hb) he
  have hlength : e.components.length < d.components.length := by
    have hpairwise := start.pairwise_ancestors
    rw [hsplit, List.pairwise_append, List.pairwise_cons] at hpairwise
    exact hpairwise.2.1.1 e hfarther
  rw [Path.components_child d (isEntry_of_mem_projectNames hfound.mem_projectNames),
    Path.components_child e (isEntry_of_mem_projectNames hname)]
  intro heq
  have hequal := congrArg List.length heq
  simp only [List.length_append, List.length_singleton] at hequal
  omega

end Source

/-! ## Signs that are held and signs that are seen -/

/-- What is at a path, whatever its length. -/
def place? (m : Machine) (d : Path) : Option FileTree := m.disk.find? (m.current.join d)

/-- The directory has an entry for a repository or a solution, whatever can be seen of
it. -/
def HoldsSign (m : Machine) (d : Path) : Prop :=
  ∃ t ∈ m.place? d, ∃ entry ∈ t.entries,
    entry.1 = ".git" ∨ ∃ stem, stem ≠ "" ∧ entry.1 = stem ++ ".sln"

/-- Nothing hides the signs in the directory. -/
structure Open (m : Machine) (d : Path) : Prop where
  named : d.text ≠ ""
  /-- There is room for a slash and `.git` after the path. -/
  short : d.text.utf8ByteSize + 5 ≤ maxPathBytes
  /-- Names can be looked up and listed. -/
  access : ∀ t ∈ m.place? d, t.access = {}
  /-- A link `.git` leads somewhere. -/
  leads : ∀ t ∈ m.place? d, (t.child? ".git").any FileTree.isLink = true →
    m.present (d.child ".git") = true

theorem find?_eq_place? (hnamed : d.text ≠ "") (hshort : d.text.utf8ByteSize ≤ maxPathBytes) :
    m.find? d = m.place? d := by
  rw [find?, trail, if_neg hnamed, if_neg (Nat.not_lt.mpr hshort)]
  rfl

theorem place?_of_find? {t : FileTree} (h : m.find? d = some t) : m.place? d = some t := by
  unfold find? trail at h
  split at h
  · cases h
  · split at h
    · cases h
    · exact h

theorem place?_child {name : String} (h : Path.IsEntry name) :
    m.place? (d.child name) = m.disk.find? ((m.current.join d).child name) := by
  rw [place?, h.join_child]

theorem isEntry_git : Path.IsEntry ".git" := ⟨by simp [Text.Plain], by decide⟩

/-- What is seen is held. -/
theorem holdsSign_of_bounds (h : m.Bounds d) : m.HoldsSign d := by
  rcases h with hgit | ⟨stem, hstem, hlisted⟩
  · obtain ⟨u, hu⟩ := Option.ne_none_iff_exists'.mp hgit
    have hplace := place?_of_find? hu
    rw [place?_child isEntry_git] at hplace
    obtain ⟨t, ht, -, v, hv⟩ := FileTree.exists_entry_of_find?_child isEntry_git hplace
    exact ⟨t, ht, _, FileTree.mem_entries_of_child? hv, .inl rfl⟩
  · unfold listing at hlisted
    cases hfind : m.find? d with
    | none => simp [hfind] at hlisted
    | some t =>
      rw [hfind] at hlisted
      obtain ⟨entry, hentry, hname⟩ := List.mem_map.mp (FileTree.mem_of_mem_listing hlisted)
      exact ⟨t, place?_of_find? hfind, entry, hentry, .inr ⟨stem, hstem, hname⟩⟩

theorem bounds_of_holdsSign (hopen : m.Open d) (h : m.HoldsSign d) : m.Bounds d := by
  obtain ⟨t, ht, ⟨name, u⟩, hentry, rfl | ⟨stem, hstem, rfl⟩⟩ := h
  · obtain ⟨v, hv⟩ := FileTree.exists_child?_of_mem hentry
    refine .inl ?_
    cases hlink : v.isLink with
    | true =>
      have hpresent := hopen.leads t ht (by simp [hv, hlink])
      exact Option.isSome_iff_ne_none.mp hpresent
    | false =>
      have hsearch : t.access.search = true := by rw [hopen.access t ht]
      have hfound := FileTree.find?_child_of_entry isEntry_git ht
        (FileTree.isDirectory_of_mem hentry) hsearch hv
        (by rintro target rfl; exact nomatch hlink)
      have hchild : (d.child ".git").text.utf8ByteSize ≤ maxPathBytes :=
        Nat.le_trans (isEntry_git.utf8ByteSize_child_le d) hopen.short
      rw [find?_eq_place? (isEntry_git.text_child_ne d) hchild, place?_child isEntry_git, hfound]
      simp
  · refine .inr ⟨stem, hstem, ?_⟩
    have hshort : d.text.utf8ByteSize ≤ maxPathBytes := by
      have := hopen.short
      omega
    have hwhole : t.listing = t.entries.map (·.1) := by
      rw [FileTree.listing, hopen.access t ht]
    rw [listing, find?_eq_place? hopen.named hshort, ht, Option.map_some, Option.getD_some, hwhole]
    exact List.mem_map.mpr ⟨_, hentry, rfl⟩

/-! ## Every file system -/

/-- A file that is named is taken. Otherwise the configuration is that of the nearest
directory outward from the start, if nothing nearer ends the search; then the file for all
projects, if there is one; and then the default. A directory that ends the search is
searched itself, and nothing above it is found. -/
structure FindsNearest (m : Machine) (ends : Path → Prop) (start : Path)
    (globalDirectory : Option Path) : Prop where
  explicit : ∀ p, m.sourceFrom start (some p) globalDirectory = .explicit p
  project : ∀ file, m.sourceFrom start none globalDirectory = .project file ↔
    ∃ d name, m.Nearest ends start d ∧ m.ConfigName d name ∧ file = d.child name
  global : ∀ file, m.sourceFrom start none globalDirectory = .global file ↔
    (∀ d, ¬ m.Nearest ends start d) ∧
      ∃ g, globalDirectory = some g ∧ file = g.child "config.toml" ∧ m.find? file ≠ none
  default : m.sourceFrom start none globalDirectory = .default ↔
    (∀ d, ¬ m.Nearest ends start d) ∧
      ∀ g, globalDirectory = some g → m.find? (g.child "config.toml") = none
  atBoundary : ∀ nearer b above, start.ancestors = nearer ++ b :: above → ends b →
    (∀ e ∈ nearer, ¬ m.HoldsConfig e ∧ ¬ ends e) → ∀ name, m.ConfigName b name →
      m.sourceFrom start none globalDirectory = .project (b.child name)
  aboveBoundary : ∀ nearer b above, start.ancestors = nearer ++ b :: above → ends b →
    ∀ e ∈ above, ∀ name ∈ ConfigSource.projectNames,
      ∀ file, m.sourceFrom start none globalDirectory = .project file →
        file.components ≠ (e.child name).components

section Ends
variable {ends : Path → Prop} {start : Path}
  (h : ∀ e ∈ start.ancestors.dropLast, ends e ↔ m.Bounds e)
include h

/-- The outermost directory has none that it could keep from being found. -/
theorem ends_iff_of_split {nearer farther : List Path} {e : Path}
    (hchain : start.ancestors = nearer ++ d :: farther) (he : e ∈ nearer) :
    ends e ↔ m.Bounds e := by
  apply h
  rw [hchain, List.dropLast_append_of_ne_nil (by simp)]
  exact List.mem_append_left _ he

theorem nearest_iff_of_ends : m.Nearest ends start d ↔ m.Nearest m.Bounds start d := by
  refine exists_congr fun nearer => exists_congr fun farther => ?_
  refine and_congr_right fun hchain => and_congr_left fun _ => ?_
  refine forall₂_congr fun e he => and_congr_right fun _ => ?_
  exact not_congr (ends_iff_of_split h hchain he)

theorem findsNearest_of_ends (globalDirectory : Option Path) :
    m.FindsNearest ends start globalDirectory where
  explicit p := rfl
  project file := by
    simp only [nearest_iff_of_ends h]
    rw [sourceFrom_eq_project_iff, searchIn_ancestors_eq_some_iff]
  global file := by
    simp only [nearest_iff_of_ends h]
    rw [sourceFrom_eq_global_iff, searchIn_ancestors_eq_none_iff]
  default := by
    simp only [nearest_iff_of_ends h]
    rw [sourceFrom_eq_default_iff, searchIn_ancestors_eq_none_iff]
  atBoundary nearer b above hchain _ hnearer name hname := by
    have hconfig : m.HoldsConfig b := holdsConfig_iff_exists.mpr ⟨name, hname⟩
    have hnearest := (nearest_iff_of_ends h).mp ⟨nearer, above, hchain, hnearer, hconfig⟩
    rw [sourceFrom_eq_project_iff, searchIn_ancestors_eq_some_iff]
    exact ⟨b, name, hnearest, hname, rfl⟩
  aboveBoundary nearer b above hchain hb e he name hname file hfile := by
    -- something is above the boundary, so it is not the outermost directory
    obtain ⟨next, rest, rfl⟩ := List.exists_cons_of_ne_nil (List.ne_nil_of_mem he)
    have hsplit : start.ancestors = (nearer ++ [b]) ++ next :: rest := by simp [hchain]
    have hbounds := (ends_iff_of_split h hsplit (by simp)).mp hb
    exact components_ne_of_searchIn hchain hbounds he hname (sourceFrom_eq_project_iff.mp hfile)

end Ends

/-- **The nearest configuration, up to a boundary.** What ends the search is a repository
or a solution that is seen in a directory, and then the directory holds one. Where nothing
hides the signs, every directory that holds a repository or a solution is a boundary. -/
theorem source_is_nearest (m : Machine) (start : Path) (globalDirectory : Option Path) :
    -- the directories that are searched
    (start.ancestors.head? = some start ∧
      start.ancestors.map Path.components =
        if start.components.head? = some .root then start.components.inits.tail.reverse
        else start.components.inits.reverse) ∧
    m.FindsNearest m.Bounds start globalDirectory ∧
    (∀ d, m.Bounds d → m.HoldsSign d) ∧
    ((∀ e ∈ start.ancestors.dropLast, m.Open e) →
      m.FindsNearest m.HoldsSign start globalDirectory) := by
  refine ⟨⟨rfl, start.components_ancestors⟩, ?_, fun d => holdsSign_of_bounds, fun hopen => ?_⟩
  · exact findsNearest_of_ends (fun _ _ => Iff.rfl) globalDirectory
  · refine findsNearest_of_ends (fun e he => ?_) globalDirectory
    exact ⟨bounds_of_holdsSign (hopen e he), holdsSign_of_bounds⟩

/-- A solution below the root, with a configuration beside it and another at the root. -/
def solutionMachine : Machine where
  disk := .directory [
    ("selector-lint.toml", .ofBytes .empty),
    ("work", .directory [
      ("App.sln", .ofBytes .empty),
      (".selector-lint.toml", .ofBytes .empty),
      ("src", .directory [])])]
  current := ⟨"/"⟩

theorem source_is_nearest_solution :
    (∀ e ∈ (Path.ancestors ⟨"/work/src"⟩).dropLast, solutionMachine.Open e) ∧
      solutionMachine.HoldsSign ⟨"/work"⟩ ∧ solutionMachine.HoldsConfig ⟨"/"⟩ ∧
      solutionMachine.sourceFrom ⟨"/work/src"⟩ none none =
        .project ⟨"/work/.selector-lint.toml"⟩ ∧
      Path.components ⟨"/work/.selector-lint.toml"⟩ ≠
        (Path.child ⟨"/"⟩ "selector-lint.toml").components := by
  have hchain : Path.ancestors ⟨"/work/src"⟩ = [⟨"/work/src"⟩] ++ ⟨"/work"⟩ :: [⟨"/"⟩] := by
    decide +kernel
  have hopen : ∀ e ∈ (Path.ancestors ⟨"/work/src"⟩).dropLast, solutionMachine.Open e := by
    have hboth : (Path.ancestors ⟨"/work/src"⟩).dropLast = [⟨"/work/src"⟩, ⟨"/work"⟩] := by
      rw [hchain]; rfl
    rw [hboth]
    intro e he
    rcases List.mem_pair.mp he with rfl | rfl <;>
      exact ⟨by decide, by decide +kernel, by decide +kernel, by decide +kernel⟩
  obtain ⟨-, -, hseen, hheld⟩ := source_is_nearest solutionMachine ⟨"/work/src"⟩ none
  have hsign : solutionMachine.HoldsSign ⟨"/work"⟩ :=
    hseen _ (isBoundary_iff.mp (by decide +kernel))
  have hroot : solutionMachine.HoldsConfig ⟨"/"⟩ := .inl (isFile_child_iff.mp (by decide +kernel))
  have hname : solutionMachine.ConfigName ⟨"/work"⟩ ".selector-lint.toml" :=
    .hidden (mt isFile_child_iff.mpr (by decide +kernel)) (isFile_child_iff.mp (by decide +kernel))
  have hnearer : ∀ e ∈ [(⟨"/work/src"⟩ : Path)],
      ¬ solutionMachine.HoldsConfig e ∧ ¬ solutionMachine.HoldsSign e := by
    intro e he
    obtain rfl := List.mem_singleton.mp he
    refine ⟨projectFile?_eq_none_iff.mp (by decide +kernel), fun hsign => ?_⟩
    have hbounds := bounds_of_holdsSign (hopen _ (by rw [hchain]; simp)) hsign
    exact absurd (isBoundary_iff.mpr hbounds) (by decide +kernel)
  have hsource := (hheld hopen).atBoundary _ _ _ hchain hsign hnearer _ hname
  exact ⟨hopen, hsign, hroot, hsource,
    (hheld hopen).aboveBoundary _ _ _ hchain hsign _ (by simp) _ (by decide) _ hsource⟩

/-- A repository that is a link to nowhere, below a configuration. -/
def danglingMachine : Machine where
  disk := .directory [
    ("r", .directory [
      ("selector-lint.toml", .ofBytes .empty),
      ("app", .directory [(".git", .link ⟨"../nowhere"⟩)])])]
  current := ⟨"/"⟩

/-- The search does not see that the directory holds an entry `.git`, and takes the
configuration above it. -/
theorem dangling_repository_passed :
    danglingMachine.HoldsSign ⟨"/r/app"⟩ ∧
      danglingMachine.sourceFrom ⟨"/r/app"⟩ none none = .project ⟨"/r/selector-lint.toml"⟩ ∧
      ¬ danglingMachine.FindsNearest danglingMachine.HoldsSign ⟨"/r/app"⟩ none := by
  have hchain : Path.ancestors ⟨"/r/app"⟩ = [] ++ ⟨"/r/app"⟩ :: [⟨"/r"⟩, ⟨"/"⟩] := by
    decide +kernel
  have hplace : danglingMachine.place? ⟨"/r/app"⟩ =
      some (.directory [(".git", .link ⟨"../nowhere"⟩)]) := by
    rfl
  have hsign : danglingMachine.HoldsSign ⟨"/r/app"⟩ :=
    ⟨_, hplace, _, List.mem_singleton_self _, .inl rfl⟩
  have hsource : danglingMachine.sourceFrom ⟨"/r/app"⟩ none none =
      .project ⟨"/r/selector-lint.toml"⟩ := by
    decide +kernel
  refine ⟨hsign, hsource, fun hfinds => ?_⟩
  exact hfinds.aboveBoundary _ _ _ hchain hsign ⟨"/r"⟩ (by simp) "selector-lint.toml" (by decide)
    _ hsource (by decide +kernel)

end Machine

end SelectorCheck
