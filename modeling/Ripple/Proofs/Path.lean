import Ripple.Path

/-!
# Paths and Their Names

A path below a project is a list of names with slashes between them. Cutting
such a path at its slashes gives the names back, as long as no name has a
slash in it; so what is said about paths can be shown for lists of names, by
induction from the top of a tree.

A file can be named in many ways, from the root of the file system or with
dots in between. `relative?` brings all of them to one form: a list of names
with neither dots nor empty names in it.
-/

namespace Ripple

open List

section Cutting

theorem splitText_eq_splitOn (cut : Char) (text : String) :
    splitText cut text = (text.toList.splitOn cut).map String.ofList := by
  rw [splitText]
  congr 1
  induction text.toList with
  | nil => rfl
  | cons c cs ih =>
    rw [splitWhere, ih, splitOn_cons_eq_if_modifyHead]
    cases hsplit : cs.splitOn cut with
    | nil => exact absurd hsplit (splitOn_ne_nil cut cs)
    | cons part parts =>
      by_cases hc : c = cut
      · rw [if_pos (decide_eq_true hc), if_pos (beq_iff_eq.mpr hc)]
      · rfl

theorem of_mem_splitOn {cut : Char} {text part : List Char} (h : part ∈ text.splitOn cut) {c : Char}
    (hc : c ∈ part) : c ∈ text ∧ c ≠ cut := by
  induction text generalizing part with
  | nil =>
    rw [splitOn_nil, mem_singleton] at h
    rw [h] at hc
    exact absurd hc not_mem_nil
  | cons a text ih =>
    rw [splitOn_cons_eq_if_modifyHead] at h
    split at h
    · rcases mem_cons.mp h with rfl | h
      · exact absurd hc not_mem_nil
      · exact (ih h hc).imp_left (mem_cons_of_mem a)
    next ha =>
      -- The first part goes on before the parts of the rest; no other part is touched.
      cases hsplit : text.splitOn cut with
      | nil => exact absurd hsplit (splitOn_ne_nil cut text)
      | cons first parts =>
        rw [hsplit] at h ih
        rcases mem_cons.mp h with rfl | h
        · rcases mem_cons.mp hc with rfl | hc
          · exact ⟨mem_cons_self, mt beq_iff_eq.mpr ha⟩
          · exact (ih mem_cons_self hc).imp_left (mem_cons_of_mem a)
        · exact (ih (mem_cons_of_mem _ h) hc).imp_left (mem_cons_of_mem a)

theorem of_mem_splitText {cut : Char} {text part : String} (h : part ∈ splitText cut text)
    {c : Char} (hc : c ∈ part.toList) : c ∈ text.toList ∧ c ≠ cut := by
  rw [splitText_eq_splitOn] at h
  obtain ⟨chars, hchars, rfl⟩ := mem_map.mp h
  rw [String.toList_ofList] at hc
  exact of_mem_splitOn hchars hc

theorem not_mem_of_mem_splitText {cut : Char} {text part : String} (h : part ∈ splitText cut text) :
    cut ∉ part.toList :=
  fun hcut => (of_mem_splitText h hcut).2 rfl

end Cutting

namespace Path

theorem ofSegments_singleton (name : String) : ofSegments [name] = name :=
  String.intercalate_singleton

theorem ofSegments_cons (name : String) {names : List String} (h : names ≠ []) :
    ofSegments (name :: names) = name ++ "/" ++ ofSegments names :=
  String.intercalate_cons_of_ne_nil h

theorem splitText_ofSegments {names : List String} (hne : names ≠ [])
    (h : ∀ name ∈ names, '/' ∉ name.toList) : splitText '/' (ofSegments names) = names := by
  have hsplit : (['/'].intercalate (names.map String.toList)).splitOn '/' =
      names.map String.toList :=
    splitOn_intercalate '/' (List.forall_mem_map.mpr h) (mt map_eq_nil_iff.mp hne)
  have hchars : (ofSegments names).toList = ['/'].intercalate (names.map String.toList) :=
    String.toList_intercalate
  rw [splitText_eq_splitOn, hchars, hsplit, map_map]
  exact map_id'' (fun _ => String.ofList_toList) names

theorem ofSegments_splitText (path : String) : ofSegments (splitText '/' path) = path := by
  have hparts : ((path.toList.splitOn '/').map String.ofList).map String.toList =
      path.toList.splitOn '/' := by
    rw [map_map]
    exact map_id'' (fun _ => String.toList_ofList) _
  rw [← String.toList_inj, splitText_eq_splitOn, ofSegments, String.toList_intercalate, hparts]
  exact intercalate_splitOn '/'

/-- A text that can be the name of a file. -/
structure IsName (name : String) : Prop where
  ne_empty : name ≠ ""
  /-- It is not the name of its own directory. -/
  ne_dot : name ≠ "."
  /-- It is not the name of the directory above. -/
  ne_dots : name ≠ ".."
  no_slash : '/' ∉ name.toList

instance (name : String) : Decidable (IsName name) :=
  decidable_of_iff (name ≠ "" ∧ name ≠ "." ∧ name ≠ ".." ∧ '/' ∉ name.toList)
    ⟨fun ⟨hempty, hdot, hdots, hslash⟩ => ⟨hempty, hdot, hdots, hslash⟩,
      fun ⟨hempty, hdot, hdots, hslash⟩ => ⟨hempty, hdot, hdots, hslash⟩⟩

/-- A path that is made of names. -/
def Canonical (path : String) : Prop :=
  ∃ names, names ≠ [] ∧ (∀ name ∈ names, IsName name) ∧ path = ofSegments names

theorem splitText_ofNames {names : List String} (hne : names ≠ [])
    (h : ∀ name ∈ names, IsName name) : splitText '/' (ofSegments names) = names :=
  splitText_ofSegments hne fun name hname => (h name hname).no_slash

/-- Following segments from a place that is made of names leads to one that is made of names. -/
theorem isName_of_mem_follow {segments parts place : List String}
    (hsegs : ∀ s ∈ segments, '/' ∉ s.toList) (hparts : ∀ name ∈ parts, IsName name)
    (h : follow parts segments = some place) : ∀ name ∈ place, IsName name := by
  induction segments generalizing parts with
  | nil =>
    rw [← show parts = place from Option.some.inj h]
    exact hparts
  | cons segment rest ih =>
    obtain ⟨hslash, hrest⟩ := forall_mem_cons.mp hsegs
    unfold follow at h
    by_cases hblank : (decide (segment = "") || decide (segment = ".")) = true
    · rw [if_pos hblank] at h
      exact ih hrest hparts h
    rw [if_neg hblank] at h
    by_cases hdots : segment = ".."
    · rw [if_pos hdots] at h
      cases parts with
      | nil => exact nomatch h
      | cons last parts => exact ih hrest (forall_mem_cons.mp hparts).2 h
    rw [if_neg hdots] at h
    rw [Bool.or_eq_true, decide_eq_true_eq, decide_eq_true_eq, not_or] at hblank
    have hname : IsName segment := ⟨hblank.1, hblank.2, hdots, hslash⟩
    exact ih hrest (forall_mem_cons.mpr ⟨hname, hparts⟩) h

theorem not_mem_slash_of_mem_segments {path segment : String} (h : segment ∈ segments path) :
    '/' ∉ segment.toList :=
  not_mem_of_mem_splitText (mem_filter.mp h).1

theorem stripSegments_eq_some_iff {front parts rest : List String} :
    stripSegments? front parts = some rest ↔ parts = front ++ rest := by
  induction front generalizing parts with
  | nil => rw [stripSegments?, Option.some.injEq, nil_append]
  | cons a front ih =>
    cases parts with
    | nil => simp [stripSegments?]
    | cons b parts =>
      rw [stripSegments?, Option.ite_none_right_eq_some, ih, cons_append, cons.injEq, eq_comm]

theorem not_mem_slash_of_segmentsBelow {root path : String} {found : List String}
    (h : segmentsBelow? root path = some found) : ∀ s ∈ found, '/' ∉ s.toList := by
  intro s hs
  unfold segmentsBelow? at h
  split at h
  · rw [Option.some.injEq] at h
    exact not_mem_slash_of_mem_segments (h ▸ hs)
  · split at h
    · rw [stripSegments_eq_some_iff] at h
      exact not_mem_slash_of_mem_segments (h ▸ mem_append_right _ hs)
    · exact nomatch h

theorem canonical_relative {root candidate path : String}
    (h : relative? root candidate = some path) : Canonical path := by
  unfold relative? at h
  split at h
  · exact nomatch h
  · exact nomatch h
  next parts hne hfollow =>
    obtain ⟨found, hfound, hplace⟩ := Option.bind_eq_some_iff.mp hfollow
    have hnames : ∀ name ∈ parts, IsName name :=
      isName_of_mem_follow (not_mem_slash_of_segmentsBelow hfound) (forall_mem_nil _) hplace
    refine ⟨parts.reverse, ?_, ?_, (Option.some.inj h).symm⟩
    · rw [ne_eq, reverse_eq_nil_iff]
      exact hne
    · intro name hname
      exact hnames name (mem_reverse.mp hname)

end Path

end Ripple
