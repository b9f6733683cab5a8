import Mathlib.Data.String.Basic
import Ripple.Proofs.Path

/-!
# The Segments of Paths

What is between the slashes of a path, empty parts and single dots left out.
Segments are easy to take apart: those of a path below a directory are those of
the directory and those of the path, and names that are joined with slashes are
the segments of what they make.

## Theorems

* `Path.segments_ofSegments`: The segments of a path that is made of segments.
* `Path.sublist_ofSegments`: Fewer segments make a shorter path.
-/

namespace Ripple

open List

/-- The characters of joined parts are characters of the parts or between them. -/
theorem mem_intercalate {sep : String} {c : Char} {parts : List String}
    (h : c ∈ (String.intercalate sep parts).toList) :
    c ∈ sep.toList ∨ ∃ part ∈ parts, c ∈ part.toList := by
  induction parts with
  | nil => cases h
  | cons part rest ih =>
    by_cases hrest : rest = []
    · rw [hrest] at h
      exact .inr ⟨part, mem_cons_self, h⟩
    · rw [String.intercalate_cons_of_ne_nil hrest, String.toList_append, String.toList_append,
        mem_append, mem_append] at h
      rcases h with (h | h) | h
      · exact .inr ⟨part, mem_cons_self, h⟩
      · exact .inl h
      · exact (ih h).imp_right fun ⟨other, hother, hc⟩ =>
          ⟨other, mem_cons_of_mem _ hother, hc⟩

namespace Path

variable {path key : String}

theorem splitText_slash (front back : String) :
    splitText '/' (front ++ "/" ++ back) = splitText '/' front ++ splitText '/' back := by
  have hchars : (front ++ "/" ++ back).toList = front.toList ++ '/' :: back.toList := by
    rw [String.toList_append, String.toList_append, append_assoc]
    rfl
  simp only [splitText_eq_splitOn, hchars, splitOn_append_cons_self, map_append]

theorem splitText_of_not_mem {text : String} (h : '/' ∉ text.toList) :
    splitText '/' text = [text] := by
  exact splitText_ofSegments (cons_ne_nil _ _) (forall_mem_singleton.mpr h)

theorem segments_slash (front back : String) :
    segments (front ++ "/" ++ back) = segments front ++ segments back := by
  rw [segments, splitText_slash, filter_append]
  rfl

theorem segments_of_isName {name : String} (h : IsName name) : segments name = [name] := by
  rw [segments, splitText_of_not_mem h.no_slash]
  simp [h.ne_empty, h.ne_dot]

/-- What a directory puts in front of the paths below it: nothing, or what ends with a slash. -/
theorem join_eq_append (directory : String) : ∃ front,
    (front = "" ∧ directory = "" ∨
      ∃ start, front = start ++ "/" ∧ (directory = start ∨ directory = start ++ "/")) ∧
    ∀ path, isAbsolute path = false → join directory path = front ++ path := by
  by_cases hempty : directory = ""
  · refine ⟨"", .inl ⟨rfl, hempty⟩, fun path hpath => ?_⟩
    rw [join, if_neg (Bool.eq_false_iff.mp hpath), hempty]
    rfl
  · by_cases hslash : finishesWith directory "/" = true
    · obtain ⟨start, hstart⟩ := isSuffixOf_iff_suffix.mp hslash
      have hdir : directory = String.ofList start ++ "/" := by
        rw [← String.toList_inj, String.toList_append, String.toList_ofList, hstart]
      refine ⟨directory, .inr ⟨_, hdir, .inr hdir⟩, fun path hpath => ?_⟩
      rw [join, if_neg (Bool.eq_false_iff.mp hpath), hslash, Bool.or_true, if_pos rfl]
    · refine ⟨directory ++ "/", .inr ⟨_, rfl, .inl rfl⟩, fun path hpath => ?_⟩
      rw [join, if_neg (Bool.eq_false_iff.mp hpath), decide_eq_false hempty,
        Bool.eq_false_iff.mpr hslash, Bool.or_false, if_neg Bool.false_ne_true]

/-- The segments of a path below a directory are those of the directory and those of the path. -/
theorem segments_join (directory : String) (h : isAbsolute key = false) :
    segments (join directory key) = segments directory ++ segments key := by
  obtain ⟨front, hfront, hjoin⟩ := join_eq_append directory
  rw [hjoin key h]
  rcases hfront with ⟨rfl, rfl⟩ | ⟨start, rfl, rfl | rfl⟩
  · rfl
  · rw [segments_slash]
  · have hstart : segments (start ++ "/") = segments start := by
      have hslash := segments_slash start ""
      rw [String.append_empty] at hslash
      rw [hslash]
      exact append_nil _
    rw [segments_slash, hstart]

/-- A path that may be one to a file: it does not end with a slash or a single dot. -/
def EndsInName (path : String) : Prop :=
  (splitText '/' path).getLastD "" ≠ "" ∧ (splitText '/' path).getLastD "" ≠ "."

instance (path : String) : Decidable (EndsInName path) := inferInstanceAs (Decidable (_ ∧ _))

theorem splitText_ne_nil (text : String) : splitText '/' text ≠ [] := by
  rw [splitText_eq_splitOn, ne_eq, map_eq_nil_iff]
  exact splitOn_ne_nil _ _

theorem endsInName_slash (front back : String) :
    EndsInName (front ++ "/" ++ back) ↔ EndsInName back := by
  obtain ⟨parts, last, hlast⟩ := eq_nil_or_concat' (splitText '/' back) |>.resolve_left
    (splitText_ne_nil back)
  rw [EndsInName, EndsInName, splitText_slash, hlast, ← append_assoc, getLastD_concat,
    getLastD_concat]

theorem endsInName_join (directory : String) (h : isAbsolute key = false) :
    EndsInName (join directory key) ↔ EndsInName key := by
  obtain ⟨front, hfront, hjoin⟩ := join_eq_append directory
  rw [hjoin key h]
  rcases hfront with ⟨rfl, -⟩ | ⟨start, rfl, -⟩
  · rw [String.empty_append]
  · exact endsInName_slash start key

/-- The segments of a path are those of its parts, whatever is dropped in front. -/
theorem filter_dropWhile_empty (parts : List String) :
    ((parts.dropWhile (· = "")).filter fun s => s ≠ "" && s ≠ ".") =
      parts.filter fun s => s ≠ "" && s ≠ "." := by
  induction parts with
  | nil => rfl
  | cons part parts ih =>
    by_cases hpart : part = ""
    · simp only [dropWhile_cons, hpart, decide_true, if_true, ih, filter_cons]
      rfl
    · simp only [dropWhile_cons, decide_eq_false hpart, Bool.false_eq_true, if_false]

theorem isAbsolute_eq_beginsWith (path : String) : isAbsolute path = beginsWith path "/" := by
  rw [isAbsolute, beginsWith]
  cases path.toList with
  | nil => rfl
  | cons c cs =>
    by_cases hc : c = '/'
    · subst hc
      rfl
    · have hne : ('/' == c) = false := beq_false_of_ne (Ne.symm hc)
      simp [hc, hne, List.isPrefixOf]

theorem isName_of_mem_segments {path : String} (hdots : ".." ∉ splitText '/' path) {name : String}
    (h : name ∈ segments path) : IsName name := by
  obtain ⟨hmem, hkeep⟩ := mem_filter.mp h
  obtain ⟨hempty, hdot⟩ : name ≠ "" ∧ name ≠ "." := by simpa using hkeep
  exact ⟨hempty, hdot, fun heq => hdots (heq ▸ hmem), not_mem_of_mem_splitText hmem⟩

theorem segments_ofSegments {names : List String}
    (h : ∀ name ∈ names, '/' ∉ name.toList ∧ name ≠ "" ∧ name ≠ ".") :
    segments (ofSegments names) = names := by
  by_cases hne : names = []
  · rw [hne]
    rfl
  · rw [segments, splitText_ofSegments hne fun name hname => (h name hname).1]
    exact List.filter_eq_self.mpr fun name hname => by simpa using (h name hname).2

theorem ofSegments_concat_append (front : List String) (last tail : String) :
    ofSegments (front ++ [last]) ++ tail = ofSegments (front ++ [last ++ tail]) := by
  induction front with
  | nil => rw [nil_append, nil_append, ofSegments_singleton, ofSegments_singleton]
  | cons part front ih =>
    have hne : ∀ name, front ++ [name] ≠ [] := fun name => concat_ne_nil _ _
    rw [cons_append, cons_append, ofSegments_cons part (hne last),
      ofSegments_cons part (hne _), ← ih, String.append_assoc]

/-- What is put after a path and has no slash in it goes to the last part. -/
theorem splitText_append_tail (path : String) {tail : String} (h : '/' ∉ tail.toList) :
    ∃ front last, splitText '/' (path ++ tail) = front ++ [last ++ tail] := by
  obtain ⟨front, last, hparts⟩ := (eq_nil_or_concat' _).resolve_left (splitText_ne_nil path)
  have hnone : ∀ name ∈ front ++ [last], '/' ∉ name.toList := fun name hname =>
    not_mem_of_mem_splitText (hparts ▸ hname)
  refine ⟨front, last, ?_⟩
  rw [← ofSegments_splitText path, hparts, ofSegments_concat_append]
  refine splitText_ofSegments (concat_ne_nil _ _) fun name hname => ?_
  rcases mem_append.mp hname with hname | hname
  · exact hnone name (mem_append_left _ hname)
  · rw [mem_singleton.mp hname, String.toList_append, mem_append]
    rintro (hlast | htail)
    · exact hnone last (mem_append_right _ mem_cons_self) hlast
    · exact h htail

theorem isName_of_length {name : String} (hlen : 3 ≤ name.length) (h : '/' ∉ name.toList) :
    IsName name := by
  have hne : ∀ text : String, text.length < 3 → name ≠ text := by
    rintro text hshort rfl
    omega
  exact ⟨hne _ (by decide), hne _ (by decide), hne _ (by decide), h⟩

/-- A path that ends in an extension has a last segment that does. -/
theorem segments_append_tail (path : String) {tail : String} (h : '/' ∉ tail.toList)
    (hlen : 3 ≤ tail.length) :
    ∃ front last, segments (path ++ tail) = front ++ [last ++ tail] := by
  obtain ⟨front, last, hparts⟩ := splitText_append_tail path h
  have hmem : last ++ tail ∈ splitText '/' (path ++ tail) :=
    hparts ▸ mem_append_right _ mem_cons_self
  have hname : IsName (last ++ tail) := by
    refine isName_of_length ?_ (not_mem_of_mem_splitText hmem)
    rw [String.length_append]
    omega
  have hkeep : (last ++ tail ≠ "" && last ++ tail ≠ ".") = true := by
    simp [hname.ne_empty, hname.ne_dot]
  rw [segments, hparts, filter_append, filter_cons, hkeep]
  exact ⟨_, last, rfl⟩

theorem sublist_ofSegments {parts whole : List String} (h : parts.Sublist whole) :
    (ofSegments parts).toList.Sublist (ofSegments whole).toList := by
  induction h with
  | slnil => exact List.Sublist.refl _
  | @cons parts rest part h ih =>
    by_cases hrest : rest = []
    · subst hrest
      rw [sublist_nil.mp h]
      exact nil_sublist _
    · rw [ofSegments_cons part hrest, String.toList_append]
      exact ih.trans (sublist_append_right _ _)
  | @cons_cons parts rest part h ih =>
    by_cases hrest : rest = []
    · subst hrest
      rw [sublist_nil.mp h]
    · rw [ofSegments_cons part hrest, String.toList_append, String.toList_append]
      by_cases hparts : parts = []
      · rw [hparts, append_assoc]
        exact sublist_append_left _ _
      · rw [ofSegments_cons part hparts, String.toList_append, String.toList_append]
        exact List.Sublist.append (List.Sublist.refl _) ih

theorem isAbsolute_ofSegments_cons {first : String} (h : '/' ∉ first.toList) (rest : List String) :
    isAbsolute (ofSegments (first :: rest)) = decide (first = "" ∧ rest ≠ []) := by
  have hfst : first.toList.head? ≠ some '/' := fun hc => h (mem_of_mem_head? hc)
  by_cases hrest : rest = []
  · simpa [hrest, ofSegments_singleton, isAbsolute] using hfst
  · rw [ofSegments_cons first hrest, isAbsolute]
    by_cases hempty : first = ""
    · simp [hempty, hrest]
    · rw [String.append_assoc, String.toList_append,
        head?_append_of_ne_nil _ (mt String.toList_eq_nil_iff.mp hempty)]
      simpa [hempty] using hfst

theorem isAbsolute_ofSegments {names : List String}
    (h : ∀ name ∈ names, name ≠ "" ∧ '/' ∉ name.toList) :
    isAbsolute (ofSegments names) = false := by
  cases names with
  | nil => rfl
  | cons name rest =>
    obtain ⟨hne, hname⟩ := h name mem_cons_self
    rw [isAbsolute_ofSegments_cons hname, decide_eq_false fun hc => hne hc.1]

end Path

end Ripple
