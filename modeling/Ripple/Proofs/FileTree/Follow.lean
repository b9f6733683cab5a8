import Ripple.Proofs.FileTree.Frame
import Ripple.Proofs.Path.Segments

/-!
# Following the Segments of a Path

A path is followed with all that is between its slashes, empty parts and single
dots included. They lead nowhere, but they can only be followed from a
directory, so a path to a file must not end with them. Apart from this a path
is followed as its segments are.

So a file is found at a path if the path ends with a name and its segments lead
to the file, and a directory is found if the segments lead to it.

## Theorems

* `FileTree.segments_of_place`, `FileTree.names_of_place`: The place of a path by
  its segments.
-/

namespace Ripple

open List

namespace Path

theorem segments_parentOf (path : String) :
    segments (FileTree.parentOf path) = (segments path).dropLast := by
  have hnames : segments (ofSegments (segments path).dropLast) = (segments path).dropLast := by
    refine segments_ofSegments fun name hname => ?_
    have hmem := dropLast_subset _ hname
    refine ⟨not_mem_slash_of_mem_segments hmem, ?_⟩
    simpa using (mem_filter.mp hmem).2
  unfold FileTree.parentOf
  split
  · have hslash := segments_slash "" (ofSegments (segments path).dropLast)
    rw [hnames] at hslash
    exact hslash
  · exact hnames

end Path

namespace FileTree

open Ripple.Path

variable {top after : FileTree} {way last : Way} {parts : List String} {path : String}

theorem trace_filter (h : trace top way parts = .ok last) :
    trace top way (parts.filter fun s => s ≠ "" && s ≠ ".") = .ok last := by
  induction parts generalizing way with
  | nil => exact h
  | cons part rest ih =>
    obtain ⟨entries, hents, ⟨hblank, hrest⟩ | ⟨hdots, hrest⟩ | ⟨hname, node, hnode, hrest⟩⟩ :=
      trace_cons_eq_ok_iff.mp h
    · have hdrop : (part ≠ "" && part ≠ ".") = false := by
        rcases hblank with rfl | rfl
        · rfl
        · rfl
      rw [filter_cons, hdrop]
      exact ih hrest
    · rw [hdots]
      exact trace_cons_eq_ok_iff.mpr ⟨entries, hents, .inr (.inl ⟨rfl, ih hrest⟩)⟩
    · obtain ⟨hblank, -⟩ := isDots_eq_false_iff.mp hname
      have hkeep : (part ≠ "" && part ≠ ".") = true := by simpa [not_or] using hblank
      rw [filter_cons, hkeep]
      exact trace_cons_eq_ok_iff.mpr
        ⟨entries, hents, .inr (.inr ⟨hname, node, hnode, ih hrest⟩)⟩

/-- Empty parts and single dots can be followed from a directory. -/
theorem trace_of_filter (h : trace top way (parts.filter fun s => s ≠ "" && s ≠ ".") = .ok last)
    (hend : (∃ entries, last.node top = directory entries) ∨
      ∀ part, parts.getLast? = some part → part ≠ "" ∧ part ≠ ".") :
    trace top way parts = .ok last := by
  induction parts generalizing way with
  | nil => exact h
  | cons part rest ih =>
    have hrest : (∃ entries, last.node top = directory entries) ∨
        ∀ part, rest.getLast? = some part → part ≠ "" ∧ part ≠ "." := by
      refine hend.imp_right fun hlast other hother => hlast other ?_
      rw [getLast?_cons, hother]
      rfl
    by_cases hkeep : (part ≠ "" && part ≠ ".") = true
    · rw [filter_cons, if_pos hkeep] at h
      obtain ⟨entries, hents, hnext⟩ := trace_cons_eq_ok_iff.mp h
      refine trace_cons_eq_ok_iff.mpr ⟨entries, hents, ?_⟩
      rcases hnext with ⟨hblank, hnext⟩ | ⟨hdots, hnext⟩ | ⟨hname, node, hnode, hnext⟩
      · exact .inl ⟨hblank, ih hnext hrest⟩
      · exact .inr (.inl ⟨hdots, ih hnext hrest⟩)
      · exact .inr (.inr ⟨hname, node, hnode, ih hnext hrest⟩)
    · rw [filter_cons, if_neg hkeep] at h
      have hblank : part = "" ∨ part = "." := by
        simpa [or_iff_not_imp_left] using hkeep
      -- Either something is followed from here, or the way ends here and at a directory.
      obtain ⟨entries, hents⟩ : ∃ entries, way.node top = directory entries := by
        cases hparts : rest.filter fun s => s ≠ "" && s ≠ "." with
        | cons first others =>
          rw [hparts] at h
          obtain ⟨entries, hents, -⟩ := trace_cons_eq_ok_iff.mp h
          exact ⟨entries, hents⟩
        | nil =>
          rw [hparts] at h
          obtain rfl : way = last := Except.ok.inj h
          refine hend.resolve_right fun hlast => ?_
          rw [filter_eq_nil_iff] at hparts
          rcases eq_nil_or_concat' rest with rfl | ⟨front, final, rfl⟩
          · obtain ⟨hempty, hdot⟩ := hlast part rfl
            exact hblank.elim hempty hdot
          · have hfinal := hlast final (by rw [← cons_append, getLast?_concat])
            exact hparts final (mem_append_right _ mem_cons_self) (by simp [hfinal])
      exact trace_cons_eq_ok_iff.mpr ⟨entries, hents, .inl ⟨hblank, ih h hrest⟩⟩

theorem at_eq_ok_iff {node : FileTree} : top.at? path = .ok node ↔
    ∃ parts last, checked path = .ok parts ∧ trace top [] parts = .ok last ∧
      last.node top = node := by
  rw [at?]
  constructor
  · intro h
    obtain ⟨parts, hparts, h⟩ := ok_of_bind h
    obtain ⟨last, hlast, h⟩ := ok_of_bind h
    exact ⟨parts, last, hparts, hlast, Except.ok.inj h⟩
  · rintro ⟨parts, last, hparts, hlast, rfl⟩
    simp only [hparts, bind, Except.bind, hlast]
    rfl

theorem checked_of_reachable (hreach : Reachable path) (hne : path ≠ "") :
    checked path = .ok ((splitText '/' path).dropWhile (· = "")) := by
  have hzero : ¬ path.toList.contains '\x00' = true := by
    rw [contains_iff_mem]
    exact hreach.1
  rw [checked, if_neg hzero, if_neg hne, if_neg (Nat.not_lt.mpr hreach.2)]

/-- The last part of a path stays if empty parts in front are dropped. -/
theorem getLast_dropWhile {part : String} (hends : EndsInName path)
    (h : ((splitText '/' path).dropWhile (· = "")).getLast? = some part) :
    part ≠ "" ∧ part ≠ "." := by
  obtain ⟨front, hfront⟩ := dropWhile_suffix (l := splitText '/' path) (· = "")
  have hlast : (splitText '/' path).getLast? = some part := by
    rw [← hfront, getLast?_append, h]
    rfl
  rw [EndsInName, getLastD_eq_getLast?, hlast] at hends
  exact hends

/-- A directory is found at a path if its segments lead there. -/
theorem at_directory_iff {entries : List (String × FileTree)} :
    top.at? path = .ok (directory entries) ↔ (Reachable path ∧ path ≠ "") ∧
      ∃ last, trace top [] (segments path) = .ok last ∧ last.node top = directory entries := by
  rw [at_eq_ok_iff]
  constructor
  · rintro ⟨parts, last, hparts, hlast, hnode⟩
    obtain ⟨hreach, hne, rfl⟩ := checked_eq_ok hparts
    have htrace := trace_filter hlast
    rw [filter_dropWhile_empty] at htrace
    exact ⟨⟨hreach, hne⟩, last, htrace, hnode⟩
  · rintro ⟨⟨hreach, hne⟩, last, htrace, hnode⟩
    rw [segments, ← filter_dropWhile_empty] at htrace
    exact ⟨_, last, checked_of_reachable hreach hne, trace_of_filter htrace (.inl ⟨entries, hnode⟩),
      hnode⟩

/-- A file is found at a path if it ends with a name and its segments lead there. -/
theorem at_file_iff (htop : top.HasDirectory []) {content : ByteArray} {modified : Int64} :
    top.at? path = .ok (file content modified) ↔ (Reachable path ∧ EndsInName path) ∧
      ∃ last, trace top [] (segments path) = .ok last ∧ last.node top = file content modified := by
  rw [at_eq_ok_iff]
  constructor
  · rintro ⟨parts, last, hparts, hlast, hnode⟩
    obtain ⟨hreach, hne, rfl⟩ := checked_eq_ok hparts
    have htrace := trace_filter hlast
    rw [filter_dropWhile_empty] at htrace
    refine ⟨⟨hreach, ?_⟩, last, htrace, hnode⟩
    rcases eq_nil_or_concat' ((splitText '/' path).dropWhile (· = "")) with
      hnil | ⟨front, part, hparts⟩
    · -- Nothing but slashes leads to the top.
      rw [hnil] at hlast
      obtain rfl : [] = last := Except.ok.inj hlast
      obtain ⟨entries, hents⟩ := htop
      cases (Option.some.inj hents).symm.trans hnode
    · rw [hparts, trace_append] at hlast
      obtain ⟨middle, -, hlast⟩ := ok_of_bind hlast
      obtain ⟨front', hfront'⟩ := dropWhile_suffix (l := splitText '/' path) (· = "")
      rw [EndsInName, ← hfront', hparts, ← append_assoc, getLastD_concat]
      obtain ⟨entries, hents, ⟨-, hend⟩ | ⟨hdots, -⟩ | ⟨hname, -⟩⟩ :=
        trace_cons_eq_ok_iff.mp hlast
      · obtain rfl : middle = last := Except.ok.inj hend
        cases hents.symm.trans hnode
      · rw [hdots]
        decide
      · exact not_or.mp (isDots_eq_false_iff.mp hname).1
  · rintro ⟨⟨hreach, hends⟩, last, htrace, hnode⟩
    have hne : path ≠ "" := by
      rintro rfl
      exact hends.1 rfl
    rw [segments, ← filter_dropWhile_empty] at htrace
    exact ⟨_, last, checked_of_reachable hreach hne,
      trace_of_filter htrace (.inr fun _ => getLast_dropWhile hends), hnode⟩

theorem segments_of_place {p : Place} (h : top.place path = .ok p) :
    (Reachable path ∧ EndsInName path) ∧ ∃ front way, segments path = front ++ [p.name] ∧
      trace top [] front = .ok way ∧ p.above = way.names := by
  obtain ⟨parts, way, hpath, hway, hname, habove, -⟩ := place_eq_ok h
  obtain ⟨hreach, -, hparts⟩ := checked_eq_ok hpath
  obtain ⟨hblank, -⟩ := isDots_eq_false_iff.mp hname
  have hkeep : (p.name ≠ "" && p.name ≠ ".") = true := by simpa [not_or] using hblank
  have hsegs : segments path = (parts.filter fun s => s ≠ "" && s ≠ ".") ++ [p.name] := by
    rw [segments, ← filter_dropWhile_empty, ← hparts, filter_append, filter_cons, hkeep]
    rfl
  refine ⟨⟨hreach, ?_⟩, _, way, hsegs, trace_filter hway, habove⟩
  obtain ⟨front, hfront⟩ := dropWhile_suffix (l := splitText '/' path) (· = "")
  rw [EndsInName, ← hfront, ← hparts, ← append_assoc, getLastD_concat]
  exact not_or.mp hblank

theorem names_trace (h : trace top way parts = .ok last) (hparts : ∀ part ∈ parts, IsName part) :
    last.names = way.names ++ parts := by
  induction parts generalizing way with
  | nil =>
    obtain rfl : way = last := Except.ok.inj h
    exact (append_nil _).symm
  | cons part rest ih =>
    obtain ⟨hpart, hrest⟩ := forall_mem_cons.mp hparts
    obtain ⟨entries, -, ⟨hblank, -⟩ | ⟨hdots, -⟩ | ⟨-, node, -, hnext⟩⟩ := trace_cons_eq_ok_iff.mp h
    · exact absurd hblank (not_or.mpr ⟨hpart.ne_empty, hpart.ne_dot⟩)
    · exact absurd hdots hpart.ne_dots
    · rw [ih hnext hrest, Way.names_cons, append_assoc, singleton_append]

/-- The names of a place below a directory. -/
theorem names_of_place {p : Place} {directory names : List String} {base : Way}
    (h : top.place path = .ok p) (hbase : trace top [] directory = .ok base)
    (hpath : segments path = directory ++ names) (hne : names ≠ [])
    (hnames : ∀ name ∈ names, IsName name) : p.names = base.names ++ names := by
  obtain ⟨-, front, way, hsegs, hway, habove⟩ := segments_of_place h
  obtain ⟨others, last, rfl⟩ := (eq_nil_or_concat' names).resolve_left hne
  rw [hpath, ← append_assoc] at hsegs
  obtain ⟨rfl, hlast⟩ := append_inj' hsegs rfl
  rw [trace_append, hbase] at hway
  have hothers := names_trace hway fun name hname => hnames name (mem_append_left _ hname)
  rw [Place.names, habove, hothers, append_assoc, hlast]

/-- What is at a name in a directory is looked for among its entries. -/
theorem at_below {entries : List (String × FileTree)} {name : String}
    (h : top.at? path = .ok (directory entries)) (hname : IsName name)
    (hreach : Reachable (path ++ "/" ++ name)) :
    top.at? (path ++ "/" ++ name) = entry? entries name := by
  rcases at_eq_ok_iff.mp h with ⟨parts, last, hparts, htrace, hnode⟩
  have hne : path ++ "/" ++ name ≠ "" := fun hempty =>
    hname.ne_empty (String.append_eq_empty_iff.mp hempty).2
  have hsplit : (splitText '/' (path ++ "/" ++ name)).dropWhile (· = "") = parts ++ [name] := by
    rw [splitText_slash, splitText_of_not_mem hname.no_slash, dropWhile_append,
      (checked_eq_ok hparts).2.2]
    split
    next hnil => simp [List.isEmpty_iff.mp hnil, hname.ne_empty]
    · rfl
  have hstep : trace top last [name] =
      ( entry? entries name).map fun node => (name, node) :: last := by
    rw [trace, hnode]
    simp only [hname.ne_empty, hname.ne_dot, hname.ne_dots, decide_false, Bool.or_self,
      Bool.false_eq_true, if_false]
    cases entry? entries name with
    | error fault => rfl
    | ok node => rfl
  rw [at?, checked_of_reachable hreach hne, hsplit]
  simp only [bind, Except.bind, trace_append, htrace, hstep]
  cases entry? entries name with
  | error fault => rfl
  | ok node => rfl

theorem Reachable.of_sublist {path other : String} (h : Reachable path)
    (hsub : other.toList.Sublist path.toList) : Reachable other := by
  refine ⟨fun hzero => h.1 (hsub.subset hzero), ?_⟩
  have hsize := String.utf8Len_le_of_sublist hsub
  rw [← String.utf8ByteSize_ofList, ← String.utf8ByteSize_ofList, String.ofList_toList,
    String.ofList_toList] at hsize
  exact hsize.trans h.2

end FileTree

end Ripple
