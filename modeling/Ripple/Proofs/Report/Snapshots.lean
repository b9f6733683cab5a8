import Ripple.Proofs.Delta
import Ripple.Report.Compare

/-!
# Reports of Two Snapshots

A comparison of two snapshots goes over the paths of both, and a path may come
from the files or from the outlines of either one. What counts for a path is
the digest of its outline. In place of an outline that is missing goes one
without content, with the digest of the file. So there is one digest with
which a snapshot shows a path, and it has none exactly for the paths that it
does not have.

What is reported of a path follows from its two digests alone: it was removed
or added if one of them is missing, and modified if they differ. This is the
same in both directions up to the names for what happened.

All this takes outlines that are found under their own paths, since a report
has the path of an outline.
-/

namespace Ripple

open List

namespace FileChange

/-- What happened to a file, by its digests before and after. -/
def between : Option String → Option String → Option FileChange
  | none, none => none
  | some _, none => some removed
  | none, some _ => some added
  | some before, some after => if before = after then none else some modified

/-- What happened to a file if one goes the other way. -/
def reverse : FileChange → FileChange
  | added => removed
  | removed => added
  | modified => modified

variable {before after : Option String}

theorem isSome_between_iff : (between before after).isSome ↔ before ≠ after := by
  cases before <;> cases after <;> simp [between]

theorem between_eq_some_iff {change : FileChange} :
    between before after = some change ↔ between after before = some change.reverse := by
  cases before <;> cases after <;> cases change <;> simp [between, reverse, eq_comm]

end FileChange

theorem Outline.path_removedReport (o : Outline) : o.removedReport.path = o.path := by
  rw [removedReport]
  by_cases hempty : o.exportNames.isEmpty = true
  · rw [if_pos hempty]
  · rw [if_neg hempty]

theorem Outline.change_removedReport (o : Outline) : o.removedReport.change = .removed := by
  rw [removedReport]
  by_cases hempty : o.exportNames.isEmpty = true
  · rw [if_pos hempty]
  · rw [if_neg hempty]

namespace Snapshot

/-- An outline is found under its path. -/
def Labelled (s : Snapshot) : Prop := ∀ path o, s.outlines.get? path = some o → o.path = path

/-- A snapshot has outlines of its own files only, each under its path. -/
structure Tidy (s : Snapshot) : Prop where
  /-- A file with an outline is among the files. -/
  known : ∀ path, (s.outlines.get? path).isSome → (s.files.get? path).isSome
  path : ∀ path o, s.outlines.get? path = some o → o.path = path

/-- The digest that a snapshot has of a file. -/
def hash? (s : Snapshot) (path : String) : Option String :=
  (s.files.get? path).map FileRecord.hash

/-- The digest with which a snapshot shows a path in a comparison: that of its outline, or else
    that of its file. -/
def shown? (s : Snapshot) (path : String) : Option String :=
  ((s.outlines.get? path).map Outline.hash).or (s.hash? path)

/-- A path is among the files or the outlines of a snapshot. -/
def Occurs (s : Snapshot) (path : String) : Prop :=
  (s.files.get? path).isSome ∨ (s.outlines.get? path).isSome

/-- What happened to a path between two snapshots. -/
def Differs (old new : Snapshot) (path : String) : FileChange → Prop
  | .removed => old.Occurs path ∧ ¬ new.Occurs path
  | .added => ¬ old.Occurs path ∧ new.Occurs path
  | .modified => old.Occurs path ∧ new.Occurs path ∧ old.shown? path ≠ new.shown? path

section Shown

variable {s : Snapshot} {path : String}

theorem shown?_of_outline {o : Outline} (ho : s.outlines.get? path = some o) :
    s.shown? path = some o.hash := by
  rw [shown?, ho]
  rfl

theorem shown?_of_no_outline (ho : s.outlines.get? path = none) : s.shown? path = s.hash? path := by
  rw [shown?, ho]
  rfl

theorem isSome_shown?_iff : (s.shown? path).isSome ↔ s.Occurs path := by
  rw [shown?, hash?, Option.isSome_or, Bool.or_eq_true, Option.isSome_map, Option.isSome_map,
    or_comm]
  rfl

theorem contains_paths (s : Snapshot) (path : String) :
    s.paths.contains path = (s.shown? path).isSome := by
  rw [Bool.eq_iff_iff, contains_iff_mem, mem_paths_iff, isSome_shown?_iff]
  rfl

theorem hash_outlineOf {digest : String} (h : s.shown? path = some digest) :
    (s.outlineOf path).hash = digest := by
  cases ho : s.outlines.get? path with
  | some o =>
    rw [shown?_of_outline ho] at h
    rw [outlineOf, ho, ← Option.some.inj h]
    rfl
  | none =>
    rw [shown?_of_no_outline ho, hash?] at h
    rw [outlineOf, ho, h]
    rfl

theorem Labelled.path_outlineOf (h : s.Labelled) (path : String) :
    (s.outlineOf path).path = path := by
  rw [outlineOf]
  cases ho : s.outlines.get? path with
  | none => rfl
  | some o => exact h path o ho

theorem Tidy.shown?_eq_none_iff (h : s.Tidy) : s.shown? path = none ↔ s.hash? path = none := by
  rw [← Option.not_isSome_iff_eq_none, ← Option.not_isSome_iff_eq_none, isSome_shown?_iff, hash?,
    Option.isSome_map, Occurs, or_iff_left_of_imp (h.known path)]

end Shown

variable {old new : Snapshot} {path : String} (weight : UInt32) (graph : Option PropertyGraph)

/-- What happened to a path follows from the digests with which it is shown. -/
theorem differs_iff {change : FileChange} : old.Differs new path change ↔
    FileChange.between (old.shown? path) (new.shown? path) = some change := by
  cases change <;> simp only [Differs, ← isSome_shown?_iff] <;>
    cases old.shown? path <;> cases new.shown? path <;> simp [FileChange.between]

theorem path_of_pathReport (hold : old.Labelled) (hnew : new.Labelled) {r : ChangeReport}
    (h : old.pathReport? new weight graph path = some r) : r.path = path := by
  simp only [pathReport?] at h
  split at h
  · rw [← Option.some.inj h, Outline.path_removedReport, hold.path_outlineOf]
  · split at h
    · rw [← Option.some.inj h]
      exact hnew.path_outlineOf path
    · split at h
      · exact nomatch h
      · rw [← Option.some.inj h]
        exact hnew.path_outlineOf path

/-- What is reported of a path that one of two snapshots has follows from its digests. -/
theorem change_pathReport (hmem : path ∈ old.paths ++ new.paths) :
    (old.pathReport? new weight graph path).map ChangeReport.change =
      FileChange.between (old.shown? path) (new.shown? path) := by
  rw [mem_append, ← contains_iff_mem, ← contains_iff_mem, contains_paths, contains_paths] at hmem
  simp only [pathReport?, contains_paths]
  cases hpre : old.shown? path with
  | none =>
    -- Then the new snapshot has it.
    rw [hpre] at hmem
    obtain ⟨digest, hafter⟩ := Option.isSome_iff_exists.mp (hmem.resolve_left nofun)
    rw [hafter]
    rfl
  | some digest =>
    cases hafter : new.shown? path with
    | none => exact congrArg some (Outline.change_removedReport _)
    | some digest' =>
      rw [hash_outlineOf hpre, hash_outlineOf hafter]
      by_cases hsame : digest = digest'
      · simp [FileChange.between, hsame]
      · simp [FileChange.between, hsame, Outline.report]

/-- What is reported of a path follows from the digests with which it is shown. -/
theorem exists_report_change_iff (hold : old.Labelled) (hnew : new.Labelled) {change : FileChange} :
    (∃ r ∈ old.reports new weight graph, r.path = path ∧ r.change = change) ↔
      FileChange.between (old.shown? path) (new.shown? path) = some change := by
  constructor
  · rintro ⟨r, hr, rfl, rfl⟩
    obtain ⟨other, hother, hreport⟩ := mem_filterMap.mp hr
    rw [path_of_pathReport weight graph hold hnew hreport,
      ← change_pathReport weight graph (mem_sortedSet.mp hother), hreport]
    rfl
  · intro h
    -- Something happens to a path only if one of the snapshots has it.
    have hmem : path ∈ old.paths ++ new.paths := by
      rw [mem_append, ← contains_iff_mem, ← contains_iff_mem, contains_paths, contains_paths]
      by_contra hnot
      rw [not_or, Option.not_isSome_iff_eq_none, Option.not_isSome_iff_eq_none] at hnot
      rw [hnot.1, hnot.2] at h
      cases h
    rw [← change_pathReport weight graph hmem, Option.map_eq_some_iff] at h
    obtain ⟨r, hr, hchange⟩ := h
    exact ⟨r, mem_filterMap.mpr ⟨path, mem_sortedSet.mpr hmem, hr⟩,
      path_of_pathReport weight graph hold hnew hr, hchange⟩

theorem exists_report_iff (hold : old.Labelled) (hnew : new.Labelled) :
    (∃ r ∈ old.reports new weight graph, r.path = path) ↔ old.shown? path ≠ new.shown? path := by
  rw [← FileChange.isSome_between_iff, Option.isSome_iff_exists]
  simp only [← exists_report_change_iff weight graph hold hnew]
  exact ⟨fun ⟨r, hr, hpath⟩ => ⟨r.change, r, hr, hpath, rfl⟩,
    fun ⟨_, r, hr, hpath, _⟩ => ⟨r, hr, hpath⟩⟩

theorem increasing_paths_reports (hold : old.Labelled) (hnew : new.Labelled) :
    Increasing ((old.reports new weight graph).map ChangeReport.path) := by
  rw [Increasing, pairwise_map]
  refine List.Pairwise.filterMap _ (fun first second hlt r hr r' hr' => ?_)
    (increasing_sortedSet (old.paths ++ new.paths))
  rw [path_of_pathReport weight graph hold hnew hr, path_of_pathReport weight graph hold hnew hr']
  exact hlt

/-- Let the outlines of two snapshots be found under their own paths. A comparison reports what
    happened to each path, in the order of paths and once for each: a path was removed or added if
    one snapshot has it and the other one does not, and it was modified if both have it and show it
    with different digests. A comparison the other way reports the same paths, with added and
    removed ones exchanged. -/
theorem reports_cover_differences (old new : Snapshot) (hold : old.Labelled) (hnew : new.Labelled)
    (weight : UInt32) (graph : Option PropertyGraph) :
    Increasing ((old.reports new weight graph).map ChangeReport.path) ∧
    (∀ path change,
      (∃ r ∈ old.reports new weight graph, r.path = path ∧ r.change = change) ↔
        old.Differs new path change) ∧
    ∀ (weight' : UInt32) (graph' : Option PropertyGraph) (path : String) (change : FileChange),
      (∃ r ∈ old.reports new weight graph, r.path = path ∧ r.change = change) ↔
        ∃ r ∈ new.reports old weight' graph', r.path = path ∧ r.change = change.reverse := by
  refine ⟨increasing_paths_reports weight graph hold hnew, fun path change => ?_,
    fun weight' graph' path change => ?_⟩
  · rw [exists_report_change_iff weight graph hold hnew, differs_iff]
  · rw [exists_report_change_iff weight graph hold hnew,
      exists_report_change_iff weight' graph' hnew hold, FileChange.between_eq_some_iff]

/-- A snapshot with one file and one outline of another file. -/
def patchy (path hash other otherHash : String) : Snapshot where
  id := "1"
  timestamp := 1
  files := .ofList [(path, ⟨path, hash, 0, 0, "", 0, 0⟩)]
  outlines := .ofList [(other, .empty other otherHash)]
  graph := .empty

/-- A file whose outline is new, with another digest, and one that was exchanged for another. -/
theorem reports_cover_differences_patchy :
    (patchy "a" "1" "b" "2").Labelled ∧ (patchy "c" "3" "a" "4").Labelled ∧
    (∃ r ∈ (patchy "a" "1" "b" "2").reports (patchy "c" "3" "a" "4") 5 none,
      r.path = "a" ∧ r.change = .modified) ∧
    (∃ r ∈ (patchy "a" "1" "b" "2").reports (patchy "c" "3" "a" "4") 5 none,
      r.path = "b" ∧ r.change = .removed) ∧
    ∃ r ∈ (patchy "c" "3" "a" "4").reports (patchy "a" "1" "b" "2") 5 none,
      r.path = "b" ∧ r.change = .added := by
  have hlabelled : ∀ path hash other otherHash, (patchy path hash other otherHash).Labelled := by
    intro path hash other otherHash found o h
    rcases Dict.mem_of_get_insertAll h with hmem | hnone
    · obtain ⟨rfl, rfl⟩ := Prod.mk.inj (mem_singleton.mp hmem)
      rfl
    · cases hnone
  obtain ⟨-, hreport, hback⟩ := reports_cover_differences (patchy "a" "1" "b" "2")
    (patchy "c" "3" "a" "4") (hlabelled _ _ _ _) (hlabelled _ _ _ _) 5 none
  have hremoved := (hreport "b" .removed).mpr ⟨.inr rfl, by unfold Occurs; decide⟩
  exact ⟨hlabelled _ _ _ _, hlabelled _ _ _ _,
    (hreport "a" .modified).mpr ⟨.inl rfl, .inr rfl, by decide⟩, hremoved,
    (hback 5 none "b" .removed).mp hremoved⟩

end Snapshot

end Ripple
