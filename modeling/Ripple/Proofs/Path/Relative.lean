import Ripple.Engine
import Ripple.Proofs.Graph.Resolve

/-!
# Names of a File below the Project

A file can be named from the root of the file system or from the project, with
dots and repeated slashes in between. Whatever the spelling, `Path.relative?`
gives one name. This name means itself, and it means the same with the root in
front. So the events of a pass, which read each path against the root, and the
index, which reads it as it stands, speak of the same files.
-/

namespace Ripple.Path

open List

variable {root path : String}

theorem follow_names {names : List String} (h : ∀ name ∈ names, IsName name)
    (parts : List String) : follow parts names = some (names.reverse ++ parts) := by
  induction names generalizing parts with
  | nil => rfl
  | cons name names ih =>
    obtain ⟨hname, hnames⟩ := forall_mem_cons.mp h
    simp [follow, hname.ne_empty, hname.ne_dot, hname.ne_dots, ih hnames]

theorem isAbsolute_join (hroot : isAbsolute root = true) (path : String) :
    isAbsolute (join root path) = true := by
  have happend : ∀ tail, isAbsolute (root ++ tail) = true := fun tail => by
    rw [isAbsolute, decide_eq_true_eq] at hroot ⊢
    rw [String.toList_append, head?_append, hroot, Option.some_or]
  unfold join
  split
  · assumption
  · split
    · exact happend path
    · rw [String.append_assoc]
      exact happend _

/-- A path means the same with the root of the project in front. -/
theorem relative_join (hroot : isAbsolute root = true) (path : String) :
    relative? root (join root path) = relative? root path := by
  by_cases hpath : isAbsolute path = true
  · rw [join, if_pos hpath]
  · have hrel := Bool.eq_false_iff.mpr hpath
    have hbelow : segmentsBelow? root (join root path) = segmentsBelow? root path := by
      rw [segmentsBelow?, segmentsBelow?, isAbsolute_join hroot, hrel, hroot,
        segments_join root hrel]
      exact stripSegments_eq_some_iff.mpr rfl
    rw [relative?, relative?, hbelow]

theorem relative_of_canonical (root : String) (h : Canonical path) :
    relative? root path = some path := by
  obtain ⟨names, hne, hnames, rfl⟩ := h
  have hsegs : segments (ofSegments names) = names := segments_ofSegments fun name hname =>
    ⟨(hnames name hname).no_slash, (hnames name hname).ne_empty, (hnames name hname).ne_dot⟩
  have hrel : isAbsolute (ofSegments names) = false := isAbsolute_ofSegments fun name hname =>
    ⟨(hnames name hname).ne_empty, (hnames name hname).no_slash⟩
  have hplace : (segmentsBelow? root (ofSegments names)).bind (follow []) = some names.reverse := by
    rw [segmentsBelow?, hrel, hsegs]
    exact (follow_names hnames []).trans (by rw [append_nil])
  rw [relative?, hplace]
  split
  next hnil => cases hnil
  next hnil => exact absurd (reverse_eq_nil_iff.mp (Option.some.inj hnil)) hne
  next parts _ hparts => rw [← Option.some.inj hparts, reverse_reverse]

theorem relative_of_climbs (root : String) (hpath : isAbsolute path = false)
    (h : Climbs 0 (segments path)) : relative? root path = none := by
  have hnone : follow [] (segments path) = none := follow_of_climbs h
  rw [relative?, segmentsBelow?, hpath]
  simp [hnone]

/-- For a project with an absolute root, what a path means is made of names and means itself, also
    with the root in front. A relative path means the same as it does from the root, and none if it
    ever climbs above the project. The event of a path names the file that the path means. -/
theorem relative_canonical_and_independent (root : String) (hroot : isAbsolute root = true) :
    (∀ path name, relative? root path = some name → Canonical name ∧
      relative? root name = some name ∧ relative? root (join root name) = some name) ∧
    (∀ path, isAbsolute path = false → relative? root path = relative? root (join root path)) ∧
    (∀ path, isAbsolute path = false → Climbs 0 (segments path) → relative? root path = none) ∧
    ∀ scene path,
      (Engine.changedEvent? scene root path).bind Event.path? = relative? root path := by
  refine ⟨fun path name h => ?_, fun path _ => (relative_join hroot path).symm,
    fun path hpath hclimbs => relative_of_climbs root hpath hclimbs, fun scene path => ?_⟩
  · have hself := relative_of_canonical root (canonical_relative h)
    exact ⟨canonical_relative h, hself, (relative_join hroot name).trans hself⟩
  · rw [Engine.changedEvent?, Option.bind_map, ← relative_join hroot path]
    exact Option.bind_fun_some _

/-- Dots and a root in front make no difference. -/
theorem relative_canonical_and_independent_dotted :
    relative? "/p" "a/.././/b" = some "b" ∧ relative? "/p" (join "/p" "a/.././/b") = some "b" ∧
      relative? "/p" "b" = some "b" ∧ relative? "/p" "a/../../p/b" = none := by
  obtain ⟨hcanonical, hjoin, hclimbs, -⟩ := relative_canonical_and_independent "/p" (by decide)
  have hfound : relative? "/p" "a/.././/b" = some "b" := by decide
  exact ⟨hfound, (hjoin _ (by decide)).symm.trans hfound, (hcanonical _ _ hfound).2.1,
    hclimbs _ (by decide) ⟨["a", "..", ".."], by decide⟩⟩

end Ripple.Path
