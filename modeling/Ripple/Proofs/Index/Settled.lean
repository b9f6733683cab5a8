import Ripple.Proofs.Index.Entries

/-!
# Files That Are Settled

A look at a file leaves nothing to do for a second look: a file that is not
there is not known, neither by its record nor by its time, and one that is
there and tracked is known with the time that it has. Then a second look goes
by the time alone and does not read the file, whatever the first one found. It
changes nothing about the index and does not ask for anything to be stored.

Looks at other files keep a file settled, so after a pass every file that was
named is settled, however often and in whatever order files were named. After
a scan every file is.

## Theorems

* `IndexPass.settled_foldl`: A pass settles the files that are named.
* `IndexPass.idle_foldl`: A pass over settled files does nothing.
-/

namespace Ripple

open Ripple.Path

namespace Indexer

/-- There is nothing left to do at a path. -/
structure Settled (ix : Indexer) (tree : FileTree) (path : String) : Prop where
  /-- A file that is not there is not known, and neither is its time. -/
  absent : tree.file? path = none → ix.files.get? path = none ∧ ix.times.get? path = none
  /-- A file that is there and tracked is known with its time. -/
  present : ∀ content time, tree.file? path = some (content, time) →
    ix.rules.tracks path = true → (ix.files.get? path).isSome ∧ ix.times.get? path = some time

variable {tree : FileTree} {now : Int64} {path : String}

theorem settled_of_looked {ix : Indexer} {e : Entry}
    (h : ix.entry path = e.looked ix.rules ix.registry.kind tree path now) :
    ix.Settled tree path where
  absent hgone := by
    rw [Entry.looked, hgone] at h
    exact ⟨congrArg Entry.record? h, congrArg Entry.time? h⟩
  present content time hfound htrack := by
    rw [Entry.looked, hfound, Option.elim_some, if_pos htrack] at h
    obtain ⟨hrec, htime⟩ := e.known_met content time
    exact ⟨(congrArg (·.record?.isSome) h).trans hrec, (congrArg Entry.time? h).trans htime⟩

/-- A scan settles all files. -/
theorem settled_scanned (htree : tree.WellFormed) (ix : Indexer) (now : Int64)
    (hpath : Canonical path) : (ix.scanned tree now).Settled tree path where
  absent hgone := by
    have hnone : ∀ r ∈ ix.scanRecords now tree, r.path ≠ path := by
      rintro r hr rfl
      obtain ⟨content, time, hholds, -⟩ := (mem_scanRecords_iff htree).mp hr
      rw [hholds.found] at hgone
      cases hgone
    exact ⟨get_files_scanned_of_not_mem hnone,
      get_scanRecords_of_not_mem FileRecord.lastModified hnone⟩
  present content time hfound htrack := by
    have hmem : fileRecord ix.registry.kind path content time now ∈ ix.scanRecords now tree :=
      (mem_scanRecords_iff htree).mpr ⟨content, time, ⟨htrack, hpath, hfound⟩, rfl⟩
    refine ⟨Option.isSome_iff_exists.mpr ⟨_, get_files_scanned_of_mem htree hmem⟩, ?_⟩
    exact get_scanRecords_of_mem FileRecord.lastModified htree hmem

end Indexer

namespace IndexPass

open Indexer

variable {tree : FileTree} {now : Int64} {path : String} {p p' p'' : IndexPass}

/-- Nothing was done between two stages of a pass, except to note what did not change. -/
structure Idle (p p' : IndexPass) : Prop where
  indexer : p'.indexer = p.indexer
  updated : p'.outcome.updated = p.outcome.updated
  removed : p'.outcome.removed = p.outcome.removed
  filesDirty : p'.filesDirty = p.filesDirty
  timesDirty : p'.timesDirty = p.timesDirty

theorem Idle.refl (p : IndexPass) : Idle p p := ⟨rfl, rfl, rfl, rfl, rfl⟩

theorem Idle.trans (h : Idle p p') (h' : Idle p' p'') : Idle p p'' :=
  ⟨h'.indexer.trans h.indexer, h'.updated.trans h.updated, h'.removed.trans h.removed,
    h'.filesDirty.trans h.filesDirty, h'.timesDirty.trans h.timesDirty⟩

variable (now) in
theorem idle_visitPath (h : p.indexer.Settled tree path) : Idle p (p.visitPath tree now path) := by
  unfold visitPath
  split
  next hgone =>
    obtain ⟨hfiles, htimes⟩ := h.absent hgone
    have hunknown := Dict.contains_eq_false_iff.mpr hfiles
    have huntimed := Dict.contains_eq_false_iff.mpr htimes
    simp only [drop, hunknown, huntimed, Dict.erase_of_none htimes, Bool.or_false,
      Bool.false_eq_true, if_false]
    exact .refl p
  next content time hfound =>
    split
    next htrack =>
      obtain ⟨hsome, htime⟩ := h.present content time hfound htrack
      have hknown := Dict.contains_eq_true_iff.mpr (Dict.mem_keys_iff.mpr hsome)
      simp only [take, hknown, htime, decide_true, Bool.and_self, if_true]
      exact ⟨rfl, rfl, rfl, rfl, rfl⟩
    · exact .refl p

section Fold

variable (tree : FileTree) (now : Int64)

theorem settled_foldl (changed : List String) (p : IndexPass)
    (h : Names p.indexer.root changed path) :
    (changed.foldl (visit tree now) p).indexer.Settled tree path := by
  have hset := sameSettings_foldl tree now changed p
  have hlooked := entry_foldl_of_names tree now changed p h
  rw [← hset.rules, ← hset.kind] at hlooked
  exact settled_of_looked hlooked

theorem idle_foldl (changed : List String) (p : IndexPass)
    (h : ∀ path, Names p.indexer.root changed path → p.indexer.Settled tree path) :
    Idle p (changed.foldl (visit tree now) p) := by
  induction changed generalizing p with
  | nil => exact .refl p
  | cons candidate rest ih =>
    have hfst : Idle p (p.visit tree now candidate) := by
      unfold visit
      split
      · exact .refl p
      next path hpath => exact idle_visitPath now (h path (names_cons.mpr (.inl hpath)))
    refine hfst.trans (ih _ fun path hnamed => ?_)
    rw [hfst.indexer] at hnamed ⊢
    exact h path (names_cons.mpr (.inr hnamed))

end Fold

end IndexPass

end Ripple
