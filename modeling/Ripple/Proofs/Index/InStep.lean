import Ripple.Index.Indexer
import Ripple.Proofs.FileTree.Walk

/-!
# An Index in Step with a Tree

An index is in step with a tree at a path if it knows the file there exactly
if the tree has one that is tracked, with the digest and the size of its
present content. The times in an index do not matter for this: they only
decide which files are looked at. A full scan puts an index in step with a
tree everywhere.

A pass over some files can be misled: a file whose time did not move, or
whose digest is the same, is taken as unchanged, so it had better be. `Ready`
is what has to hold at a path so that a look at it puts the index in step.

## Theorems

* `Indexer.InStep.ready`: An index that is in step is not misled.
* `Indexer.inStep_scanned`: A scan puts an index in step with a tree.
-/

namespace Ripple

open Ripple.Path

/-- What a record says about the content of a file. -/
def FileRecord.substance (r : FileRecord) : String × UInt64 × UInt64 × String :=
  (r.hash, r.size, r.lineCount, r.language)

namespace HashRegistry

theorem entries_update (r : HashRegistry) (path hash : String) :
    (r.update path hash).entries = r.entries.insert path hash := by
  unfold update hasChanged
  split
  · rfl
  next hsame =>
    rw [decide_eq_true_eq, not_not] at hsame
    refine Dict.ext_get fun key => ?_
    rw [Dict.get_insert]
    split
    next hkey => rw [hkey, hsame]
    · rfl

@[simp] theorem kind_update (r : HashRegistry) (path hash : String) :
    (r.update path hash).kind = r.kind := by
  unfold update
  split
  · rfl
  · rfl

theorem entries_foldl_update (records : List FileRecord) (r : HashRegistry) :
    (records.foldl (fun reg f => reg.update f.path f.hash) r).entries =
      r.entries.insertAll (records.map fun f => (f.path, f.hash)) := by
  induction records generalizing r with
  | nil => rfl
  | cons f records ih =>
    rw [List.foldl_cons, ih, entries_update]
    rfl

theorem kind_foldl_update (records : List FileRecord) (r : HashRegistry) :
    (records.foldl (fun reg f => reg.update f.path f.hash) r).kind = r.kind := by
  induction records generalizing r with
  | nil => rfl
  | cons f records ih => rw [List.foldl_cons, ih, kind_update]

end HashRegistry

namespace Indexer

/-- Two indexes are of one project, with the same rules and the same kind of digest. -/
structure SameSettings (ix ix' : Indexer) : Prop where
  root : ix'.root = ix.root
  rules : ix'.rules = ix.rules
  kind : ix'.registry.kind = ix.registry.kind

theorem SameSettings.refl (ix : Indexer) : SameSettings ix ix := ⟨rfl, rfl, rfl⟩

theorem SameSettings.trans {first second third : Indexer} (h : SameSettings first second)
    (h' : SameSettings second third) : SameSettings first third :=
  ⟨h'.root.trans h.root, h'.rules.trans h.rules, h'.kind.trans h.kind⟩

/-- Two indexes know the same of a file. -/
structure SameAt (path : String) (ix ix' : Indexer) : Prop where
  files : ix'.files.get? path = ix.files.get? path
  hashes : ix'.registry.entries.get? path = ix.registry.entries.get? path
  times : ix'.times.get? path = ix.times.get? path

theorem SameAt.refl (path : String) (ix : Indexer) : SameAt path ix ix := ⟨rfl, rfl, rfl⟩

theorem SameAt.trans {path : String} {first second third : Indexer} (h : SameAt path first second)
    (h' : SameAt path second third) : SameAt path first third :=
  ⟨h'.files.trans h.files, h'.hashes.trans h.hashes, h'.times.trans h.times⟩

/-- An index has the digests of the files that it knows. -/
def Registered (ix : Indexer) (path : String) : Prop :=
  ix.registry.entries.get? path = (ix.files.get? path).map FileRecord.hash

/-- An index knows a file as a tree has it. -/
structure InStep (ix : Indexer) (tree : FileTree) (path : String) : Prop where
  /-- What is known of a file is what the tree has. -/
  known : ∀ r, ix.files.get? path = some r → ∃ content time modified now,
    tree.Holds ix.rules path content time ∧
      r = fileRecord ix.registry.kind path content modified now
  /-- A file of the tree is known. -/
  held : ∀ content time, tree.Holds ix.rules path content time → (ix.files.get? path).isSome
  registered : ix.Registered path

/-- An index is not misled about a file: what it takes as unchanged is unchanged. -/
structure Ready (ix : Indexer) (tree : FileTree) (path : String) : Prop where
  /-- A file that is known is tracked. -/
  tracked : (ix.files.get? path).isSome → ix.rules.tracks path = true
  registered : ix.Registered path
  /-- A file with the time or the digest that is known has the content that is known. -/
  honest : ∀ r content time, ix.files.get? path = some r →
    tree.Holds ix.rules path content time →
      ix.times.get? path = some time ∨ r.hash = ix.registry.kind.digest content →
        ∃ modified now, r = fileRecord ix.registry.kind path content modified now

variable {ix ix' : Indexer} {tree : FileTree} {path : String}

/-- An index is in step where it knows no file and the tree has none. -/
theorem inStep_of_unknown (hunknown : ix.files.get? path = none)
    (hfree : ∀ content time, ¬ tree.Holds ix.rules path content time)
    (hreg : ix.Registered path) : ix.InStep tree path where
  known _ hr := nomatch hunknown.symm.trans hr
  held content time hholds := absurd hholds (hfree content time)
  registered := hreg

/-- An index is in step where it has the record of the file that the tree has. -/
theorem inStep_of_known {content : ByteArray} {time modified now : Int64}
    (hholds : tree.Holds ix.rules path content time)
    (hknown : ix.files.get? path = some (fileRecord ix.registry.kind path content modified now))
    (hreg : ix.Registered path) : ix.InStep tree path where
  known r hr := by
    obtain rfl := Option.some.inj (hknown.symm.trans hr)
    exact ⟨content, time, modified, now, hholds, rfl⟩
  held _ _ _ := by
    rw [hknown]
    rfl
  registered := hreg

theorem InStep.ready (h : ix.InStep tree path) : ix.Ready tree path where
  tracked hsome := by
    obtain ⟨r, hr⟩ := Option.isSome_iff_exists.mp hsome
    obtain ⟨content, time, modified, now, hholds, -⟩ := h.known r hr
    exact hholds.tracked
  registered := h.registered
  honest r content time hr hholds _ := by
    obtain ⟨content', time', modified, now, hholds', hrec⟩ := h.known r hr
    rw [(hholds.unique hholds').1]
    exact ⟨modified, now, hrec⟩

/-- The times in an index do not matter for being in step. -/
theorem InStep.congr (hset : SameSettings ix ix')
    (hfiles : ix'.files.get? path = ix.files.get? path)
    (hhashes : ix'.registry.entries.get? path = ix.registry.entries.get? path)
    (h : ix.InStep tree path) : ix'.InStep tree path where
  known := by
    rw [hfiles, hset.rules, hset.kind]
    exact h.known
  held := by
    rw [hfiles, hset.rules]
    exact h.held
  registered := by
    rw [Registered, hhashes, hfiles]
    exact h.registered

theorem Ready.congr (hset : SameSettings ix ix') (hsame : SameAt path ix ix')
    (h : ix.Ready tree path) : ix'.Ready tree path where
  tracked := by
    rw [hsame.files, hset.rules]
    exact h.tracked
  registered := by
    rw [Registered, hsame.hashes, hsame.files]
    exact h.registered
  honest := by
    rw [hsame.files, hsame.times, hset.rules, hset.kind]
    exact h.honest

section Scan

variable (ix : Indexer) (now : Int64)

/-- The records that a scan makes. -/
def scanRecords (tree : FileTree) : List FileRecord :=
  (tree.walk ix.rules).map fun f =>
    fileRecord ix.registry.kind f.path f.content (FileTree.timeOf f.modified) now

variable {ix now}

theorem mem_scanRecords_iff (htree : tree.WellFormed) {r : FileRecord} :
    r ∈ ix.scanRecords now tree ↔ ∃ content time, tree.Holds ix.rules r.path content time ∧
      r = fileRecord ix.registry.kind r.path content time now := by
  constructor
  · intro hr
    obtain ⟨f, hf, rfl⟩ := List.mem_map.mp hr
    exact ⟨f.content, FileTree.timeOf f.modified,
      (FileTree.holds_iff_mem_walk htree).mpr ⟨f.modified, hf, rfl⟩, rfl⟩
  · rintro ⟨content, time, hholds, hrec⟩
    obtain ⟨modified, hmem, rfl⟩ := (FileTree.holds_iff_mem_walk htree).mp hholds
    exact List.mem_map.mpr ⟨⟨r.path, content, modified⟩, hmem, hrec.symm⟩

theorem eq_of_mem_scanRecords (htree : tree.WellFormed) {r r' : FileRecord}
    (h : r ∈ ix.scanRecords now tree) (h' : r' ∈ ix.scanRecords now tree)
    (hpath : r'.path = r.path) : r' = r := by
  obtain ⟨content, time, hholds, hrec⟩ := (mem_scanRecords_iff htree).mp h
  obtain ⟨content', time', hholds', hrec'⟩ := (mem_scanRecords_iff htree).mp h'
  rw [hpath] at hholds' hrec'
  obtain ⟨rfl, rfl⟩ := hholds.unique hholds'
  exact hrec'.trans hrec.symm

/-- What a scan puts under the path of a record. -/
theorem get_scanRecords_of_mem {α : Type} (f : FileRecord → α) (htree : tree.WellFormed)
    {r : FileRecord} (h : r ∈ ix.scanRecords now tree) :
    (Dict.ofList ((ix.scanRecords now tree).map fun r => (r.path, f r))).get? r.path =
      some (f r) := by
  refine Dict.get_insertAll_of_mem (List.mem_map.mpr ⟨r, h, rfl⟩) fun other hother => ?_
  obtain ⟨r', hr', heq⟩ := List.mem_map.mp hother
  obtain ⟨hpath, rfl⟩ := Prod.mk.inj heq
  rw [eq_of_mem_scanRecords htree h hr' hpath]

theorem get_scanRecords_of_not_mem {α : Type} (f : FileRecord → α)
    (h : ∀ r ∈ ix.scanRecords now tree, r.path ≠ path) :
    (Dict.ofList ((ix.scanRecords now tree).map fun r => (r.path, f r))).get? path = none := by
  refine (Dict.get_insertAll_of_not_mem fun value hvalue => ?_).trans (Dict.get_empty path)
  obtain ⟨r, hr, heq⟩ := List.mem_map.mp hvalue
  exact h r hr (Prod.mk.inj heq).1

theorem get_files_scanned_of_mem (htree : tree.WellFormed) {r : FileRecord}
    (h : r ∈ ix.scanRecords now tree) :
    (ix.scanned tree now).files.get? r.path = some r :=
  get_scanRecords_of_mem id htree h

theorem get_files_scanned_of_not_mem (h : ∀ r ∈ ix.scanRecords now tree, r.path ≠ path) :
    (ix.scanned tree now).files.get? path = none :=
  get_scanRecords_of_not_mem id h

theorem entries_scanned : (ix.scanned tree now).registry.entries =
    (ix.registry.entries.insertAll
      ((ix.scanRecords now tree).map fun r => (r.path, r.hash))).filter
        fun path _ => (ix.scanned tree now).files.contains path := by
  rw [← HashRegistry.entries_foldl_update]
  rfl

theorem registered_scanned (path : String) : (ix.scanned tree now).Registered path := by
  rw [Registered, entries_scanned, Dict.get_filter]
  cases hget : (ix.scanned tree now).files.get? path with
  | none =>
    have hhas := Dict.contains_eq_false_iff.mpr hget
    rw [Option.map_none, Option.filter_eq_none_iff]
    intro _ _
    rw [hhas]
    exact Bool.false_ne_true
  | some r =>
    have hhas : (ix.scanned tree now).files.contains path = true := by
      rw [Dict.contains_eq_true_iff, Dict.mem_keys_iff, hget]
      rfl
    -- Records and digests are put in side by side.
    have hhash : (ix.registry.entries.insertAll
        ((ix.scanRecords now tree).map fun r => (r.path, r.hash))).get? path = some r.hash :=
      Dict.get_insertAll_map (ix.scanRecords now tree) FileRecord.path FileRecord.hash
        (fun _ hnone => nomatch (Dict.get_empty path).symm.trans hnone) hget
    rw [hhash, Option.filter_some, if_pos hhas]
    rfl

theorem inStep_scanned (htree : tree.WellFormed) (ix : Indexer) (now : Int64) (path : String) :
    (ix.scanned tree now).InStep tree path := by
  have hkind : (ix.scanned tree now).registry.kind = ix.registry.kind :=
    HashRegistry.kind_foldl_update _ _
  have hreg : (ix.scanned tree now).Registered path := registered_scanned path
  by_cases hheld : ∃ content time, tree.Holds ix.rules path content time
  · obtain ⟨content, time, hholds⟩ := hheld
    have hmem : fileRecord ix.registry.kind path content time now ∈ ix.scanRecords now tree :=
      (mem_scanRecords_iff htree).mpr ⟨content, time, hholds, rfl⟩
    have hget := get_files_scanned_of_mem htree hmem
    rw [← hkind] at hget
    exact inStep_of_known hholds hget hreg
  · refine inStep_of_unknown ?_ (fun content time hholds => hheld ⟨content, time, hholds⟩)
      hreg
    refine get_files_scanned_of_not_mem fun r hr hpath => ?_
    obtain ⟨content, time, hholds, -⟩ := (mem_scanRecords_iff htree).mp hr
    exact hheld ⟨content, time, hpath ▸ hholds⟩

end Scan

end Indexer

end Ripple
