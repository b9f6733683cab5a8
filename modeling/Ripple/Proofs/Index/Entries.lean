import Ripple.Proofs.Index.Notice

/-!
# What an Index Knows of One File

An index keeps a record, a digest and a time of each file, in three maps. All
that a look at a file goes by is what the index knows of that file, so a pass
can be taken apart by files: at a file that is named the outcome is that of one
look, however often and among whatever other files it is named, and nothing
happens at a file that is not named.

Whether a part of an index has to be stored is decided from marks that are set
on the way. A part without a mark is as it was.

## Theorems

* `Indexer.entry_passed`: A pass is one look at each file that is named.
* `Indexer.whole_scanned`, `Indexer.whole_passed`: Records, digests and times
  belong together after a scan, and stay so in a pass.
* `Indexer.marked_passed`, `Indexer.follows_scanned`: What is not marked is as it was.
-/

namespace Ripple

open Ripple.Path Dict

namespace HashRegistry

/-- The digests are those of another registry unless there is a mark that they are not stored. -/
def Follows (r r' : HashRegistry) : Prop := r'.dirty = false → r' = r

theorem Follows.trans {first second third : HashRegistry} (h : Follows first second)
    (h' : Follows second third) : Follows first third := by
  intro hclean
  obtain rfl := h' hclean
  exact h hclean

theorem follows_update (r : HashRegistry) (path hash : String) :
    Follows r (r.update path hash) := by
  unfold Follows update
  split
  · intro hclean
    cases hclean
  · exact fun _ => rfl

theorem follows_remove (r : HashRegistry) (path : String) : Follows r (r.remove path) := by
  intro hclean
  obtain ⟨-, hhas⟩ : r.dirty = false ∧ r.entries.contains path = false :=
    Bool.or_eq_false_iff.mp hclean
  rw [remove, erase_of_none (contains_eq_false_iff.mp hhas), hhas, Bool.or_false]

theorem follows_retain (r : HashRegistry) (keep : String → Bool) : Follows r (r.retain keep) := by
  intro hclean
  obtain ⟨-, hsize⟩ : r.dirty = false ∧
      (decide ((r.entries.filter fun path _ => keep path).size ≠ r.entries.size)) = false :=
    Bool.or_eq_false_iff.mp hclean
  have hall : (r.entries.filter fun path _ => keep path) = r.entries := by
    rw [decide_eq_false_iff_not, not_not] at hsize
    have hlist := List.filter_sublist.eq_of_length hsize
    exact ext_get fun path => congrArg (lookup path) hlist
  simp only [retain, hall, ne_eq, not_true_eq_false, decide_false, Bool.or_false]

theorem follows_foldl_update (records : List FileRecord) (r : HashRegistry) :
    Follows r (records.foldl (fun reg f => reg.update f.path f.hash) r) := by
  induction records generalizing r with
  | nil => exact fun _ => rfl
  | cons f records ih => exact (follows_update r f.path f.hash).trans (ih _)

end HashRegistry

namespace Indexer

/-- What an index knows of one file. -/
structure Entry where
  record? : Option FileRecord
  hash? : Option String
  time? : Option Int64

namespace Entry

/-- Record, digest and time of a file belong together. -/
structure Whole (e : Entry) : Prop where
  /-- The digest is the one in the record. -/
  hash : e.hash? = e.record?.map FileRecord.hash
  /-- There is a time if there is a record. -/
  time : e.time?.isSome = e.record?.isSome

section Look

variable (rules : IgnoreRules) (kind : DigestKind) (tree : FileTree) (path : String) (now : Int64)

/-- What is known of a file that is there after a look at it. -/
def met (e : Entry) (content : ByteArray) (time : Int64) : Entry :=
  if e.record?.isSome ∧ e.time? = some time then e
  else if e.record?.isSome ∧ e.hash? = some (kind.digest content) then { e with time? := some time }
  else ⟨some (fileRecord kind path content time now), some (kind.digest content), some time⟩

/-- What is known of a file after a look at it. -/
def looked (e : Entry) : Entry :=
  (tree.file? path).elim ⟨none, if e.record?.isSome then none else e.hash?, none⟩ fun file =>
    if rules.tracks path then e.met kind path now file.1 file.2 else e

variable {rules kind tree path now} {e : Entry}

variable {content : ByteArray}

theorem met_of_time {time : Int64} (h : e.record?.isSome ∧ e.time? = some time) :
    e.met kind path now content time = e :=
  if_pos h

theorem met_of_hash {time : Int64} (h : ¬ (e.record?.isSome ∧ e.time? = some time))
    (h' : e.record?.isSome ∧ e.hash? = some (kind.digest content)) :
    e.met kind path now content time = { e with time? := some time } := by
  rw [met, if_neg h, if_pos h']

theorem met_of_new {time : Int64} (h : ¬ (e.record?.isSome ∧ e.time? = some time))
    (h' : ¬ (e.record?.isSome ∧ e.hash? = some (kind.digest content))) :
    e.met kind path now content time =
      ⟨some (fileRecord kind path content time now), some (kind.digest content), some time⟩ := by
  rw [met, if_neg h, if_neg h']

theorem known_met (e : Entry) (content : ByteArray) (time : Int64) :
    (e.met kind path now content time).record?.isSome ∧
      (e.met kind path now content time).time? = some time := by
  unfold met
  split
  next htime => exact htime
  · split
    next hhash => exact ⟨hhash.1, rfl⟩
    · exact ⟨rfl, rfl⟩

theorem looked_looked : (e.looked rules kind tree path now).looked rules kind tree path now =
    e.looked rules kind tree path now := by
  unfold looked
  cases tree.file? path with
  | none => rfl
  | some file =>
    dsimp only [Option.elim]
    split
    · exact met_of_time (e.known_met file.1 file.2)
    · rfl

theorem Whole.met (h : e.Whole) (content : ByteArray) (time : Int64) :
    (e.met kind path now content time).Whole := by
  by_cases htime : e.record?.isSome ∧ e.time? = some time
  · rw [met_of_time htime]
    exact h
  · by_cases hhash : e.record?.isSome ∧ e.hash? = some (kind.digest content)
    · rw [met_of_hash htime hhash]
      exact ⟨h.hash, hhash.1.symm⟩
    · rw [met_of_new htime hhash]
      exact ⟨rfl, rfl⟩

theorem Whole.looked (h : e.Whole) : (e.looked rules kind tree path now).Whole := by
  unfold Entry.looked
  cases tree.file? path with
  | none =>
    refine ⟨?_, rfl⟩
    dsimp only [Option.elim]
    split
    · rfl
    next hunknown => rw [h.hash, Option.not_isSome_iff_eq_none.mp hunknown]
  | some file =>
    dsimp only [Option.elim]
    split
    · exact h.met file.1 file.2
    · exact h

end Look

end Entry

/-- What an index knows of a file. -/
def entry (ix : Indexer) (path : String) : Entry :=
  ⟨ix.files.get? path, ix.registry.entries.get? path, ix.times.get? path⟩

theorem SameAt.entry_eq {path : String} {ix ix' : Indexer} (h : SameAt path ix ix') :
    ix'.entry path = ix.entry path := by
  rw [entry, entry, h.files, h.hashes, h.times]

end Indexer

namespace IndexPass

open Indexer

variable {tree : FileTree} {now : Int64} {path : String} {p p' : IndexPass}

theorem entry_drop (p : IndexPass) (path : String) : (p.drop path).indexer.entry path =
    ⟨none,
      if (p.indexer.files.get? path).isSome then none else p.indexer.registry.entries.get? path,
      none⟩ := by
  unfold drop
  cases hget : p.indexer.files.get? path with
  | none =>
    have hunknown := contains_eq_false_iff.mpr hget
    simp only [hunknown, Bool.false_eq_true, if_false, entry, hget, get_erase, if_true,
      Option.isSome_none]
  | some r =>
    have hknown : p.indexer.files.contains path = true :=
      contains_eq_true_iff.mpr (mem_keys_of_get hget)
    simp only [hknown, if_true, entry, get_erase, HashRegistry.remove, Option.isSome_some]

theorem entry_take (p : IndexPass) (path : String) (content : ByteArray) (time now : Int64) :
    (p.take path content time now).indexer.entry path =
      (p.indexer.entry path).met p.indexer.registry.kind path now content time := by
  have hhash : (fileRecord p.indexer.registry.kind path content time now).hash =
    p.indexer.registry.kind.digest content := rfl
  unfold take
  simp only [Bool.and_eq_true, decide_eq_true_eq, HashRegistry.hasChanged, Bool.not_eq_true',
    decide_eq_false_iff_not, not_not, hhash, contains, ne_eq]
  split
  next htime => exact (Entry.met_of_time htime).symm
  next htime =>
    split
    next hsame =>
      rw [Entry.met_of_hash (e := p.indexer.entry path) htime hsame]
      simp only [keep, entry, get_insert, if_true]
    next hnew =>
      rw [Entry.met_of_new (e := p.indexer.entry path) htime hnew]
      simp only [entry, get_insert, if_true, HashRegistry.entries_update]

theorem entry_visitPath (tree : FileTree) (now : Int64) (p : IndexPass) (path : String) :
    (p.visitPath tree now path).indexer.entry path =
      (p.indexer.entry path).looked p.indexer.rules p.indexer.registry.kind tree path now := by
  unfold visitPath Entry.looked
  split
  next hgone =>
    rw [hgone]
    exact entry_drop p path
  next content time hfound =>
    rw [hfound]
    split
    · exact entry_take p path content time now
    · rfl

/-- What is known of a file that is named, after a pass: what one look finds. -/
theorem entry_foldl_of_names (tree : FileTree) (now : Int64) (changed : List String) (p : IndexPass)
    (h : Names p.indexer.root changed path) :
    (changed.foldl (visit tree now) p).indexer.entry path =
      (p.indexer.entry path).looked p.indexer.rules p.indexer.registry.kind tree path now := by
  induction changed generalizing p with
  | nil =>
    obtain ⟨candidate, hmem, -⟩ := h
    cases hmem
  | cons candidate rest ih =>
    have hset := sameSettings_visit tree now p candidate
    by_cases hfst : relative? p.indexer.root candidate = some path
    · have hlook : (p.visit tree now candidate).indexer.entry path =
          (p.indexer.entry path).looked p.indexer.rules p.indexer.registry.kind tree path
            now := by
        simp only [visit, hfst]
        exact entry_visitPath tree now p path
      by_cases hrest : Names p.indexer.root rest path
      · -- The file is named again, and further looks find nothing.
        rw [List.foldl_cons, ih _ (by rw [hset.root]; exact hrest), hset.rules,
          hset.kind, hlook, Entry.looked_looked]
      · rw [← hlook]
        exact (sameAt_foldl tree now rest _ (by rw [hset.root]; exact hrest)).entry_eq
    · have hrest := (names_cons.mp h).resolve_left hfst
      have hother : (p.visit tree now candidate).indexer.entry path = p.indexer.entry path := by
        rcases visit_cases tree now p candidate with ⟨-, hsame⟩ | ⟨other, hother, hvis⟩
        · rw [hsame]
        · refine (hvis.sameAt ?_).entry_eq
          rintro rfl
          exact hfst hother
      rw [List.foldl_cons, ih _ (by rw [hset.root]; exact hrest), hset.rules,
        hset.kind, hother]

/-- What is not marked for storing is as it was. -/
structure Marked (ix : Indexer) (p : IndexPass) : Prop where
  /-- Records and digests are the same unless the list of files is marked. -/
  files : p.filesDirty = false → p.indexer.files = ix.files ∧ p.indexer.registry = ix.registry
  /-- The digests are the same unless they are marked. -/
  hashes : ix.registry.Follows p.indexer.registry
  /-- The times are the same unless they are marked. -/
  times : p.timesDirty = false → p.indexer.times = ix.times

theorem marked_start (ix : Indexer) : Marked ix (start ix) :=
  ⟨fun _ => ⟨rfl, rfl⟩, fun _ => rfl, fun _ => rfl⟩

theorem Marked.drop {ix : Indexer} (h : Marked ix p) (path : String) : Marked ix (p.drop path) := by
  have htimes : (p.timesDirty || p.indexer.times.contains path) = false →
      p.indexer.times.erase path = ix.times := by
    intro hclean
    obtain ⟨hdirty, hhas⟩ := Bool.or_eq_false_iff.mp hclean
    rw [erase_of_none (contains_eq_false_iff.mp hhas), h.times hdirty]
  unfold IndexPass.drop
  dsimp only
  split
  · refine ⟨fun hclean => ?_, ?_, htimes⟩
    · cases hclean
    · exact h.hashes.trans (HashRegistry.follows_remove _ path)
  · exact ⟨h.files, h.hashes, htimes⟩

theorem Marked.take {ix : Indexer} (h : Marked ix p) (path : String) (content : ByteArray)
    (time now : Int64) : Marked ix (p.take path content time now) := by
  unfold IndexPass.take
  dsimp only
  split
  · exact ⟨h.files, h.hashes, h.times⟩
  · split
    · refine ⟨h.files, h.hashes, fun hclean => ?_⟩
      cases hclean
    · refine ⟨fun hclean => ?_, ?_, fun hclean => ?_⟩
      · cases hclean
      · exact h.hashes.trans (HashRegistry.follows_update _ path _)
      · cases hclean

theorem marked_foldl {ix : Indexer} (tree : FileTree) (now : Int64) (changed : List String)
    (h : Marked ix p) : Marked ix (changed.foldl (visit tree now) p) := by
  refine List.foldlRecOn changed _ h fun p hp candidate _ => ?_
  unfold visit
  split
  · exact hp
  · unfold visitPath
    split
    · exact hp.drop _
    · split
      · exact hp.take _ _ _ _
      · exact hp

end IndexPass

namespace Indexer

open IndexPass

variable {ix : Indexer} {path : String} (tree : FileTree) (now : Int64) (changed : List String)

/-- Record, digest and time of every file belong together. -/
def Whole (ix : Indexer) : Prop := ∀ path, (ix.entry path).Whole

theorem entry_passed_of_not_names (h : ¬ Names ix.root changed path) :
    (ix.passed tree now changed).indexer.entry path = ix.entry path :=
  (sameAt_foldl tree now changed (.start ix) h).entry_eq

theorem entry_passed (h : Names ix.root changed path) :
    (ix.passed tree now changed).indexer.entry path =
      (ix.entry path).looked ix.rules ix.registry.kind tree path now :=
  entry_foldl_of_names tree now changed (.start ix) h

theorem whole_passed (h : ix.Whole) : (ix.passed tree now changed).indexer.Whole := by
  intro path
  by_cases hnamed : Names ix.root changed path
  · rw [entry_passed tree now changed hnamed]
    exact (h path).looked
  · rw [entry_passed_of_not_names tree now changed hnamed]
    exact h path

theorem whole_scanned (ix : Indexer) : (ix.scanned tree now).Whole := by
  intro path
  refine ⟨registered_scanned path, ?_⟩
  -- Times and records are put in side by side.
  have hkeys : ∀ {α : Type} (f : FileRecord → α),
      path ∈ (ofList ((ix.scanRecords now tree).map fun r => (r.path, f r))).keys ↔
        path ∈ (ix.scanRecords now tree).map FileRecord.path := fun f => by
    rw [mem_keys_ofList, List.map_map]
    rfl
  have hsome := (hkeys FileRecord.lastModified).trans (hkeys id).symm
  rw [mem_keys_iff, mem_keys_iff] at hsome
  exact Bool.eq_iff_iff.mpr hsome

theorem Whole.keys_times (h : ix.Whole) : ix.times.keys = ix.files.keys := by
  refine (increasing_keys _).eq_of_mem_iff (increasing_keys _) fun path => ?_
  rw [mem_keys_iff, mem_keys_iff]
  exact iff_of_eq (congrArg (· = true) (h path).time)

theorem Whole.entries_registry (h : ix.Whole) :
    ix.registry.entries = ix.files.map fun _ r => r.hash :=
  ext_get fun path => by
    rw [get_map]
    exact (h path).hash

theorem marked_passed : Marked ix (ix.passed tree now changed) :=
  marked_foldl tree now changed (marked_start ix)

/-- The digests are as before a scan unless they are marked. -/
theorem follows_scanned : ix.registry.Follows (ix.scanned tree now).registry :=
  (HashRegistry.follows_foldl_update _ _).trans (HashRegistry.follows_retain _ _)

end Indexer

end Ripple
