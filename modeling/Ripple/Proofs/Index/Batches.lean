import Ripple.Proofs.Index.Resumed
import Ripple.Proofs.Index.Settled

/-!
# Passes in Batches

Files may be named to an index all at once or in batches, in any order, more
than once and in different spellings. What the index knows in the end is the
same, up to when files were looked at: at each file it is what one look finds,
if any batch names the file, and what was known before if none does. It does
not matter either whether a batch could be stored.

A pass over files that were just passed over finds nothing and writes nothing.

## Theorems

* `Indexer.Entry.undated_looked`: When a file is looked at makes no difference.
* `Indexer.batches_depend_on_names`: Batches depend on which files they name.
-/

namespace Ripple

open Store Job IndexPass

namespace Indexer

namespace Entry

/-- What is known of a file, up to when it was looked at. -/
def undated (e : Entry) : Entry := { e with record? := e.record?.map FileRecord.undated }

variable {rules : IgnoreRules} {kind : DigestKind} {tree : FileTree} {path : String} {e : Entry}

theorem undated_met (now : Int64) (content : ByteArray) (time : Int64) :
    (e.met kind path now content time).undated = e.undated.met kind path 0 content time := by
  have hsome : e.undated.record?.isSome = e.record?.isSome := Option.isSome_map
  rw [met, met, hsome, apply_ite undated, apply_ite undated]
  rfl

theorem undated_looked (now : Int64) :
    (e.looked rules kind tree path now).undated = e.undated.looked rules kind tree path 0 := by
  have hsome : e.undated.record?.isSome = e.record?.isSome := Option.isSome_map
  unfold looked
  cases tree.file? path with
  | none =>
    rw [hsome]
    rfl
  | some file =>
    dsimp only [Option.elim]
    split
    · exact undated_met now file.1 file.2
    · rfl

end Entry

variable {σ : Type} [BlobStore σ] {tree : FileTree} {path : String}

/-- What an index knows, up to when files were looked at: their records, digests and times. -/
def known (ix : Indexer) : Dict String FileRecord × Dict String String × Dict String Int64 :=
  (ix.files.map fun _ r => r.undated, ix.registry.entries, ix.times)

theorem known_eq_of_entries {ix ix' : Indexer}
    (h : ∀ path, (ix.entry path).undated = (ix'.entry path).undated) : ix.known = ix'.known := by
  refine Prod.ext (Dict.ext_get fun path => ?_) (Prod.ext (Dict.ext_get fun path => ?_)
    (Dict.ext_get fun path => ?_))
  · rw [known, known, Dict.get_map, Dict.get_map]
    exact congrArg Entry.record? (h path)
  · exact congrArg Entry.hash? (h path)
  · exact congrArg Entry.time? (h path)

/-- The state after passes over batches of files, each with its time, whether they go through or
    not. -/
def inBatches (tree : FileTree) (batches : List (Int64 × List String)) (state : Indexer × σ) :
    Indexer × σ :=
  batches.foldl (fun s batch => ((pass tree batch.1 batch.2).on s).2) state

section Pass

variable (tree : FileTree) (now : Int64) (changed : List String) (state : Indexer × σ)

/-- An index after a pass, up to the mark for what is not stored. -/
theorem on_pass_eq_marked : ∃ dirty, ((pass tree now changed).on state).2.1 =
    (state.1.passed tree now changed).indexer.marked dirty := by
  let ix := ((pass tree now changed).on state).2.1
  have hmark : ix.marked false = _ := marked_on_pass tree now changed state.1 state.2
  exact ⟨ix.registry.dirty, congrArg (·.marked ix.registry.dirty) hmark⟩

theorem entry_on_pass (path : String) : ((pass tree now changed).on state).2.1.entry path =
    (state.1.passed tree now changed).indexer.entry path := by
  obtain ⟨dirty, hafter⟩ := on_pass_eq_marked tree now changed state
  rw [hafter]
  rfl

theorem sameSettings_on_pass : SameSettings state.1 ((pass tree now changed).on state).2.1 := by
  obtain ⟨dirty, hafter⟩ := on_pass_eq_marked tree now changed state
  obtain ⟨hroot, hrules, hkind⟩ := sameSettings_passed state.1 tree now changed
  rw [hafter]
  exact ⟨hroot, hrules, hkind⟩

end Pass

theorem names_append {root : String} {front back : List String} :
    Names root (front ++ back) path ↔ Names root front path ∨ Names root back path := by
  simp only [Names, List.mem_append, or_and_right, exists_or]

/-- Batches come to one look at each file that is named, and leave the others. -/
theorem entry_inBatches (tree : FileTree) (batches : List (Int64 × List String))
    (state : Indexer × σ) (path : String) :
    (Names state.1.root (batches.flatMap Prod.snd) path →
      ((inBatches tree batches state).1.entry path).undated =
        (state.1.entry path).undated.looked state.1.rules state.1.registry.kind tree path 0) ∧
    (¬ Names state.1.root (batches.flatMap Prod.snd) path →
      ((inBatches tree batches state).1.entry path).undated = (state.1.entry path).undated) := by
  induction batches generalizing state with
  | nil => exact ⟨fun ⟨_, hmem, _⟩ => absurd hmem List.not_mem_nil, fun _ => rfl⟩
  | cons batch rest ih =>
    obtain ⟨now, changed⟩ := batch
    have hset := sameSettings_on_pass tree now changed state
    have hrest := ih ((pass tree now changed).on state).2
    rw [hset.root, hset.rules, hset.kind, entry_on_pass] at hrest
    rw [List.flatMap_cons, names_append]
    by_cases hfst : Names state.1.root changed path
    · -- A file that is named again is looked at again, to no effect.
      rw [entry_passed tree now changed hfst, Entry.undated_looked, Entry.looked_looked] at hrest
      refine ⟨fun _ => ?_, fun hnone => absurd (.inl hfst) hnone⟩
      exact (em _).elim hrest.1 hrest.2
    · rw [entry_passed_of_not_names tree now changed hfst] at hrest
      rw [or_iff_right hfst]
      exact hrest

/-- A pass over settled files goes through and finds nothing, without a write. -/
theorem runs_pass_of_settled {ix : Indexer} {changed : List String}
    (h : ∀ path, Names ix.root changed path → ix.Settled tree path) (now : Int64) (store : σ) :
    ∃ found, (pass tree now changed).Runs (ix, store) found (ix, store) ∧ found.isNoop = true := by
  have hidle : Idle (.start ix) (ix.passed tree now changed) :=
    idle_foldl tree now changed (.start ix) h
  refine ⟨(ix.passed tree now changed).outcome, ?_, isNoop_iff.mpr ⟨hidle.updated, hidle.removed⟩⟩
  -- Neither list is marked for storing, so a store that takes no write does not matter.
  have hfiles : (if (ix.passed tree now changed).filesDirty = true then storeFiles else
      pure ()).Runs (ix, store) () (ix, store) := by
    rw [hidle.filesDirty]
    exact runs_pure _ _
  have htimes : (if (ix.passed tree now changed).timesDirty = true then storeTimes else
      pure ()).Runs (ix, store) () (ix, store) := by
    rw [hidle.timesDirty]
    exact runs_pure _ _
  rw [pass_eq]
  refine runs_bind (runs_get _) (runs_bind (runs_modify _ _) ?_)
  rw [hidle.indexer]
  exact runs_bind hfiles (runs_bind htimes (runs_pure _ _))

theorem Settled.marked {ix : Indexer} (h : ix.Settled tree path) (dirty : Bool) :
    (ix.marked dirty).Settled tree path :=
  ⟨h.absent, h.present⟩

/-- What batches of files come to depends on which files of the project they name, and on nothing
    else about them. A second pass over the same files finds nothing and changes nothing, neither
    in memory nor in the store. -/
theorem batches_depend_on_names (tree : FileTree) (state : Indexer × σ) :
    (∀ batches others : List (Int64 × List String),
      (∀ path, Names state.1.root (batches.flatMap Prod.snd) path ↔
        Names state.1.root (others.flatMap Prod.snd) path) →
      (inBatches tree batches state).1.known = (inBatches tree others state).1.known) ∧
    ∀ (now later : Int64) (changed : List String),
      let after := ((pass tree now changed).on state).2
      ∃ found, (pass tree later changed).Runs after found after ∧
        found.updated = [] ∧ found.removed = [] := by
  refine ⟨fun batches others hsame => known_eq_of_entries fun path => ?_,
    fun now later changed => ?_⟩
  · obtain ⟨hnamed, hother⟩ := entry_inBatches tree batches state path
    obtain ⟨hnamed', hother'⟩ := entry_inBatches tree others state path
    by_cases hpath : Names state.1.root (batches.flatMap Prod.snd) path
    · rw [hnamed hpath, hnamed' ((hsame path).mp hpath)]
    · rw [hother hpath, hother' (mt (hsame path).mpr hpath)]
  · obtain ⟨dirty, hafter⟩ := on_pass_eq_marked tree now changed state
    have hsettled : ∀ path, Names ((pass tree now changed).on state).2.1.root changed path →
        ((pass tree now changed).on state).2.1.Settled tree path := by
      intro path hpath
      rw [(sameSettings_on_pass tree now changed state).root] at hpath
      rw [hafter]
      exact (settled_foldl tree now changed (.start state.1) hpath).marked dirty
    obtain ⟨found, hruns, hnoop⟩ := runs_pass_of_settled hsettled later
      ((pass tree now changed).on state).2.2
    exact ⟨found, hruns, isNoop_iff.mp hnoop⟩

end Indexer

end Ripple
