import Ripple.Proofs.Index.Stored
import Ripple.Proofs.Store.Recorded

/-!
# Passes That Are Taken Up Again

A pass can be cut off between any two of its writes. The store then has the
first of the three parts of the new index and the others as they were: the
list of files may be ahead of the digests, and both may be ahead of the times.
An index that is opened on such a store and passes over the same files once
more comes to the same files and the same times.

The times are written last. So a file with new content is not told by its time
before everything else about it is stored. It is told by its digest if that is
stored, and then its record is stored as well; otherwise it is taken in again.
The digests may keep a file that is gone. That does no harm, since only the
digests of files that are known are asked for.

## Theorems

* `Indexer.Entry.looked_mixed`: A look makes up for what was not stored.
* `Indexer.resumed_pass`: A pass that is cut off and done again.
-/

namespace Ripple

open Store Job

/-- A record without the time at which it was made. -/
def FileRecord.undated (r : FileRecord) : FileRecord := { r with indexedAt := 0 }

namespace Indexer

namespace Entry

/-- What a store has of one file when a pass is cut off: parts of what is known after the pass, and
    the others as they were before. -/
inductive Mixed (old new : Entry) : Entry → Prop
  /-- Nothing is stored. -/
  | none : Mixed old new old
  /-- The list of files is stored. -/
  | files : Mixed old new { old with record? := new.record? }
  /-- The digests are stored as well. -/
  | hashes : Mixed old new { new with time? := old.time? }
  /-- Everything is stored. -/
  | all : Mixed old new new

/-- Two entries agree on the file and its time, up to when the file was looked at. -/
def Agree (e e' : Entry) : Prop :=
  e'.time? = e.time? ∧ e'.record?.map FileRecord.undated = e.record?.map FileRecord.undated

variable {rules : IgnoreRules} {kind : DigestKind} {tree : FileTree} {path : String}
  {now later : Int64} {old mixed : Entry}

theorem Agree.refl (e : Entry) : Agree e e := ⟨rfl, rfl⟩

theorem Mixed.eq_of_same (h : Mixed old old mixed) : mixed = old := by
  cases h with
  | none => rfl
  | files => rfl
  | hashes => rfl
  | all => rfl

theorem Mixed.cases_of_time {time? : Option Int64}
    (h : Mixed old { old with time? := time? } mixed) :
    mixed = old ∨ mixed = { old with time? := time? } := by
  cases h with
  | none => exact .inl rfl
  | files => exact .inl rfl
  | hashes => exact .inl rfl
  | all => exact .inr rfl

theorem met_mixed (h : old.Whole) {content : ByteArray} {time : Int64}
    (hmixed : Mixed old (old.met kind path now content time) mixed) :
    Agree (old.met kind path now content time) (mixed.met kind path later content time) := by
  by_cases htime : old.record?.isSome ∧ old.time? = some time
  · -- The file was told by its time, so there was nothing to store.
    rw [met_of_time htime] at hmixed ⊢
    rw [hmixed.eq_of_same, met_of_time htime]
    exact .refl old
  by_cases hhash : old.record?.isSome ∧ old.hash? = some (kind.digest content)
  · -- The file was told by its digest, so only its time was to be stored.
    rw [met_of_hash htime hhash] at hmixed ⊢
    rcases hmixed.cases_of_time with rfl | rfl
    · rw [met_of_hash htime hhash]
      exact .refl _
    · have hnoted : ({ old with time? := some time } : Entry).met kind path later content time =
          { old with time? := some time } := met_of_time ⟨hhash.1, rfl⟩
      rw [hnoted]
      exact .refl _
  · -- The file was taken in, and neither its time nor its digest were known.
    have huntimed : old.time? ≠ some time := by
      intro hnoted
      refine htime ⟨?_, hnoted⟩
      rw [← h.time, hnoted]
      rfl
    have hunhashed : old.hash? ≠ some (kind.digest content) := by
      intro hnoted
      have hsome : (old.record?.map FileRecord.hash).isSome := by
        rw [← h.hash, hnoted]
        rfl
      exact hhash ⟨Option.isSome_map.symm.trans hsome, hnoted⟩
    rw [met_of_new htime hhash] at hmixed ⊢
    cases hmixed with
    | none =>
      rw [met_of_new htime hhash]
      exact ⟨rfl, rfl⟩
    | files =>
      have hagain : (⟨some (fileRecord kind path content time now), old.hash?, old.time?⟩ :
          Entry).met kind path later content time =
            ⟨some (fileRecord kind path content time later), some (kind.digest content),
              some time⟩ :=
        met_of_new (fun hknown => huntimed hknown.2) fun hknown => hunhashed hknown.2
      rw [hagain]
      exact ⟨rfl, rfl⟩
    | hashes =>
      have hagain : (⟨some (fileRecord kind path content time now), some (kind.digest content),
          old.time?⟩ : Entry).met kind path later content time =
            ⟨some (fileRecord kind path content time now), some (kind.digest content), some time⟩ :=
        met_of_hash (fun hknown => huntimed hknown.2) ⟨rfl, rfl⟩
      rw [hagain]
      exact .refl _
    | all =>
      rw [met_of_time ⟨rfl, rfl⟩]
      exact ⟨rfl, rfl⟩

theorem looked_mixed (h : old.Whole)
    (hmixed : Mixed old (old.looked rules kind tree path now) mixed) :
    Agree (old.looked rules kind tree path now) (mixed.looked rules kind tree path later) := by
  unfold looked at hmixed ⊢
  cases hfile : tree.file? path with
  | none => exact ⟨rfl, rfl⟩
  | some file =>
    rw [hfile] at hmixed
    dsimp only [Option.elim] at hmixed ⊢
    by_cases htrack : rules.tracks path = true
    · rw [if_pos htrack] at hmixed
      rw [if_pos htrack, if_pos htrack]
      exact met_mixed h hmixed
    · rw [if_neg htrack] at hmixed
      rw [if_neg htrack, if_neg htrack, hmixed.eq_of_same]
      exact .refl old

end Entry

open IndexPass Entry

variable {root : String} {rules : IgnoreRules} {kind : DigestKind} {tree : FileTree}
  {now : Int64} {changed : List String}

/-- A pass from old and new parts comes to the same files and times. -/
theorem agree_passed {start mixed : Indexer} (hwhole : start.Whole)
    (hset : SameSettings start mixed)
    (hmixed : ∀ path, Mixed (start.entry path)
      ((start.passed tree now changed).indexer.entry path) (mixed.entry path)) (later : Int64)
    (path : String) :
    Agree ((start.passed tree now changed).indexer.entry path)
      ((mixed.passed tree later changed).indexer.entry path) := by
  have hpath := hmixed path
  by_cases hnamed : Names start.root changed path
  · rw [entry_passed tree now changed hnamed] at hpath ⊢
    rw [entry_passed tree later changed (hset.root ▸ hnamed), hset.rules, hset.kind]
    exact looked_mixed (hwhole path) hpath
  · rw [entry_passed_of_not_names tree now changed hnamed] at hpath ⊢
    rw [entry_passed_of_not_names tree later changed (hset.root ▸ hnamed), hpath.eq_of_same]
    exact .refl _

section Cut

variable {σ : Type} [BlobStore σ] {p : IndexPass}

/-- A write with a record is the write without it, and puts no other state on the record. -/
theorem recorded_writeMarked {marked : Bool} {key : String} {j : Json} {r r' : Recorded σ}
    (h : (writeMarked marked key j).Runs r () r') :
    (writeMarked marked key j).Runs r.current () r'.current ∧
      ∀ s ∈ r'.states, s = r'.current ∨ s ∈ r.states := by
  cases marked with
  | false =>
    obtain ⟨-, rfl⟩ := runs_pure_iff.mp h
    exact ⟨runs_pure _ _, fun s hs => .inr hs⟩
  | true =>
    obtain ⟨hdone, rfl⟩ := Prod.mk.inj h
    exact ⟨Prod.ext hdone rfl, fun s hs => List.mem_cons.mp hs⟩

/-- The states of a pass: the one before it and the one after each write. -/
theorem recorded_saves {store : σ} {first second recorded : Recorded σ}
    (h : p.Saves (Recorded.start store) first second recorded) :
    p.Saves store first.current second.current recorded.current ∧
      ∀ s ∈ recorded.states, s = store ∨ s = first.current ∨ s = second.current ∨
        s = recorded.current := by
  obtain ⟨hfiles, hfst⟩ := recorded_writeMarked h.files
  obtain ⟨hhashes, hsnd⟩ := recorded_writeMarked h.hashes
  obtain ⟨htimes, hlast⟩ := recorded_writeMarked h.times
  refine ⟨⟨hfiles, hhashes, htimes⟩, fun s hs => ?_⟩
  rcases hlast s hs with heq | hs
  · exact .inr (.inr (.inr heq))
  · rcases hsnd s hs with heq | hs
    · exact .inr (.inr (.inl heq))
    · rcases hfst s hs with heq | hs
      · exact .inr (.inl heq)
      · exact .inl (List.mem_singleton.mp hs)

theorem keeps_save :
    Keeps (fun s : HashRegistry × σ => { s.1 with dirty := false }) HashRegistry.save := by
  refine keeps_bind keeps_get fun s => ?_
  dsimp only
  split
  · exact keeps_bind (fun _ => rfl) fun _ => keeps_modify fun _ => rfl
  · exact keeps_pure _

theorem keeps_storeFiles : Keeps (fun s : Indexer × σ => s.1.marked false) storeFiles := by
  refine keeps_bind keeps_get fun _ => keeps_bind (fun _ => rfl) fun _ => ?_
  intro s
  exact congrArg (fun r => { s.1 with registry := r }) (keeps_save (s.1.registry, s.2))

theorem keeps_storeTimes : Keeps (fun s : Indexer × σ => s.1.marked false) storeTimes :=
  keeps_bind keeps_get fun _ _ => rfl

omit [BlobStore σ] in
theorem keeps_ite {π : Type} {part : Indexer × σ → π} (condition : Bool)
    {job : Job (Indexer × σ) Unit} (h : Keeps part job) :
    Keeps part (if condition = true then job else pure ()) := by
  cases condition with
  | true => exact h
  | false => exact keeps_pure ()

variable (tree now changed) in
/-- The index after a pass is the same whether it can be stored or not. -/
theorem marked_on_pass (ix : Indexer) (store : σ) :
    ((pass tree now changed).on (ix, store)).2.1.marked false =
      (ix.passed tree now changed).indexer.marked false := by
  rw [pass_eq, on_bind_of_runs (runs_get (ix, store)), on_bind_of_runs (runs_modify _ _)]
  exact keeps_bind (keeps_ite _ keeps_storeFiles)
    (fun _ => keeps_bind (keeps_ite _ keeps_storeTimes) fun _ => keeps_pure _) (_, store)

end Cut

/-- What is known of a file from a store on which a pass was cut off. -/
theorem mixed_of_cut {state : Indexer × EitherStore} (h : InStore root rules kind state)
    {p : IndexPass} (hmark : Marked state.1 p) {first second after cut : EitherStore}
    (hsaves : p.Saves state.2 first second after)
    (hcut : cut = state.2 ∨ cut = first ∨ cut = second ∨ cut = after) :
    cut.WellFormed ∧ SameSettings state.1 (ofStore cut root rules kind) ∧
      ∀ path, Mixed (state.1.entry path) (p.indexer.entry path)
        ((ofStore cut root rules kind).entry path) := by
  obtain ⟨⟨hfst, hsnd, hafter⟩, hfiles, hhashes, htimes⟩ :=
    ofStore_of_saves h.wellFormed h.read hmark hsaves
  rcases hcut with rfl | rfl | rfl | rfl
  · rw [h.read]
    exact ⟨h.wellFormed, .refl _, fun _ => .none⟩
  · rw [hfiles]
    exact ⟨hfst, ⟨rfl, rfl, rfl⟩, fun _ => .files⟩
  · rw [hhashes]
    exact ⟨hsnd, ⟨rfl, rfl, rfl⟩, fun _ => .hashes⟩
  · rw [htimes]
    exact ⟨hafter, ⟨rfl, rfl, rfl⟩, fun _ => .all⟩

/-- A pass is cut off between any two of its writes, an index is opened on what is stored by then,
    and it passes over the same files of the same tree. Then it comes to the same files, up to when
    they were looked at, and the same times, and stores them if it goes through. -/
theorem resumed_pass {state : Indexer × EitherStore} (h : Reached root rules kind state)
    {outcome : IndexOutcome} {after : Indexer × Recorded EitherStore}
    (hrun : (pass tree now changed).Runs (state.1, Recorded.start state.2) outcome after) :
    (pass tree now changed).Runs state outcome (after.1, after.2.current) ∧
      ∀ cut ∈ after.2.states, ∀ later,
        let resumed := (pass tree later changed).on (ofStore cut root rules kind, cut)
        resumed.2.1.times = after.1.times ∧
          (resumed.2.1.files.map fun _ r => r.undated) = (after.1.files.map fun _ r => r.undated) ∧
          ∀ outcome', resumed.1 = .ok outcome' →
            ofStore resumed.2.2 root rules kind = resumed.2.1 := by
  obtain ⟨houtcome, hix, first, second, hrecord⟩ := (runs_pass_iff rfl).mp hrun
  obtain ⟨hsaves, hstates⟩ := recorded_saves hrecord
  refine ⟨(runs_pass_iff rfl).mpr ⟨houtcome, hix, _, _, hsaves⟩, fun cut hcut later => ?_⟩
  have hmarked : Marked state.1 (state.1.passed tree now changed) := marked_passed tree now changed
  obtain ⟨hwell, hsettings, hmixed⟩ := mixed_of_cut h.inStore hmarked hsaves (hstates cut hcut)
  have hagree := agree_passed h.inStore.whole hsettings hmixed later
  have hsame := marked_on_pass tree later changed (ofStore cut root rules kind) cut
  rw [hix]
  refine ⟨?_, ?_, fun outcome' hdone => ?_⟩
  · have htimes := congrArg times hsame
    exact htimes.trans (Dict.ext_get fun path => (hagree path).1)
  · have hfiles := congrArg files hsame
    refine (congrArg (fun d : Dict String FileRecord => d.map fun _ r => r.undated) hfiles).trans ?_
    refine Dict.ext_get fun path => ?_
    rw [Dict.get_map, Dict.get_map]
    exact (hagree path).2
  · obtain ⟨-, hresumed, first', second', hsaves'⟩ := (runs_pass_iff rfl).mp (runs_on hdone)
    have hread := (ofStore_of_call hwell rfl (marked_passed tree later changed)
      (sameSettings_passed _ tree later changed) hsaves').2
    exact hread.trans hresumed.symm

/-- A pass over the two files of the project, with a record. -/
def sampleRecorded : Indexer × Recorded EitherStore :=
  ((pass sampleEdited 2 ["a.ts", "b.ts"]).on (sampleScanned.1, Recorded.start sampleScanned.2)).2

theorem runs_sampleRecorded : (pass sampleEdited 2 ["a.ts", "b.ts"]).Runs
    (sampleScanned.1, Recorded.start sampleScanned.2) ⟨["a.ts"], ["b.ts"], []⟩ sampleRecorded := by
  have hans : ((pass sampleEdited 2 ["a.ts", "b.ts"]).on
      (sampleScanned.1, Recorded.start sampleScanned.2)).1 = .ok ⟨["a.ts"], ["b.ts"], []⟩ := by
    decide +kernel
  exact runs_on hans

/-- All three parts are written, so there are two states between the first and the last one. -/
theorem resumed_pass_sampleScanned : Reached "" ⟨[], []⟩ .xxh3 sampleScanned ∧
    sampleRecorded.2.states.length = 4 ∧
    (pass sampleEdited 2 ["a.ts", "b.ts"]).Runs sampleScanned ⟨["a.ts"], ["b.ts"], []⟩
      (sampleRecorded.1, sampleRecorded.2.current) ∧
    ∀ cut ∈ sampleRecorded.2.states, ∀ later,
      let resumed :=
        (pass sampleEdited later ["a.ts", "b.ts"]).on (ofStore cut "" ⟨[], []⟩ .xxh3, cut)
      resumed.2.1.times = sampleRecorded.1.times ∧
        (resumed.2.1.files.map fun _ r => r.undated) =
          (sampleRecorded.1.files.map fun _ r => r.undated) ∧
        ∀ outcome', resumed.1 = .ok outcome' →
          ofStore resumed.2.2 "" ⟨[], []⟩ .xxh3 = resumed.2.1 :=
  ⟨reached_sampleScanned, by decide +kernel, resumed_pass reached_sampleScanned runs_sampleRecorded⟩

end Indexer

end Ripple
