import Ripple.Proofs.Index.Entries
import Ripple.Proofs.Store.Places
import Ripple.Proofs.Tracker.Ends

/-!
# An Index and Its Stored Parts

An index is stored in three parts, each under a key of its own, and each is
written only if it is marked: the list of files, then the digests, then the
times. A write sets one part of what would be read and leaves the other two,
also in a directory, where a value lies at another place before it is moved.

What is not marked is as it was read, so after a call that went through the
store has the whole index. `Indexer.Reached` are the states that calls lead to
from a store without values. In all of them records, digests and times belong
together, and the index is the one that would be read from the store.
-/

namespace Ripple

open Store Job Json

namespace Job

variable {ρ π σ α : Type} {s : σ}

theorem runs_onSecond_iff {job : Job σ α} {r : ρ} {a : α} {after : ρ × σ} :
    (onSecond job).Runs (r, s) a after ↔ after.1 = r ∧ job.Runs s a after.2 := by
  constructor
  · intro h
    obtain ⟨hans, rfl⟩ := Prod.mk.inj h
    exact ⟨rfl, Prod.ext hans rfl⟩
  · rintro ⟨rfl, h⟩
    exact runs_onSecond h after.1

theorem runs_pure_second_iff {r : ρ} {after : ρ × σ} :
    (pure () : Job (ρ × σ) Unit).Runs (r, s) () after ↔
      after.1 = r ∧ (pure () : Job σ Unit).Runs s () after.2 := by
  simp only [runs_pure_iff, Prod.ext_iff, true_and, eq_comm]

theorem runs_inside_iff {part : ρ → π} {put : ρ → π → ρ} {job : Job (π × σ) α} {r : ρ} {a : α}
    {after : ρ × σ} : (inside part put job).Runs (r, s) a after ↔
      ∃ p, job.Runs (part r, s) a (p, after.2) ∧ after.1 = put r p := by
  constructor
  · intro h
    obtain ⟨hans, rfl⟩ := Prod.mk.inj h
    exact ⟨_, Prod.ext hans rfl, rfl⟩
  · rintro ⟨p, h, hafter⟩
    have hrun : (inside part put job).Runs (r, s) a (put r p, after.2) := runs_inside h
    rw [← hafter] at hrun
    exact hrun

end Job

section Writes

variable {σ : Type} [BlobStore σ]

/-- Stores a value under a key if it is marked. -/
def Store.writeMarked (marked : Bool) (key : String) (j : Json) : Job σ Unit :=
  if marked = true then writeJson key j else pure ()

/-- The marked parts of an index are written one after the other. -/
structure IndexPass.Saves (p : IndexPass) (store first second after : σ) : Prop where
  /-- The list of files comes first. -/
  files : (writeMarked p.filesDirty Keys.files
    (ofDict FileRecord.toJson p.indexer.files)).Runs store () first
  /-- The digests come with the list of files. -/
  hashes : (writeMarked (p.filesDirty && p.indexer.registry.dirty) Keys.hashes
    (ofDict .text p.indexer.registry.entries)).Runs first () second
  /-- The times come last. -/
  times : (writeMarked p.timesDirty Keys.times
    (ofDict ofInt64 p.indexer.times)).Runs second () after

/-- Everything was found and is to be stored. -/
def IndexPass.full (ix : Indexer) : IndexPass := ⟨ix, ⟨[], [], []⟩, true, true⟩

theorem IndexPass.marked_full {ix ix' : Indexer} (h : ix.registry.Follows ix'.registry) :
    Marked ix (full ix') where
  files hclean := by cases hclean
  hashes := h
  times hclean := by cases hclean

namespace Indexer

variable {ix : Indexer} {store : σ} {after : Indexer × σ}

theorem runs_save_iff {r : HashRegistry} {after : HashRegistry × σ} :
    HashRegistry.save.Runs (r, store) () after ↔ after.1 = { r with dirty := false } ∧
      (writeMarked r.dirty Keys.hashes (ofDict .text r.entries)).Runs store () after.2 := by
  refine (runs_bind_of_runs (runs_get _)).trans ?_
  unfold writeMarked
  by_cases hdirty : r.dirty = true
  · simp only [if_pos hdirty]
    refine runs_bind_iff.trans ⟨?_, ?_⟩
    · rintro ⟨⟨⟩, middle, hwrite, hmodify⟩
      obtain ⟨hsame, hwrite⟩ := runs_onSecond_iff.mp hwrite
      obtain ⟨-, rfl⟩ := Prod.mk.inj hmodify
      exact ⟨congrArg (fun r : HashRegistry => { r with dirty := false }) hsame, hwrite⟩
    · rintro ⟨hafter, hwrite⟩
      refine ⟨(), (r, after.2), runs_onSecond hwrite r, ?_⟩
      have hrun := runs_modify (fun s : HashRegistry × σ => ({ s.1 with dirty := false }, s.2))
        (r, after.2)
      rw [show after = ({ r with dirty := false }, after.2) from Prod.ext hafter rfl]
      exact hrun
  · have hsame : { r with dirty := false } = r := by
      rw [← Bool.eq_false_iff.mpr hdirty]
    simp only [if_neg hdirty, hsame]
    exact runs_pure_second_iff

theorem runs_storeFiles_iff : storeFiles.Runs (ix, store) () after ↔
    after.1 = ix.marked false ∧ ∃ middle,
      (writeJson Keys.files (ofDict FileRecord.toJson ix.files)).Runs store () middle ∧
      (writeMarked ix.registry.dirty Keys.hashes (ofDict .text ix.registry.entries)).Runs
        middle () after.2 := by
  refine (runs_bind_of_runs (runs_get _)).trans (runs_bind_iff.trans ⟨?_, ?_⟩)
  · rintro ⟨⟨⟩, ⟨ix', middle⟩, hwrite, hsave⟩
    obtain ⟨rfl, hwrite⟩ := runs_onSecond_iff.mp hwrite
    obtain ⟨r, hsave, hafter⟩ := runs_inside_iff.mp hsave
    obtain ⟨rfl, hhashes⟩ := runs_save_iff.mp hsave
    exact ⟨hafter, middle, hwrite, hhashes⟩
  · rintro ⟨hafter, middle, hwrite, hhashes⟩
    refine ⟨(), (ix, middle), runs_onSecond hwrite ix, runs_inside_iff.mpr ⟨_, ?_, hafter⟩⟩
    exact runs_save_iff.mpr ⟨rfl, hhashes⟩

theorem runs_storeTimes_iff : storeTimes.Runs (ix, store) () after ↔ after.1 = ix ∧
    (writeJson Keys.times (ofDict ofInt64 ix.times)).Runs store () after.2 :=
  (runs_bind_of_runs (runs_get _)).trans runs_onSecond_iff

/-- The list of files and the digests are stored if they are marked. -/
theorem runs_ite_storeFiles_iff {marked : Bool} :
    (if marked = true then storeFiles else pure ()).Runs (ix, store) () after ↔
      after.1 = ix.marked (!marked && ix.registry.dirty) ∧ ∃ middle,
        (writeMarked marked Keys.files (ofDict FileRecord.toJson ix.files)).Runs store ()
          middle ∧
        (writeMarked (marked && ix.registry.dirty) Keys.hashes
          (ofDict .text ix.registry.entries)).Runs middle () after.2 := by
  cases marked with
  | true => exact runs_storeFiles_iff
  | false =>
    refine runs_pure_second_iff.trans (and_congr_right fun _ => ⟨fun h => ?_, ?_⟩)
    · exact ⟨store, runs_pure _ _, h⟩
    · rintro ⟨middle, hfiles, hhashes⟩
      obtain ⟨-, rfl⟩ := runs_pure_iff.mp hfiles
      exact hhashes

/-- The times are stored if they are marked. -/
theorem runs_ite_storeTimes_iff {marked : Bool} :
    (if marked = true then storeTimes else pure ()).Runs (ix, store) () after ↔ after.1 = ix ∧
      (writeMarked marked Keys.times (ofDict ofInt64 ix.times)).Runs store ()
        after.2 := by
  cases marked with
  | true => exact runs_storeTimes_iff
  | false => exact runs_pure_second_iff

/-- A scan stores all parts of the index. -/
theorem runs_scan_iff {tree : FileTree} {now : Int64} : (scan tree now).Runs (ix, store) () after ↔
    after.1 = (ix.scanned tree now).marked false ∧ ∃ first second,
      (IndexPass.full (ix.scanned tree now)).Saves store first second after.2 := by
  refine (runs_bind_of_runs (runs_modify _ _)).trans (runs_bind_iff.trans ⟨?_, ?_⟩)
  · rintro ⟨⟨⟩, ⟨ix', second⟩, hparts, hlast⟩
    obtain ⟨rfl, first, hfiles, hhashes⟩ := runs_storeFiles_iff.mp hparts
    obtain ⟨hafter, htimes⟩ := runs_storeTimes_iff.mp hlast
    exact ⟨hafter, first, second, hfiles, hhashes, htimes⟩
  · rintro ⟨hafter, first, second, hfiles, hhashes, htimes⟩
    refine ⟨(), ((ix.scanned tree now).marked false, second), ?_,
      runs_storeTimes_iff.mpr ⟨hafter, htimes⟩⟩
    exact runs_storeFiles_iff.mpr ⟨rfl, first, hfiles, hhashes⟩

/-- A pass stores the parts of the index that are marked. -/
theorem runs_pass_iff {tree : FileTree} {now : Int64} {changed : List String}
    {outcome : IndexOutcome} {p : IndexPass} (hp : ix.passed tree now changed = p) :
    (pass tree now changed).Runs (ix, store) outcome after ↔ outcome = p.outcome ∧
      after.1 = p.indexer.marked (!p.filesDirty && p.indexer.registry.dirty) ∧
      ∃ first second, p.Saves store first second after.2 := by
  rw [pass_eq]
  subst hp
  refine (runs_bind_of_runs (runs_get _)).trans ((runs_bind_of_runs (runs_modify _ _)).trans ?_)
  generalize ix.passed tree now changed = p
  refine runs_bind_iff.trans ⟨?_, ?_⟩
  · rintro ⟨⟨⟩, ⟨ix', second⟩, hparts, hrest⟩
    obtain ⟨⟨⟩, last, hlast, hpure⟩ := runs_bind_iff.mp hrest
    obtain ⟨rfl, rfl⟩ := runs_pure_iff.mp hpure
    obtain ⟨rfl, first, hfiles, hhashes⟩ := runs_ite_storeFiles_iff.mp hparts
    obtain ⟨hafter, htimes⟩ := runs_ite_storeTimes_iff.mp hlast
    exact ⟨rfl, hafter, first, second, hfiles, hhashes, htimes⟩
  · rintro ⟨rfl, hafter, first, second, hfiles, hhashes, htimes⟩
    refine ⟨(), (p.indexer.marked (!p.filesDirty && p.indexer.registry.dirty), second),
      runs_ite_storeFiles_iff.mpr ⟨rfl, first, hfiles, hhashes⟩, ?_⟩
    exact runs_bind (runs_ite_storeTimes_iff.mpr ⟨hafter, htimes⟩) (runs_pure _ _)

end Indexer

end Writes

section Reading

variable {store after : EitherStore} {key other : String} {α : Type}

/-- The keys of the parts of an index. -/
def Keys.indexParts : List String := [Keys.files, Keys.hashes, Keys.times]

theorem EitherStore.apart_indexParts (hkey : key ∈ Keys.indexParts)
    (hother : other ∈ Keys.indexParts) (hne : other ≠ key) : store.Apart key other := by
  have hall : ∀ key ∈ Keys.indexParts, ∀ other ∈ Keys.indexParts, other ≠ key →
      Path.segments other ≠ Path.segments key ∧
        ¬ (DirectoryStore.stem ((Path.segments key).getLastD "") ++
          DirectoryStore.unfinishedMark).toList <+: ((Path.segments other).getLastD "").toList := by
    decide +kernel
  obtain ⟨hsegs, hname⟩ := hall key hkey other hother hne
  exact apart_of_not_isPrefix hsegs hname

/-- A part of an index after it was written, if it is marked. What is not marked has to be as it
    would be read. -/
theorem readPart_of_writeMarked {marked : Bool} {write : α → Json} {read : Json → Option α}
    {part : Dict String α} (hs : store.WellFormed) (hkey : key ∈ Keys.indexParts)
    (hstored : Json.Stored maxDepth (ofDict write part))
    (hread : ∀ a, read (write a) = some a)
    (hsame : marked = false → part = (readJson? (dictOf? read) store key).getD .empty)
    (h : (writeMarked marked key (ofDict write part)).Runs store () after) :
    after.WellFormed ∧ (readJson? (dictOf? read) after key).getD .empty = part ∧
      ∀ {β : Type} (read : Json → Option β), ∀ other ∈ Keys.indexParts, other ≠ key →
        readJson? read after other = readJson? read store other := by
  cases marked with
  | false =>
    obtain ⟨-, rfl⟩ := runs_pure_iff.mp h
    exact ⟨hs, (hsame rfl).symm, fun _ _ _ _ => rfl⟩
  | true =>
    have hwrite : (writeJson key (ofDict write part)).Runs store () after := h
    have hput := EitherStore.stored_of_put hs hwrite
    refine ⟨hput.wellFormed, ?_, fun read other hother hne => ?_⟩
    · rw [readJson_of_writeJson hstored hwrite, dictOf_ofDict hread, Option.getD_some]
    · rw [readJson_eq_blob, readJson_eq_blob,
        hput.blob_of_apart (EitherStore.apart_indexParts hkey hother hne)]

end Reading

namespace Indexer

open IndexPass

variable {root : String} {rules : IgnoreRules} {kind : DigestKind}
  {store first second after : EitherStore} {start : Indexer} {p : IndexPass}

/-- An index with the files of another one. -/
def withFiles (ix new : Indexer) : Indexer := { ix with files := new.files }

/-- An index with the digests of another one. -/
def withHashes (ix new : Indexer) : Indexer :=
  { ix with registry := { ix.registry with entries := new.registry.entries } }

/-- An index with the times of another one. -/
def withTimes (ix new : Indexer) : Indexer := { ix with times := new.times }

section Parts

variable {new : Indexer} {marked : Bool}

/-- What is read after the list of files was written, if it is marked. -/
theorem ofStore_of_files (hs : store.WellFormed) (hstart : ofStore store root rules kind = start)
    (hsame : marked = false → new.files = start.files)
    (h : (writeMarked marked Keys.files (ofDict FileRecord.toJson new.files)).Runs store ()
      after) :
    after.WellFormed ∧ ofStore after root rules kind = start.withFiles new := by
  subst hstart
  obtain ⟨hafter, hread, hother⟩ := readPart_of_writeMarked hs (by decide)
    (stored_ofDict FileRecord.stored_toJson _) FileRecord.ofJson_toJson hsame h
  refine ⟨hafter, ?_⟩
  unfold withFiles ofStore HashRegistry.ofStore
  rw [hread, hother _ Keys.hashes (by decide) (by decide),
    hother _ Keys.times (by decide) (by decide)]

/-- What is read after the digests were written, if they are marked. -/
theorem ofStore_of_hashes (hs : store.WellFormed) (hstart : ofStore store root rules kind = start)
    (hsame : marked = false → new.registry.entries = start.registry.entries)
    (h : (writeMarked marked Keys.hashes (ofDict .text new.registry.entries)).Runs store ()
      after) :
    after.WellFormed ∧ ofStore after root rules kind = start.withHashes new := by
  subst hstart
  obtain ⟨hafter, hread, hother⟩ := readPart_of_writeMarked hs (by decide)
    (stored_ofDict Json.Stored.text _) text_text hsame h
  refine ⟨hafter, ?_⟩
  unfold withHashes ofStore HashRegistry.ofStore
  rw [hread, hother _ Keys.files (by decide) (by decide),
    hother _ Keys.times (by decide) (by decide)]

/-- What is read after the times were written, if they are marked. -/
theorem ofStore_of_times (hs : store.WellFormed) (hstart : ofStore store root rules kind = start)
    (hsame : marked = false → new.times = start.times)
    (h : (writeMarked marked Keys.times (ofDict ofInt64 new.times)).Runs store () after) :
    after.WellFormed ∧ ofStore after root rules kind = start.withTimes new := by
  subst hstart
  obtain ⟨hafter, hread, hother⟩ := readPart_of_writeMarked hs (by decide)
    (stored_ofDict stored_ofInt64 _) int64_ofInt64 hsame h
  refine ⟨hafter, ?_⟩
  unfold withTimes ofStore HashRegistry.ofStore
  rw [hread, hother _ Keys.files (by decide) (by decide),
    hother _ Keys.hashes (by decide) (by decide)]

end Parts

/-- What is read after each write of a pass: the parts that were written, and the others as they
    were before. -/
theorem ofStore_of_saves (hs : store.WellFormed) (hstart : ofStore store root rules kind = start)
    (hmark : Marked start p) (h : p.Saves store first second after) :
    (first.WellFormed ∧ second.WellFormed ∧ after.WellFormed) ∧
      ofStore first root rules kind = start.withFiles p.indexer ∧
      ofStore second root rules kind = (start.withFiles p.indexer).withHashes p.indexer ∧
      ofStore after root rules kind =
        ((start.withFiles p.indexer).withHashes p.indexer).withTimes p.indexer := by
  -- Digests are left out with the list of files, or because they are not marked themselves.
  have hsame : (p.filesDirty && p.indexer.registry.dirty) = false →
      p.indexer.registry.entries = start.registry.entries := by
    intro hclean
    rcases Bool.and_eq_false_iff.mp hclean with hclean | hclean
    · rw [(hmark.files hclean).2]
    · rw [hmark.hashes hclean]
  obtain ⟨hfst, hfiles⟩ :=
    ofStore_of_files hs hstart (fun hclean => (hmark.files hclean).1) h.files
  obtain ⟨hsnd, hhashes⟩ := ofStore_of_hashes hfst hfiles hsame h.hashes
  obtain ⟨hafter, htimes⟩ := ofStore_of_times hsnd hhashes hmark.times h.times
  exact ⟨⟨hfst, hsnd, hafter⟩, hfiles, hhashes, htimes⟩

/-- A call that goes through from an index that was read leaves the new index in the store. -/
theorem ofStore_of_call (hs : store.WellFormed) (hread : ofStore store root rules kind = start)
    (hmarked : Marked start p) (hset : SameSettings start p.indexer)
    (hsaves : p.Saves store first second after) :
    after.WellFormed ∧ ofStore after root rules kind =
      p.indexer.marked (!p.filesDirty && p.indexer.registry.dirty) := by
  obtain ⟨⟨-, -, hafter⟩, -, -, hlast⟩ := ofStore_of_saves hs hread hmarked hsaves
  -- The only mark that could be left is one that was there before.
  have hmark : (!p.filesDirty && p.indexer.registry.dirty) = start.registry.dirty := by
    cases hdirty : p.filesDirty with
    | true =>
      rw [← hread]
      rfl
    | false => rw [(hmarked.files hdirty).2, Bool.not_false, Bool.true_and]
  refine ⟨hafter, ?_⟩
  rw [hlast, hmark]
  simp only [withTimes, withHashes, withFiles, Indexer.marked, hset.root, hset.rules,
    hset.kind]

theorem sameSettings_passed (ix : Indexer) (tree : FileTree) (now : Int64) (changed : List String) :
    SameSettings ix (ix.passed tree now changed).indexer :=
  sameSettings_foldl tree now changed (.start ix)

/-- An index is whole, and its store has it. -/
structure InStore (root : String) (rules : IgnoreRules) (kind : DigestKind)
    (state : Indexer × EitherStore) : Prop where
  wellFormed : state.2.WellFormed
  /-- The index is the one that is read from the store. -/
  read : ofStore state.2 root rules kind = state.1
  whole : state.1.Whole

/-- The states that scans and passes that go through lead to from a store without values. -/
inductive Reached (root : String) (rules : IgnoreRules) (kind : DigestKind) :
    Indexer × EitherStore → Prop
  /-- An index is opened on a store without values. -/
  | opened {store : EitherStore} (wellFormed : store.WellFormed)
      (empty : ∀ key, blob? store key = none) :
      Reached root rules kind (ofStore store root rules kind, store)
  /-- All files are looked at. -/
  | scanned {before after : Indexer × EitherStore} (reached : Reached root rules kind before)
      (tree : FileTree) (now : Int64) (runs : (scan tree now).Runs before () after) :
      Reached root rules kind after
  /-- Some files are looked at. -/
  | passed {before after : Indexer × EitherStore} (reached : Reached root rules kind before)
      (tree : FileTree) (now : Int64) (changed : List String) {outcome : IndexOutcome}
      (runs : (pass tree now changed).Runs before outcome after) :
      Reached root rules kind after

theorem inStore_opened (hs : store.WellFormed) (hempty : ∀ key, blob? store key = none) :
    InStore root rules kind (ofStore store root rules kind, store) := by
  refine ⟨hs, rfl, fun path => ?_⟩
  have hread : ∀ {α : Type} (read : Json → Option α) key, readJson? read store key = none :=
    fun read key => by
      rw [readJson_eq_blob, hempty]
      rfl
  unfold entry ofStore HashRegistry.ofStore
  simp only [hread]
  exact ⟨rfl, rfl⟩

/-- Calls keep an index and its store together. -/
theorem Reached.inStore {state : Indexer × EitherStore} (h : Reached root rules kind state) :
    InStore root rules kind state := by
  induction h with
  | opened hs hempty => exact inStore_opened hs hempty
  | @scanned before after _ tree now runs ih =>
    obtain ⟨hix, first, second, hsaves⟩ := runs_scan_iff.mp runs
    obtain ⟨hafter, hread⟩ := ofStore_of_call ih.wellFormed ih.read
      (marked_full (follows_scanned tree now)) ⟨rfl, rfl, HashRegistry.kind_foldl_update _ _⟩
      hsaves
    exact ⟨hafter, hread.trans hix.symm, hix ▸ whole_scanned tree now before.1⟩
  | @passed before after _ tree now changed outcome runs ih =>
    obtain ⟨-, hix, first, second, hsaves⟩ := (runs_pass_iff rfl).mp runs
    obtain ⟨hafter, hread⟩ := ofStore_of_call ih.wellFormed ih.read
      (marked_passed tree now changed) (sameSettings_passed before.1 tree now changed) hsaves
    exact ⟨hafter, hread.trans hix.symm, hix ▸ whole_passed tree now changed ih.whole⟩

/-- In every state that scans and passes lead to, the digests are those of the records, times are
    known of the files that are known, and what would be read from the store is the index. -/
theorem reached_in_step {state : Indexer × EitherStore} (h : Reached root rules kind state) :
    state.1.registry.entries = state.1.files.map (fun _ r => r.hash) ∧
      state.1.times.keys = state.1.files.keys ∧
      HashRegistry.ofStore state.2 kind = state.1.registry ∧
      ofStore state.2 root rules kind = state.1 :=
  ⟨h.inStore.whole.entries_registry, h.inStore.whole.keys_times,
    congrArg registry h.inStore.read, h.inStore.read⟩

section Sample

/-- A project with two files. -/
def sampleTree : FileTree :=
  .directory [("a.ts", .file "let x = 1".toUTF8 1000), ("b.ts", .file "let y = 2".toUTF8 1000)]

/-- The project after one file was edited and the other one removed. -/
def sampleEdited : FileTree := .directory [("a.ts", .file "let x = 3".toUTF8 2000)]

/-- The index of the project after a scan. -/
def sampleScanned : Indexer × EitherStore :=
  ((scan sampleTree 1).on (ofStore (EitherStore.memory .empty) "" ⟨[], []⟩ .xxh3, .memory .empty)).2

/-- The index after a pass over both files. -/
def samplePassed : Indexer × EitherStore :=
  ((pass sampleEdited 2 ["a.ts", "b.ts"]).on sampleScanned).2

theorem reached_sampleScanned : Reached "" ⟨[], []⟩ .xxh3 sampleScanned := by
  have hs : (EitherStore.memory .empty).WellFormed := trivial
  exact .scanned (.opened hs fun _ => rfl) sampleTree 1 (runs_on rfl)

theorem reached_samplePassed : Reached "" ⟨[], []⟩ .xxh3 samplePassed := by
  have hans : ((pass sampleEdited 2 ["a.ts", "b.ts"]).on sampleScanned).1 =
      .ok ⟨["a.ts"], ["b.ts"], []⟩ := by
    decide +kernel
  exact .passed reached_sampleScanned sampleEdited 2 ["a.ts", "b.ts"] (runs_on hans)

theorem reached_in_step_samplePassed : Reached "" ⟨[], []⟩ .xxh3 samplePassed ∧
    samplePassed.1.registry.entries = samplePassed.1.files.map (fun _ r => r.hash) ∧
    samplePassed.1.times.keys = samplePassed.1.files.keys ∧
    HashRegistry.ofStore samplePassed.2 .xxh3 = samplePassed.1.registry ∧
    ofStore samplePassed.2 "" ⟨[], []⟩ .xxh3 = samplePassed.1 :=
  ⟨reached_samplePassed, reached_in_step reached_samplePassed⟩

end Sample

end Indexer

end Ripple
