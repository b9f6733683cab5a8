import Ripple.Proofs.History.Latest
import Ripple.Proofs.Index.Pass

/-!
# How the Jobs of a Tracker End

On a store whose writes may fail, a job of a tracker can stop at any write.
What matters of where it stops is the same as for one that goes through: the
index in memory, and the snapshots in the store.

The index is changed in memory before any of it is stored, so it is the same
however the job ends. The snapshots are changed by a single write, and nothing
after it can fail: notes on a commit are stored too, but whether that works
does not matter. So a job either goes through and its snapshot is added, or it
fails and the snapshots are as they were.
-/

namespace Ripple

open Store Job History

variable {σ : Type} [BlobStore σ]

variable {store after : σ} {α : Type} {s : Snapshot}

/-- An index with another mark for what is not stored yet. -/
def Indexer.marked (ix : Indexer) (dirty : Bool) : Indexer :=
  { ix with registry := { ix.registry with dirty := dirty } }

/-- What is left of storing an index, whether it worked or not. -/
structure Indexer.Stored (ix : Indexer) (store : σ) (after : Indexer × σ) : Prop where
  /-- The index stays, up to the mark for what is not stored yet. -/
  indexer : ∃ dirty, after.1 = ix.marked dirty
  agree : AgreeBelow Keys.snapshots store after.2

theorem Indexer.Stored.refl (ix : Indexer) (store : σ) : ix.Stored store (ix, store) :=
  ⟨⟨ix.registry.dirty, rfl⟩, agreeBelow_refl _ _⟩

theorem Indexer.Stored.trans {ix : Indexer} {middle after : Indexer × σ}
    (h : ix.Stored store middle) (h' : middle.1.Stored middle.2 after) : ix.Stored store after := by
  obtain ⟨dirty, hmid⟩ := h.indexer
  obtain ⟨dirty', hafter⟩ := h'.indexer
  refine ⟨⟨dirty', ?_⟩, h.agree.trans h'.agree⟩
  rw [hafter, hmid]
  rfl

/-- A job that only stores an index may be left out under a condition. -/
theorem Indexer.ends_ite (condition : Bool) {job : Job (Indexer × σ) Unit} {ix : Indexer}
    (h : job.Ends (ix, store) fun _ after => ix.Stored store after) :
    (if condition = true then job else pure ()).Ends (ix, store) fun _ after =>
      ix.Stored store after := by
  cases condition with
  | true => exact h
  | false => exact .refl ix store

/-- How a job ends that stores a snapshot: it goes through with an answer and the snapshot is added,
    or it fails and the snapshots stay. -/
inductive History.Filed {α : Type} (store : σ) (s : Snapshot) (answer : α) :
    Except Error α → σ → Prop
  | failed {e : Error} {after : σ} (agree : AgreeBelow Keys.snapshots store after) :
      Filed store s answer (.error e) after
  | stored {after : σ} (added : Added store after s) : Filed store s answer (.ok answer) after

theorem History.Filed.of_agree {middle : σ} {answer : α} {result : Except Error α}
    (hagree : AgreeBelow Keys.snapshots store middle) (h : Filed middle s answer result after) :
    Filed store s answer result after := by
  cases h with
  | failed hafter => exact .failed (hagree.trans hafter)
  | stored hadd => exact .stored (.of_agree hagree hadd)

theorem History.Filed.agree_of_error {answer : α} {e : Error}
    (h : Filed store s answer (.error e) after) :
    AgreeBelow Keys.snapshots store after := by
  cases h with
  | failed hagree => exact hagree

theorem History.Filed.added_of_ok {answer a : α} (h : Filed store s answer (.ok a) after) :
    a = answer ∧ Added store after s := by
  cases h with
  | stored hadd => exact ⟨rfl, hadd⟩

theorem History.Filed.agree_or_added {answer : α} {result : Except Error α}
    (h : Filed store s answer result after) :
    AgreeBelow Keys.snapshots store after ∨ Added store after s := by
  cases h with
  | failed hagree => exact .inl hagree
  | stored hadd => exact .inr hadd

/-- What a job leaves of a tracker: the graph may be another one, and the index is a given one up to
    the mark for what is not stored yet. -/
structure Tracker.Left (t : Tracker) (ix : Indexer) (after : Tracker) : Prop where
  indexer : ∃ dirty, after.indexer = ix.marked dirty
  maxDepth : after.maxDepth = t.maxDepth

theorem Tracker.Left.refl (t : Tracker) : t.Left t.indexer t :=
  ⟨⟨t.indexer.registry.dirty, rfl⟩, rfl⟩

/-- A mark of the index makes no difference for what comes after it. -/
theorem Tracker.Left.trans {t after : Tracker} {ix : Indexer} {dirty : Bool}
    (h : Left { t with indexer := ix.marked dirty } (ix.marked dirty) after) : t.Left ix after := by
  obtain ⟨dirty', hix⟩ := h.indexer
  exact ⟨⟨dirty', hix⟩, h.maxDepth⟩

omit [BlobStore σ] in
/-- A job on the index leaves all else in memory. -/
theorem Tracker.ends_onIndexer {job : Job (Indexer × σ) α} {t : Tracker}
    {P : Except Error α → Indexer × σ → Prop} (h : job.Ends (t.indexer, store) P) :
    (onIndexer job).Ends (t, store) fun result after =>
      ∃ ix, P result (ix, after.2) ∧ after.1 = { t with indexer := ix } :=
  ends_inside ⟨_, h, rfl⟩

/-- A job that avoids the snapshots may come before a snapshot is stored. -/
theorem Tracker.ends_bind_avoids {β : Type} {job : Job σ α} {next : α → Job (Tracker × σ) β}
    {t : Tracker} {answer : β} (h : Avoids Keys.snapshots job)
    (hnext : ∀ a middle, AgreeBelow Keys.snapshots store middle →
      (next a).Ends (t, middle) fun result after =>
        t.Left t.indexer after.1 ∧ Filed middle s answer result after.2) :
    (onSecond job >>= next).Ends (t, store) fun result after =>
      t.Left t.indexer after.1 ∧ Filed store s answer result after.2 := by
  refine ends_bind (h.onSecond t store) ?_ ?_
  · rintro e ⟨_, after⟩ ⟨rfl, hagree⟩
    exact ⟨.refl _, .failed hagree⟩
  · rintro a ⟨_, middle⟩ ⟨rfl, hagree⟩
    exact (hnext a middle hagree).imp fun _ _ hafter => ⟨hafter.1, .of_agree hagree hafter.2⟩

/-- The first snapshot is one of all files, whatever files are named. -/
theorem Tracker.runs_track_of_none {scene : Scene} {t t' : Tracker}
    (hnone : latest store = .ok none)
    (h : (takeSnapshot scene).Runs (t, store) s (t', after)) (changed : List String) :
    (track scene changed).Runs (t, store) ⟨s.id, none, true, true, s.files.keys, [], [], []⟩
      (t', after) :=
  runs_bind (runs_onSecond (runs_inspect hnone) t) (runs_bind h (runs_pure _ _))

variable [AtomicStore σ]

theorem History.ends_save (s : Snapshot) (store : σ) :
    (save s).Ends store fun result after => Filed store s () result after := by
  have hpack : packed (Keys.snapshot s.id false) (bytesOfJson s.toJson) =
      bytesOfJson s.toJson := by
    rw [packed, isPacked_snapshot, if_neg Bool.false_ne_true]
  obtain ⟨after, ⟨hput, hblob⟩ | ⟨e, hput, hblob⟩⟩ :=
    AtomicStore.put_cases store (Keys.snapshot s.id false) (bytesOfJson s.toJson)
  · have hsave : (save s).on store = (.ok (), after) := by
      rw [save, writeJson, hpack]
      exact hput
    rw [Ends, hsave]
    exact .stored fun key _ => hblob key
  · have hsave : (save s).on store = (.error e, after) := by
      rw [save, writeJson, hpack]
      exact hput
    rw [Ends, hsave]
    exact .failed fun key _ => hblob key

namespace Indexer

theorem ends_saveRegistry (ix : Indexer) (store : σ) :
    (Job.inside registry (fun ix r => { ix with registry := r }) HashRegistry.save).Ends (ix, store)
      fun _ after => ix.Stored store after := by
  refine ends_inside (ends_bind_of_runs (runs_get _) ?_)
  by_cases hdirty : ix.registry.dirty = true
  · simp only [if_pos hdirty]
    refine ends_bind ((avoids_writeJson Keys.beginsWith_hashes _).onSecond ix.registry store)
      ?failed ?marked
    case failed =>
      rintro e after ⟨hsame, hagree⟩
      refine ⟨⟨ix.registry.dirty, ?_⟩, hagree⟩
      rw [hsame]
      rfl
    case marked =>
      rintro _ after ⟨hsame, hagree⟩
      refine ⟨⟨false, ?_⟩, hagree⟩
      change { ix with registry := { after.1 with dirty := false } } = _
      rw [hsame]
      rfl
  · simp only [if_neg hdirty]
    exact .refl ix store

theorem ends_storeFiles (ix : Indexer) (store : σ) :
    storeFiles.Ends (ix, store) fun _ after => ix.Stored store after := by
  refine ends_bind_of_runs (runs_get _) ?_
  refine ends_bind ((avoids_writeJson Keys.beginsWith_files _).onSecond ix store) ?failed ?digests
  case failed =>
    rintro e ⟨_, after⟩ ⟨rfl, hagree⟩
    exact ⟨⟨_, rfl⟩, hagree⟩
  case digests =>
    rintro _ ⟨_, middle⟩ ⟨rfl, hagree⟩
    refine (ends_saveRegistry _ middle).imp fun _ after hstored => ?_
    exact ⟨hstored.indexer, hagree.trans hstored.agree⟩

theorem ends_storeTimes (ix : Indexer) (store : σ) :
    storeTimes.Ends (ix, store) fun _ after => ix.Stored store after :=
  ends_bind_of_runs (runs_get _)
    (ends_onSecond ⟨⟨ix.registry.dirty, rfl⟩, avoids_writeJson Keys.beginsWith_times _ store⟩)

/-- A scan ends with the index of the tree, whether it is stored or not. -/
theorem ends_scan (tree : FileTree) (now : Int64) (ix : Indexer) (store : σ) :
    (scan tree now).Ends (ix, store) fun _ after => (ix.scanned tree now).Stored store after := by
  refine ends_bind_of_runs (runs_modify _ _) ?_
  refine ends_bind (ends_storeFiles _ store) (fun _ _ hstored => hstored) fun _ middle hfiles => ?_
  exact (ends_storeTimes middle.1 middle.2).imp fun _ after htimes => hfiles.trans htimes

/-- A pass ends with the index after it, and if it goes through then with what it found. -/
theorem ends_pass (tree : FileTree) (now : Int64) (changed : List String) (ix : Indexer)
    (store : σ) : (pass tree now changed).Ends (ix, store) fun result after =>
      (ix.passed tree now changed).indexer.Stored store after ∧
        ∀ found, result = .ok found → found = (ix.passed tree now changed).outcome := by
  rw [pass_eq]
  refine ends_bind_of_runs (runs_get _) (ends_bind_of_runs (runs_modify _ _) ?_)
  -- The index is replaced before anything is stored, so it does not matter where that stops.
  refine ends_bind (ends_ite _ (ends_storeFiles _ store))
    (fun _ _ hstored => ⟨hstored, nofun⟩) fun _ middle hfiles => ?_
  refine ends_bind (ends_ite _ (ends_storeTimes middle.1 middle.2))
    (fun _ _ hstored => ⟨hfiles.trans hstored, nofun⟩) fun _ after htimes => ?_
  exact ⟨hfiles.trans htimes, fun found hfound => (Except.ok.inj hfound).symm⟩

end Indexer

namespace Tracker

theorem latest_ok (store : σ) : ∃ newest, latest store = .ok newest := by
  obtain ⟨found, hfound, -⟩ := ids_eq store
  refine ⟨found.reverse.findSome? (load? store), ?_⟩
  rw [latest, hfound]
  rfl

variable (scene : Scene)

/-- The snapshot that is made of files and outlines. -/
def made (ids : List String) (maxDepth : Nat) (files : Dict String FileRecord)
    (outlines : Dict String Outline) : Snapshot where
  id := Snapshot.makeId (timeAfter ids scene.now) scene.salt
  timestamp := timeAfter ids scene.now
  files := files
  outlines := outlines
  graph := ImportGraph.build outlines maxDepth

/-- The outlines of a snapshot after changes. -/
def patched (tree : FileTree) (previous : Snapshot) (files : Dict String FileRecord)
    (outcome : IndexOutcome) (impacted : List String) : Dict String Outline :=
  (previous.outlines.insertAll (outlinesOf tree (affected files outcome impacted)).toList).filter
    fun path _ => files.contains path

theorem avoids_saveOutlines (outlines : List Outline) :
    Avoids Keys.snapshots (saveOutlines outlines : Job σ Unit) := by
  induction outlines with
  | nil => exact avoids_pure ()
  | cons o rest ih =>
    exact avoids_bind (avoids_writeJson (Keys.beginsWith_outline o.path) _) fun _ => ih

theorem avoids_removeOutlines (paths : List String) :
    Avoids Keys.snapshots (removeOutlines paths : Job σ Unit) := by
  induction paths with
  | nil => exact avoids_pure ()
  | cons path rest ih =>
    exact avoids_bind (avoids_delete (Keys.beginsWith_outline path)) fun _ => ih

theorem avoids_removeStale (files : Dict String FileRecord) :
    Avoids Keys.snapshots (removeStale files : Job σ Unit) := by
  refine avoids_bind (avoids_inspect _) fun newest => ?_
  cases newest with
  | none => exact avoids_pure ()
  | some previous => exact avoids_removeOutlines _

theorem avoids_noteCommit (versioned : Bool) (id : String) :
    Avoids Keys.snapshots (noteCommit scene versioned id : Job σ Unit) := by
  unfold noteCommit
  split
  · exact avoids_ignoringFailure (avoids_writeJson (Keys.beginsWith_notes id) _)
  · exact avoids_pure ()

/-- Noting a commit goes through, even if the note cannot be stored. -/
theorem runs_noteCommit (versioned : Bool) (id : String) (store : σ) :
    ∃ after, (noteCommit scene versioned id).Runs store () after ∧
      AgreeBelow Keys.snapshots store after := by
  refine ⟨((noteCommit scene versioned id).on store).2, ?_, avoids_noteCommit _ _ _ store⟩
  unfold noteCommit
  split
  · rfl
  · rfl

theorem ends_saveGraph (g : ImportGraph) (t : Tracker) (store : σ) :
    (onGraph (GraphCache.save g)).Ends (t, store) fun _ after =>
      t.Left t.indexer after.1 ∧ AgreeBelow Keys.snapshots store after.2 := by
  have hleft : ∀ cache, t.Left t.indexer { t with graph := cache } :=
    fun _ => ⟨(Left.refl t).1, rfl⟩
  refine ends_inside (ends_bind (P := fun _ after => AgreeBelow Keys.snapshots store after.2)
    (ends_onSecond (avoids_writeJson Keys.beginsWith_graph _ store)) ?_ ?_)
  · exact fun e after hagree => ⟨hleft _, hagree⟩
  · exact fun _ after hagree => ⟨hleft _, hagree⟩

variable {ids : List String} {s : Snapshot}

/-- Storing a snapshot adds it, or fails. -/
theorem ends_finish (files : Dict String FileRecord)
    (outlines : Dict String Outline) (t : Tracker) (store : σ) (hids : History.ids store = .ok ids)
    (hs : made scene ids t.maxDepth files outlines = s) :
    (finish scene files outlines).Ends (t, store) fun result after =>
      t.Left t.indexer after.1 ∧ History.Filed store s s result after.2 := by
  subst hs
  refine ends_bind_of_runs (runs_get _) (ends_bind (ends_saveGraph _ t store) ?_ ?_)
  · exact fun e after hafter => ⟨hafter.1, .failed hafter.2⟩
  rintro _ ⟨t', first⟩ ⟨hleft, hfst⟩
  -- The ids are listed when the graph is stored already, which makes no difference.
  have hlook : History.ids first = .ok ids := (History.ids_congr hfst).trans hids
  refine ends_onSecond (ends_bind_of_runs (runs_inspect hlook) ?_)
  refine ends_bind (ends_save (made scene ids t.maxDepth files outlines) first) ?_ ?_
  · exact fun e after hfiled => ⟨hleft, .failed (hfst.trans hfiled.agree_of_error)⟩
  · -- Once the snapshot is saved nothing can fail any more.
    intro _ second hfiled
    have hadd := hfiled.added_of_ok.2
    obtain ⟨third, hnote, hthird⟩ := runs_noteCommit scene t.versioned
      (made scene ids t.maxDepth files outlines).id second
    refine ends_bind_of_runs hnote ?_
    exact ⟨hleft, .stored (.of_agree hfst (hadd.trans_agree hthird))⟩

/-- A snapshot of all files is added, or that fails. The index is that of the tree either way. -/
theorem ends_takeSnapshot (t : Tracker) (store : σ) (hids : History.ids store = .ok ids)
    (hs : made scene ids t.maxDepth (t.indexer.scanned scene.tree scene.now).files
      (outlinesOf scene.tree (t.indexer.scanned scene.tree scene.now).files) = s) :
    (takeSnapshot scene).Ends (t, store) fun result after =>
      t.Left (t.indexer.scanned scene.tree scene.now) after.1 ∧
        History.Filed store s s result after.2 := by
  refine ends_bind (ends_onIndexer (Indexer.ends_scan scene.tree scene.now t.indexer store)) ?_ ?_
  · rintro e ⟨_, after⟩ ⟨ix, hstored, rfl⟩
    exact ⟨⟨hstored.indexer, rfl⟩, .failed hstored.agree⟩
  rintro _ ⟨_, first⟩ ⟨ix, ⟨⟨dirty, rfl⟩, hfst⟩, rfl⟩
  refine ends_bind_of_runs (runs_get _) (.imp (ends_bind_avoids (avoids_saveOutlines _)
    fun _ second hsnd => ends_bind_avoids (avoids_removeStale _) fun _ third hthird => ?_)
    fun _ after hafter => ⟨hafter.1.trans, .of_agree hfst hafter.2⟩)
  -- Up to here nothing was done to the snapshots.
  exact ends_finish scene _ _ _ third
    ((History.ids_congr ((hfst.trans hsnd).trans hthird)).trans hids) hs

/-- A snapshot after changes is added, or that fails. -/
theorem ends_trackFrom (previous : Snapshot) (outcome : IndexOutcome) (t : Tracker)
    (store : σ) (hids : History.ids store = .ok ids) {impact : ImpactSet}
    (himpact : impactSet previous.graph outcome.changed t.maxDepth = impact)
    (hs : made scene ids t.maxDepth t.indexer.files
      (patched scene.tree previous t.indexer.files outcome impact.impacted) = s) :
    (trackFrom scene previous outcome).Ends (t, store) fun result after =>
      t.Left t.indexer after.1 ∧
        Filed store s ⟨s.id, some previous.id, false, true, outcome.updated,
          outcome.removed, impact.impacted, impact.circular⟩ result after.2 := by
  subst himpact
  refine ends_bind_of_runs (runs_get _) ?_
  refine ends_bind_avoids (avoids_removeOutlines _) fun _ first hfst =>
    ends_bind_avoids (avoids_saveOutlines _) fun _ second hsnd => ?_
  -- Up to here only outlines were removed and stored.
  have hlook : History.ids second = .ok ids :=
    (History.ids_congr (hfst.trans hsnd)).trans hids
  refine ends_bind (ends_finish scene _ _ t second hlook hs) ?_ ?_
  · exact fun e after hafter => ⟨hafter.1, .failed hafter.2.agree_of_error⟩
  · rintro s' after ⟨hleft, hfiled⟩
    obtain ⟨rfl, hadd⟩ := hfiled.added_of_ok
    exact ⟨hleft, .stored hadd⟩

/-- A look at changed files ends with the index after the pass. If the pass finds nothing then the
    snapshots stay, and otherwise a snapshot is added or that fails. -/
theorem ends_track_of_some (changed : List String) (t : Tracker) {store : σ}
    (hids : History.ids store = .ok ids) {previous : Snapshot}
    (hlatest : latest store = .ok (some previous)) {p : IndexPass}
    (hpass : t.indexer.passed scene.tree scene.now changed = p) {impact : ImpactSet}
    (himpact : impactSet previous.graph p.outcome.changed t.maxDepth = impact)
    (hs : made scene ids t.maxDepth p.indexer.files
      (patched scene.tree previous p.indexer.files p.outcome impact.impacted) = s) :
    (track scene changed).Ends (t, store) fun result after =>
      t.Left p.indexer after.1 ∧
        (p.outcome.isNoop = true → AgreeBelow Keys.snapshots store after.2 ∧
          ∀ o, result = .ok o → o = ⟨previous.id, some previous.id, false, false, [], [], [], []⟩) ∧
        (p.outcome.isNoop = false → Filed store s ⟨s.id, some previous.id, false, true,
          p.outcome.updated, p.outcome.removed, impact.impacted, impact.circular⟩ result
            after.2) := by
  subst hpass
  refine ends_bind_of_runs (runs_onSecond (runs_inspect hlatest) t) ?_
  refine ends_bind (ends_onIndexer
    (Indexer.ends_pass scene.tree scene.now changed t.indexer store)) ?_ ?_
  · rintro e ⟨_, after⟩ ⟨ix, ⟨hstored, -⟩, rfl⟩
    exact ⟨⟨hstored.indexer, rfl⟩, fun _ => ⟨hstored.agree, nofun⟩, fun _ => .failed hstored.agree⟩
  rintro found ⟨_, middle⟩ ⟨ix, ⟨⟨⟨dirty, rfl⟩, hagree⟩, hfound⟩, rfl⟩
  obtain rfl := hfound found rfl
  cases hnoop : (t.indexer.passed scene.tree scene.now changed).outcome.isNoop with
  | true =>
    refine ⟨⟨⟨dirty, rfl⟩, rfl⟩, fun _ => ⟨hagree, fun o ho => (Except.ok.inj ho).symm⟩, nofun⟩
  | false =>
    have hlook : History.ids middle = .ok ids := (History.ids_congr hagree).trans hids
    let p := t.indexer.passed scene.tree scene.now changed
    have hfrom := ends_trackFrom scene previous p.outcome
      { t with indexer := p.indexer.marked dirty } middle hlook himpact hs
    refine hfrom.imp fun _ after hafter => ?_
    exact ⟨hafter.1.trans, nofun, fun _ => .of_agree hagree hafter.2⟩

end Tracker

end Ripple
