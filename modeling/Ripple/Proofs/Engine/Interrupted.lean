import Ripple.Proofs.Engine.Complete
import Ripple.Proofs.History.Kept
import Ripple.Proofs.Index.Notice
import Ripple.Proofs.Report.Snapshots

/-!
# Interrupted Calls

A call of an engine can fail at any write. It then leaves the index in memory
as if it had gone through, and the snapshots as they were. So an index can be
ahead of the newest snapshot not only after a scan but also after a snapshot
or an analysis that failed.

Some things hold after every run all the same, whether its calls went through
or not. The index has the digests of the files that it knows, and the
snapshots are tidy and kept under their own ids.

## Theorems

* `Engine.Step.mayLeave`: What a call leaves behind.
-/

namespace Ripple

open Store Job

theorem Snapshot.Complete.tidy {s : Snapshot} {maxDepth : Nat} (h : s.Complete maxDepth) :
    s.Tidy where
  known path hsome := by
    rw [← Dict.mem_keys_iff, ← h.keys, Dict.mem_keys_iff]
    exact hsome
  path := h.path

namespace Engine

variable {σ : Type} [BlobStore σ]

/-- What a call leaves behind, whether it goes through or not. -/
structure Call.MayLeave (c : Call) (state after : Tracker × σ) : Prop where
  indexer : ∃ dirty, after.1.indexer = (c.indexed state).marked dirty
  /-- The snapshots stay, or the draft is added. -/
  history : AgreeBelow Keys.snapshots state.2 after.2 ∨
    ∃ s, c.draft? state = some s ∧ History.Added state.2 after.2 s

section Tidy

variable {scene : Scene} {state : Tracker × σ} {previous : Snapshot} {p : IndexPass}

theorem tidy_full : (Call.full scene state).Tidy := (complete_full scene state).tidy

theorem tidy_patch (hprev : previous.Tidy) : (Call.patch scene state previous p).Tidy where
  known path hsome := by
    obtain ⟨o, ho⟩ := Option.isSome_iff_exists.mp hsome
    rw [get_outlines_patch] at ho
    obtain ⟨r, hr, -⟩ := Option.bind_eq_some_iff.mp ho
    exact Option.isSome_iff_exists.mpr ⟨r, hr⟩
  path path o ho := by
    rw [get_outlines_patch] at ho
    obtain ⟨r, -, ho⟩ := Option.bind_eq_some_iff.mp ho
    split at ho
    · rw [← Option.some.inj ho, Outline.path_ofTreeFile]
    · exact hprev.path path o ho

/-- What a call stores is tidy, as long as the newest snapshot is. -/
theorem tidy_draft {c : Call} {s : Snapshot}
    (hprev : ∀ previous, History.latest state.2 = .ok (some previous) → previous.Tidy)
    (hdraft : c.draft? state = some s) : s.Tidy := by
  rcases Call.draft_cases hdraft with rfl | ⟨previous, p, hlatest, rfl⟩
  · exact tidy_full
  · exact tidy_patch (hprev previous hlatest)

end Tidy

section Calls

variable [AtomicStore σ]

theorem mayLeave_track (c : Call) (state : Tracker × σ) :
    c.track.Ends state fun _ after => c.MayLeave state after := by
  refine (endsWith_track c state).imp fun result after hends => ⟨hends.left.indexer, ?_⟩
  cases hdraft : c.draft? state with
  | none => exact .inl (hends.stays hdraft)
  | some s =>
    obtain ⟨answer, hfiled⟩ := hends.filed s hdraft
    exact hfiled.agree_or_added.imp_right fun hadd => ⟨s, rfl, hadd⟩

theorem Step.mayLeave (step : Step σ) :
    step.call.MayLeave (core step.before) (core step.after) := by
  rw [Step.after, core_perform]
  exact mayLeave_track step.call (core step.before)

end Calls

section Runs

variable [AtomicStore σ] {root : String} {config : Config} {past : List (Step σ)}
  {state : Engine × σ}

omit [AtomicStore σ] in
theorem registered_indexed (c : Call) (state : Tracker × σ) {path : String}
    (h : state.1.indexer.Registered path) : (c.indexed state).Registered path := by
  rcases c.indexed_cases state with heq | ⟨changed, heq⟩ | heq
  · rw [heq]
    exact Indexer.registered_scanned path
  · rw [heq]
    exact Indexer.registered_passed c.scene.tree c.scene.now changed h
  · rwa [heq]

theorem registered_ofStore {store : σ} (hempty : ∀ key, blob? store key = none) (scene : Scene)
    (root : String) (config : Config) (path : String) :
    (Engine.ofStore scene store root config).tracker.indexer.Registered path := by
  have hread : ∀ {α : Type} (read : Json → Option α) (key : String),
      Store.readJson? read store key = none := by
    intro α read key
    rw [Store.readJson?, AtomicStore.get_eq, hempty]
  simp only [Indexer.Registered, Engine.ofStore, Tracker.ofStore, Indexer.ofStore,
    HashRegistry.ofStore, hread]
  rfl

/-- After every run, whether its calls went through or not, the snapshots are in order and the index
    has the digests of the files that it knows. -/
theorem Run.inOrder (run : Run root config past state) :
    History.Kept Snapshot.Tidy state.2 ∧ ∀ path, state.1.tracker.indexer.Registered path := by
  induction run with
  | opened scene hempty =>
    exact ⟨History.kept_of_empty hempty, registered_ofStore hempty scene root config⟩
  | @called past state run c ih =>
    -- It is enough to know what a call may leave behind, not whether it went through.
    obtain ⟨hkept, hreg⟩ := ih
    have hleave := Step.mayLeave ⟨c, state⟩
    constructor
    · rcases hleave.history with hagree | ⟨s, hdraft, hadd⟩
      · exact hkept.of_agree hagree
      · refine hkept.of_added hadd (tidy_draft (fun previous hlatest => ?_) hdraft)
        obtain ⟨found, hfound, -⟩ := History.ids_eq state.2
        exact (hkept.latest hfound hlatest).1
    · intro path
      obtain ⟨dirty, hix⟩ := hleave.indexer
      change (core (Step.after ⟨c, state⟩)).1.indexer.Registered path
      rw [hix]
      exact registered_indexed c (core state) (hreg path)

end Runs

end Engine

end Ripple
