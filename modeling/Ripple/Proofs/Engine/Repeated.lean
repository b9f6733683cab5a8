import Ripple.Proofs.Engine.Succession
import Ripple.Proofs.Index.Batches

/-!
# Analyses That Are Repeated

An analysis that is made again, with nothing changed in between, has nothing
left to find. It does not matter what the first one did: whether it took the
first snapshot, found nothing, or found changes. Each of the three leaves the
files settled that were named, and the second one goes through without reading
a file or writing to the store, even if the store would not take a write.

What it answers is the id of the newest snapshot. This is the snapshot that the
first one answered, unless that one was new and had to succeed a snapshot with
the last time of thirteen digits.

## Theorems

* `Engine.runs_analyze_of_settled`: An analysis of settled files goes through and finds nothing.
* `Engine.Analyzed.settled`: An analysis settles the files that are named.
* `Engine.analyze_again_finds_nothing`: A second analysis finds nothing.
* `Engine.not_same_snapshot_at_last_time`: It may answer another snapshot.
-/

namespace Ripple

open Store Job IndexPass Tracker

/-- The answer of an analysis that finds nothing changed since a snapshot. -/
def Analysis.nothing (id : String) : Analysis where
  outcome := ⟨id, some id, false, false, [], [], [], []⟩
  reports := []

variable {σ : Type} [BlobStore σ] {scene : Scene} {changed : List String}

/-- A look at settled files leaves everything as it is. -/
theorem Tracker.runs_track_of_settled {t : Tracker} {store : σ} {previous : Snapshot}
    (hlatest : History.latest store = .ok (some previous))
    (h : ∀ path, Names t.indexer.root changed path → t.indexer.Settled scene.tree path) :
    (track scene changed).Runs (t, store) (Analysis.nothing previous.id).outcome (t, store) := by
  obtain ⟨found, hpass, hnoop⟩ := Indexer.runs_pass_of_settled h scene.now store
  refine runs_bind (runs_onSecond (runs_inspect hlatest) t) (runs_bind (runs_inside hpass) ?_)
  simp only [if_pos hnoop]
  exact runs_pure _ _

namespace Engine

variable {state after : Engine × σ} {a : Analysis} {o : TrackOutcome}

theorem runs_analyze_of_settled {previous : Snapshot}
    (hlatest : History.latest state.2 = .ok (some previous))
    (h : ∀ path, Names state.1.tracker.indexer.root changed path →
      state.1.tracker.indexer.Settled scene.tree path) :
    ∃ last, (analyze scene changed).Runs state (.nothing previous.id) last ∧ last.2 = state.2 := by
  have htrack := runs_track_of_settled hlatest h
  refine ⟨_, runs_bind (runs_get _) (runs_bind (runs_publish _ _)
    (runs_bind (runs_inside htrack) (runs_pure _ _))), rfl⟩

theorem Analyzed.settled (h : Analyzed scene changed state o after)
    (htree : scene.tree.WellFormed) {path : String}
    (hnamed : Names after.1.tracker.indexer.root changed path) :
    after.1.tracker.indexer.Settled scene.tree path := by
  have hpass : ∀ {dirty}, after.1.tracker.indexer =
      (state.1.tracker.indexer.passed scene.tree scene.now changed).indexer.marked dirty →
        after.1.tracker.indexer.Settled scene.tree path := by
    intro dirty hix
    have hroot : after.1.tracker.indexer.root = state.1.tracker.indexer.root := by
      rw [hix]
      exact (sameSettings_foldl scene.tree scene.now changed (.start _)).root
    rw [hroot] at hnamed
    rw [hix]
    exact (settled_foldl scene.tree scene.now changed (.start _) hnamed).marked dirty
  -- A scan settles every path, a pass those that are named.
  cases h with
  | first _ _ _ hix =>
    obtain ⟨dirty, hix⟩ := hix
    obtain ⟨candidate, -, hrel⟩ := hnamed
    rw [hix]
    exact (Indexer.settled_scanned htree _ _ (Path.canonical_relative hrel)).marked dirty
  | idle _ _ _ _ hix =>
    obtain ⟨dirty, hix⟩ := hix
    exact hpass hix
  | later _ _ _ _ _ _ _ hix =>
    obtain ⟨dirty, hix⟩ := hix
    exact hpass hix

variable [AtomicStore σ]

/-- The newest snapshot after an analysis is the one that it answers, unless that one is new and
    some snapshot had the last time. -/
theorem Analyzed.latest_after (h : Analyzed scene changed state o after)
    (hcat : History.Catalogued state.2) (hclock : scene.now.toInt < 10 ^ 13) :
    ∃ s, History.latest after.2 = .ok (some s) ∧
      (s.id = o.snapshotId ↔ o.created = false ∨ ¬ History.Exhausted state.2) := by
  cases h with
  | first hnone hout hadd =>
    -- There was no snapshot at all, so none had the last time.
    rcases hcat.latest_eq with ⟨hids, -⟩ | ⟨_, _, -, -, hsome⟩
    · refine ⟨_, History.latest_of_first hids hadd, iff_of_true (by rw [hout]) (.inr ?_)⟩
      rintro ⟨found, hfound, id, hid, -⟩
      obtain rfl := Except.ok.inj (hids.symm.trans hfound)
      exact absurd hid List.not_mem_nil
    · rw [hnone] at hsome
      cases hsome
  | idle hsome _ hout hagree =>
    exact ⟨_, (History.latest_congr hagree).trans hsome,
      iff_of_true (by rw [hout]) (.inl (by rw [hout]))⟩
  | @later previous s _ _ hpatch hid hprev hcreated hadd =>
    obtain ⟨found, hfound, -⟩ := History.ids_eq state.2
    have hmade : s.id = _ := hpatch ▸ id_patch hfound scene previous _
    rw [hid, hcreated]
    by_cases hexhausted : History.Exhausted state.2
    · obtain ⟨newest, -, hpre, -, hlatest⟩ :=
        hcat.latest_of_exhausted hfound hclock hmade hadd hexhausted
      refine ⟨newest, hlatest, iff_of_false (fun heq => ?_) ?_⟩
      · rw [heq] at hpre
        exact compare_self_ne_lt _ hpre
      · rintro (hfalse | hfree)
        · cases hfalse
        · exact hfree hexhausted
    · exact ⟨s, hcat.latest_of_new hfound hclock hmade hadd hexhausted,
        iff_of_true rfl (.inr hexhausted)⟩

/-- Let some operations be made on a store, with times of at most thirteen digits, and then an
    analysis that goes through. A second one of the same files and the same tree goes through at
    whatever time, finds nothing and leaves the store as it is. It answers the same snapshot
    exactly if the first one took none, or if no snapshot had the last time of thirteen digits. -/
theorem analyze_again_finds_nothing {past : List Operation} (life : Life past state)
    (hregular : ∀ op ∈ past, op.Regular) (hclock : scene.now.toInt < 10 ^ 13)
    (htree : scene.tree.WellFormed) (h : (analyze scene changed).Runs state a after)
    {again : Scene} (hsame : again.tree = scene.tree) :
    ∃ id last, (analyze again changed).Runs after (.nothing id) last ∧ last.2 = after.2 ∧
      (id = a.outcome.snapshotId ↔ a.outcome.created = false ∨ ¬ History.Exhausted state.2) := by
  have hanalyzed := analyzed_of_runs h
  obtain ⟨s, hlatest, hid⟩ := hanalyzed.latest_after (life.catalogued hregular) hclock
  have hsettled : ∀ path, Names after.1.tracker.indexer.root changed path →
      after.1.tracker.indexer.Settled again.tree path :=
    fun path hnamed => hsame ▸ hanalyzed.settled htree hnamed
  obtain ⟨last, hrun, hstore⟩ := runs_analyze_of_settled hlatest hsettled
  exact ⟨s.id, last, hrun, hstore, hid⟩

theorem run_first (now : Int64) : Run "/p" Config.standard
    [⟨.snapshot (bare now), fresh⟩] ((first now).after fresh) := by
  exact (Run.opened (bare 1) fun _ => rfl).step _ rfl

theorem indexer_first (now : Int64) : ∃ dirty, ((first now).after fresh).1.tracker.indexer =
    (fresh.1.tracker.indexer.scanned (bare now).tree (bare now).now).marked
      dirty := by
  rw [first]
  exact indexer_after_snapshot (bare now) fresh

/-- A file that is created after the first snapshot is found. -/
theorem created_second {now : Int64} (hnow : now = 5 ∨ now = Snapshot.lastTime) {a : Analysis}
    {after : Engine × MemoryStore}
    (h : (analyze (begun 3) ["a.ts"]).Runs ((first now).after fresh) a after) :
    a.outcome.created = true := by
  obtain ⟨dirty, hix⟩ := indexer_first now
  have hfound : (((fresh.1.tracker.indexer.scanned (bare now).tree
      (bare now).now).marked dirty).passed (begun 3).tree (begun 3).now
        ["a.ts"]).outcome.isNoop = false := by
    -- What is stored of the index is not known here, and both cases can be evaluated.
    rcases hnow with rfl | rfl <;> cases dirty <;> decide +kernel
  cases analyzed_of_runs h with
  | first _ hout => rw [hout]
  | idle _ hnoop =>
    rw [hix] at hnoop
    cases hnoop
  | later _ _ _ _ _ hcreated => exact hcreated

/-- A file is created and analyzed twice, and the second analysis answers the snapshot of the first
    one. -/
theorem analyze_again_finds_nothing_begun : ∃ a after last,
    (analyze (begun 3) ["a.ts"]).Runs ((first 5).after fresh) a after ∧
      a.outcome.created = true ∧
      (analyze (begun 4) ["a.ts"]).Runs after (.nothing a.outcome.snapshotId) last ∧
      last.2 = after.2 := by
  obtain ⟨a, after, hrun⟩ := exists_runs_analyze (run_first 5) (begun 3) ["a.ts"]
  have hsame : (begun 4).tree = (begun 3).tree := rfl
  obtain ⟨id, last, hagain, hstore, hid⟩ := analyze_again_finds_nothing (life_fresh.did (first 5))
    (regular_first (by decide)) (by decide) (wellFormed_begun 3) hrun hsame
  have hfree : ¬ History.Exhausted ((first 5).after fresh).2 := by
    rw [exhausted_first_iff]
    decide +kernel
  rw [hid.mpr (.inr hfree)] at hagain
  exact ⟨a, after, last, hrun, created_second (.inl rfl) hrun, hagain, hstore⟩

/-- If the first snapshot has the last time of thirteen digits, then the second analysis answers it
    and not the snapshot of the first analysis. -/
theorem not_same_snapshot_at_last_time :
    Life [first Snapshot.lastTime] ((first Snapshot.lastTime).after fresh) ∧
      (∀ op ∈ [first Snapshot.lastTime], op.Regular) ∧ ∃ a after b last,
        (analyze (begun 3) ["a.ts"]).Runs ((first Snapshot.lastTime).after fresh) a after ∧
          (analyze (begun 3) ["a.ts"]).Runs after b last ∧
          b.outcome.snapshotId ≠ a.outcome.snapshotId := by
  have hlife := life_fresh.did (first Snapshot.lastTime)
  have hregular : ∀ op ∈ [first Snapshot.lastTime], op.Regular := regular_first (by decide)
  have hexhausted : History.Exhausted ((first Snapshot.lastTime).after fresh).2 := by
    rw [exhausted_first_iff]
    decide +kernel
  obtain ⟨a, after, hrun⟩ := exists_runs_analyze (run_first Snapshot.lastTime) (begun 3) ["a.ts"]
  have hcreated := created_second (.inr rfl) hrun
  have hanalyzed := analyzed_of_runs hrun
  obtain ⟨s, hlatest, hid⟩ := hanalyzed.latest_after (hlife.catalogued hregular) (by decide)
  obtain ⟨last, hagain, -⟩ := runs_analyze_of_settled hlatest
    fun path hnamed => hanalyzed.settled (wellFormed_begun 3) hnamed
  refine ⟨hlife, hregular, a, after, _, last, hrun, hagain, fun hsame => ?_⟩
  rcases hid.mp hsame with hidle | hfree
  · rw [hcreated] at hidle
    cases hidle
  · exact hfree hexhausted

end Engine

end Ripple
