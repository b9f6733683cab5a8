import Ripple.Proofs.Engine.Operations
import Ripple.Proofs.Engine.Previews

/-!
# New Snapshots Succeed the Others

A new snapshot is meant to come after all others, whatever the clock says: its
time is put after the time in the last id. Then it is the newest one, and the
next analysis builds on it.

The time in the last id says what it should only if the order of the ids is the
order of their times, and this is so as long as all times have thirteen digits.
A snapshot that is taken in from a file can have any id, and one that comes
after all digits stays the newest one for ever. If the ids that are taken in
have times that fit, there is still one way to fail: a snapshot with the last
time of thirteen digits has no successor.

## Theorems

* `Engine.Creates.added`: A new snapshot is added with a new id.
* `Engine.new_snapshot_succeeds_iff`: When a new snapshot succeeds the others.
* `Engine.not_succeeds_after_import`: After some imports it does not.
-/

namespace Ripple

open Store Job History

namespace Engine

variable {σ : Type} [BlobStore σ]

/-- A snapshot or an analysis goes through and stores a new snapshot with some id. -/
inductive Creates (scene : Scene) (before : Engine × σ) : String → Engine × σ → Prop
  /-- A snapshot is taken. -/
  | snapshot {s : Snapshot} {after : Engine × σ}
      (run : (createSnapshot scene).Runs before s after) : Creates scene before s.id after
  /-- An analysis takes a snapshot. -/
  | analysis {changed : List String} {a : Analysis} {after : Engine × σ}
      (run : (analyze scene changed).Runs before a after) (created : a.outcome.created = true) :
      Creates scene before a.outcome.snapshotId after

/-- A new snapshot comes after all others and takes their place. -/
structure Succeeds (before : Engine × σ) (id : String) (after : Engine × σ) : Prop where
  /-- Its id comes after all ids that were there. -/
  greater : ∀ found, ids before.2 = .ok found → ∀ other ∈ found, Ord.compare other id = .lt
  newest : ∃ s, latest after.2 = .ok (some s) ∧ s.id = id
  /-- The next analysis builds on it, whatever quiet operations come in between. -/
  builtOn : ∀ quiet : List Operation, (∀ op ∈ quiet, op.IsQuiet) →
    ∀ scene changed a last,
      (analyze scene changed).Runs (quiet.foldl (fun state op => op.after state) after) a last →
        a.outcome.previousId = some id

theorem Analyzed.previousId_eq {scene : Scene} {changed : List String} {state after : Engine × σ}
    {o : TrackOutcome} (h : Analyzed scene changed state o after) {s : Snapshot}
    (hlatest : latest state.2 = .ok (some s)) : o.previousId = some s.id := by
  cases h with
  | first hnone =>
    rw [hnone] at hlatest
    cases hlatest
  | idle hsome _ hout =>
    obtain rfl := Option.some.inj (Except.ok.inj (hsome.symm.trans hlatest))
    rw [hout]
  | later hsome _ _ _ hprev =>
    obtain rfl := Option.some.inj (Except.ok.inj (hsome.symm.trans hlatest))
    exact hprev

variable [AtomicStore σ]

theorem Creates.added {scene : Scene} {before after : Engine × σ} {id : String}
    (h : Creates scene before id after) {found : List String}
    (hfound : ids before.2 = .ok found) :
    ∃ s, s.id = id ∧ s.id = Snapshot.makeId (Tracker.timeAfter found scene.now) scene.salt ∧
      Added before.2 after.2 s := by
  cases h with
  | snapshot hrun =>
    obtain ⟨rfl, hadd, -⟩ := full_of_runs_createSnapshot hrun
    exact ⟨_, rfl, id_full hfound scene, hadd⟩
  | analysis hrun hcreated =>
    cases analyzed_of_runs hrun with
    | first _ hout hadd =>
      exact ⟨_, by rw [hout], id_full hfound scene, hadd⟩
    | idle _ _ hout =>
      rw [hout] at hcreated
      cases hcreated
    | later _ _ hpatch hid _ _ hadd =>
      subst hpatch
      exact ⟨_, hid.symm, id_patch hfound scene _ _, hadd⟩

/-- Let some operations be made on a store, with times of at most thirteen digits on the clock and
    in the ids that are taken in. A new snapshot then comes after all others, is the newest one and
    is what the next analysis builds on, exactly if no snapshot had the last time of thirteen
    digits. -/
theorem new_snapshot_succeeds_iff {past : List Operation} {state after : Engine × σ}
    (life : Life past state) (hregular : ∀ op ∈ past, op.Regular) {scene : Scene}
    (hclock : scene.now.toInt < 10 ^ 13) {id : String} (h : Creates scene state id after) :
    Succeeds state id after ↔ ¬ Exhausted state.2 := by
  have hcatalogued := life.catalogued hregular
  obtain ⟨found, hfound, -⟩ := ids_eq state.2
  obtain ⟨s, rfl, hid, hadded⟩ := h.added hfound
  constructor
  · intro hsucceeds hexhausted
    -- The snapshot with the last time is in the way: the new id comes before it.
    obtain ⟨previous, hmem, hbefore, -⟩ :=
      hcatalogued.latest_of_exhausted hfound hclock hid hadded hexhausted
    exact compare_lt_asymm hbefore (hsucceeds.greater found hfound previous.id hmem)
  · intro hfree
    have hlatest := hcatalogued.latest_of_new hfound hclock hid hadded hfree
    refine ⟨fun listed hlisted => ?_, ⟨s, hlatest, rfl⟩, ?_⟩
    · obtain rfl := Except.ok.inj (hfound.symm.trans hlisted)
      exact hcatalogued.lt_new hfound hclock hid hfree
    · intro quiet hquiet scene' changed a last hrun
      -- What comes in between keeps the newest snapshot, and an analysis builds on that one.
      have hafter := hcatalogued.of_grown hclock (.more hfound hid hadded)
      exact (analyzed_of_runs hrun).previousId_eq ((latest_of_quiet hquiet hafter).trans hlatest)

/-- The first snapshot is taken at some time. -/
def first (now : Int64) : Operation := .call (.snapshot (Tracker.bare now))

theorem life_fresh : Life [] fresh := .opened (Tracker.bare 1) "/p" Config.standard fun _ => rfl

theorem ids_first (now : Int64) : ids ((first now).after fresh).2 =
    .ok [Snapshot.makeId (Tracker.timeAfter [] now) "00000000"] :=
  ids_after_snapshot (ids_of_empty fun _ => rfl) (Tracker.bare now)

theorem exhausted_first_iff {now : Int64} : Exhausted ((first now).after fresh).2 ↔
    Snapshot.idTime? (Snapshot.makeId (Tracker.timeAfter [] now) "00000000") =
      some Snapshot.lastTime := by
  constructor
  · rintro ⟨found, hfound, id, hid, htime⟩
    obtain rfl := Except.ok.inj ((ids_first now).symm.trans hfound)
    rw [List.mem_singleton.mp hid] at htime
    exact htime
  · exact fun htime => ⟨_, ids_first now, _, List.mem_cons_self, htime⟩

theorem regular_first {now : Int64} (h : now.toInt < 10 ^ 13) : ∀ op ∈ [first now], op.Regular :=
  List.forall_mem_singleton.mpr h

/-- The clock goes back after the first snapshot, and the second one succeeds it all the same. But
    it does not if the first one has the last time of thirteen digits. -/
theorem new_snapshot_succeeds_iff_second : ∃ s after s' after',
    (createSnapshot (Tracker.begun 3)).Runs ((first 5).after fresh) s after ∧
      Succeeds ((first 5).after fresh) s.id after ∧
      (createSnapshot (Tracker.begun 3)).Runs ((first Snapshot.lastTime).after fresh) s' after' ∧
      ¬ Succeeds ((first Snapshot.lastTime).after fresh) s'.id after' := by
  obtain ⟨s, after, hrun⟩ := exists_runs_createSnapshot (Tracker.begun 3) ((first 5).after fresh)
  obtain ⟨s', after', hrun'⟩ :=
    exists_runs_createSnapshot (Tracker.begun 3) ((first Snapshot.lastTime).after fresh)
  refine ⟨s, after, s', after', hrun, ?_, hrun', ?_⟩
  · rw [new_snapshot_succeeds_iff (life_fresh.did (first 5)) (regular_first (by decide))
      (by decide) (.snapshot hrun), exhausted_first_iff]
    decide +kernel
  · rw [new_snapshot_succeeds_iff (life_fresh.did (first _)) (regular_first (by decide))
      (by decide) (.snapshot hrun'), exhausted_first_iff]
    decide +kernel

/-- A snapshot whose id is not one of a time. -/
def release : ExportedSnapshot :=
  ⟨exportVersion, "", ⟨"release", 1, .empty, .empty, .empty⟩, .none "release"⟩

/-- The file of this snapshot is taken in. -/
def taking : Operation := .take "release.json" (bytesOfJson release.toJson)

theorem added_taking : Added fresh.2 (taking.after fresh).2 release.snapshot := by
  have hplain : isPackedFile "release.json" = false := by decide +kernel
  have hread := readExported_file "release.json" (e := release) (by decide)
  exact added_after_take hread rfl

/-- A snapshot that is taken after an import does not come after the imported one, which stays the
    newest one. -/
theorem not_succeeds_after_import : Life [taking] (taking.after fresh) ∧ ∃ s after,
    (createSnapshot (Tracker.bare 5)).Runs (taking.after fresh) s after ∧
      latest after.2 = .ok (some release.snapshot) ∧
      ¬ Succeeds (taking.after fresh) s.id after := by
  refine ⟨life_fresh.did taking, ?_⟩
  have hids : ids (taking.after fresh).2 = .ok ["release"] :=
    ids_of_first (ids_of_empty fun _ => rfl) added_taking
  obtain ⟨s, after, hrun⟩ := exists_runs_createSnapshot (Tracker.bare 5) (taking.after fresh)
  obtain ⟨s', hs', hid, hadded⟩ := (Creates.snapshot hrun).added hids
  have hbefore : Ord.compare s'.id release.snapshot.id = .lt := by
    rw [hid]
    decide +kernel
  refine ⟨s, after, hrun, ?_, fun hsucceeds => ?_⟩
  · exact latest_of_added_before hids (fun id hmem => .inl (List.mem_singleton.mp hmem))
      (blob_of_added added_taking) hadded hbefore
  · have hafter := hsucceeds.greater _ hids "release" List.mem_cons_self
    rw [← hs'] at hafter
    exact compare_lt_asymm hbefore hafter

end Engine

end Ripple
