import Ripple.Proofs.Engine.Noted
import Ripple.Proofs.History.Catalogue
import Ripple.Proofs.History.Transfer

/-!
# The Life of a Store

Engines are not all that works on a store. Snapshots are tagged, taken in from
files, packed and removed in between, and the engine of today is not the one of
yesterday. Each of these operations may fail half way and leave behind what it
did until then.

Of all this a new snapshot needs only that the history is catalogued, and every
operation keeps it so, wherever it stops, as long as the clock and the ids that
are taken in have times with at most thirteen digits.

An analysis that goes through did one of three things: it took the first
snapshot, it found nothing, or it found changes to the newest snapshot.
-/

namespace Ripple

open Store Job History

namespace Engine

variable {σ : Type} [BlobStore σ]

/-- What is done with an engine and its store. -/
inductive Operation where
  /-- A call of the engine. -/
  | call (c : Call)
  /-- Tags are added to a snapshot. -/
  | tag (id : String) (tags : List String) (description : Option String)
  /-- Old snapshots are removed and others are packed. -/
  | maintain (scene : Scene)
  /-- The content of a file is taken in. -/
  | take (path : String) (content : ByteArray)
  /-- Another engine is opened on the store. -/
  | reopen (scene : Scene) (root : String) (config : Config)

namespace Operation

/-- What an operation does. -/
def perform : Operation → Job (Engine × σ) Unit
  | call c => c.perform
  | tag id tags description => do let _ ← Job.onSecond (History.tag id tags description)
  | maintain scene => do let _ ← Engine.maintain scene
  | take path content => do let _ ← Job.onSecond (importFrom path content)
  | reopen scene root config => modify fun (_, s) => (.ofStore scene s root config, s)

/-- The engine and the store after an operation, whether it went through or not. -/
def after (op : Operation) (state : Engine × σ) : Engine × σ := (op.perform.on state).2

/-- New snapshots get their times from a clock with at most thirteen digits, and those that are
    taken in have times that fit. -/
def Regular : Operation → Prop
  | call c => c.scene.now.toInt < 10 ^ 13
  | take path content =>
    ∀ e, readExported path content = .ok e → Snapshot.Regular e.snapshot.id
  | _ => True

/-- Operations that add no snapshot, whatever they find. -/
def IsQuiet : Operation → Prop
  | call (.scan _) => True
  | tag _ _ _ => True
  | maintain _ => True
  | reopen _ _ _ => True
  | _ => False

end Operation

/-- An engine and a store after some operations, the last one of which comes first. The first engine
    is opened on a store without values. -/
inductive Life : List Operation → Engine × σ → Prop
  | opened (scene : Scene) (root : String) (config : Config) {store : σ}
      (empty : ∀ key, blob? store key = none) :
      Life [] (Engine.ofStore scene store root config, store)
  | did {past : List Operation} {state : Engine × σ} (life : Life past state) (op : Operation) :
      Life (op :: past) (op.after state)

/-- What an analysis did that went through, by its outcome. -/
inductive Analyzed (scene : Scene) (changed : List String) (state : Engine × σ) (o : TrackOutcome)
    (after : Engine × σ) : Prop
  /-- There was no snapshot, and one of all files was taken. -/
  | first (latest : latest state.2 = .ok none)
      (outcome : o = ⟨(Call.full scene (core state)).id, none, true, true,
        (Call.full scene (core state)).files.keys, [], [], []⟩)
      (added : Added state.2 after.2 (Call.full scene (core state)))
      (indexer : ∃ dirty, after.1.tracker.indexer =
        (state.1.tracker.indexer.scanned scene.tree scene.now).marked dirty)
  /-- Nothing was found. -/
  | idle {previous : Snapshot} (latest : latest state.2 = .ok (some previous))
      (noop : (state.1.tracker.indexer.passed scene.tree scene.now changed).outcome.isNoop = true)
      (outcome : o = ⟨previous.id, some previous.id, false, false, [], [], [], []⟩)
      (agree : AgreeBelow Keys.snapshots state.2 after.2)
      (indexer : ∃ dirty, after.1.tracker.indexer =
        (state.1.tracker.indexer.passed scene.tree scene.now changed).indexer.marked dirty)
  /-- Changes to the newest snapshot were found. -/
  | later {previous s : Snapshot} (latest : latest state.2 = .ok (some previous))
      (change :
        (state.1.tracker.indexer.passed scene.tree scene.now changed).outcome.isNoop = false)
      (patch : Call.patch scene (core state) previous
        (state.1.tracker.indexer.passed scene.tree scene.now changed) = s)
      (id : o.snapshotId = s.id) (previousId : o.previousId = some previous.id)
      (created : o.created = true) (added : Added state.2 after.2 s)
      (indexer : ∃ dirty, after.1.tracker.indexer =
        (state.1.tracker.indexer.passed scene.tree scene.now changed).indexer.marked dirty)

section Ids

variable {found : List String}

variable {state : Tracker × σ}

theorem id_full (hfound : ids state.2 = .ok found) (scene : Scene) : (Call.full scene state).id =
      Snapshot.makeId (Tracker.timeAfter found scene.now) scene.salt := by
  rw [Call.full, hfound]
  rfl

theorem id_patch (hfound : ids state.2 = .ok found) (scene : Scene) (previous : Snapshot)
    (p : IndexPass) : (Call.patch scene state previous p).id =
      Snapshot.makeId (Tracker.timeAfter found scene.now) scene.salt := by
  rw [Call.patch, hfound]
  rfl

theorem id_draft (hfound : ids state.2 = .ok found) {c : Call} {s : Snapshot}
    (hdraft : c.draft? state = some s) :
    s.id = Snapshot.makeId (Tracker.timeAfter found c.scene.now) c.scene.salt := by
  rcases Call.draft_cases hdraft with rfl | ⟨previous, p, -, rfl⟩
  · exact id_full hfound c.scene
  · exact id_patch hfound c.scene previous p

end Ids

variable [AtomicStore σ]

variable {state : Engine × σ}

namespace Operation

theorem upkept_maintain (scene : Scene) (state : Engine × σ) :
    Upkept state.2 ((maintain scene).after state).2 := by
  have hends : (Engine.maintain scene).Ends state fun _ after =>
      Upkept state.2 after.2 :=
    ends_bind_of_runs (runs_get state) (ends_onSecond (ends_maintain _ _ _ state.2))
  exact hends.then_pure fun _ => ()

theorem agree_tag (id : String) (tags : List String) (description : Option String)
    (state : Engine × σ) :
    AgreeBelow Keys.snapshots state.2 ((tag id tags description).after state).2 := by
  have hends : (Job.onSecond (History.tag id tags description)).Ends state fun _ after =>
      AgreeBelow Keys.snapshots state.2 after.2 :=
    ends_onSecond (avoids_tag id tags description state.2)
  exact hends.then_pure fun _ => ()

omit [AtomicStore σ] in
theorem after_call (c : Call) (state : Engine × σ) :
    (call c).after state = Step.after ⟨c, state⟩ := rfl

/-- A quiet operation does no more to the snapshots than upkeep may do. -/
theorem upkept_of_quiet {op : Operation} (h : op.IsQuiet) (state : Engine × σ) :
    Upkept state.2 (op.after state).2 := by
  cases op with
  | call c =>
    cases c with
    | scan scene =>
      rcases (Step.mayLeave ⟨.scan scene, state⟩).history with hagree | ⟨s, hdraft, -⟩
      · exact History.upkept_of_agree hagree
      · cases hdraft
    | snapshot scene => exact h.elim
    | analyze scene changed => exact h.elim
  | tag id tags description =>
    exact upkept_of_agree (agree_tag id tags description state)
  | maintain scene => exact upkept_maintain scene state
  | take path content => exact h.elim
  | reopen scene root config => exact History.upkept_refl state.2

theorem catalogued_after {op : Operation} (hreg : op.Regular) {state : Engine × σ}
    (h : Catalogued state.2) : Catalogued (op.after state).2 := by
  cases op with
  | call c =>
    obtain ⟨found, hfound, -⟩ := ids_eq state.2
    -- A call that fails may still have stored its snapshot.
    rcases (Step.mayLeave ⟨c, state⟩).history with hagree | ⟨s, hdraft, hadd⟩
    · exact h.of_agree hagree
    · exact h.of_grown hreg (.more hfound (id_draft hfound hdraft) hadd)
  | tag id tags description => exact h.of_agree (agree_tag id tags description state)
  | maintain scene => exact h.of_upkept (upkept_maintain scene state)
  | take path content =>
    have hends : (Job.onSecond (importFrom path content)).Ends state fun _ after =>
        Catalogued after.2 := by
      refine ends_onSecond ((ends_importFrom path content state.2).imp ?_)
      rintro _ after (hagree | ⟨e, hread, hadd⟩)
      · exact h.of_agree hagree
      · exact h.of_taken (hreg e hread) hadd
    exact hends.then_pure fun _ => ()
  | reopen scene root config => exact h

end Operation

theorem latest_of_quiet {quiet : List Operation} (hquiet : ∀ op ∈ quiet, op.IsQuiet)
    (h : Catalogued state.2) :
    latest (quiet.foldl (fun state op => op.after state) state).2 = latest state.2 := by
  induction quiet generalizing state with
  | nil => rfl
  | cons op rest ih =>
    obtain ⟨hop, hrest⟩ := List.forall_mem_cons.mp hquiet
    have hupkept := Operation.upkept_of_quiet hop state
    -- Upkeep keeps the newest snapshot only where it can be read, so both are carried along.
    exact (ih hrest (h.of_upkept hupkept)).trans (h.latest_of_upkept hupkept)

/-- The history is catalogued after every operation. -/
theorem Life.catalogued {past : List Operation} (life : Life past state)
    (hreg : ∀ op ∈ past, op.Regular) : Catalogued state.2 := by
  induction life with
  | opened scene root config hempty => exact catalogued_of_empty hempty
  | did life op ih =>
    obtain ⟨hop, hpast⟩ := List.forall_mem_cons.mp hreg
    exact Operation.catalogued_after hop (ih hpast)

theorem indexer_after_snapshot (scene : Scene) (state : Engine × σ) :
    ∃ dirty, ((Operation.call (.snapshot scene)).after state).1.tracker.indexer =
      (state.1.tracker.indexer.scanned scene.tree scene.now).marked dirty :=
  (Step.mayLeave ⟨.snapshot scene, state⟩).indexer

omit [AtomicStore σ] in
theorem ids_after_snapshot [LawfulStore σ] (hempty : ids state.2 = .ok []) (scene : Scene) :
    ids ((Operation.call (.snapshot scene)).after state).2 =
      .ok [Snapshot.makeId (Tracker.timeAfter [] scene.now) scene.salt] := by
  have hadd : Added state.2 (Step.after ⟨.snapshot scene, state⟩).2
      (Call.full scene (core state)) := (Step.leaves ⟨.snapshot scene, state⟩).added _ rfl
  have hid : (Call.full scene (core state)).id = _ := id_full hempty scene
  rw [Operation.after_call, ids_of_first hempty hadd, hid]

omit [AtomicStore σ] in
/-- A snapshot that is taken in is added, if there is none with its id. -/
theorem added_after_take [LawfulStore σ] {path : String} {content : ByteArray}
    {e : ExportedSnapshot} (hread : readExported path content = .ok e)
    (hnew : contains state.2 e.snapshot.id = .ok false) :
    Added state.2 ((Operation.take path content).after state).2 e.snapshot := by
  obtain ⟨after, hrun, hadd⟩ := runs_importFrom hread hnew
  have htake : (Operation.take path content).perform.Runs state () (state.1, after) :=
    runs_bind (runs_onSecond hrun state.1) (runs_pure _ _)
  rw [Operation.after, show (Operation.take path content).perform.on state = _ from htake]
  exact hadd

section Analyses

variable {scene : Scene} {changed : List String} {state after : Engine × σ} {a : Analysis}

/-- An analysis that goes through did one of three things. -/
theorem analyzed_of_runs (h : (analyze scene changed).Runs state a after) :
    Analyzed scene changed state a.outcome after := by
  have htrack := (tracked_of_runs_analyze h).1
  obtain ⟨newest, hlatest⟩ := Tracker.latest_ok state.2
  cases newest with
  | none =>
    -- Without a snapshot the paths that are named do not matter.
    have hlook : (Job.onSecond (inspect fun s => latest s)).Runs (core state) none
        (core state) := runs_onSecond (runs_inspect hlatest) _
    rw [Tracker.track, runs_bind_of_runs hlook] at htrack
    obtain ⟨s, middle, htake, hpure⟩ := runs_bind_iff.mp htrack
    obtain ⟨hout, rfl⟩ := runs_pure_iff.mp hpure
    obtain ⟨hleft, hfiled⟩ := (ends_full scene (core state)).of_runs htake
    obtain ⟨rfl, hadd⟩ := hfiled.added_of_ok
    exact .first hlatest hout.symm hadd hleft.indexer
  | some previous =>
    obtain ⟨hleft, hnothing, hsomething⟩ :=
      (ends_patch scene changed (core state) hlatest rfl rfl).of_runs htrack
    cases hnoop :
      (state.1.tracker.indexer.passed scene.tree scene.now changed).outcome.isNoop with
    | true =>
      obtain ⟨hagree, hans⟩ := hnothing hnoop
      exact .idle hlatest hnoop (hans _ rfl) hagree hleft.indexer
    | false =>
      obtain ⟨hout, hadd⟩ := (hsomething hnoop).added_of_ok
      rw [hout]
      exact .later hlatest hnoop rfl rfl rfl rfl hadd hleft.indexer

end Analyses

end Engine

end Ripple
