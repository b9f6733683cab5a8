import Ripple.Engine
import Ripple.Proofs.Tracker.Steps

/-!
# Calls of an Engine

An engine is called for one project again and again, with the files of the
project changing in between in any way. Of what a call leaves behind two
things matter for the calls after it: the index in memory, and the snapshots
in the store.

What a call stores can be said beforehand. `Call.draft?` is the snapshot that
a call is going to store, made of the index and the newest snapshot as they
are before the call. Events, reports and the property graph come on top of
it, but they do not touch the index or the store, so all that an engine does
to the two is done by its tracker.

Every snapshot that can ever be read was the draft of some call. So what holds
of the draft of each call, as long as it holds of the newest snapshot before,
holds of every snapshot that is stored in the course of a run.
-/

namespace Ripple

open List Store Job History

namespace Engine

variable {σ : Type}

/-- What an engine keeps between snapshots, with its store. -/
def core (state : Engine × σ) : Tracker × σ := (state.1.tracker, state.2)

theorem keeps_publish (events : List Event) :
    Keeps core (publish events : Job (Engine × σ) Unit) := fun _ => rfl

theorem runs_publish (events : List Event) (state : Engine × σ) : (publish events).Runs state ()
    ({ state.1 with events := state.1.events.publishAll events }, state.2) := rfl

theorem keeps_look {α : Type} (read : σ → Except Error α) :
    Keeps core (look read : Job (Engine × σ) α) := fun _ => rfl

variable [BlobStore σ]

/-- A call of an engine. -/
inductive Call where
  /-- A look at all files. -/
  | scan (scene : Scene)
  /-- A snapshot of all files. -/
  | snapshot (scene : Scene)
  /-- An analysis of some files. -/
  | analyze (scene : Scene) (changed : List String)

namespace Call

/-- What the outside looks like at the time of a call. -/
def scene : Call → Scene
  | scan scene => scene
  | snapshot scene => scene
  | analyze scene _ => scene

/-- What a call does. -/
def perform : Call → Job (Engine × σ) Unit
  | scan scene => do let _ ← Engine.scan scene
  | snapshot scene => do let _ ← Engine.createSnapshot scene
  | analyze scene changed => do let _ ← Engine.analyze scene changed

/-- What a call does to what is kept between snapshots. -/
def track : Call → Job (Tracker × σ) Unit
  | scan scene => do let _ ← Tracker.scan scene
  | snapshot scene => do let _ ← Tracker.takeSnapshot scene
  | analyze scene changed => do let _ ← Tracker.track scene changed

/-- The snapshot of all files of a tree. -/
def full (scene : Scene) (state : Tracker × σ) : Snapshot :=
  let files := (state.1.indexer.scanned scene.tree scene.now).files
  Tracker.made scene ((ids state.2).toOption.getD []) state.1.maxDepth files
    (outlinesOf scene.tree files)

/-- The snapshot after a pass that found changes to the snapshot before. -/
def patch (scene : Scene) (state : Tracker × σ) (previous : Snapshot) (p : IndexPass) : Snapshot :=
  let impact := impactSet previous.graph p.outcome.changed state.1.maxDepth
  Tracker.made scene ((ids state.2).toOption.getD []) state.1.maxDepth p.indexer.files
    (Tracker.patched scene.tree previous p.indexer.files p.outcome impact.impacted)

/-- The snapshot that a call stores, if it stores one. -/
def draft? (state : Tracker × σ) : Call → Option Snapshot
  | scan _ => none
  | snapshot scene => some (full scene state)
  | analyze scene changed =>
    match latest state.2 with
    | .error _ => none
    | .ok none => some (full scene state)
    | .ok (some previous) =>
      let p := state.1.indexer.passed scene.tree scene.now changed
      if p.outcome.isNoop then none else some (patch scene state previous p)

/-- Something holds whenever a call makes a snapshot after changes: of the scene, of the snapshot
    before, and of what the pass found. -/
def WhenPatching (state : Tracker × σ) (Q : Scene → Snapshot → IndexPass → Prop) : Call → Prop
  | scan _ => True
  | snapshot _ => True
  | analyze scene changed => ∀ previous, latest state.2 = .ok (some previous) →
      let p := state.1.indexer.passed scene.tree scene.now changed
      p.outcome.isNoop = false → Q scene previous p

/-- The index after a call, up to the mark for what is not stored yet. -/
def indexed (state : Tracker × σ) : Call → Indexer
  | scan scene => state.1.indexer.scanned scene.tree scene.now
  | snapshot scene => state.1.indexer.scanned scene.tree scene.now
  | analyze scene changed =>
    match latest state.2 with
    | .error _ => state.1.indexer
    | .ok none => state.1.indexer.scanned scene.tree scene.now
    | .ok (some _) => (state.1.indexer.passed scene.tree scene.now changed).indexer

/-- What a call leaves behind. -/
structure Leaves (c : Call) (state after : Tracker × σ) : Prop where
  maxDepth : after.1.maxDepth = state.1.maxDepth
  indexer : ∃ dirty, after.1.indexer = (c.indexed state).marked dirty
  /-- If there is no draft then the snapshots stay. -/
  stays : c.draft? state = none → AgreeBelow Keys.snapshots state.2 after.2
  /-- If there is a draft then it is added. -/
  added : ∀ s, c.draft? state = some s → Added state.2 after.2 s

/-- How a job ends that does what a call does, whether it goes through or not. -/
structure EndsWith {α : Type} (c : Call) (state : Tracker × σ) (result : Except Error α)
    (after : Tracker × σ) : Prop where
  left : state.1.Left (c.indexed state) after.1
  stays : c.draft? state = none → AgreeBelow Keys.snapshots state.2 after.2
  /-- If there is a draft then it is added, or that fails. -/
  filed : ∀ s, c.draft? state = some s → ∃ answer, Filed state.2 s answer result after.2

section Ending

variable {α β : Type} {c : Call} {state after : Tracker × σ} {result : Except Error α}

theorem EndsWith.of_agree (hleft : state.1.Left (c.indexed state) after.1)
    (hdraft : c.draft? state = none) (hagree : AgreeBelow Keys.snapshots state.2 after.2) :
    c.EndsWith state result after where
  left := hleft
  stays _ := hagree
  filed _ hs := nomatch hdraft.symm.trans hs

theorem EndsWith.of_filed {s : Snapshot} {answer : α}
    (hleft : state.1.Left (c.indexed state) after.1) (hdraft : c.draft? state = some s)
    (hfiled : Filed state.2 s answer result after.2) : c.EndsWith state result after where
  left := hleft
  stays hnone := nomatch hdraft.symm.trans hnone
  filed _ hs := ⟨answer, Option.some.inj (hdraft.symm.trans hs) ▸ hfiled⟩

theorem EndsWith.then_pure {job : Job (Tracker × σ) α}
    (h : job.Ends state fun result after => c.EndsWith state result after) (f : α → β) :
    (job >>= fun a => pure (f a)).Ends state fun result after => c.EndsWith state result after := by
  refine ends_bind h (fun e after hends => ⟨hends.left, hends.stays, fun s hs => ?_⟩)
    fun a after hends => ⟨hends.left, hends.stays, fun s hs => ?_⟩
  · obtain ⟨answer, hfiled⟩ := hends.filed s hs
    exact ⟨f answer, .failed hfiled.agree_of_error⟩
  · obtain ⟨answer, hfiled⟩ := hends.filed s hs
    exact ⟨f a, .stored hfiled.added_of_ok.2⟩

end Ending

end Call

section Core

theorem keeps_analyzeSnapshot (previousId : String) (current : Snapshot) :
    Keeps core (analyzeSnapshot previousId current : Job (Engine × σ) (List ChangeReport)) := by
  refine keeps_bind (keeps_look _) fun previous => keeps_bind keeps_get fun state => ?_
  refine keeps_bind (keeps_publish _) fun _ => ?_
  exact keeps_bind (keeps_modify fun _ => rfl) fun _ => keeps_pure _

/-- What an analysis does after the files were looked at. -/
theorem keeps_analyze_rest (outcome : TrackOutcome) : Keeps core (do
      if !outcome.created then return ⟨outcome, []⟩
      else
        let current ← look fun s => load s outcome.snapshotId
        publish [createdEvent current]
        match outcome.previousId with
        | none => return ⟨outcome, []⟩
        | some previousId => return ⟨outcome, ← analyzeSnapshot previousId current⟩ :
      Job (Engine × σ) Analysis) := by
  split
  · exact keeps_pure _
  · refine keeps_bind (keeps_look _) fun current => keeps_bind (keeps_publish _) fun _ => ?_
    split
    · exact keeps_pure _
    · exact keeps_bind (keeps_analyzeSnapshot _ _) fun _ => keeps_pure _

/-- What an engine does to the index and the store is done by its tracker. -/
theorem core_perform (c : Call) (state : Engine × σ) :
    core (c.perform.on state).2 = (c.track.on (core state)).2 := by
  cases c with
  | scan scene =>
    refine (part_on_bind core _ (fun _ => keeps_pure _) state).trans ?_
    exact (part_on_bind id (Tracker.scan scene) (fun _ => keeps_pure _) (core state)).symm
  | snapshot scene =>
    refine (part_on_bind core _ (fun _ => keeps_pure _) state).trans ?_
    refine Eq.trans ?_ (part_on_bind id (Tracker.takeSnapshot scene) (fun _ => keeps_pure _)
      (core state)).symm
    exact part_on_bind core _ (fun _ => keeps_bind (keeps_publish _) fun _ => keeps_pure _) state
  | analyze scene changed =>
    refine (part_on_bind core _ (fun _ => keeps_pure _) state).trans ?_
    refine Eq.trans ?_ (part_on_bind id (Tracker.track scene changed) (fun _ => keeps_pure _)
      (core state)).symm
    -- The changes are announced before the tracker looks at them, which it does not notice.
    rw [analyze, on_bind_of_runs (runs_get state)]
    rw [on_bind_of_runs (runs_publish _ state)]
    exact part_on_bind core _ keeps_analyze_rest _

end Core

/-- A call, with what it is made on. -/
structure Step (σ : Type) where
  /-- The call. -/
  call : Call
  /-- The engine and the store before the call. -/
  before : Engine × σ

/-- The engine and the store after a call. -/
def Step.after (step : Step σ) : Engine × σ := (step.call.perform.on step.before).2

/-- An engine and a store after some calls, the last one of which comes first. The engine is opened
    on a store without values, and calls may come in any order. -/
inductive Run (root : String) (config : Config) : List (Step σ) → Engine × σ → Prop
  | opened (scene : Scene) {store : σ} (empty : ∀ key, blob? store key = none) :
      Run root config [] (Engine.ofStore scene store root config, store)
  | called {past : List (Step σ)} {state : Engine × σ} (run : Run root config past state)
      (c : Call) : Run root config (⟨c, state⟩ :: past) (c.perform.on state).2

theorem Run.step {root : String} {config : Config} {past : List (Step σ)} {state : Engine × σ}
    (run : Run root config past state) (step : Step σ) (h : step.before = state) :
    Run root config (step :: past) step.after := by
  subst h
  exact run.called step.call

/-- An engine goes by a configuration. -/
structure Follows (config : Config) (e : Engine) : Prop where
  maxDepth : e.tracker.maxDepth = config.maxDepth.toNat
  kind : e.tracker.indexer.registry.kind = config.digest

namespace Call

section Newest

variable {state : Tracker × σ} (scene : Scene) (changed : List String) {previous : Snapshot}

theorem draft_analyze_of_none (h : latest state.2 = .ok none) :
    (analyze scene changed).draft? state = some (full scene state) := by
  simp only [draft?, h]

theorem draft_analyze_of_some (h : latest state.2 = .ok (some previous)) :
    (analyze scene changed).draft? state =
      if (state.1.indexer.passed scene.tree scene.now changed).outcome.isNoop = true then none
      else some (patch scene state previous
        (state.1.indexer.passed scene.tree scene.now changed)) := by
  simp only [draft?, h]

theorem indexed_analyze_of_none (h : latest state.2 = .ok none) :
    (analyze scene changed).indexed state = state.1.indexer.scanned scene.tree scene.now := by
  simp only [indexed, h]

theorem indexed_analyze_of_some (h : latest state.2 = .ok (some previous)) :
    (analyze scene changed).indexed state =
      (state.1.indexer.passed scene.tree scene.now changed).indexer := by
  simp only [indexed, h]

/-- What a call stores is a snapshot of all files, or one after changes. -/
theorem draft_cases {c : Call} {s : Snapshot} (h : c.draft? state = some s) :
    s = full c.scene state ∨ ∃ previous p, latest state.2 = .ok (some previous) ∧
      s = patch c.scene state previous p := by
  cases c with
  | scan scene => cases h
  | snapshot scene => exact .inl (Option.some.inj h).symm
  | analyze scene changed =>
    dsimp only [draft?] at h
    split at h
    · cases h
    · exact .inl (Option.some.inj h).symm
    · next previous hlatest =>
      split at h
      · cases h
      · exact .inr ⟨previous, _, hlatest, (Option.some.inj h).symm⟩

/-- The index after a call is that of all files, or that after a look at some of them, or the one
    before if the newest snapshot cannot be had. -/
theorem indexed_cases (c : Call) (state : Tracker × σ) :
    c.indexed state = state.1.indexer.scanned c.scene.tree c.scene.now ∨
      (∃ changed, c.indexed state =
        (state.1.indexer.passed c.scene.tree c.scene.now changed).indexer) ∨
      c.indexed state = state.1.indexer := by
  cases c with
  | scan scene => exact .inl rfl
  | snapshot scene => exact .inl rfl
  | analyze scene changed =>
    dsimp only [indexed]
    split
    · exact .inr (.inr rfl)
    · exact .inl rfl
    · exact .inr (.inl ⟨changed, rfl⟩)

/-- What holds whenever a snapshot after changes is made holds of the one that is made. -/
theorem whenPatching_analyze_iff {Q : Scene → Snapshot → IndexPass → Prop}
    (h : latest state.2 = .ok (some previous)) {p : IndexPass}
    (hp : state.1.indexer.passed scene.tree scene.now changed = p)
    (hchange : p.outcome.isNoop = false) :
    (analyze scene changed).WhenPatching state Q ↔ Q scene previous p := by
  subst hp
  constructor
  · intro hall
    exact hall previous h hchange
  · intro hq other hother _ _
    rw [← Option.some.inj (Except.ok.inj (h.symm.trans hother))]
    exact hq

end Newest

theorem kind_indexed (c : Call) (state : Tracker × σ) :
    (c.indexed state).registry.kind = state.1.indexer.registry.kind := by
  rcases c.indexed_cases state with heq | ⟨changed, heq⟩ | heq
  · rw [heq]
    exact HashRegistry.kind_foldl_update _ _
  · rw [heq]
    exact (IndexPass.sameSettings_foldl c.scene.tree c.scene.now changed _).kind
  · rw [heq]

end Call

section Leaving

open Tracker

variable [AtomicStore σ]

/-- A snapshot of all files is added or that fails. -/
theorem ends_full (scene : Scene) (state : Tracker × σ) :
    (takeSnapshot scene).Ends state fun result after =>
      state.1.Left (state.1.indexer.scanned scene.tree scene.now) after.1 ∧
        Filed state.2 (Call.full scene state) (Call.full scene state) result after.2 := by
  obtain ⟨ids, hids, -⟩ := ids_eq state.2
  refine ends_takeSnapshot scene state.1 state.2 hids ?_
  rw [Call.full, hids]
  rfl

/-- How a look at changed files ends: the snapshots stay if nothing was found, and otherwise a patch
    is added or that fails. -/
theorem ends_patch (scene : Scene) (changed : List String) (state : Tracker × σ)
    {previous : Snapshot} (hlatest : latest state.2 = .ok (some previous)) {p : IndexPass}
    (hp : state.1.indexer.passed scene.tree scene.now changed = p) {impact : ImpactSet}
    (himpact : impactSet previous.graph p.outcome.changed state.1.maxDepth = impact) :
    (track scene changed).Ends state fun result after => state.1.Left p.indexer after.1 ∧
      (p.outcome.isNoop = true → AgreeBelow Keys.snapshots state.2 after.2 ∧
        ∀ o, result = .ok o → o = ⟨previous.id, some previous.id, false, false, [], [], [], []⟩) ∧
      (p.outcome.isNoop = false → Filed state.2 (Call.patch scene state previous p)
        ⟨(Call.patch scene state previous p).id, some previous.id, false, true,
          p.outcome.updated, p.outcome.removed, impact.impacted, impact.circular⟩ result
            after.2) := by
  obtain ⟨ids, hids, -⟩ := ids_eq state.2
  refine ends_track_of_some scene changed state.1 hids hlatest hp himpact ?_
  rw [Call.patch, hids, himpact]
  rfl

/-- A call ends as its draft says. -/
theorem endsWith_track (c : Call) (state : Tracker × σ) :
    c.track.Ends state fun result after => c.EndsWith state result after := by
  cases c with
  | scan scene =>
    have hscan := Indexer.ends_scan scene.tree scene.now state.1.indexer state.2
    refine Call.EndsWith.then_pure (ends_bind (ends_onIndexer hscan) ?_ ?_) _
    · rintro e ⟨_, after⟩ ⟨ix, hstored, rfl⟩
      exact .of_agree ⟨hstored.indexer, rfl⟩ rfl hstored.agree
    · rintro _ ⟨_, after⟩ ⟨ix, hstored, rfl⟩
      exact ends_bind_of_runs (runs_get _) (.of_agree ⟨hstored.indexer, rfl⟩ rfl hstored.agree)
  | snapshot scene =>
    have hends : (takeSnapshot scene).Ends state fun result after =>
        (Call.snapshot scene).EndsWith state result after :=
      (ends_full scene state).imp fun _ _ h => .of_filed h.1 rfl h.2
    exact Call.EndsWith.then_pure hends _
  | analyze scene changed =>
    refine Call.EndsWith.then_pure ?_ _
    obtain ⟨newest, hlatest⟩ := latest_ok state.2
    cases newest with
    | none =>
      refine ends_bind_of_runs (runs_onSecond (runs_inspect hlatest) state.1) ?_
      refine Call.EndsWith.then_pure ((ends_full scene state).imp fun _ _ h => ?_) _
      rw [← Call.indexed_analyze_of_none scene changed hlatest] at h
      exact .of_filed h.1 (Call.draft_analyze_of_none _ _ hlatest) h.2
    | some previous =>
      have hdraft := Call.draft_analyze_of_some scene changed hlatest
      refine (ends_patch scene changed state hlatest rfl rfl).imp fun _ _ h => ?_
      rw [← Call.indexed_analyze_of_some scene changed hlatest] at h
      cases hnoop : (state.1.indexer.passed scene.tree scene.now changed).outcome.isNoop with
      | true => exact .of_agree h.1 (hdraft.trans (if_pos hnoop)) (h.2.1 hnoop).1
      | false =>
        rw [hnoop] at hdraft
        exact .of_filed h.1 hdraft (h.2.2 hnoop)

end Leaving

variable [LawfulStore σ]

/-- A snapshot of all files goes through and is added. -/
theorem runs_full (scene : Scene) (state : Tracker × σ) :
    ∃ t' after, (Tracker.takeSnapshot scene).Runs state (Call.full scene state) (t', after) ∧
      state.1.Left (state.1.indexer.scanned scene.tree scene.now) t' ∧
      Added state.2 after (Call.full scene state) := by
  obtain ⟨s, ⟨t', after⟩, hrun, hleft, hfiled⟩ :=
    (ends_full scene state).exists_runs (Tracker.sure_takeSnapshot scene)
  obtain ⟨rfl, hadd⟩ := hfiled.added_of_ok
  exact ⟨t', after, hrun, hleft, hadd⟩

theorem sure_track (c : Call) : Sure (c.track : Job (Tracker × σ) Unit) := by
  cases c with
  | scan scene =>
    refine sure_bind (sure_bind (sure_inside (Indexer.sure_scan _ _)) fun _ => ?_) fun _ =>
      sure_pure _
    exact sure_bind sure_get fun _ => sure_pure _
  | snapshot scene => exact sure_bind (Tracker.sure_takeSnapshot scene) fun _ => sure_pure _
  | analyze scene changed => exact sure_bind (Tracker.sure_track scene changed) fun _ => sure_pure _

theorem leaves_track (c : Call) (state : Tracker × σ) : c.Leaves state (c.track.on state).2 := by
  obtain ⟨_, after, hrun, hends⟩ := (endsWith_track c state).exists_runs (sure_track c)
  rw [show (c.track.on state).2 = after from congrArg Prod.snd hrun]
  refine ⟨hends.left.maxDepth, hends.left.indexer, hends.stays, fun s hs => ?_⟩
  obtain ⟨_, hfiled⟩ := hends.filed s hs
  exact hfiled.added_of_ok.2

/-- What a call stores is in order iff it is whenever a snapshot after changes is made, if snapshots
    of all files always are. -/
theorem forall_draft_iff {P : Snapshot → Prop} {Q : Scene → Snapshot → IndexPass → Prop} (c : Call)
    (state : Tracker × σ) (hfull : P (Call.full c.scene state))
    (hpatch : ∀ changed previous p, latest state.2 = .ok (some previous) →
      state.1.indexer.passed c.scene.tree c.scene.now changed = p →
        (P (Call.patch c.scene state previous p) ↔ Q c.scene previous p)) :
    (∀ s, c.draft? state = some s → P s) ↔ c.WhenPatching state Q := by
  cases c with
  | scan scene => exact iff_of_true (fun _ hs => nomatch hs) trivial
  | snapshot scene => exact iff_of_true (fun s hs => Option.some.inj hs ▸ hfull) trivial
  | analyze scene changed =>
    obtain ⟨newest, hlatest⟩ := Tracker.latest_ok state.2
    cases newest with
    | none =>
      rw [Call.draft_analyze_of_none scene changed hlatest]
      refine iff_of_true (fun s hs => Option.some.inj hs ▸ hfull) fun previous hprev => ?_
      exact nomatch hlatest.symm.trans hprev
    | some previous =>
      rw [Call.draft_analyze_of_some scene changed hlatest]
      have hsame := hpatch changed previous _ hlatest rfl
      constructor
      · intro hall other hother p hchange
        obtain rfl : previous = other := Option.some.inj (Except.ok.inj (hlatest.symm.trans hother))
        exact hsame.mp (hall _ (if_neg (Bool.eq_false_iff.mp hchange)))
      · intro hpatching s hs
        split at hs
        · exact nomatch hs
        · next hchange =>
          rw [← Option.some.inj hs]
          exact hsame.mpr (hpatching previous hlatest (Bool.eq_false_iff.mpr hchange))

section Steps

variable {root : String} {config : Config} {past : List (Step σ)} {state : Engine × σ}

theorem Step.leaves (step : Step σ) : step.call.Leaves (core step.before) (core step.after) := by
  rw [Step.after, core_perform]
  exact leaves_track step.call (core step.before)

/-- The index after a call, up to the mark for what is not stored yet. -/
theorem Step.indexer_after (step : Step σ) : ∃ dirty, step.after.1.tracker.indexer =
    (step.call.indexed (core step.before)).marked dirty :=
  step.leaves.indexer

/-- A call that has no draft leaves the newest snapshot as it is. -/
theorem Step.latest_after (step : Step σ) (h : step.call.draft? (core step.before) = none) :
    latest step.after.2 = latest step.before.2 :=
  latest_congr (step.leaves.stays h)

/-- What can be read after a call is its draft, and what could be read before. -/
theorem Step.forall_load_after {P : Snapshot → Prop} (step : Step σ)
    (h : ∀ id s, load step.before.2 id = .ok s → P s) :
    (∀ id s, load step.after.2 id = .ok s → P s) ↔
      ∀ s, step.call.draft? (core step.before) = some s → P s := by
  cases hdraft : step.call.draft? (core step.before) with
  | none =>
    refine ⟨fun _ _ hs => absurd hs (Option.some_ne_none _).symm, fun _ id s hload => ?_⟩
    exact h id s ((load_of_agree (step.leaves.stays hdraft)).mp hload)
  | some draft =>
    -- The draft hides nothing but an earlier snapshot with its own id.
    have hafter := load_of_added (step.leaves.added draft hdraft)
    constructor
    · rintro hall s ⟨⟩
      exact hall draft.id draft ((hafter draft.id draft).mpr (.inl ⟨rfl, rfl⟩))
    · intro hs id s hload
      rcases (hafter id s).mp hload with ⟨-, rfl⟩ | ⟨-, hpre⟩
      · exact hs s rfl
      · exact h id s hpre

theorem follows_after (step : Step σ) (h : Follows config step.before.1) :
    Follows config step.after.1 := by
  obtain ⟨dirty, hix⟩ := step.leaves.indexer
  refine ⟨step.leaves.maxDepth.trans h.maxDepth, ?_⟩
  have hkind : (core step.after).1.indexer.registry.kind =
      (core step.before).1.indexer.registry.kind := by
    rw [hix]
    exact step.call.kind_indexed (core step.before)
  exact hkind.trans h.kind

theorem Run.follows (run : Run root config past state) :
    Follows config state.1 ∧ ∀ step ∈ past, Follows config step.before.1 := by
  induction run with
  | opened scene hempty => exact ⟨⟨rfl, rfl⟩, fun step hstep => absurd hstep not_mem_nil⟩
  | @called past state run c ih =>
    refine ⟨follows_after ⟨c, state⟩ ih.1, fun step hstep => ?_⟩
    rcases mem_cons.mp hstep with rfl | hpast
    · exact ih.1
    · exact ih.2 step hpast

theorem Run.exists_load (run : Run root config past state) {id : String} {s : Snapshot}
    (h : load state.2 id = .ok s) :
    ∃ step ∈ past, load step.after.2 id = .ok s := by
  cases run with
  | opened scene hempty => exact nomatch (load_of_empty hempty id).symm.trans h
  | called run c => exact ⟨_, mem_cons_self, h⟩

/-- Something holds of all snapshots that are stored in a run iff each call does its part, if the
    part of a call is to see to its draft, given that the newest snapshot is in order. -/
theorem Run.forall_load_iff (run : Run root config past state) {P : Snapshot → Prop}
    {Q : Step σ → Prop} (h : ∀ step ∈ past,
      (∀ previous, latest step.before.2 = .ok (some previous) → P previous) →
        ((∀ s, step.call.draft? (core step.before) = some s → P s) ↔ Q step)) :
    (∀ step ∈ past, ∀ id s, load step.after.2 id = .ok s → P s) ↔ ∀ step ∈ past, Q step := by
  induction run with
  | opened scene hempty =>
    exact iff_of_true (fun _ hstep => absurd hstep not_mem_nil)
      fun _ hstep => absurd hstep not_mem_nil
  | @called past state run c ih =>
    have hpast := ih fun step hstep => h step (mem_cons_of_mem _ hstep)
    rw [forall_mem_cons, forall_mem_cons, and_comm, and_comm (a := Q _), hpast]
    refine and_congr_right fun hall => ?_
    -- What can be read before the call comes from the calls before it, the newest one included.
    have hpre : ∀ id s, load state.2 id = .ok s → P s := by
      intro id s hload
      obtain ⟨step, hstep, hafter⟩ := run.exists_load hload
      exact hpast.mpr hall step hstep id s hafter
    refine (Step.forall_load_after ⟨c, state⟩ hpre).trans
      (h ⟨c, state⟩ mem_cons_self fun previous hlatest => ?_)
    obtain ⟨id, hload⟩ := exists_load_of_latest hlatest
    exact hpre id previous hload

end Steps

end Engine

end Ripple
