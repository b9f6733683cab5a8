import Ripple.Proofs.Engine.Faithful
import Ripple.Proofs.Engine.Interrupted

/-!
# Changes That Are Noted

An analysis that is told of a changed file is expected to take note of the
change: to store a snapshot that has the file as it is now, and to report it.
Changed means here that the file is not as the newest snapshot has it.

But a pass compares files with the index and not with the newest snapshot, and
the index can be ahead of it, after a scan or after a call that failed. Then
the pass finds nothing, no snapshot is stored and nothing is reported, however
often the file is named, until it is written again. And if the pass finds some
other file changed then a snapshot is stored, but the file is only reported if
its outline is made afresh, and is made for another digest than the outline
before.

So there are three conditions for a change to be noted, and they are exactly
what it takes. They hold if the index knows the file as the newest snapshot
has it, the time of the file has moved since, and the outline in the newest
snapshot is of the content that the snapshot says.
-/

namespace Ripple

open Store Job IndexPass History

namespace Engine

variable {σ : Type} [BlobStore σ]

/-- An analysis takes note of a file that is not as the newest snapshot has it. -/
structure TakesNote (a : Analysis) (after : σ) (previous : Snapshot) (path : String)
    (hash : Option String) : Prop where
  created : a.outcome.created = true
  fresh : a.outcome.snapshotId ≠ previous.id
  /-- It has the file with the digest that the file has. -/
  recorded : ∃ s, load after a.outcome.snapshotId = .ok s ∧ s.hash? path = hash
  reported : ∃ r ∈ a.reports, r.path = path

/-- What it takes for a change of a file to be noted. -/
structure Heeds (t : Tracker) (scene : Scene) (changed : List String) (previous : Snapshot)
    (path : String) : Prop where
  /-- One of the files that are named is noticed. -/
  noticed : ∃ other, Names t.indexer.root changed other ∧ t.indexer.Notices scene.tree other
  /-- The file is noticed, or the index knows it as it is. -/
  present : t.indexer.Notices scene.tree path ∨
    t.indexer.hash? path = scene.tree.hash? t.indexer.registry.kind path
  /-- If the newest snapshot has an outline of the file then a new one is made for another digest,
      or the file is gone. -/
  outlined : ∀ o, previous.outlines.get? path = some o →
    scene.tree.hash? t.indexer.registry.kind path ≠ none →
      path ∈ remade previous (t.indexer.passed scene.tree scene.now changed) t.maxDepth ∧
        some o.hash ≠ scene.tree.hash? t.indexer.registry.kind path

/-- The index agrees with the newest snapshot about a file whose time has moved. -/
structure InLine (ix : Indexer) (tree : FileTree) (previous : Snapshot) (path : String) :
    Prop where
  /-- The index knows the file as the newest snapshot has it. -/
  known : ix.hash? path = previous.hash? path
  /-- The file has another time than the one that is known. -/
  moved : ∀ content time, tree.file? path = some (content, time) → ix.times.get? path ≠ some time
  /-- The outline in the newest snapshot is for the digest that the snapshot has of the file. -/
  outline : ∀ o, previous.outlines.get? path = some o → some o.hash = previous.hash? path

section Answers

/-- What an analysis answers, by what came of looking at the files. -/
structure Answers (a : Analysis) (after : σ) : Prop where
  /-- If no snapshot was taken then nothing is reported. -/
  idle : a.outcome.created = false → a.reports = []
  /-- Otherwise the new snapshot is compared with the one before. -/
  compared : a.outcome.created = true → ∀ id, a.outcome.previousId = some id →
    ∃ old new weight graph, load after id = .ok old ∧
      load after a.outcome.snapshotId = .ok new ∧ a.reports = old.reports new weight (some graph)

variable {state after : Engine × σ}

omit [BlobStore σ] in
theorem runs_look_iff {α : Type} {read : σ → Except Error α} {a : α} :
    (look read).Runs state a after ↔ read state.2 = .ok a ∧ state = after := by
  constructor
  · intro h
    obtain ⟨hread, hstate⟩ := Prod.mk.inj h
    exact ⟨hread, hstate⟩
  · rintro ⟨hread, rfl⟩
    exact runs_onSecond (runs_inspect hread) state.1

omit [BlobStore σ] in
theorem runs_of_runs_onTracker {α : Type} {job : Job (Tracker × σ) α} {a : α}
    (h : (onTracker job).Runs state a after) : job.Runs (core state) a (core after) := by
  obtain ⟨hres, hstate⟩ := Prod.mk.inj h
  exact Prod.ext hres (congrArg core hstate)

/-- The reports on a new snapshot come from a comparison with the one before. -/
theorem reports_of_runs_analyzeSnapshot {id : String} {new : Snapshot} {reports : List ChangeReport}
    (h : (analyzeSnapshot id new).Runs state reports after) :
    ∃ old weight graph, load state.2 id = .ok old ∧
      reports = old.reports new weight (some graph) := by
  obtain ⟨old, _, hlook, hrest⟩ := runs_bind_iff.mp h
  obtain ⟨hload, rfl⟩ := runs_look_iff.mp hlook
  obtain ⟨_, _, hget, hrest⟩ := runs_bind_iff.mp hrest
  obtain ⟨rfl, rfl⟩ := runs_get_iff.mp hget
  -- What is published and kept in memory does not matter for the answer.
  obtain ⟨_, _, -, hrest⟩ := runs_bind_iff.mp hrest
  obtain ⟨_, _, -, hrest⟩ := runs_bind_iff.mp hrest
  exact ⟨old, _, _, hload, (runs_pure_iff.mp hrest).1.symm⟩

/-- What an analysis answers and leaves behind comes from a look at the files. -/
theorem tracked_of_runs_analyze {scene : Scene} {changed : List String} {a : Analysis}
    (h : (analyze scene changed).Runs state a after) :
    (Tracker.track scene changed).Runs (core state) a.outcome (core after) ∧ Answers a after.2 := by
  obtain ⟨_, _, hget, hrest⟩ := runs_bind_iff.mp h
  obtain ⟨rfl, rfl⟩ := runs_get_iff.mp hget
  obtain ⟨_, announced, hpublish, hrest⟩ := runs_bind_iff.mp hrest
  obtain ⟨outcome, tracked, htrack, hrest⟩ := runs_bind_iff.mp hrest
  -- Before and after the look at the files nothing is done to the index and the store.
  have hstart : core announced = core state := (keeps_publish _).of_runs hpublish
  have hend : core after = core tracked := (keeps_analyze_rest outcome).of_runs hrest
  have hstore : tracked.2 = after.2 := (congrArg Prod.snd hend).symm
  have hrun := runs_of_runs_onTracker htrack
  rw [hstart, ← hend] at hrun
  cases hcreated : outcome.created with
  | false =>
    simp only [hcreated, Bool.not_false, if_true] at hrest
    obtain ⟨rfl, -⟩ := runs_pure_iff.mp hrest
    exact ⟨hrun, fun _ => rfl, fun hnew => nomatch hcreated.symm.trans hnew⟩
  | true =>
    simp only [hcreated, Bool.not_true, Bool.false_eq_true, if_false] at hrest
    obtain ⟨new, _, hlook, hrest⟩ := runs_bind_iff.mp hrest
    obtain ⟨hload, rfl⟩ := runs_look_iff.mp hlook
    obtain ⟨_, told, hpublish, hrest⟩ := runs_bind_iff.mp hrest
    have hsame : core told = core tracked := (keeps_publish _).of_runs hpublish
    have htold : told.2 = tracked.2 := (congrArg Prod.snd hsame.symm).symm
    rw [hstore] at hload htold
    split at hrest
    next hnone =>
      obtain ⟨rfl, -⟩ := runs_pure_iff.mp hrest
      exact ⟨hrun, fun _ => rfl, fun _ id hid => nomatch hnone.symm.trans hid⟩
    next previousId hsome =>
      obtain ⟨reports, _, hanalyze, hrest⟩ := runs_bind_iff.mp hrest
      obtain ⟨rfl, -⟩ := runs_pure_iff.mp hrest
      obtain ⟨old, weight, graph, hold, hreports⟩ := reports_of_runs_analyzeSnapshot hanalyze
      rw [htold] at hold
      have hnew : outcome.created ≠ false := Bool.ne_false_iff.mpr hcreated
      refine ⟨hrun, fun hidle => absurd hidle hnew, fun _ id hid => ?_⟩
      obtain rfl : previousId = id := Option.some.inj (hsome.symm.trans hid)
      exact ⟨old, new, weight, graph, hold, hload, hreports⟩

end Answers

section Patch

variable {t : Tracker} {store : σ} {scene : Scene} {changed : List String} {previous : Snapshot}
  {path : String}

/-- A snapshot after changes has a file that is named as the tree has it, if the file is noticed or
    the index knows it so already. -/
theorem hash_patch_iff (hreg : t.indexer.Registered path)
    (hnamed : Names t.indexer.root changed path) :
    (Call.patch scene (t, store) previous
        (t.indexer.passed scene.tree scene.now changed)).hash? path =
        scene.tree.hash? t.indexer.registry.kind path ↔
      t.indexer.Notices scene.tree path ∨
        t.indexer.hash? path = scene.tree.hash? t.indexer.registry.kind path := by
  have htells := Indexer.tells_passed scene.tree scene.now changed hreg
  change (t.indexer.passed scene.tree scene.now changed).indexer.hash? path = _ ↔ _
  by_cases hnotices : t.indexer.Notices scene.tree path
  · exact iff_of_true (htells.present ⟨hnamed, hnotices⟩) (.inl hnotices)
  · rw [htells.still fun hnews => hnotices hnews.2, or_iff_right hnotices]
    rfl

/-- A snapshot after changes shows a file that is not as it was in another way than before, if its
    outline is made afresh, for another digest than the outline before. -/
theorem shown_patch_iff (hprev : previous.Tidy) {p : IndexPass} {hash : Option String}
    (hhash : (Call.patch scene (t, store) previous p).hash? path = hash)
    (hchange : previous.hash? path ≠ hash) :
    previous.shown? path ≠ (Call.patch scene (t, store) previous p).shown? path ↔
      ∀ o, previous.outlines.get? path = some o → hash ≠ none →
        path ∈ remade previous p t.maxDepth ∧ some o.hash ≠ hash := by
  have htidy : (Call.patch scene (t, store) previous p).Tidy := tidy_patch hprev
  cases hash with
  | none =>
    -- The file is gone, and the snapshot before has it.
    rw [htidy.shown?_eq_none_iff.mpr hhash]
    refine iff_of_true (fun hnone => hchange ?_) fun _ _ hgone => absurd rfl hgone
    exact hprev.shown?_eq_none_iff.mp hnone
  | some digest =>
    obtain ⟨r, hr, rfl⟩ := Option.map_eq_some_iff.mp hhash
    have hget : (Call.patch scene (t, store) previous p).outlines.get? path = _ :=
      get_outlines_patch path
    rw [show p.indexer.files.get? path = some r from hr, Option.bind_some] at hget
    cases ho : previous.outlines.get? path with
    | none =>
      -- Without an outline before, both snapshots show what they say of the file.
      rw [Snapshot.shown?_of_no_outline ho]
      refine iff_of_true (fun heq => hchange ?_) nofun
      by_cases hmem : path ∈ remade previous p t.maxDepth
      · rw [if_pos hmem] at hget
        rw [heq, Snapshot.shown?_of_outline hget, Outline.hash_ofTreeFile]
      · rw [if_neg hmem, ho] at hget
        rw [heq, Snapshot.shown?_of_no_outline hget, hhash]
    | some o =>
      rw [Snapshot.shown?_of_outline ho]
      by_cases hmem : path ∈ remade previous p t.maxDepth
      · rw [if_pos hmem] at hget
        rw [Snapshot.shown?_of_outline hget, Outline.hash_ofTreeFile]
        simp [hmem]
      · rw [if_neg hmem, ho] at hget
        rw [Snapshot.shown?_of_outline hget]
        simp [hmem]

/-- A change is heeded if the index agrees with the newest snapshot about the file. -/
theorem InLine.heeds (h : InLine t.indexer scene.tree previous path)
    (hreg : t.indexer.Registered path) (hnamed : Names t.indexer.root changed path)
    (htrack : t.indexer.rules.tracks path = true)
    (hchange : previous.hash? path ≠ scene.tree.hash? t.indexer.registry.kind path) :
    Heeds t scene changed previous path := by
  -- What the file is compared with in the index is what the newest snapshot has of it.
  have hnotices : t.indexer.Notices scene.tree path := by
    refine ⟨?_, fun _ => htrack, fun content time hfound _ => h.moved content time hfound⟩
    rw [h.known]
    exact hchange
  have htells := Indexer.tells_passed scene.tree scene.now changed hreg
  refine ⟨⟨path, hnamed, hnotices⟩, .inl hnotices, fun o ho hpresent => ⟨?_, ?_⟩⟩
  · have hsome : (scene.tree.file? path).isSome := by
      by_contra hnone
      exact hpresent (FileTree.hash?_of_none (Option.not_isSome_iff_eq_none.mp hnone) _)
    exact List.mem_append_left _ (htells.updated.mpr (.inr ⟨⟨hnamed, hnotices⟩, hsome⟩))
  · rw [h.outline o ho]
    exact hchange

end Patch

section Through

variable {state : Engine × σ} {scene : Scene} {changed : List String}

theorem exists_runs_analyzeSnapshot (e : Engine) {store : σ} {id : String} {old : Snapshot}
    (h : load store id = .ok old) (new : Snapshot) :
    ∃ reports after, (analyzeSnapshot id new).Runs (e, store) reports after := by
  refine exists_runs_bind (runs_look_iff.mpr ⟨h, rfl⟩) (exists_runs_bind (runs_get _) ?_)
  exact exists_runs_bind (runs_publish _ _) ⟨_, _, runs_bind (runs_modify _ _) (runs_pure _ _)⟩

/-- An analysis goes through if the look at the files does, and the snapshots that are compared
    after it can be read. -/
theorem exists_runs_analyze_of_track {outcome : TrackOutcome} {tracked : Tracker × σ}
    (h : (Tracker.track scene changed).Runs (core state) outcome tracked)
    (hnew : outcome.created = true → ∃ new, load tracked.2 outcome.snapshotId = .ok new)
    (hold : outcome.created = true → ∀ id, outcome.previousId = some id →
      ∃ old, load tracked.2 id = .ok old) :
    ∃ a after, (analyze scene changed).Runs state a after := by
  refine exists_runs_bind (runs_get _) (exists_runs_bind (runs_publish _ _) ?_)
  refine exists_runs_bind (runs_inside h) ?_
  cases hcreated : outcome.created with
  | false => exact ⟨_, _, runs_pure _ _⟩
  | true =>
    obtain ⟨new, hnew⟩ := hnew hcreated
    refine exists_runs_bind (runs_look_iff.mpr ⟨hnew, rfl⟩) ?_
    refine exists_runs_bind (runs_publish _ _) ?_
    cases hprev : outcome.previousId with
    | none => exact ⟨_, _, runs_pure _ _⟩
    | some id =>
      obtain ⟨old, hold⟩ := hold hcreated id hprev
      exact (exists_runs_analyzeSnapshot _ hold new).elim fun reports hafter =>
        hafter.elim fun after hanalyze => exists_runs_bind hanalyze ⟨_, _, runs_pure _ _⟩

/-- On a store that does not fail, an analysis goes through after every run. -/
theorem exists_runs_analyze [LawfulStore σ] {root : String} {config : Config} {past : List (Step σ)}
    (run : Run root config past state) (scene : Scene) (changed : List String) :
    ∃ a after, (analyze scene changed).Runs state a after := by
  obtain ⟨found, hfound, -⟩ := ids_eq state.2
  obtain ⟨newest, hlatest⟩ := Tracker.latest_ok state.2
  cases newest with
  | none =>
    obtain ⟨t', store, hfull, -, hadd⟩ := runs_full scene (core state)
    refine exists_runs_analyze_of_track (Tracker.runs_track_of_none hlatest hfull changed)
      (fun _ => ?_) nofun
    exact ⟨_, (load_of_added hadd _ _).mpr (.inl ⟨rfl, rfl⟩)⟩
  | some previous =>
    obtain ⟨outcome, tracked, htrack, -, hnothing, hsomething⟩ :=
      (ends_patch scene changed (core state) hlatest rfl rfl).exists_runs
        (Tracker.sure_track scene changed)
    cases hnoop :
      (state.1.tracker.indexer.passed scene.tree scene.now changed).outcome.isNoop with
    | true =>
      obtain rfl := (hnothing hnoop).2 outcome rfl
      exact exists_runs_analyze_of_track htrack nofun nofun
    | false =>
      obtain ⟨rfl, hadd⟩ := (hsomething hnoop).added_of_ok
      have hload := (run.inOrder.1.latest hfound hlatest).2.2
      refine exists_runs_analyze_of_track htrack (fun _ => ?_) fun _ id hid => ?_
      · exact ⟨_, (load_of_added hadd _ _).mpr (.inl ⟨rfl, rfl⟩)⟩
      · rw [← Option.some.inj hid]
        exact exists_load_of_added hadd hload

end Through

section Runs

variable [AtomicStore σ] {root : String} {config : Config} {past : List (Step σ)}
  {state after : Engine × σ} {scene : Scene} {changed : List String} {a : Analysis}
  {previous : Snapshot} {path : String}

/-- If the pass finds nothing then no snapshot is taken. -/
theorem created_of_noop (h : (analyze scene changed).Runs state a after)
    (hlatest : latest state.2 = .ok (some previous))
    (hnoop : (state.1.tracker.indexer.passed scene.tree scene.now changed).outcome.isNoop = true) :
    a.outcome.created = false := by
  have htrack := (tracked_of_runs_analyze h).1
  have hends := (ends_patch scene changed (core state) hlatest rfl rfl).of_runs htrack
  rw [(hends.2.1 hnoop).2 _ rfl]

/-- If the pass finds something then a snapshot is taken under a new id, and what is reported is how
    it differs from the one before. -/
theorem compared_of_change (run : Run root config past state)
    (h : (analyze scene changed).Runs state a after)
    (hlatest : latest state.2 = .ok (some previous))
    (htime : Snapshot.idTime? previous.id ≠ some Int64.maxValue) {p : IndexPass}
    (hp : state.1.tracker.indexer.passed scene.tree scene.now changed = p)
    (hchange : p.outcome.isNoop = false) :
    a.outcome.created = true ∧ a.outcome.snapshotId ≠ previous.id ∧
      load after.2 a.outcome.snapshotId = .ok (Call.patch scene (core state) previous p) ∧
      ∃ weight graph, a.reports =
        previous.reports (Call.patch scene (core state) previous p) weight (some graph) := by
  obtain ⟨htrack, hanswers⟩ := tracked_of_runs_analyze h
  have hends := (ends_patch scene changed (core state) hlatest hp rfl).of_runs htrack
  obtain ⟨hout, hadd⟩ := (hends.2.2 hchange).added_of_ok
  obtain ⟨found, hfound, -⟩ := ids_eq state.2
  obtain ⟨-, hlast, hload⟩ := run.inOrder.1.latest hfound hlatest
  have hfresh : (Call.patch scene (core state) previous p).id ≠ previous.id := by
    have hid := makeId_timeAfter_ne hlast htime scene.now scene.salt
    rw [Call.patch, show ids (core state).2 = .ok found from hfound]
    exact hid
  -- Both snapshots can be read afterwards, since the new one does not take the place of the other.
  have hnew : load after.2 (Call.patch scene (core state) previous p).id =
      .ok (Call.patch scene (core state) previous p) :=
    (load_of_added hadd _ _).mpr (.inl ⟨rfl, rfl⟩)
  have hold : load after.2 previous.id = .ok previous :=
    (load_of_added hadd _ _).mpr (.inr ⟨hfresh.symm, hload⟩)
  have hcreated : a.outcome.created = true := by rw [hout]
  have hid : a.outcome.snapshotId = (Call.patch scene (core state) previous p).id := by
    rw [hout]
  obtain ⟨old, new, weight, graph, hold', hnew', hreports⟩ :=
    hanswers.compared hcreated previous.id (by rw [hout])
  rw [hid] at hnew' ⊢
  obtain rfl := Except.ok.inj (hold.symm.trans hold')
  obtain rfl := Except.ok.inj (hnew.symm.trans hnew')
  exact ⟨hcreated, hfresh, hnew, weight, graph, hreports⟩

/-- An analysis takes note of a change iff it heeds it. -/
theorem takesNote_iff (run : Run root config past state)
    (h : (analyze scene changed).Runs state a after)
    (hlatest : latest state.2 = .ok (some previous))
    (htime : Snapshot.idTime? previous.id ≠ some Int64.maxValue)
    (hnamed : Names state.1.tracker.indexer.root changed path)
    (hchanged : previous.hash? path ≠ scene.tree.hash? state.1.tracker.indexer.registry.kind path) :
    TakesNote a after.2 previous path
        (scene.tree.hash? state.1.tracker.indexer.registry.kind path) ↔
      Heeds state.1.tracker scene changed previous path := by
  obtain ⟨hkept, hreg⟩ := run.inOrder
  obtain ⟨found, hfound, -⟩ := ids_eq state.2
  have hprev : previous.Tidy := (hkept.latest hfound hlatest).1
  have hnoop := Indexer.isNoop_passed_iff scene.tree scene.now changed hreg
  cases hchange : (state.1.tracker.indexer.passed scene.tree scene.now changed).outcome.isNoop with
  | true =>
    -- Nothing is stored, and nothing that is named is noticed.
    refine iff_of_false (fun hnote => ?_) fun hheeds => ?_
    · exact nomatch hnote.created.symm.trans (created_of_noop h hlatest hchange)
    · obtain ⟨other, hother, hnotices⟩ := hheeds.noticed
      exact hnoop.mp hchange other hother hnotices
  | false =>
    obtain ⟨hcreated, hfresh, hload, weight, graph, hreports⟩ :=
      compared_of_change run h hlatest htime rfl hchange
    have hnoticed : ∃ other, Names state.1.tracker.indexer.root changed other ∧
        state.1.tracker.indexer.Notices scene.tree other := by
      by_contra hnone
      refine Bool.eq_false_iff.mp hchange (hnoop.mpr fun other hother hnotices => ?_)
      exact hnone ⟨other, hother, hnotices⟩
    have hrep : (∃ r ∈ a.reports, r.path = path) ↔ previous.shown? path ≠
        (Call.patch scene (core state) previous
          (state.1.tracker.indexer.passed scene.tree scene.now changed)).shown? path := by
      rw [hreports]
      exact Snapshot.exists_report_iff weight (some graph) hprev.path
        (tidy_patch hprev).path
    have hpresent : (Call.patch scene (core state) previous _).hash? path = _ ↔ _ :=
      hash_patch_iff (hreg path) hnamed
    constructor
    · intro hnote
      obtain ⟨s, hs, hhash⟩ := hnote.recorded
      obtain rfl := Except.ok.inj (hload.symm.trans hs)
      refine ⟨hnoticed, hpresent.mp hhash, ?_⟩
      exact (shown_patch_iff hprev hhash hchanged).mp (hrep.mp hnote.reported)
    · intro hheeds
      have hhash := hpresent.mpr hheeds.present
      refine ⟨hcreated, hfresh, ⟨_, hload, hhash⟩, hrep.mpr ?_⟩
      exact (shown_patch_iff hprev hhash hchanged).mpr hheeds.outlined

/-- An analysis takes note of a change that it is told of exactly if it heeds it, and it does so if
    the index agrees with the newest snapshot about the file. -/
theorem takesNote_iff_heeds (run : Run root config past state)
    (h : (analyze scene changed).Runs state a after)
    (hlatest : latest state.2 = .ok (some previous))
    (htime : Snapshot.idTime? previous.id ≠ some Int64.maxValue)
    (hnamed : Names state.1.tracker.indexer.root changed path)
    (htracked : state.1.tracker.indexer.rules.tracks path = true)
    (hchanged : previous.hash? path ≠ scene.tree.hash? state.1.tracker.indexer.registry.kind path) :
    (TakesNote a after.2 previous path
        (scene.tree.hash? state.1.tracker.indexer.registry.kind path) ↔
      Heeds state.1.tracker scene changed previous path) ∧
    (InLine state.1.tracker.indexer scene.tree previous path →
      TakesNote a after.2 previous path
        (scene.tree.hash? state.1.tracker.indexer.registry.kind path)) := by
  have hiff := takesNote_iff run h hlatest htime hnamed hchanged
  refine ⟨hiff, fun hline => hiff.mpr ?_⟩
  exact hline.heeds (run.inOrder.2 path) hnamed htracked hchanged

end Runs

section Rescanned

/-- The first snapshot of the project. -/
def firstSnapshot : Snapshot := Call.full pair (core unused)

/-- The edited project is scanned. -/
def rescanning : Step MemoryStore := ⟨.scan (revised linked), linking.after⟩

/-- The first snapshot has the second file as it was before the edit. -/
theorem hash_firstSnapshot : firstSnapshot.hash? "b.ts" ≠ (revised linked).tree.hash? .xxh3 "b.ts" ∧
      (firstSnapshot.outlines.get? "b.ts").map Outline.hash = firstSnapshot.hash? "b.ts" ∧
      Snapshot.idTime? firstSnapshot.id ≠ some Int64.maxValue := by
  decide +kernel

theorem names_self {root path : String} (h : Path.relative? root path = some path) :
    Names root [path] path :=
  ⟨path, List.mem_singleton_self path, h⟩

/-- After the first snapshot the index agrees with it about the second file. -/
theorem inLine_linking : Names linking.after.1.tracker.indexer.root ["b.ts"] "b.ts" ∧
      linking.after.1.tracker.indexer.rules.tracks "b.ts" = true ∧
      linking.after.1.tracker.indexer.registry.kind = .xxh3 ∧
      InLine linking.after.1.tracker.indexer (revised linked).tree firstSnapshot "b.ts" := by
  have hscan : ∀ dirty,
      let ix := (unused.1.tracker.indexer.scanned pair.tree pair.now).marked dirty
      Path.relative? ix.root "b.ts" = some "b.ts" ∧ ix.rules.tracks "b.ts" = true ∧
        ix.registry.kind = .xxh3 ∧ ix.hash? "b.ts" = firstSnapshot.hash? "b.ts" ∧
        ix.times.get? "b.ts" = some 0 := by
    decide +kernel
  obtain ⟨dirty, hix⟩ := indexer_linking
  rw [hix]
  obtain ⟨hnamed, htrack, hkind, hknown, htimes⟩ := hscan dirty
  refine ⟨names_self hnamed, htrack, hkind, hknown, fun content time hfound hsame => ?_,
    fun o ho => ?_⟩
  · have hmoved : (1 : Int64) = time := congrArg Prod.snd (Option.some.inj hfound)
    rw [htimes, ← hmoved] at hsame
    exact absurd hsame (by decide)
  · rw [← hash_firstSnapshot.2.1, ho]
    rfl

/-- After the scan a look at the second file finds nothing. -/
theorem isNoop_rescanning : Names rescanning.after.1.tracker.indexer.root ["b.ts"] "b.ts" ∧
      rescanning.after.1.tracker.indexer.rules.tracks "b.ts" = true ∧
      (rescanning.after.1.tracker.indexer.passed (revised linked).tree (revised linked).now
        ["b.ts"]).outcome.isNoop = true := by
  have hscan : ∀ dirty dirty',
      let ix := (((unused.1.tracker.indexer.scanned pair.tree pair.now).marked dirty).scanned
        (revised linked).tree (revised linked).now).marked dirty'
      Path.relative? ix.root "b.ts" = some "b.ts" ∧ ix.rules.tracks "b.ts" = true ∧
        (ix.passed (revised linked).tree (revised linked).now ["b.ts"]).outcome.isNoop = true := by
    decide +kernel
  obtain ⟨dirty, hlinking⟩ := indexer_linking
  -- The scan puts the index ahead of the newest snapshot.
  obtain ⟨dirty', hix⟩ : ∃ dirty', rescanning.after.1.tracker.indexer =
      (linking.after.1.tracker.indexer.scanned (revised linked).tree
        (revised linked).now).marked dirty' := rescanning.indexer_after
  rw [hix, hlinking]
  obtain ⟨hnamed, htrack, hnoop⟩ := hscan dirty dirty'
  exact ⟨names_self hnamed, htrack, hnoop⟩

/-- Right after the first snapshot, an analysis takes note of the edit. -/
theorem takesNote_iff_heeds_revising : Run "/p" quick [linking] linking.after ∧
      latest linking.after.2 = .ok (some firstSnapshot) ∧
      Snapshot.idTime? firstSnapshot.id ≠ some Int64.maxValue ∧
      Names linking.after.1.tracker.indexer.root ["b.ts"] "b.ts" ∧
      linking.after.1.tracker.indexer.rules.tracks "b.ts" = true ∧
      firstSnapshot.hash? "b.ts" ≠ (revised linked).tree.hash? .xxh3 "b.ts" ∧
      InLine linking.after.1.tracker.indexer (revised linked).tree firstSnapshot "b.ts" ∧
      ∃ a after, (analyze (revised linked) ["b.ts"]).Runs linking.after a after ∧
        TakesNote a after.2 firstSnapshot "b.ts" ((revised linked).tree.hash? .xxh3 "b.ts") := by
  have hrun : Run "/p" quick [linking] linking.after :=
    (Run.opened pair fun _ => rfl).step linking rfl
  obtain ⟨hchanged, -, htime⟩ := hash_firstSnapshot
  obtain ⟨hnamed, htracked, hkind, hline⟩ := inLine_linking
  obtain ⟨a, after, hanalysis⟩ := exists_runs_analyze hrun (revised linked) ["b.ts"]
  rw [← hkind] at hchanged ⊢
  have hnote :=
    (takesNote_iff_heeds hrun hanalysis latest_linking htime hnamed htracked hchanged).2 hline
  exact ⟨hrun, latest_linking, htime, hnamed, htracked, hchanged, hline, a, after, hanalysis, hnote⟩

/-- If the edited project is scanned first then an analysis takes no note of the edit, although the
    time of the file has moved since the newest snapshot was taken. -/
theorem not_takesNote_after_scan : Run "/p" quick [rescanning, linking] rescanning.after ∧
      latest rescanning.after.2 = .ok (some firstSnapshot) ∧
      Names rescanning.after.1.tracker.indexer.root ["b.ts"] "b.ts" ∧
      rescanning.after.1.tracker.indexer.rules.tracks "b.ts" = true ∧
      firstSnapshot.hash? "b.ts" ≠ (revised linked).tree.hash? .xxh3 "b.ts" ∧
      (pair.tree.file? "b.ts").map Prod.snd ≠ ((revised linked).tree.file? "b.ts").map Prod.snd ∧
      ∃ a after, (analyze (revised linked) ["b.ts"]).Runs rescanning.after a after ∧
        a.reports = [] ∧ ¬ TakesNote a after.2 firstSnapshot "b.ts"
          ((revised linked).tree.hash? .xxh3 "b.ts") := by
  have hrun : Run "/p" quick [rescanning, linking] rescanning.after :=
    ((Run.opened pair fun _ => rfl).step linking rfl).step rescanning rfl
  have hlatest : latest rescanning.after.2 = .ok (some firstSnapshot) :=
    (rescanning.latest_after rfl).trans latest_linking
  obtain ⟨hnamed, htracked, hnoop⟩ := isNoop_rescanning
  obtain ⟨a, after, hanalysis⟩ := exists_runs_analyze hrun (revised linked) ["b.ts"]
  have hidle := created_of_noop hanalysis hlatest hnoop
  refine ⟨hrun, hlatest, hnamed, htracked, hash_firstSnapshot.1, by decide +kernel, a, after,
    hanalysis, (tracked_of_runs_analyze hanalysis).2.idle hidle, fun hnote => ?_⟩
  exact nomatch hnote.created.symm.trans hidle

end Rescanned

end Engine

end Ripple
