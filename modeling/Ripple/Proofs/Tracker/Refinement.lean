import Ripple.Proofs.Tracker.Steps

/-!
# Incremental Tracking Refines Full Snapshots

A snapshot after changes is made from the snapshot before: outlines of files
that were not touched are taken over, and only the rest is made afresh. It
should not matter. Whatever snapshots were taken before, the newest one says
of every file what a snapshot of all files would say, with the same outlines
and the same graph.

The argument is an invariant that each call keeps. The index is in step with
the tree, the newest snapshot has the files of the index, and its outlines
are those of the tree. What makes an outline that is taken over right is that
a file which keeps its record keeps its digest, and with the digest its
content.

That a new snapshot is the newest one rests on its time, so the times of
snapshots must fit in their ids, with thirteen digits. It is not enough that
the clock does: the time of a snapshot comes after the time of the one before,
whatever the clock says. With each call it gets past the clock by one at most,
and two calls at the last time of the clock are too many.
-/

namespace Ripple

open Store Job History FileTree Dict

section Content

variable {before after : FileTree} {rules : IgnoreRules} {path : String} {content : ByteArray}
  {time time' : Int64}

theorem FileTree.read_of_file (h : after.file? path = some (content, time)) :
    after.read path = .ok content := by
  obtain ⟨modified, hat, -⟩ := file_eq_some_iff.mp h
  rw [FileTree.read, hat]
  rfl

/-- The outline of a file depends on its path, its digest and its content only. -/
theorem Outline.ofTreeFile_congr (h : before.Holds rules path content time)
    (h' : after.Holds rules path content time') (hash : String) :
    Outline.ofTreeFile before path hash = Outline.ofTreeFile after path hash := by
  rw [Outline.ofTreeFile, Outline.ofTreeFile, readText, readText,
    read_of_file h.found, read_of_file h'.found]

end Content

namespace Indexer

variable {ix ix' : Indexer} {tree : FileTree} {path : String}

theorem InStep.marked (h : ix.InStep tree path) (dirty : Bool) :
    (ix.marked dirty).InStep tree path := by
  have hset : SameSettings ix (ix.marked dirty) := ⟨rfl, rfl, rfl⟩
  exact h.congr hset rfl rfl

/-- A file that was created has to be named, and that is all. -/
theorem informed_single {name candidate : String} {content : ByteArray} {modified : Int64}
    (hname : Path.IsName name) (hreach : Reachable name)
    (h : Path.relative? ix.root candidate = some name) :
    ix.Informed .empty (.single name content modified) [candidate] where
  named path hdiff := by
    refine ⟨candidate, List.mem_singleton_self candidate, ?_⟩
    by_cases hpath : path = name
    · rw [hpath, h]
    · refine absurd (fun content' => ⟨?_, ?_⟩) hdiff
      · rintro ⟨_, hholds⟩
        exact absurd hholds not_holds_empty
      · rintro ⟨_, hholds⟩
        exact absurd ((holds_single_iff hname hreach).mp hholds).1 hpath
  moved _ _ _ _ _ hholds := absurd hholds not_holds_empty
  distinct _ _ _ _ _ hholds := absurd hholds not_holds_empty

/-- Two indexes that are in step with a tree say the same of every file. -/
theorem substance_eq (hrules : ix'.rules = ix.rules)
    (hkind : ix'.registry.kind = ix.registry.kind) (h : ix.InStep tree path)
    (h' : ix'.InStep tree path) :
    (ix.files.get? path).map FileRecord.substance =
      (ix'.files.get? path).map FileRecord.substance := by
  cases hr : ix.files.get? path with
  | none =>
    cases hr' : ix'.files.get? path with
    | none => rfl
    | some r' =>
      obtain ⟨content, time, _, _, hholds, -⟩ := h'.known r' hr'
      have hsome := h.held content time (hrules ▸ hholds)
      rw [hr] at hsome
      exact nomatch hsome
  | some r =>
    obtain ⟨content, time, modified, now, hholds, hrec⟩ := h.known r hr
    obtain ⟨r', hr'⟩ := Option.isSome_iff_exists.mp
      (h'.held content time (hrules.symm ▸ hholds))
    obtain ⟨content', time', modified', now', hholds', hrec'⟩ := h'.known r' hr'
    obtain ⟨rfl, -⟩ := hholds.unique (hrules ▸ hholds')
    rw [hr', hrec, hrec', hkind]
    rfl

end Indexer

/-- Outlines depend on the digests of files only. -/
theorem outlinesOf_congr {files files' : Dict String FileRecord} (tree : FileTree)
    (h : ∀ path, (files.get? path).map FileRecord.substance =
      (files'.get? path).map FileRecord.substance) :
    outlinesOf tree files = outlinesOf tree files' := by
  refine ext_get fun path => ?_
  have hhash := congrArg (Option.map fun s => Outline.ofTreeFile tree path s.1) (h path)
  rw [Option.map_map, Option.map_map] at hhash
  rw [outlinesOf, outlinesOf, get_map, get_map]
  exact hhash

namespace Tracker

section Patch

variable {ix : Indexer} {before after : FileTree} {changed : List String} {now : Int64}

/-- The files whose outlines are made afresh, by path. -/
theorem get_affected (files : Dict String FileRecord) (outcome : IndexOutcome)
    (impacted : List String) (path : String) :
    (affected files outcome impacted).get? path =
      if path ∈ outcome.updated ++ impacted then files.get? path else none := by
  have hents : ∀ r, (path, r) ∈ (outcome.updated ++ impacted).filterMap
      (fun path => (files.get? path).map (Prod.mk path)) ↔
        path ∈ outcome.updated ++ impacted ∧ files.get? path = some r := by
    intro r
    rw [List.mem_filterMap]
    constructor
    · rintro ⟨other, hmem, hother⟩
      obtain ⟨r', hr', heq⟩ := Option.map_eq_some_iff.mp hother
      obtain ⟨rfl, rfl⟩ := Prod.mk.inj heq
      exact ⟨hmem, hr'⟩
    · rintro ⟨hmem, hr⟩
      exact ⟨path, hmem, by rw [hr, Option.map_some]⟩
  by_cases hmem : path ∈ outcome.updated ++ impacted
  · rw [if_pos hmem]
    cases hr : files.get? path with
    | none =>
      refine (get_insertAll_of_not_mem fun r hentry => ?_).trans (get_empty path)
      exact nomatch hr.symm.trans ((hents r).mp hentry).2
    | some r =>
      refine get_insertAll_of_mem ((hents r).mpr ⟨hmem, hr⟩) fun other hother => ?_
      exact Option.some.inj (((hents other).mp hother).2.symm.trans hr)
  · rw [if_neg hmem]
    refine (get_insertAll_of_not_mem fun r hentry => ?_).trans (get_empty path)
    exact hmem ((hents r).mp hentry).1

/-- A file that keeps its record keeps its outline. -/
theorem ofTreeFile_of_known (h : ix.Informed before after changed)
    (hstep : ∀ path, ix.InStep before path) {path : String} {r : FileRecord}
    (hr : ix.files.get? path = some r)
    (hr' : (ix.passed after now changed).indexer.files.get? path = some r) :
    Outline.ofTreeFile before path r.hash = Outline.ofTreeFile after path r.hash := by
  have hset := IndexPass.sameSettings_foldl after now changed (.start ix)
  obtain ⟨content, time, time', hholds, hholds'⟩ := h.holds_of_known (hstep path) hset
    (Indexer.inStep_passed h hstep now path) hr hr'
  exact Outline.ofTreeFile_congr hholds hholds' r.hash

/-- Outlines that are taken over are as if made afresh, whatever else is made afresh. -/
theorem patched_eq (h : ix.Informed before after changed) (hstep : ∀ path, ix.InStep before path)
    {previous : Snapshot} (hprev : previous.outlines = outlinesOf before ix.files)
    {p : IndexPass} (hpass : ix.passed after now changed = p) (impacted : List String) :
    patched after previous p.indexer.files p.outcome impacted =
      outlinesOf after p.indexer.files := by
  subst hpass
  have haccounts := IndexPass.accounts_foldl after now changed _ (IndexPass.accounts_start ix)
  refine ext_get fun path => ?_
  rw [patched, get_filter, get_insertAll_toList, hprev, outlinesOf, outlinesOf,
    outlinesOf, get_map, get_map, get_map, get_affected]
  cases hr : (ix.passed after now changed).indexer.files.get? path with
  | none =>
    rw [Option.map_none, Option.filter_eq_none_iff]
    intro _ _
    rw [contains_eq_false_iff.mpr hr]
    exact Bool.false_ne_true
  | some r =>
    have hhas : (ix.passed after now changed).indexer.files.contains path = true := by
      rw [contains_eq_true_iff, mem_keys_iff, hr]
      rfl
    -- Whether it is made afresh or taken over, the outline is that of the tree.
    by_cases hmem : path ∈ (ix.passed after now changed).outcome.updated ++ impacted
    · rw [if_pos hmem, Option.map_some, Option.some_or, Option.filter_some, if_pos hhas]
    · -- The record is the one from before, so the content is, too.
      have hold : ix.files.get? path = some r :=
        (haccounts.known path r hr).resolve_left fun hupd =>
          hmem (List.mem_append_left _ hupd)
      rw [if_neg hmem, Option.map_none, Option.none_or, hold, Option.map_some,
        Option.filter_some, if_pos hhas, ofTreeFile_of_known h hstep hold hr]
      rfl

/-- If nothing changed in the index then all outlines stay. -/
theorem outlinesOf_of_noop (h : ix.Informed before after changed)
    (hstep : ∀ path, ix.InStep before path)
    (hfiles : (ix.passed after now changed).indexer.files = ix.files) :
    outlinesOf before ix.files = outlinesOf after ix.files := by
  refine ext_get fun path => ?_
  rw [outlinesOf, outlinesOf, get_map, get_map]
  cases hr : ix.files.get? path with
  | none => rfl
  | some r =>
    have hr' : (ix.passed after now changed).indexer.files.get? path = some r := by
      rw [hfiles, hr]
    rw [Option.map_some, Option.map_some, ofTreeFile_of_known h hstep hr hr']

end Patch

section Runs

variable {σ : Type} [BlobStore σ]

/-- A call of a tracker. -/
inductive Call where
  /-- A snapshot of all files. -/
  | snapshot (scene : Scene)
  /-- A snapshot after some files changed. -/
  | track (scene : Scene) (changed : List String)

namespace Call

/-- What the outside looks like at the time of a call. -/
def scene : Call → Scene
  | snapshot scene => scene
  | track scene _ => scene

/-- What a call does. -/
def perform : Call → Job (Tracker × σ) Unit
  | snapshot scene => do let _ ← Tracker.takeSnapshot scene
  | track scene changed => do let _ ← Tracker.track scene changed

/-- A call names all files that changed since the call before, in a way that an index sees. -/
def Informed (seen : Option FileTree) (ix : Indexer) : Call → Prop
  | snapshot _ => True
  | track scene changed => ∀ before ∈ seen, ix.Informed before scene.tree changed

/-- What a call assumes of the tree. -/
structure Sensible (seen : Option FileTree) (state : Tracker × σ) (c : Call) : Prop where
  wellFormed : c.scene.tree.WellFormed
  /-- The files that changed are named. -/
  informed : c.Informed seen state.1.indexer

/-- A call that leaves no snapshot with a time of more than thirteen digits. -/
structure Allowed (seen : Option FileTree) (state : Tracker × σ) (c : Call) : Prop
    extends c.Sensible seen state where
  /-- The times of all snapshots fit in their ids. -/
  bounded : Bounded (10 ^ 13) (c.perform.on state).2.2

/-- A call while the clock is before a limit. -/
structure ByClock (limit : Int) (seen : Option FileTree) (state : Tracker × σ) (c : Call) : Prop
    extends c.Sensible seen state where
  /-- The clock is not before 1970. -/
  nonneg : 0 ≤ c.scene.now.toInt
  /-- The clock is before the limit. -/
  lt : c.scene.now.toInt < limit

end Call

/-- A tracker and a store after a number of calls of a kind, with the tree of the last call. The
    tracker is opened on a store without values. -/
inductive Run (kind : Option FileTree → Tracker × σ → Call → Prop) (root : String)
    (config : Config) : Nat → Option FileTree → Tracker × σ → Prop
  | opened (scene : Scene) {store : σ} (empty : ∀ key, blob? store key = none) :
      Run kind root config 0 none (Tracker.ofStore scene store root config, store)
  | called {n : Nat} {seen : Option FileTree} {state : Tracker × σ} {c : Call}
      (run : Run kind root config n seen state) (allowed : kind seen state c) :
      Run kind root config (n + 1) (some c.scene.tree) (c.perform.on state).2

/-- Two trackers pass over the same files, tell content apart in the same way, and follow changes
    equally far. -/
structure Alike (t t' : Tracker) : Prop where
  rules : t'.indexer.rules = t.indexer.rules
  kind : t'.indexer.registry.kind = t.indexer.registry.kind
  maxDepth : t'.maxDepth = t.maxDepth

/-- After a call the newest snapshot is the snapshot that would be made of all files, by the
    tracker itself or by one that is like it: it has the same outlines, the same graph, and says
    the same of the content of every file. -/
def Call.LatestIsFull (c : Call) (state : Tracker × σ) : Prop :=
  ∃ state' newest, c.perform.on state = (.ok (), state') ∧
    latest state'.2 = .ok (some newest) ∧
    ∀ scene : Scene, scene.tree = c.scene.tree → ∀ other : Tracker × σ, state'.1.Alike other.1 →
      ∃ full after, (takeSnapshot scene).on other = (.ok full, after) ∧
        full.outlines = newest.outlines ∧ full.graph = newest.graph ∧
        ∀ path, (full.files.get? path).map FileRecord.substance =
          (newest.files.get? path).map FileRecord.substance

/-- The newest snapshot describes a tree, and the index is ready for the next call. -/
structure Current (tree : FileTree) (state : Tracker × σ) (newest : Snapshot) : Prop where
  /-- The ids of all snapshots come in the order of their times. -/
  orderly : Orderly state.2
  latest : latest state.2 = .ok (some newest)
  inStep : ∀ path, state.1.indexer.InStep tree path
  files : newest.files = state.1.indexer.files
  outlines : newest.outlines = outlinesOf tree newest.files
  graph : newest.graph = ImportGraph.build newest.outlines state.1.maxDepth

/-- What holds between calls. -/
def Sound : Option FileTree → Tracker × σ → Prop
  | none, state => Orderly state.2 ∧ latest state.2 = .ok none
  | some tree, state => ∃ newest, Current tree state newest

variable {seen : Option FileTree} {state : Tracker × σ} {scene : Scene}

theorem Sound.orderly (h : Sound seen state) : Orderly state.2 := by
  cases seen with
  | none => exact h.1
  | some tree =>
    obtain ⟨newest, hcur⟩ := h
    exact hcur.orderly

variable [LawfulStore σ]

theorem sound_of_empty {store : σ} (h : ∀ key, blob? store key = none) (t : Tracker) :
    Sound none (t, store) := by
  refine ⟨fun key _ hkey => ?_, ?_⟩
  · rw [h key] at hkey
    exact nomatch hkey
  · rw [latest, ids_of_empty h]
    rfl

/-- A snapshot that was added with the files of an index that is in step describes the tree. -/
theorem current_of_added {ids : List String} {t : Tracker} {store after : σ}
    (hord : History.Orderly store) (hids : History.ids store = .ok ids)
    (hstep : ∀ path, t.indexer.InStep scene.tree path) {s : Snapshot}
    (hs : made scene ids t.maxDepth t.indexer.files (outlinesOf scene.tree t.indexer.files) = s)
    (hadd : Added store after s) (hbdd : Bounded (10 ^ 13) after) :
    Current scene.tree (t, after) s := by
  subst hs
  obtain ⟨hord', hlatest⟩ := latest_of_added hord hids rfl hadd hbdd
  exact ⟨hord', hlatest, hstep, rfl, rfl, rfl⟩

omit [BlobStore σ] [LawfulStore σ] in
/-- A tracker is left with the files of an index, and in step with a tree if the index is. -/
theorem Left.inStep {t after : Tracker} {ix : Indexer} (h : t.Left ix after) {tree : FileTree}
    (hstep : ∀ path, ix.InStep tree path) :
    after.indexer.files = ix.files ∧ ∀ path, after.indexer.InStep tree path := by
  obtain ⟨dirty, hix⟩ := h.indexer
  rw [hix]
  exact ⟨rfl, fun path => (hstep path).marked dirty⟩

/-- A snapshot of all files describes the tree. -/
theorem current_takeSnapshot (htree : scene.tree.WellFormed) (hord : Orderly state.2) :
    ∃ s state', (takeSnapshot scene).Runs state s state' ∧
      Grown scene.now state.2 state'.2 ∧
      (Bounded (10 ^ 13) state'.2 → Current scene.tree state' s) := by
  obtain ⟨ids, hids, -⟩ := ids_eq state.2
  obtain ⟨t', after, hrun, hleft, hadd⟩ := runs_takeSnapshot scene state.1 state.2 hids rfl
  obtain ⟨hfiles, hstep⟩ := hleft.inStep
    (Indexer.inStep_scanned htree state.1.indexer scene.now)
  refine ⟨_, (t', after), hrun, .more hids rfl hadd, fun hbdd => ?_⟩
  exact current_of_added hord hids hstep (by rw [hleft.maxDepth, hfiles]) hadd hbdd

/-- A look at changed files leaves a snapshot that describes the tree. -/
theorem current_track {changed : List String} {before : FileTree} {previous : Snapshot}
    (hcur : Current before state previous)
    (hinformed : state.1.indexer.Informed before scene.tree changed) :
    ∃ outcome state' newest, (track scene changed).Runs state outcome state' ∧
      Grown scene.now state.2 state'.2 ∧
      (Bounded (10 ^ 13) state'.2 → Current scene.tree state' newest) := by
  obtain ⟨ids, hids, -⟩ := ids_eq state.2
  obtain ⟨outcome, ⟨t', after⟩, hrun, hleft, hnothing, hsomething⟩ :=
    (ends_track_of_some scene changed state.1 hids hcur.latest rfl rfl rfl).exists_runs
      (sure_track scene changed)
  obtain ⟨hfiles, hstep⟩ := hleft.inStep
    (Indexer.inStep_passed hinformed hcur.inStep scene.now)
  have hprev : previous.outlines = outlinesOf before state.1.indexer.files := by
    rw [hcur.outlines, hcur.files]
  cases hnoop : (state.1.indexer.passed scene.tree scene.now changed).outcome.isNoop with
  | true =>
    -- No snapshot is taken, and the newest one describes the new tree as well.
    have hagree := (hnothing hnoop).1
    have hstill : (state.1.indexer.passed scene.tree scene.now changed).indexer.files =
        state.1.indexer.files :=
      (IndexPass.accounts_foldl scene.tree scene.now changed _
        (IndexPass.accounts_start state.1.indexer)).still hnoop
    refine ⟨outcome, (t', after), previous, hrun, .still hagree, fun _ => ?_⟩
    refine ⟨orderly_of_agree hcur.orderly hagree,
      (latest_congr hagree).trans hcur.latest, hstep,
      hcur.files.trans (hfiles.trans hstill).symm, ?_, ?_⟩
    · rw [hprev, hcur.files]
      exact outlinesOf_of_noop hinformed hcur.inStep hstill
    · rw [hcur.graph, hleft.maxDepth]
  | false =>
    have hadd := (hsomething hnoop).added_of_ok.2
    have hcur' := current_of_added hcur.orderly hids hstep
      (by rw [hleft.maxDepth, hfiles, patched_eq hinformed hcur.inStep hprev rfl]) hadd
    exact ⟨outcome, (t', after), _, hrun, .more hids rfl hadd, hcur'⟩

/-- A call goes through, and the newest snapshot after it describes the tree. -/
theorem current_perform {c : Call} (h : Sound seen state) (hc : c.Sensible seen state) :
    ∃ state' newest, c.perform.Runs state () state' ∧
      Grown c.scene.now state.2 state'.2 ∧
      (Bounded (10 ^ 13) state'.2 → Current c.scene.tree state' newest) := by
  cases c with
  | snapshot scene =>
    obtain ⟨s, state', hrun, hnew⟩ := current_takeSnapshot hc.wellFormed h.orderly
    exact ⟨state', s, runs_bind hrun (runs_pure _ _), hnew⟩
  | track scene changed =>
    cases seen with
    | none =>
      -- There is nothing to take over, so all files are looked at.
      obtain ⟨s, ⟨t', after⟩, hrun, hnew⟩ := current_takeSnapshot hc.wellFormed h.orderly
      have htrack := runs_track_of_none h.2 hrun changed
      exact ⟨(t', after), s, runs_bind htrack (runs_pure _ _), hnew⟩
    | some before =>
      obtain ⟨previous, hcur⟩ := h
      obtain ⟨outcome, state', newest, hrun, hnew⟩ :=
        current_track hcur (hc.informed before rfl)
      exact ⟨state', newest, runs_bind hrun (runs_pure _ _), hnew⟩

theorem current_of_allowed {c : Call} (h : Sound seen state) (hc : c.Allowed seen state) :
    ∃ state' newest, c.perform.Runs state () state' ∧ Current c.scene.tree state' newest := by
  obtain ⟨state', newest, hrun, -, hcur⟩ := current_perform h hc.toSensible
  have hstate : (c.perform.on state).2 = state' := congrArg Prod.snd hrun
  exact ⟨state', newest, hrun, hcur (hstate ▸ hc.bounded)⟩

theorem sound_of_run {root : String} {config : Config} {n : Nat}
    (h : Run Call.Allowed root config n seen state) : Sound seen state := by
  induction h with
  | opened scene hempty => exact sound_of_empty hempty _
  | @called n seen state c _ hallowed ih =>
    obtain ⟨state', newest, hrun, hcur⟩ := current_of_allowed ih hallowed
    have hstate : (c.perform.on state).2 = state' := congrArg Prod.snd hrun
    rw [hstate]
    exact ⟨newest, hcur⟩

/-- The times of snapshots get past the clock by one with each call at most. -/
theorem bounded_perform {limit : Int} {c : Call} (h : Sound seen state)
    (hc : c.ByClock limit seen state) {bound : Int} (hle : limit ≤ bound)
    (hbdd : Bounded bound state.2) :
    Bounded (bound + 1) (c.perform.on state).2.2 := by
  obtain ⟨state', _, hrun, hgrown, -⟩ := current_perform h hc.toSensible
  have hstate : (c.perform.on state).2 = state' := congrArg Prod.snd hrun
  have hnonneg := hc.nonneg
  have hlt := hc.lt
  rw [hstate]
  exact hbdd.of_grown h.orderly (by omega) (by omega) hgrown

/-- A call is allowed if what is left up to thirteen digits is enough for one more time. -/
theorem Call.ByClock.allowed {limit : Int} {c : Call} (hc : c.ByClock limit seen state)
    (h : Sound seen state) {bound : Int} (hle : limit ≤ bound) (hbound : bound < 10 ^ 13)
    (hbdd : Bounded bound state.2) :
    c.Allowed seen state :=
  ⟨hc.toSensible, (bounded_perform h hc hle hbdd).mono hbound⟩

/-- If the clock stays before a limit, and the calls are not too many for what is left up to
    thirteen digits, then all calls are allowed. -/
theorem Run.allowed {limit : Int} {root : String} {config : Config} {n : Nat}
    (h : Run (Call.ByClock limit) root config n seen state) (hlimit : limit + n ≤ 10 ^ 13) :
    Run Call.Allowed root config n seen state ∧ Bounded (limit + n) state.2 := by
  induction h with
  | @opened scene store hempty =>
    refine ⟨.opened scene hempty, fun found hfound id hid => ?_⟩
    rw [ids_of_empty hempty] at hfound
    rw [← Except.ok.inj hfound] at hid
    exact absurd hid List.not_mem_nil
  | @called n seen state c _ hclock ih =>
    obtain ⟨hrun, hbdd⟩ := ih (by omega)
    have hsound := sound_of_run hrun
    have hnext := bounded_perform hsound hclock (by omega) hbdd
    refine ⟨.called hrun (hclock.allowed hsound (by omega) (by omega) hbdd), ?_⟩
    rw [Int.add_assoc] at hnext
    exact hnext

/-- The newest snapshot is the snapshot that would be made of all files, by the tracker itself or
    by one that is like it. -/
theorem Current.eq_full {tree : FileTree} {newest : Snapshot} (h : Current tree state newest)
    (htree : scene.tree = tree) (hformed : tree.WellFormed) {other : Tracker × σ}
    (halike : state.1.Alike other.1) :
    ∃ full after, (takeSnapshot scene).Runs other full after ∧ full.outlines = newest.outlines ∧
      full.graph = newest.graph ∧ ∀ path, (full.files.get? path).map FileRecord.substance =
        (newest.files.get? path).map FileRecord.substance := by
  subst htree
  obtain ⟨ids, hids, -⟩ := ids_eq other.2
  obtain ⟨t', after, hrun, -⟩ := runs_takeSnapshot scene other.1 other.2 hids rfl
  have hscan := Indexer.inStep_scanned hformed other.1.indexer scene.now
  have hkind : (other.1.indexer.scanned scene.tree scene.now).registry.kind =
      other.1.indexer.registry.kind := HashRegistry.kind_foldl_update _ _
  have hfiles : ∀ path, ((other.1.indexer.scanned scene.tree scene.now).files.get? path).map
      FileRecord.substance = (newest.files.get? path).map FileRecord.substance := by
    intro path
    rw [h.files]
    exact Indexer.substance_eq halike.rules.symm (hkind.trans halike.kind).symm (hscan path)
      (h.inStep path)
  have houts : outlinesOf scene.tree (other.1.indexer.scanned scene.tree scene.now).files =
      newest.outlines := by
    rw [h.outlines]
    exact outlinesOf_congr scene.tree hfiles
  refine ⟨_, (t', after), hrun, houts, ?_, hfiles⟩
  rw [h.graph, ← houts, ← halike.maxDepth]
  rfl

/-- In every run the newest snapshot is the snapshot of all files after each call. -/
theorem latest_eq_full_snapshot {root : String} {config : Config} {n : Nat}
    {seen : Option FileTree} {state : Tracker × σ} {c : Call}
    (hrun : Run Call.Allowed root config n seen state) (hallowed : c.Allowed seen state) :
    c.LatestIsFull state := by
  obtain ⟨state', newest, hperform, hcurrent⟩ := current_of_allowed (sound_of_run hrun) hallowed
  refine ⟨state', newest, hperform, hcurrent.latest, fun scene htree other halike => ?_⟩
  exact hcurrent.eq_full htree hallowed.wellFormed halike

/-- What a snapshot of all files leaves behind. -/
theorem on_snapshot (scene : Scene) (state : Tracker × σ) {ids : List String}
    (hids : History.ids state.2 = .ok ids) {files : Dict String FileRecord}
    (hfiles : (state.1.indexer.scanned scene.tree scene.now).files = files) :
    ∃ t' after, ((Call.snapshot scene).perform.on state).2 = (t', after) ∧
      (∃ dirty, t'.indexer = (state.1.indexer.scanned scene.tree scene.now).marked dirty) ∧
      Added state.2 after
        (made scene ids state.1.maxDepth files (outlinesOf scene.tree files)) := by
  obtain ⟨t', after, hrun, hleft, hadd⟩ := runs_takeSnapshot scene state.1 state.2 hids hfiles
  have hperform : (Call.snapshot scene).perform.Runs state () (t', after) :=
    runs_bind hrun (runs_pure _ _)
  exact ⟨t', after, congrArg Prod.snd hperform, hleft.indexer, hadd⟩

theorem files_of_takeSnapshot {after : Tracker × σ} {full : Snapshot}
    (h : (takeSnapshot scene).on state = (.ok full, after)) :
    full.files = (state.1.indexer.scanned scene.tree scene.now).files := by
  obtain ⟨ids, hids, -⟩ := ids_eq state.2
  obtain ⟨_, _, hrun, -⟩ := runs_takeSnapshot scene state.1 state.2 hids rfl
  rw [Except.ok.inj (congrArg Prod.fst (h.symm.trans hrun))]
  rfl

end Runs

section Creation

variable (now : Int64)

/-- A project without files. -/
def bare : Scene := ⟨.empty, .absent, now, "00000000"⟩

/-- The project after its first file was created. -/
def begun : Scene :=
  ⟨.single "a.ts" "export const a = 1;\n".toUTF8 0, .absent, now, "00000001"⟩

/-- A tracker of the project without files, before its first snapshot. -/
def fresh : Tracker × MemoryStore :=
  (Tracker.ofStore (bare now) MemoryStore.empty "/p" Config.standard, MemoryStore.empty)

/-- The tracker after a snapshot of the project without files. -/
def settled : Tracker × MemoryStore :=
  ((Call.snapshot (bare now)).perform.on (fresh now)).2

theorem isName_first : Path.IsName "a.ts" := by
  refine ⟨?_, ?_, ?_, ?_⟩ <;> decide

theorem reachable_first : Reachable "a.ts" := by
  refine ⟨?_, ?_⟩ <;> decide

theorem wellFormed_begun : (begun now).tree.WellFormed :=
  wellFormed_single isName_first reachable_first

theorem run_settled {now : Int64} {limit : Int} (hnonneg : 0 ≤ now.toInt)
    (hlt : now.toInt < limit) :
    Run (Call.ByClock limit) "/p" Config.standard 1 (some .empty) (settled now) :=
  .called (c := .snapshot (bare now)) (.opened (bare now) fun _ => rfl)
    ⟨⟨wellFormed_empty, trivial⟩, hnonneg, hlt⟩

theorem indexer_settled : ∃ dirty, (settled now).1.indexer =
    ((fresh now).1.indexer.scanned (bare now).tree now).marked dirty := by
  obtain ⟨t', after, hstate, hix, -⟩ := on_snapshot (bare now) (fresh now)
    (ids_of_empty fun _ => rfl) rfl
  rw [settled, hstate]
  exact hix

theorem byClock_track {now later : Int64} {limit : Int} (hnonneg : 0 ≤ later.toInt)
    (hlt : later.toInt < limit) :
    (Call.track (begun later) ["a.ts"]).ByClock limit (some .empty) (settled now) := by
  refine ⟨⟨wellFormed_begun later, ?_⟩, hnonneg, hlt⟩
  rintro before hpre
  obtain rfl := Option.some.inj hpre
  refine Indexer.informed_single isName_first reachable_first ?_
  have hroot : (settled now).1.indexer.root = "/p" := by
    obtain ⟨dirty, hix⟩ := indexer_settled now
    rw [hix]
    rfl
  rw [hroot]
  decide

/-- A file was created, and is named when the tracker is called for the second time. -/
theorem latest_eq_full_snapshot_begun :
    Run Call.Allowed "/p" Config.standard 1 (some .empty) (settled 1) ∧
      (Call.track (begun 2) ["a.ts"]).Allowed (some .empty) (settled 1) ∧
      (Call.track (begun 2) ["a.ts"]).LatestIsFull (settled 1) := by
  have hclock : Run (Call.ByClock 3) "/p" Config.standard 1 (some .empty) (settled 1) :=
    run_settled (by decide) (by decide)
  obtain ⟨hrun, hbounded⟩ := hclock.allowed (by decide)
  have hcall : (Call.track (begun 2) ["a.ts"]).ByClock 3 (some .empty) (settled 1) :=
    byClock_track (by decide) (by decide)
  have hallowed : (Call.track (begun 2) ["a.ts"]).Allowed (some .empty) (settled 1) :=
    hcall.allowed (sound_of_run hrun) (by decide) (by decide) hbounded
  exact ⟨hrun, hallowed, latest_eq_full_snapshot hrun hallowed⟩

theorem rules_settled : (settled now).1.indexer.rules = IgnoreRules.ofTree [] (bare now).tree := by
  obtain ⟨dirty, hix⟩ := indexer_settled now
  rw [hix]
  rfl

/-- A snapshot of the project with a file has the file. -/
theorem isSome_files_begun {now : Int64} {state after : Tracker × MemoryStore} {full : Snapshot}
    (htracks : state.1.indexer.rules.tracks "a.ts" = true)
    (hrun : (takeSnapshot (begun now)).on state = (.ok full, after)) :
    (full.files.get? "a.ts").isSome := by
  have hholds : (begun now).tree.Holds state.1.indexer.rules "a.ts"
      "export const a = 1;\n".toUTF8 (timeOf 0) :=
    (holds_single_iff isName_first reachable_first).mpr ⟨rfl, htracks, rfl, rfl⟩
  rw [files_of_takeSnapshot hrun]
  exact (Indexer.inStep_scanned (wellFormed_begun now) _ _ "a.ts").held _ _ hholds

/-- The tracker of the project without files has one snapshot, and no files in it. -/
theorem added_settled : ∃ first : Snapshot,
    first.id = Snapshot.makeId (timeAfter [] now) "00000000" ∧
      (∀ path, first.files.get? path = none) ∧
      Added (fresh now).2 (settled now).2 first := by
  obtain ⟨t, store, hstate, -, hadd⟩ := on_snapshot (bare now) (fresh now)
    (ids_of_empty fun _ => rfl) rfl
  have hnone : ∀ path, ((fresh now).1.indexer.scanned (bare now).tree now).files.get? path =
      none := by
    intro path
    refine Option.eq_none_iff_forall_ne_some.mpr fun r hr => ?_
    obtain ⟨_, _, _, _, hholds, -⟩ :=
      (Indexer.inStep_scanned wellFormed_empty _ now path).known r hr
    exact not_holds_empty hholds
  rw [settled, hstate]
  exact ⟨_, rfl, hnone, hadd⟩

/-- It is not enough that the clock has thirteen digits. Two snapshots are taken while it shows
    the last such time, so the second one gets a time with fourteen digits, and an id that comes
    before the first one. -/
theorem not_latestIsFull_at_limit :
    Run (Call.ByClock (10 ^ 13)) "/p" Config.standard 1 (some .empty) (settled 9999999999999) ∧
      (Call.snapshot (begun 9999999999999)).ByClock (10 ^ 13) (some .empty)
        (settled 9999999999999) ∧
      ¬ (Call.snapshot (begun 9999999999999)).LatestIsFull (settled 9999999999999) := by
  have hnonneg : 0 ≤ (9999999999999 : Int64).toInt := by decide
  have hlt : (9999999999999 : Int64).toInt < 10 ^ 13 := by decide
  refine ⟨run_settled hnonneg hlt, ⟨⟨wellFormed_begun _, trivial⟩, hnonneg, hlt⟩, ?_⟩
  rintro ⟨state', newest, hperform, hlatest, hfull⟩
  obtain ⟨first, hid, hnone, hfirst⟩ := added_settled 9999999999999
  have hids : ids (settled 9999999999999).2 = .ok [first.id] :=
    ids_of_first (ids_of_empty fun _ => rfl) hfirst
  obtain ⟨t, store, hstate, ⟨dirty, hindexer⟩, hadded⟩ :=
    on_snapshot (begun 9999999999999) (settled 9999999999999) hids rfl
  obtain rfl : state' = (t, store) := (congrArg Prod.snd hperform).symm.trans hstate
  -- The second snapshot is passed over when the newest one is looked for.
  have hbefore : compare (Snapshot.makeId (timeAfter [first.id] 9999999999999) "00000001")
      first.id = .lt := by
    rw [hid]
    decide
  have hstays : latest store = .ok (some first) :=
    latest_of_added_before hids (fun id hmem => Or.inl (List.mem_singleton.mp hmem))
      (blob_of_added hfirst) hadded hbefore
  obtain rfl : first = newest := Option.some.inj (Except.ok.inj (hstays.symm.trans hlatest))
  -- So it has no files, while there is one.
  obtain ⟨full, after, hrun, -, -, hfiles⟩ :=
    hfull (begun 9999999999999) rfl (t, store) ⟨rfl, rfl, rfl⟩
  have htracks : t.indexer.rules.tracks "a.ts" = true := by
    have hrules : t.indexer.rules = (settled 9999999999999).1.indexer.rules := by
      rw [hindexer]
      rfl
    rw [hrules, rules_settled]
    decide
  have hsome : (full.files.get? "a.ts").isSome := isSome_files_begun htracks hrun
  have hsame := hfiles "a.ts"
  rw [hnone, Option.map_none, Option.map_eq_none_iff] at hsame
  rw [hsame] at hsome
  exact nomatch hsome

end Creation

end Tracker

end Ripple
