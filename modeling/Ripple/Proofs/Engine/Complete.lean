import Ripple.Proofs.Engine.Calls
import Ripple.Proofs.Tracker.Refinement

/-!
# Complete Snapshots

A snapshot is complete if it has an outline of each of its files, made for the
content that the file is said to have, and the graph of these outlines. A
snapshot of all files always is.

A snapshot after changes has its files from the index, and its outlines from
two places: from the snapshot before, and from the files that are looked at
again because the pass found them changed or because they depend on such
files. The index may have gone on since the snapshot before, since a scan
changes it without taking a snapshot. Then a file can be known to the index in
another way than to the snapshot before, and not be looked at again. So the
snapshots of a run are complete exactly if each analysis looks again at all
files that the index and the newest snapshot disagree about.

## Theorems

* `Tracker.get_patched`: The outlines after changes, by path.
* `Engine.complete_full`: A snapshot of all files is complete.
* `Engine.complete_iff_thorough`: When all snapshots of a run are complete.
* `Engine.not_complete_after_scan`: A scan can lead to one that is not.
-/

namespace Ripple

open Store Tracker Dict

theorem Outline.path_ofTreeFile (tree : FileTree) (path hash : String) :
    (ofTreeFile tree path hash).path = path := by
  unfold ofTreeFile ofSource
  split
  · split
    · rfl
    · rfl
  · rfl

theorem Outline.hash_ofTreeFile (tree : FileTree) (path hash : String) :
    (ofTreeFile tree path hash).hash = hash := by
  unfold ofTreeFile ofSource
  split
  · split
    · rfl
    · rfl
  · rfl

/-- A snapshot has outlines of all of its files, and the graph of these outlines. -/
structure Snapshot.Complete (maxDepth : Nat) (s : Snapshot) : Prop where
  /-- There is an outline of each file, and of nothing else. -/
  keys : s.outlines.keys = s.files.keys
  /-- An outline is made for the content that the file has. -/
  hash : ∀ path r o, s.files.get? path = some r → s.outlines.get? path = some o → o.hash = r.hash
  path : ∀ path o, s.outlines.get? path = some o → o.path = path
  graph : s.graph = ImportGraph.build s.outlines maxDepth

/-- A snapshot whose outlines are made from its files is complete. -/
theorem Snapshot.complete_of_outlinesOf {s : Snapshot} {tree : FileTree} {maxDepth : Nat}
    (houts : s.outlines = outlinesOf tree s.files)
    (hgraph : s.graph = ImportGraph.build s.outlines maxDepth) : s.Complete maxDepth := by
  have hget : ∀ path, s.outlines.get? path =
      (s.files.get? path).map fun r => Outline.ofTreeFile tree path r.hash := by
    intro path
    rw [houts, outlinesOf, get_map]
  refine ⟨?_, fun path r o hr ho => ?_, fun path o ho => ?_, hgraph⟩
  · rw [houts, outlinesOf, keys_map]
  · rw [hget, hr] at ho
    rw [← Option.some.inj ho, Outline.hash_ofTreeFile]
  · rw [hget] at ho
    obtain ⟨r, -, rfl⟩ := Option.map_eq_some_iff.mp ho
    exact Outline.path_ofTreeFile _ _ _

theorem Tracker.get_patched (tree : FileTree) (previous : Snapshot)
    (files : Dict String FileRecord) (outcome : IndexOutcome) (impacted : List String)
    (path : String) : (patched tree previous files outcome impacted).get? path =
      (files.get? path).bind fun r =>
        if path ∈ outcome.updated ++ impacted then some (Outline.ofTreeFile tree path r.hash)
        else previous.outlines.get? path := by
  -- What is made afresh goes over what was there, and what has no file is left out.
  rw [patched, get_filter, get_insertAll_toList, outlinesOf, get_map, get_affected, contains]
  cases files.get? path with
  | none => simp
  | some r =>
    by_cases hmem : path ∈ outcome.updated ++ impacted
    · rw [if_pos hmem, Option.bind_some, if_pos hmem]
      rfl
    · rw [if_neg hmem, Option.bind_some, if_neg hmem]
      cases previous.outlines.get? path with
      | none => rfl
      | some o => rfl

namespace Engine

/-- The files whose outlines an analysis makes afresh. -/
def remade (previous : Snapshot) (p : IndexPass) (maxDepth : Nat) : List String :=
  p.outcome.updated ++ (impactSet previous.graph p.outcome.changed maxDepth).impacted

variable {σ : Type} [BlobStore σ]

/-- An analysis that takes a snapshot looks again at all files that are known to the index in
    another way than to the newest snapshot. -/
def Call.Thorough (state : Tracker × σ) (c : Call) : Prop :=
  c.WhenPatching state fun _ previous p => ∀ path r, p.indexer.files.get? path = some r →
    (previous.files.get? path).map FileRecord.hash ≠ some r.hash →
      path ∈ remade previous p state.1.maxDepth

theorem complete_full (scene : Scene) (state : Tracker × σ) :
    (Call.full scene state).Complete state.1.maxDepth :=
  Snapshot.complete_of_outlinesOf rfl rfl

section Patch

variable {scene : Scene} {state : Tracker × σ} {previous : Snapshot} {p : IndexPass}

/-- The outlines of a snapshot after changes, by path. -/
theorem get_outlines_patch (path : String) :
    (Call.patch scene state previous p).outlines.get? path =
      (p.indexer.files.get? path).bind fun r =>
        if path ∈ remade previous p state.1.maxDepth then
          some (Outline.ofTreeFile scene.tree path r.hash)
        else previous.outlines.get? path :=
  get_patched _ _ _ _ _ path

variable (scene state p) in
/-- A snapshot after changes is complete if all files are looked at again that the index and the
    snapshot before disagree about, and only then. -/
theorem complete_patch_iff {maxDepth : Nat} (hprev : previous.Complete maxDepth) :
    (Call.patch scene state previous p).Complete state.1.maxDepth ↔
      ∀ path r, p.indexer.files.get? path = some r →
        (previous.files.get? path).map FileRecord.hash ≠ some r.hash →
          path ∈ remade previous p state.1.maxDepth := by
  constructor
  · intro hcomp path r hr hdiff
    by_contra hmem
    -- The outline was taken over, and both snapshots claim that it fits.
    have hsome : ((Call.patch scene state previous p).outlines.get? path).isSome := by
      rw [← mem_keys_iff, hcomp.keys, mem_keys_iff]
      exact Option.isSome_iff_exists.mpr ⟨r, hr⟩
    obtain ⟨o, ho⟩ := Option.isSome_iff_exists.mp hsome
    have hhash : o.hash = r.hash := hcomp.hash path r o hr ho
    rw [get_outlines_patch, hr, Option.bind_some, if_neg hmem] at ho
    have hknown : (previous.files.get? path).isSome := by
      rw [← mem_keys_iff, ← hprev.keys, mem_keys_iff, ho]
      rfl
    obtain ⟨r', hr'⟩ := Option.isSome_iff_exists.mp hknown
    rw [hr', Option.map_some, ← hprev.hash path r' o hr' ho, hhash] at hdiff
    exact hdiff rfl
  · intro hthorough
    -- An outline that is taken over was complete before, for the same content.
    have hkept : ∀ path r, p.indexer.files.get? path = some r →
        path ∉ remade previous p state.1.maxDepth →
          ∃ o, previous.outlines.get? path = some o ∧ o.hash = r.hash := by
      intro path r hr hmem
      have hsame : (previous.files.get? path).map FileRecord.hash = some r.hash := by
        by_contra hdiff
        exact hmem (hthorough path r hr hdiff)
      obtain ⟨r', hr', hhash⟩ := Option.map_eq_some_iff.mp hsame
      have hsome : (previous.outlines.get? path).isSome := by
        rw [← mem_keys_iff, hprev.keys, mem_keys_iff, hr']
        rfl
      obtain ⟨o, ho⟩ := Option.isSome_iff_exists.mp hsome
      exact ⟨o, ho, (hprev.hash path r' o hr' ho).trans hhash⟩
    refine ⟨?keys, fun path r o hr ho => ?hash, fun path o ho => ?path, rfl⟩
    case keys =>
      refine Increasing.eq_of_mem_iff (increasing_keys _) (increasing_keys _) ?_
      intro path
      rw [mem_keys_iff, mem_keys_iff, get_outlines_patch]
      change _ ↔ (p.indexer.files.get? path).isSome
      cases hr : p.indexer.files.get? path with
      | none => simp
      | some r =>
        rw [Option.bind_some]
        split
        · simp
        · next hmem =>
          obtain ⟨o, ho, -⟩ := hkept path r hr hmem
          simp [ho]
    case hash =>
      replace hr : p.indexer.files.get? path = some r := hr
      rw [get_outlines_patch, hr, Option.bind_some] at ho
      split at ho
      · rw [← Option.some.inj ho, Outline.hash_ofTreeFile]
      · next hmem =>
        obtain ⟨o', ho', hhash⟩ := hkept path r hr hmem
        rw [← Option.some.inj (ho'.symm.trans ho), hhash]
    case path =>
      rw [get_outlines_patch] at ho
      obtain ⟨r, -, ho⟩ := Option.bind_eq_some_iff.mp ho
      split at ho
      · rw [← Option.some.inj ho, Outline.path_ofTreeFile]
      · exact hprev.path path o ho

end Patch

section Runs

variable [LawfulStore σ] {root : String} {config : Config} {past : List (Step σ)}
  {state : Engine × σ}

/-- What a call stores is complete iff the call is thorough, as long as the newest snapshot is
    complete. -/
theorem complete_draft_iff (c : Call) (state : Tracker × σ) {maxDepth : Nat}
    (hdepth : state.1.maxDepth = maxDepth)
    (h : ∀ previous, History.latest state.2 = .ok (some previous) → previous.Complete maxDepth) :
    (∀ s, c.draft? state = some s → s.Complete maxDepth) ↔ c.Thorough state := by
  subst hdepth
  refine forall_draft_iff c state (complete_full c.scene state) ?_
  intro changed previous p hlatest _
  exact complete_patch_iff c.scene state p (h previous hlatest)

/-- All snapshots that are stored in a run are complete iff each analysis looks again at all files
    that are known to the index in another way than to the newest snapshot. -/
theorem complete_iff_thorough (run : Run root config past state) :
    (∀ step ∈ past, ∀ id s, History.load step.after.2 id = .ok s →
        s.Complete config.maxDepth.toNat) ↔
      ∀ step ∈ past, step.call.Thorough (core step.before) := by
  refine run.forall_load_iff fun step hstep hprevious => ?_
  have hdepth := (run.follows.2 step hstep).maxDepth
  exact complete_draft_iff step.call (core step.before) hdepth hprevious

end Runs

section Overlooked

/-- An engine of a project without files, before its first call. -/
def fresh : Engine × MemoryStore :=
  (Engine.ofStore (bare 1) MemoryStore.empty "/p" Config.standard, MemoryStore.empty)

/-- The first call, which takes a snapshot of no files. -/
def founding : Step MemoryStore := ⟨.snapshot (bare 1), fresh⟩

/-- A file is created and analyzed. -/
def adding : Step MemoryStore := ⟨.analyze (begun 2) ["a.ts"], founding.after⟩

/-- A file is created, and found by a scan. -/
def scanning : Step MemoryStore := ⟨.scan (begun 2), founding.after⟩

/-- The project after a second file was created. -/
def extended : Scene :=
  ⟨.directory [("a.ts", .file "export const a = 1;\n".toUTF8 0), ("b.ts", .file .empty 0)], .absent,
    3, "00000002"⟩

/-- The second file is analyzed. -/
def extending : Step MemoryStore := ⟨.analyze extended ["b.ts"], scanning.after⟩

theorem latest_founding :
    History.latest founding.after.2 = .ok (some (Call.full (bare 1) (core fresh))) :=
  History.latest_of_first (History.ids_of_empty fun _ => rfl) (founding.leaves.added _ rfl)

theorem latest_scanning :
    History.latest scanning.after.2 = .ok (some (Call.full (bare 1) (core fresh))) :=
  (scanning.latest_after rfl).trans latest_founding

theorem indexer_founding : ∃ dirty, founding.after.1.tracker.indexer =
    (fresh.1.tracker.indexer.scanned .empty 1).marked dirty :=
  founding.indexer_after

/-- A file that is named when it is created is in the snapshot with its outline. -/
theorem complete_iff_thorough_adding : Run "/p" Config.standard [adding, founding] adding.after ∧
      ∀ step ∈ [adding, founding], ∀ id s, History.load step.after.2 id = .ok s →
        s.Complete Config.standard.maxDepth.toNat := by
  have hrun : Run "/p" Config.standard [adding, founding] adding.after :=
    ((Run.opened (bare 1) fun _ => rfl).step founding rfl).step adding rfl
  -- The index knows only the file that was named.
  have hnamed : ∀ dirty, ∀ path ∈ (((fresh.1.tracker.indexer.scanned .empty 1).marked dirty).passed
      (begun 2).tree 2 ["a.ts"]).indexer.files.keys,
        path ∈ (((fresh.1.tracker.indexer.scanned .empty 1).marked dirty).passed
          (begun 2).tree 2 ["a.ts"]).outcome.updated := by
    decide +kernel
  have hadding : adding.call.Thorough (core adding.before) := by
    intro previous hlatest p hchange path r hr hdiffers
    obtain ⟨dirty, hindexer⟩ := indexer_founding
    have hp : p = ((fresh.1.tracker.indexer.scanned .empty 1).marked dirty).passed
        (begun 2).tree 2 ["a.ts"] := by
      rw [← hindexer]
      rfl
    refine List.mem_append_left _ ?_
    rw [hp] at hr ⊢
    exact hnamed dirty path (mem_keys_iff.mpr (Option.isSome_iff_exists.mpr ⟨r, hr⟩))
  refine ⟨hrun, (complete_iff_thorough hrun).mpr ?_⟩
  exact List.forall_mem_cons.mpr ⟨hadding, List.forall_mem_singleton.mpr trivial⟩

theorem indexer_scanning : ∃ dirty dirty', scanning.after.1.tracker.indexer =
    (((fresh.1.tracker.indexer.scanned .empty 1).marked dirty).scanned
      (begun 2).tree 2).marked dirty' := by
  obtain ⟨dirty, hix⟩ := indexer_founding
  obtain ⟨dirty', hscan⟩ := scanning.indexer_after
  refine ⟨dirty, dirty', ?_⟩
  rw [← hix]
  exact hscan

/-- A file that was found by a scan has no outline in the next snapshot, since the analysis that
    takes the snapshot is of another file. -/
theorem not_complete_after_scan :
    Run "/p" Config.standard [extending, scanning, founding] extending.after ∧
      ¬ ∀ step ∈ [extending, scanning, founding], ∀ id s, History.load step.after.2 id = .ok s →
        s.Complete Config.standard.maxDepth.toNat := by
  have hrun : Run "/p" Config.standard [extending, scanning, founding] extending.after :=
    (((Run.opened (bare 1) fun _ => rfl).step founding rfl).step scanning rfl).step
      extending rfl
  refine ⟨hrun, fun hall => ?_⟩
  have hdepth : (core extending.before).1.maxDepth = Config.standard.maxDepth.toNat :=
    (hrun.follows.2 extending List.mem_cons_self).maxDepth
  have hthorough : extending.call.Thorough (core extending.before) := by
    refine (hrun.forall_load_iff (Q := fun step => step.call.Thorough (core step.before))
      fun step hstep hprevious => ?_).mp hall extending List.mem_cons_self
    exact complete_draft_iff _ _ (hrun.follows.2 step hstep).maxDepth hprevious
  obtain ⟨dirty, dirty', hindexer⟩ := indexer_scanning
  -- Only the second file is looked at, and nothing depends on it.
  have hoverlooked : ∀ dirty dirty', let p := ((((fresh.1.tracker.indexer.scanned .empty 1).marked
      dirty).scanned (begun 2).tree 2).marked dirty').passed extended.tree 3 ["b.ts"]
        p.outcome.isNoop = false ∧ (p.indexer.files.get? "a.ts").isSome = true ∧
          "a.ts" ∉ remade (Call.full (bare 1) (core fresh)) p
            Config.standard.maxDepth.toNat := by
    decide +kernel
  obtain ⟨hchange, hknown, hmem⟩ := hoverlooked dirty dirty'
  obtain ⟨r, hr⟩ := Option.isSome_iff_exists.mp hknown
  rw [← hindexer] at hchange hr hmem
  have hunknown : (Call.full (bare 1) (core fresh)).files.get? "a.ts" = none := by
    decide +kernel
  have hmem' := hthorough _ latest_scanning hchange "a.ts" r hr (by rw [hunknown]; exact nofun)
  rw [hdepth] at hmem'
  exact hmem hmem'

end Overlooked

end Engine

end Ripple
