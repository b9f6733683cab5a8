import Ripple.Proofs.Engine.Noted

/-!
# The Project Against Its Newest Snapshot

An engine can be asked in two ways what became of a project since a snapshot
was taken: what it would take to go back to it, and what the changes break.
The two answers come from different evidence. The first one compares the
records of files, and the second one compares outlines over the paths of both
sides. Moreover the present state is not looked up in the index but made from
the files a second time.

Both answers are about the trees all the same. A snapshot of all files has
the digest of each file that the tree has, and so does the present state, and
their outlines are made for these digests. So both answers can be compared
with what the trees have, and they agree for that reason.

A file that is to be added again when one goes back is a file that was
removed, and the other way round: this is the direction in which the two
answers are opposite.
-/

namespace Ripple

open List Store Job Indexer

section Trees

/-- An index finds a file in a tree, with a digest. -/
def Indexer.Finds (ix : Indexer) (tree : FileTree) (path hash : String) : Prop :=
  ∃ content time, tree.Holds ix.rules path content time ∧ ix.registry.kind.digest content = hash

/-- What became of a file between two trees. -/
def Indexer.Changed (ix : Indexer) (before after : FileTree) (path : String) : FileChange → Prop
  | .removed => (∃ hash, ix.Finds before path hash) ∧ ∀ hash, ¬ ix.Finds after path hash
  | .added => (∀ hash, ¬ ix.Finds before path hash) ∧ ∃ hash, ix.Finds after path hash
  | .modified => ∃ hash hash', ix.Finds before path hash ∧ ix.Finds after path hash' ∧ hash ≠ hash'

theorem Indexer.Finds.unique {ix : Indexer} {tree : FileTree} {path hash hash' : String}
    (h : ix.Finds tree path hash) (h' : ix.Finds tree path hash') : hash = hash' := by
  obtain ⟨content, time, hholds, rfl⟩ := h
  obtain ⟨content', time', hholds', rfl⟩ := h'
  rw [(hholds.unique hholds').1]

theorem Indexer.not_changed_self (ix : Indexer) (tree : FileTree) (path : String)
    (change : FileChange) : ¬ ix.Changed tree tree path change := by
  cases change with
  | removed =>
    rintro ⟨⟨hash, hfinds⟩, hnone⟩
    exact hnone hash hfinds
  | added =>
    rintro ⟨hnone, hash, hfinds⟩
    exact hnone hash hfinds
  | modified =>
    rintro ⟨hash, hash', hfinds, hfinds', hne⟩
    exact hne (hfinds.unique hfinds')

/-- Which files are found depends on the settings of an index only. -/
theorem Indexer.SameSettings.finds_iff {ix ix' : Indexer} (h : ix.SameSettings ix')
    {tree : FileTree} {path hash : String} :
    ix'.Finds tree path hash ↔ ix.Finds tree path hash := by
  rw [Finds, Finds, h.rules, h.kind]

end Trees

namespace Snapshot

/-- A snapshot has the files of a tree, with their digests. -/
def Pictures (s : Snapshot) (ix : Indexer) (tree : FileTree) : Prop :=
  ∀ path hash, s.hash? path = some hash ↔ ix.Finds tree path hash

/-- What became of a file between two snapshots. -/
def Turned (old new : Snapshot) (path : String) : FileChange → Prop
  | .removed => (∃ hash, old.hash? path = some hash) ∧ new.hash? path = none
  | .added => old.hash? path = none ∧ ∃ hash, new.hash? path = some hash
  | .modified => ∃ hash hash', old.hash? path = some hash ∧ new.hash? path = some hash' ∧
      hash ≠ hash'

theorem Pictures.hash?_eq_none_iff {s : Snapshot} {ix : Indexer} {tree : FileTree}
    (h : s.Pictures ix tree) (path : String) :
    s.hash? path = none ↔ ∀ hash, ¬ ix.Finds tree path hash := by
  rw [Option.eq_none_iff_forall_ne_some]
  exact forall_congr' fun hash => not_congr (h path hash)

/-- What became of a file between two snapshots is what became of it between their trees. -/
theorem turned_iff_changed {old new : Snapshot} {ix : Indexer} {before after : FileTree}
    (hold : old.Pictures ix before) (hnew : new.Pictures ix after) {path : String}
    {change : FileChange} : old.Turned new path change ↔ ix.Changed before after path change := by
  cases change with
  | removed =>
    exact and_congr (exists_congr fun hash => hold path hash) (hnew.hash?_eq_none_iff path)
  | added =>
    exact and_congr (hold.hash?_eq_none_iff path) (exists_congr fun hash => hnew path hash)
  | modified =>
    exact exists_congr fun hash => exists_congr fun hash' =>
      and_congr (hold path hash) (and_congr_left' (hnew path hash'))

theorem turned_iff {old new : Snapshot} {path : String} {change : FileChange} :
    old.Turned new path change ↔
      FileChange.between (old.hash? path) (new.hash? path) = some change := by
  cases change <;> simp only [Turned] <;> cases old.hash? path <;> cases new.hash? path <;>
    simp [FileChange.between]

end Snapshot

namespace RestorePreview

/-- The files to which something happened: what was removed has to be added again. -/
def listing (p : RestorePreview) : FileChange → List String
  | .removed => p.added
  | .added => p.removed
  | .modified => p.modified

theorem mem_listing_iff {id : String} {old new : Snapshot} {path : String} {change : FileChange} :
    path ∈ (between id old.files new.files).listing change ↔ old.Turned new path change := by
  cases change with
  | removed =>
    simp only [listing, between, mem_filter, Dict.mem_keys_iff, Dict.contains,
      Snapshot.Turned, Snapshot.hash?, Bool.not_eq_true', Option.isSome_eq_false_iff]
    cases old.files.get? path <;> simp
  | added =>
    simp only [listing, between, mem_filter, Dict.mem_keys_iff, Dict.contains,
      Snapshot.Turned, Snapshot.hash?, Bool.not_eq_true', Option.isSome_eq_false_iff]
    cases new.files.get? path <;> cases old.files.get? path <;> simp
  | modified =>
    simp only [listing, between, mem_filter, Dict.mem_keys_iff, Snapshot.Turned, Snapshot.hash?]
    cases old.files.get? path <;> cases new.files.get? path <;> simp

end RestorePreview

namespace Snapshot

variable {old new : Snapshot} {depth depth' : Nat} {path : String}

theorem Complete.shown?_eq_hash? {s : Snapshot} (h : s.Complete depth) (path : String) :
    s.shown? path = s.hash? path := by
  cases ho : s.outlines.get? path with
  | none => exact shown?_of_no_outline ho
  | some o =>
    obtain ⟨r, hr⟩ := Option.isSome_iff_exists.mp
      (h.tidy.known path (Option.isSome_iff_exists.mpr ⟨o, ho⟩))
    rw [shown?_of_outline ho, hash?, hr, h.hash path r o hr ho]
    rfl

variable (weight : UInt32) (graph : Option PropertyGraph)

/-- What became of a file is reported, and nothing else. -/
theorem exists_report_turned_iff (hold : old.Complete depth) (hnew : new.Complete depth')
    {change : FileChange} :
    (∃ r ∈ old.reports new weight graph, r.path = path ∧ r.change = change) ↔
      old.Turned new path change := by
  rw [exists_report_change_iff weight graph hold.tidy.path hnew.tidy.path, turned_iff,
    hold.shown?_eq_hash?, hnew.shown?_eq_hash?]

end Snapshot

section Pictures

variable {scene : Scene}

theorem Tracker.complete_preview (t : Tracker) (scene : Scene) :
    (t.preview scene).Complete t.maxDepth :=
  Snapshot.complete_of_outlinesOf rfl rfl

theorem Tracker.pictures_preview (t : Tracker) (htree : scene.tree.WellFormed) :
    (t.preview scene).Pictures t.indexer scene.tree := by
  have hhash : ∀ path r, (t.preview scene).files.get? path = some r →
      t.indexer.Finds scene.tree path r.hash := by
    intro path r hr
    -- What is listed under a path was made from a file that a walk finds.
    rcases Dict.mem_of_get_insertAll hr with hmem | hempty
    · obtain ⟨f, hf, heq⟩ := mem_map.mp hmem
      obtain ⟨rfl, rfl⟩ := Prod.mk.inj heq
      exact ⟨f.content, FileTree.timeOf f.modified,
        (FileTree.holds_iff_mem_walk htree).mpr ⟨f.modified, hf, rfl⟩, rfl⟩
    · cases hempty
  intro path hash
  rw [Snapshot.hash?, Option.map_eq_some_iff]
  constructor
  · rintro ⟨r, hr, rfl⟩
    exact hhash path r hr
  · -- A file of the tree is listed, and what is listed for it was made from the same file.
    rintro ⟨content, time, hholds, rfl⟩
    obtain ⟨modified, hmem, -⟩ := (FileTree.holds_iff_mem_walk htree).mp hholds
    have hlist : path ∈ (t.preview scene).files.keys := by
      refine Dict.mem_keys_ofList.mpr ?_
      rw [map_map]
      exact mem_map.mpr ⟨_, hmem, rfl⟩
    obtain ⟨r, hr⟩ := Option.isSome_iff_exists.mp (Dict.mem_keys_iff.mp hlist)
    exact ⟨r, hr, (hhash path r hr).unique ⟨content, time, hholds, rfl⟩⟩

theorem Indexer.InStep.hash_eq_some_iff {ix : Indexer} {tree : FileTree} {path hash : String}
    (h : ix.InStep tree path) :
    (ix.files.get? path).map FileRecord.hash = some hash ↔ ix.Finds tree path hash := by
  rw [Option.map_eq_some_iff]
  constructor
  · rintro ⟨r, hr, rfl⟩
    obtain ⟨content, time, modified, now, hholds, rfl⟩ := h.known r hr
    exact ⟨content, time, hholds, rfl⟩
  · rintro ⟨content, time, hholds, rfl⟩
    obtain ⟨r, hr⟩ := Option.isSome_iff_exists.mp (h.held content time hholds)
    obtain ⟨content', time', modified, now, hholds', rfl⟩ := h.known r hr
    exact ⟨_, hr, by rw [(hholds.unique hholds').1]; rfl⟩

theorem Indexer.sameSettings_scanned (ix : Indexer) (tree : FileTree) (now : Int64)
    (dirty : Bool) : ix.SameSettings ((ix.scanned tree now).marked dirty) :=
  ⟨rfl, rfl, HashRegistry.kind_foldl_update _ _⟩

end Pictures

namespace Engine

variable {σ : Type} [BlobStore σ]

theorem pictures_full {scene : Scene} (state : Tracker × σ) (htree : scene.tree.WellFormed) :
    (Call.full scene state).Pictures state.1.indexer scene.tree := by
  intro path hash
  have hstep := inStep_scanned htree state.1.indexer scene.now path
  have hset := sameSettings_scanned state.1.indexer scene.tree scene.now false
  exact hstep.hash_eq_some_iff.trans hset.finds_iff

variable [AtomicStore σ] {scene later : Scene} {state after asker : Engine × σ} {s : Snapshot}

/-- Taking a snapshot that goes through adds the snapshot of all files and keeps the settings. -/
theorem full_of_runs_createSnapshot (h : (createSnapshot scene).Runs state s after) :
    s = Call.full scene (core state) ∧ History.Added state.2 after.2 s ∧
      state.1.tracker.indexer.SameSettings after.1.tracker.indexer := by
  obtain ⟨_, middle, htake, hrest⟩ := runs_bind_iff.mp h
  obtain ⟨_, _, hpublish, hpure⟩ := runs_bind_iff.mp hrest
  obtain ⟨rfl, rfl⟩ := runs_pure_iff.mp hpure
  obtain ⟨hleft, hfiled⟩ := (ends_full scene (core state)).of_runs (runs_of_runs_onTracker htake)
  obtain ⟨dirty, hix⟩ := hleft.indexer
  obtain ⟨rfl, hadd⟩ := hfiled.added_of_ok
  -- Publishing touches neither the index nor the store.
  obtain rfl := (Prod.mk.inj hpublish).2
  refine ⟨rfl, hadd, ?_⟩
  change state.1.tracker.indexer.SameSettings (core middle).1.indexer
  rw [hix]
  exact sameSettings_scanned _ _ _ _

/-- Let a snapshot be taken of a tree and be the newest one, and let an engine with the same
    settings be asked later, when the snapshots are still the same ones. Both comparisons go
    through and change nothing. They list a file exactly if something became of it between the two
    trees, and they list it as what became of it. The reports come in the order of the paths, one
    for each. Nothing is listed if the tree has stayed. -/
theorem previews_agree (hrun : (createSnapshot scene).Runs state s after)
    (hlatest : History.latest after.2 = .ok (some s))
    (hsettings : after.1.tracker.indexer.SameSettings asker.1.tracker.indexer)
    (hagree : AgreeBelow Keys.snapshots after.2 asker.2)
    (htree : scene.tree.WellFormed) (hlater : later.tree.WellFormed) :
    ∃ preview reports,
      (look fun store => asker.1.restorePreview later store s.id).Runs asker preview asker ∧
      (look (asker.1.breakingChanges later)).Runs asker reports asker ∧
      (∀ path change, path ∈ preview.listing change ↔
        asker.1.tracker.indexer.Changed scene.tree later.tree path change) ∧
      (∀ path change, (∃ r ∈ reports, r.path = path ∧ r.change = change) ↔
        asker.1.tracker.indexer.Changed scene.tree later.tree path change) ∧
      Increasing (reports.map ChangeReport.path) ∧
      (later.tree = scene.tree →
        preview.added = [] ∧ preview.removed = [] ∧ preview.modified = [] ∧ reports = []) := by
  obtain ⟨hfull, hadded, hkept⟩ := full_of_runs_createSnapshot hrun
  have hload : History.load asker.2 s.id = .ok s :=
    (History.load_of_agree hagree).mpr ((History.load_of_added hadded s.id s).mpr (.inl ⟨rfl, rfl⟩))
  have hnewest : History.latest asker.2 = .ok (some s) :=
    (History.latest_congr hagree).trans hlatest
  -- Both sides have the files of their trees, as the engine that is asked finds them.
  have hold : s.Pictures asker.1.tracker.indexer scene.tree := by
    intro path hash
    rw [hfull]
    exact (pictures_full (core state) htree path hash).trans (hkept.trans hsettings).finds_iff.symm
  have hnew := asker.1.tracker.pictures_preview hlater
  have hcomplete : s.Complete state.1.tracker.maxDepth := hfull ▸ complete_full scene (core state)
  have hpreview := asker.1.tracker.complete_preview later
  let preview := RestorePreview.between s.id s.files (asker.1.tracker.preview later).files
  let current := asker.1.tracker.preview later
  let reports := s.reports current asker.1.config.driftWeight
    (some (PropertyGraph.build current.outlines current.graph))
  have hlisted : ∀ path change, path ∈ preview.listing change ↔
      asker.1.tracker.indexer.Changed scene.tree later.tree path change :=
    fun path change => RestorePreview.mem_listing_iff.trans (Snapshot.turned_iff_changed hold hnew)
  have hreported : ∀ path change, (∃ r ∈ reports, r.path = path ∧ r.change = change) ↔
      asker.1.tracker.indexer.Changed scene.tree later.tree path change :=
    fun path change => (Snapshot.exists_report_turned_iff _ _ hcomplete hpreview).trans
      (Snapshot.turned_iff_changed hold hnew)
  refine ⟨preview, reports, runs_look_iff.mpr ⟨?_, rfl⟩, runs_look_iff.mpr ⟨?_, rfl⟩, hlisted,
    hreported, Snapshot.increasing_paths_reports _ _ hcomplete.tidy.path hpreview.tidy.path,
    fun hsame => ?_⟩
  · rw [restorePreview, hload]
    rfl
  · rw [breakingChanges, hnewest]
    rfl
  · rw [hsame] at hlisted hreported
    have hnone : ∀ change, preview.listing change = [] := fun change =>
      eq_nil_iff_forall_not_mem.mpr fun path hmem =>
        not_changed_self _ _ _ _ ((hlisted path change).mp hmem)
    refine ⟨hnone .removed, hnone .added, hnone .modified,
      eq_nil_iff_forall_not_mem.mpr fun r hr => ?_⟩
    exact not_changed_self _ _ _ _ ((hreported r.path r.change).mp ⟨r, hr, rfl, rfl⟩)

omit [AtomicStore σ] in
theorem exists_runs_createSnapshot [LawfulStore σ] (scene : Scene) (state : Engine × σ) :
    ∃ s after, (createSnapshot scene).Runs state s after := by
  obtain ⟨t, store, htake, -⟩ := runs_full scene (core state)
  refine ⟨_, _, runs_bind (runs_inside htake) (runs_bind (runs_publish _ _) (runs_pure _ _))⟩

/-- What is found in a directory with one file. -/
theorem finds_single_iff {ix : Indexer} {name path hash : String} {content : ByteArray}
    {modified : Int64} (hname : Path.IsName name) (hreach : FileTree.Reachable name) :
    ix.Finds (.single name content modified) path hash ↔
      path = name ∧ ix.rules.tracks name = true ∧ ix.registry.kind.digest content = hash := by
  simp only [Finds, FileTree.holds_single_iff hname hreach]
  constructor
  · rintro ⟨_, _, ⟨hpath, htracks, rfl, -⟩, hhash⟩
    exact ⟨hpath, htracks, hhash⟩
  · rintro ⟨hpath, htracks, hhash⟩
    exact ⟨content, _, ⟨hpath, htracks, rfl, rfl⟩, hhash⟩

/-- A project whose only file has another name. -/
def renamed : Scene := ⟨.single "b.ts" .empty 0, .absent, 3, "00000002"⟩

/-- A file was given another name since the first snapshot, and both comparisons tell. -/
theorem previews_agree_renamed : ∃ s after preview reports,
    (createSnapshot (Tracker.begun 1)).Runs fresh s after ∧
      History.latest after.2 = .ok (some s) ∧
      (look fun store => after.1.restorePreview renamed store s.id).Runs after preview after ∧
      (look (after.1.breakingChanges renamed)).Runs after reports after ∧
      "a.ts" ∈ preview.added ∧ "b.ts" ∈ preview.removed ∧
      (∃ r ∈ reports, r.path = "a.ts" ∧ r.change = .removed) ∧
      (∃ r ∈ reports, r.path = "b.ts" ∧ r.change = .added) ∧
      Increasing (reports.map ChangeReport.path) := by
  have hname : Path.IsName "b.ts" := ⟨by decide, by decide, by decide, by decide⟩
  have hreach : FileTree.Reachable "b.ts" := ⟨by decide, by decide⟩
  have htracks : ∀ name ∈ ["a.ts", "b.ts"], fresh.1.tracker.indexer.rules.tracks name = true := by
    decide +kernel
  obtain ⟨s, after, hrun⟩ := exists_runs_createSnapshot (Tracker.begun 1) fresh
  obtain ⟨-, hadded, hkept⟩ := full_of_runs_createSnapshot hrun
  have hlatest := History.latest_of_first (History.ids_of_empty fun _ => rfl) hadded
  have hlater : renamed.tree.WellFormed := FileTree.wellFormed_single hname hreach
  obtain ⟨preview, reports, hpreview, hreports, hlisted, hreported, hincreasing, -⟩ :=
    previews_agree hrun hlatest (.refl _) (agreeBelow_refl _ _)
      (Tracker.wellFormed_begun 1) hlater
  have hfirst : ∀ {path hash}, after.1.tracker.indexer.Finds (Tracker.begun 1).tree path hash ↔ _ :=
    finds_single_iff Tracker.isName_first Tracker.reachable_first
  have hsecond : ∀ {path hash}, after.1.tracker.indexer.Finds renamed.tree path hash ↔ _ :=
    finds_single_iff hname hreach
  rw [← hkept.rules] at htracks
  have hremoved : after.1.tracker.indexer.Changed (Tracker.begun 1).tree renamed.tree "a.ts"
      .removed := by
    refine ⟨⟨_, hfirst.mpr ⟨rfl, htracks _ (by decide), rfl⟩⟩, fun hash hfinds => ?_⟩
    exact absurd (hsecond.mp hfinds).1 (by decide)
  have hnew : after.1.tracker.indexer.Changed (Tracker.begun 1).tree renamed.tree "b.ts"
      .added := by
    refine ⟨fun hash hfinds => ?_, ⟨_, hsecond.mpr ⟨rfl, htracks _ (by decide), rfl⟩⟩⟩
    exact absurd (hfirst.mp hfinds).1 (by decide)
  exact ⟨s, after, preview, reports, hrun, hlatest, hpreview, hreports,
    (hlisted "a.ts" .removed).mpr hremoved, (hlisted "b.ts" .added).mpr hnew,
    (hreported "a.ts" .removed).mpr hremoved, (hreported "b.ts" .added).mpr hnew, hincreasing⟩

end Engine

end Ripple
