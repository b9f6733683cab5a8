import Ripple.Proofs.Engine.Complete

/-!
# Outlines and Their Digests

An outline comes with the digest of the content that it was made from. What
compares two snapshots goes by digests: files with the same digest are not
looked into. So the outline had better describe a content that has the
digest.

The content that an outline is made from is read when the snapshot is taken,
while the digest is the one that the index has. For a snapshot of all files
the index was made just before. For a snapshot after changes it was so for the
files that the pass found changed. But the files that depend on them are read
as well, and of those the index may know a digest from long ago, since no one
has to name them. All other outlines are taken over together with their
digests. So the snapshots of a run are faithful exactly if no analysis reads a
file anew, only because another one changed, and finds it otherwise than its
digest says.

Which contents there are at all is left open in what follows. It may be all
byte strings, or only those that files have in the course of a run. With the
latter it does not matter that there are contents with the same digest
somewhere.

## Theorems

* `IndexPass.grounded_foldl`: A pass knows the digests of the files that it found changed.
* `Engine.faithful_full`: A snapshot of all files is faithful.
* `Engine.faithful_iff_candid`: When all snapshots of a run are faithful.
* `Engine.not_faithful_after_edit`: A file that is edited and not named can lead to one that is not.
-/

namespace Ripple

open List Store

namespace Outline

/-- The outline of a file with the given content. -/
def ofContent (path hash : String) (content : ByteArray) : Outline :=
  match strictText? content with
  | some source => ofSource path hash source
  | none => unread path hash ("Failed to read file: " ++ FileFault.notText.message)

theorem ofTreeFile_of_read {tree : FileTree} {path : String} {content : ByteArray}
    (h : tree.read path = .ok content) (hash : String) :
    ofTreeFile tree path hash = ofContent path hash content := by
  simp only [ofTreeFile, FileTree.readText, h, ofContent, bind, Except.bind]
  cases strictText? content with
  | none => rfl
  | some source => rfl

/-- An outline of a file describes a content that its digest names, among some contents. -/
def Describes (kind : DigestKind) (contents : ByteArray → Prop) (path : String) (o : Outline) :
    Prop :=
  ∃ content, contents content ∧ kind.digest content = o.hash ∧ o = ofContent path o.hash content

/-- An outline that is made with the digest of the file that is read describes the file. -/
theorem describes_of_read {kind : DigestKind} {contents : ByteArray → Prop} {tree : FileTree}
    {path hash : String} {content : ByteArray} (h : tree.read path = .ok content)
    (hcont : contents content) (hhash : hash = kind.digest content) :
    (ofTreeFile tree path hash).Describes kind contents path := by
  refine ⟨content, hcont, ?_, ?_⟩
  · rw [hash_ofTreeFile, hhash]
  · rw [hash_ofTreeFile, ofTreeFile_of_read h]

end Outline

/-- Each outline of a snapshot describes a content that its digest names, among the contents that
    are possible for the file. -/
def Snapshot.Faithful (kind : DigestKind) (possible : String → ByteArray → Prop) (s : Snapshot) :
    Prop :=
  ∀ path o, s.outlines.get? path = some o → o.Describes kind (possible path) path

namespace IndexPass

variable {tree : FileTree} {path : String} {p p' : IndexPass}

/-- The files that a pass found changed are known with the digests that they have in a tree. -/
def Grounded (tree : FileTree) (p : IndexPass) : Prop :=
  ∀ path ∈ p.outcome.updated, ∀ r, p.indexer.files.get? path = some r →
    ∃ content, tree.read path = .ok content ∧ r.hash = p.indexer.registry.kind.digest content

theorem Grounded.untouched (h : Grounded tree p) (hsame : Untouched p p')
    (hkind : p'.indexer.registry.kind = p.indexer.registry.kind) : Grounded tree p' := by
  intro path hmem r hr
  rw [hsame.updated] at hmem
  rw [hsame.files] at hr
  rw [hkind]
  exact h path hmem r hr

theorem Grounded.visited (h : Grounded tree p) (hvis : Visited tree path p p') :
    Grounded tree p' := by
  have hkind := hvis.settings.kind
  cases hvis.look with
  | absent _ _ untouched => exact h.untouched untouched hkind
  | ignored _ _ untouched => exact h.untouched untouched hkind
  | unchanged _ _ _ _ _ untouched => exact h.untouched untouched hkind
  | dropped _ _ files _ updated _ =>
    intro other hmem r hr
    rw [updated] at hmem
    rw [files, Dict.get_erase] at hr
    rw [hkind]
    split at hr
    · exact nomatch hr
    · exact h other hmem r hr
  | @taken content _ _ found _ _ files _ updated _ =>
    -- The record of this file is new and all others are as before.
    intro other hmem r hr
    rw [files, Dict.get_insert] at hr
    rw [hkind]
    by_cases hother : other = path
    · rw [if_pos hother] at hr
      rw [← Option.some.inj hr, hother]
      exact ⟨content, FileTree.read_of_file found, rfl⟩
    · rw [if_neg hother] at hr
      rw [updated, mem_append, mem_singleton, or_iff_left hother] at hmem
      exact h other hmem r hr

theorem grounded_foldl (tree : FileTree) (now : Int64) (changed : List String) (ix : Indexer) :
    Grounded tree (changed.foldl (visit tree now) (start ix)) := by
  have hstart : Grounded tree (start ix) := fun _ hmem => absurd hmem not_mem_nil
  exact foldl_of_visited tree now changed hstart fun _ _ _ => .visited

end IndexPass

namespace Engine

variable {σ : Type} [BlobStore σ] {possible : String → ByteArray → Prop}

/-- A file has a content at one of the calls of a run. -/
def Seen (past : List (Step σ)) (path : String) (content : ByteArray) : Prop :=
  ∃ step ∈ past, step.call.scene.tree.read path = .ok content

/-- An analysis that takes a snapshot reads files anew that it did not find changed, and each of
    them reads like a content with the digest that the index has. -/
def Call.Candid (possible : String → ByteArray → Prop) (state : Tracker × σ) (c : Call) : Prop :=
  c.WhenPatching state fun scene previous p => ∀ path r, p.indexer.files.get? path = some r →
    path ∈ remade previous p state.1.maxDepth → path ∉ p.outcome.updated →
      ∃ content, possible path content ∧ state.1.indexer.registry.kind.digest content = r.hash ∧
        Outline.ofTreeFile scene.tree path r.hash = Outline.ofContent path r.hash content

theorem faithful_full {scene : Scene} (hformed : scene.tree.WellFormed)
    (hposs : ∀ path content, scene.tree.read path = .ok content → possible path content)
    (state : Tracker × σ) :
    (Call.full scene state).Faithful state.1.indexer.registry.kind possible := by
  intro path o ho
  have hkind : (state.1.indexer.scanned scene.tree scene.now).registry.kind =
      state.1.indexer.registry.kind := HashRegistry.kind_foldl_update _ _
  rw [show (Call.full scene state).outlines.get? path = _ from Dict.get_map _ _ path] at ho
  obtain ⟨r, hr, rfl⟩ := Option.map_eq_some_iff.mp ho
  -- The index was made from the same tree just before.
  obtain ⟨content, time, _, _, hholds, hrec⟩ :=
    (Indexer.inStep_scanned hformed state.1.indexer scene.now path).known r hr
  have hread := FileTree.read_of_file hholds.found
  refine Outline.describes_of_read hread (hposs path content hread) ?_
  rw [hrec, hkind]
  rfl

section Patch

variable {scene : Scene} {state : Tracker × σ} {previous : Snapshot} {changed : List String}
  {p : IndexPass}

/-- A snapshot after changes is faithful if the files that are read anew, without being found
    changed, are as their digests say, and only then. -/
theorem faithful_patch_iff (hp : state.1.indexer.passed scene.tree scene.now changed = p)
    (hposs : ∀ path content, scene.tree.read path = .ok content → possible path content)
    (hprev : previous.Faithful state.1.indexer.registry.kind possible) :
    (Call.patch scene state previous p).Faithful state.1.indexer.registry.kind possible ↔
      ∀ path r, p.indexer.files.get? path = some r →
        path ∈ remade previous p state.1.maxDepth → path ∉ p.outcome.updated →
          ∃ content, possible path content ∧ state.1.indexer.registry.kind.digest content = r.hash ∧
            Outline.ofTreeFile scene.tree path r.hash = Outline.ofContent path r.hash content := by
  constructor
  · intro hfaithful path r hr hmem _
    have ho : (Call.patch scene state previous p).outlines.get? path =
        some (Outline.ofTreeFile scene.tree path r.hash) := by
      rw [get_outlines_patch, hr, Option.bind_some, if_pos hmem]
    obtain ⟨content, hcont, hdig, heq⟩ := hfaithful path _ ho
    rw [Outline.hash_ofTreeFile] at hdig heq
    exact ⟨content, hcont, hdig, heq⟩
  · intro hcandid path o ho
    rw [get_outlines_patch] at ho
    obtain ⟨r, hr, ho⟩ := Option.bind_eq_some_iff.mp ho
    by_cases hmem : path ∈ remade previous p state.1.maxDepth
    · rw [if_pos hmem] at ho
      rw [← Option.some.inj ho]
      by_cases hupd : path ∈ p.outcome.updated
      · -- The digest was taken from the file just before it was read.
        have hgrounded := IndexPass.grounded_foldl scene.tree scene.now changed state.1.indexer
        have hset := IndexPass.sameSettings_foldl scene.tree scene.now changed
          (.start state.1.indexer)
        rw [show changed.foldl _ _ = p from hp] at hgrounded hset
        obtain ⟨content, hread, hhash⟩ := hgrounded path hupd r hr
        refine Outline.describes_of_read hread (hposs path content hread) ?_
        rw [hhash, hset.kind]
        rfl
      · obtain ⟨content, hcont, hdig, heq⟩ := hcandid path r hr hmem hupd
        refine ⟨content, hcont, ?_, ?_⟩
        · rw [Outline.hash_ofTreeFile, hdig]
        · rw [Outline.hash_ofTreeFile, heq]
    · rw [if_neg hmem] at ho
      exact hprev path o ho

end Patch

section Runs

variable [LawfulStore σ] {root : String} {config : Config} {past : List (Step σ)}
  {state : Engine × σ}

/-- What a call stores is faithful iff the call is candid, as long as the newest snapshot is
    faithful. -/
theorem faithful_draft_iff (c : Call) (state : Tracker × σ) {kind : DigestKind}
    (hkind : state.1.indexer.registry.kind = kind) (hformed : c.scene.tree.WellFormed)
    (hposs : ∀ path content, c.scene.tree.read path = .ok content → possible path content)
    (h : ∀ previous, History.latest state.2 = .ok (some previous) →
      previous.Faithful kind possible) :
    (∀ s, c.draft? state = some s → s.Faithful kind possible) ↔ c.Candid possible state := by
  subst hkind
  refine forall_draft_iff c state (faithful_full hformed hposs state) ?_
  intro changed previous p hlatest hp
  exact faithful_patch_iff hp hposs (h previous hlatest)

/-- All snapshots that are stored in a run are faithful iff each analysis finds the files as their
    digests say that it reads anew without finding them changed. -/
theorem faithful_iff_candid (run : Run root config past state)
    (hformed : ∀ step ∈ past, step.call.scene.tree.WellFormed)
    (hpossible : ∀ path content, Seen past path content → possible path content) :
    (∀ step ∈ past, ∀ id s, History.load step.after.2 id = .ok s →
        s.Faithful config.digest possible) ↔
      ∀ step ∈ past, step.call.Candid possible (core step.before) := by
  refine run.forall_load_iff fun step hstep hprevious => ?_
  refine faithful_draft_iff step.call (core step.before) (run.follows.2 step hstep).kind
    (hformed step hstep) (fun path content hread => ?_) hprevious
  exact hpossible path content ⟨step, hstep, hread⟩

end Runs

section Edited

/-- Settings with the quicker one of the two digests. -/
def quick : Config := { Config.standard with digest := .xxh3 }

/-- A project with two files. -/
def paired (first second : ByteArray) (modified now : Int64) (salt : String) : Scene :=
  ⟨.directory [("a.ts", .file first 0), ("b.ts", .file second modified)], .absent, now, salt⟩

/-- The content of a file that imports the second one. -/
def linked : ByteArray := "import\"./b\"".toUTF8

/-- A project whose first file imports the second one. -/
def pair : Scene := paired linked .empty 0 1 "00000000"

/-- An engine of the project, before its first call. -/
def unused : Engine × MemoryStore :=
  (Engine.ofStore pair MemoryStore.empty "/p" quick, MemoryStore.empty)

/-- The first call, which takes a snapshot. -/
def linking : Step MemoryStore := ⟨.snapshot pair, unused⟩

variable (first : ByteArray)

/-- The project after the second file was edited, and maybe also the first one. -/
def revised : Scene := paired first "1".toUTF8 1 2 "00000001"

/-- The second file is analyzed. -/
def revising : Step MemoryStore :=
  ⟨.analyze (revised first) ["b.ts"], linking.after⟩

theorem wellFormed_paired (first second : ByteArray) (modified now : Int64) (salt : String) :
    (paired first second modified now salt).tree.WellFormed := by
  refine FileTree.wellFormed_of_files ?_ ?_ ?_ (by simp)
  · simp [FileTree.isFile]
  · simp only [mem_cons, not_mem_nil, or_false, forall_eq_or_imp, forall_eq]
    refine ⟨⟨?_, ?_, ?_, ?_⟩, ⟨?_, ?_, ?_, ?_⟩⟩ <;> decide
  · simp only [mem_cons, not_mem_nil, or_false, forall_eq_or_imp, forall_eq]
    refine ⟨⟨?_, ?_⟩, ⟨?_, ?_⟩⟩ <;> decide

theorem seen_revising {first content : ByteArray}
    (h : Seen [revising first, linking] "a.ts" content) : content = first ∨ content = linked := by
  rcases h with ⟨step, hstep, hread⟩
  rcases mem_cons.mp hstep with rfl | hlinking
  · exact .inl (Except.ok.inj hread).symm
  · rw [mem_singleton.mp hlinking] at hread
    exact .inr (Except.ok.inj hread).symm

theorem run_revising : Run "/p" quick [revising first, linking] (revising first).after :=
  ((Run.opened pair fun _ => rfl).step linking rfl).step (revising first) rfl

theorem latest_linking :
    History.latest linking.after.2 = .ok (some (Call.full pair (core unused))) :=
  History.latest_of_first (History.ids_of_empty fun _ => rfl) (linking.leaves.added _ rfl)

theorem indexer_linking : ∃ dirty, linking.after.1.tracker.indexer =
    (unused.1.tracker.indexer.scanned pair.tree pair.now).marked dirty :=
  linking.indexer_after

/-- What the pass finds: the second file has changed, and the first one, which depends on it, is
    known with the digest that it had. -/
theorem passed_revising : ∀ first ∈ [linked, .empty], ∀ dirty,
    let p := ((unused.1.tracker.indexer.scanned pair.tree pair.now).marked dirty).passed
      (revised first).tree (revised first).now ["b.ts"]
    p.outcome.isNoop = false ∧ p.outcome.updated = ["b.ts"] ∧
      p.indexer.files.keys = ["a.ts", "b.ts"] ∧
      (p.indexer.files.get? "a.ts").map FileRecord.hash = some (DigestKind.xxh3.digest linked) ∧
      "a.ts" ∈ remade (Call.full pair (core unused)) p quick.maxDepth.toNat := by
  decide +kernel

/-- The analysis is candid if the first file reads like a content with the digest that it had. -/
theorem candid_revising_iff {first : ByteArray} (hfst : first ∈ [linked, .empty])
    {possible : String → ByteArray → Prop} :
    (revising first).call.Candid possible (core (revising first).before) ↔
      ∃ content, possible "a.ts" content ∧
        DigestKind.xxh3.digest content = DigestKind.xxh3.digest linked ∧
        Outline.ofContent "a.ts" (DigestKind.xxh3.digest linked) first =
          Outline.ofContent "a.ts" (DigestKind.xxh3.digest linked) content := by
  have hfollows := (run_revising first).follows.2 (revising first) mem_cons_self
  have hdepth : (core (revising first).before).1.maxDepth = quick.maxDepth.toNat :=
    hfollows.maxDepth
  have hkind : (core (revising first).before).1.indexer.registry.kind = .xxh3 := hfollows.kind
  have hlatest : History.latest (core (revising first).before).2 =
      .ok (some (Call.full pair (core unused))) := latest_linking
  obtain ⟨dirty, hix⟩ := indexer_linking
  have hbefore : (core (revising first).before).1.indexer = linking.after.1.tracker.indexer := rfl
  -- Nothing else matters of the state.
  change (Call.analyze (revised first) ["b.ts"]).Candid possible _ ↔ _
  obtain ⟨hchange, hupd, hkeys, hhash, hmem⟩ := passed_revising first hfst dirty
  rw [← hix, ← hbefore] at hchange hupd hkeys hhash hmem
  rw [Call.Candid, Call.whenPatching_analyze_iff _ _ hlatest rfl hchange, hupd]
  obtain ⟨r, hr, hdig⟩ := Option.map_eq_some_iff.mp hhash
  have hread : (revised first).tree.read "a.ts" = .ok first := rfl
  constructor
  · intro hall
    obtain ⟨content, hposs, hsame, heq⟩ := hall "a.ts" r hr hmem (by decide)
    rw [hdig] at hsame heq
    rw [Outline.ofTreeFile_of_read hread] at heq
    exact ⟨content, hposs, hsame, heq⟩
  · rintro ⟨content, hposs, hsame, heq⟩ path r' hr' - hnew
    -- The first file is the only one that was not found changed.
    have hknown := Dict.mem_keys_iff.mpr (Option.isSome_iff_exists.mpr ⟨r', hr'⟩)
    rw [hkeys, mem_pair] at hknown
    rw [mem_singleton] at hnew
    obtain rfl := hknown.resolve_right hnew
    obtain rfl := Option.some.inj (hr.symm.trans hr')
    rw [hdig, Outline.ofTreeFile_of_read hread]
    exact ⟨content, hposs, hsame, heq⟩

theorem wellFormed_revising : ∀ step ∈ [revising first, linking], step.call.scene.tree.WellFormed :=
  forall_mem_cons.mpr ⟨wellFormed_paired _ _ _ _ _,
    forall_mem_singleton.mpr (wellFormed_paired _ _ _ _ _)⟩

/-- If only the second file was edited then the outline of the first one, which is read anew,
    describes the content that its digest names. -/
theorem faithful_iff_candid_revising :
    Run "/p" quick [revising linked, linking] (revising linked).after ∧
      (∀ step ∈ [revising linked, linking], step.call.scene.tree.WellFormed) ∧
      ∀ step ∈ [revising linked, linking], ∀ id s, History.load step.after.2 id = .ok s →
        s.Faithful quick.digest (Seen [revising linked, linking]) := by
  have hrun := run_revising linked
  have hformed := wellFormed_revising linked
  refine ⟨hrun, hformed, (faithful_iff_candid hrun hformed fun _ _ hseen => hseen).mpr ?_⟩
  refine forall_mem_cons.mpr ⟨?_, forall_mem_singleton.mpr trivial⟩
  refine (candid_revising_iff mem_cons_self).mpr ⟨linked, ?_, rfl, rfl⟩
  exact ⟨linking, mem_cons_of_mem _ mem_cons_self, rfl⟩

/-- If both files were edited, and only the second one is named, then the outline of the first one
    is made from its new content and comes with the digest of the old one. -/
theorem not_faithful_after_edit :
    Run "/p" quick [revising .empty, linking] (revising .empty).after ∧
      (∀ step ∈ [revising .empty, linking], step.call.scene.tree.WellFormed) ∧
      ¬ ∀ step ∈ [revising .empty, linking], ∀ id s, History.load step.after.2 id = .ok s →
        s.Faithful quick.digest (Seen [revising .empty, linking]) := by
  have hrun := run_revising .empty
  have hformed := wellFormed_revising .empty
  refine ⟨hrun, hformed, fun hall => ?_⟩
  have hcandid : (revising .empty).call.Candid (Seen [revising .empty, linking])
      (core (revising .empty).before) := by
    refine (hrun.forall_load_iff
      (Q := fun step => step.call.Candid (Seen [revising .empty, linking]) (core step.before))
      fun step hstep hprevious => ?_).mp hall _ mem_cons_self
    exact faithful_draft_iff _ _ (hrun.follows.2 step hstep).kind (hformed step hstep)
      (fun _ _ hread => ⟨step, hstep, hread⟩) hprevious
  obtain ⟨content, hseen, hsame, heq⟩ :=
    (candid_revising_iff (mem_cons_of_mem _ mem_cons_self)).mp hcandid
  -- The new content has another digest, and the old one has other imports.
  rcases seen_revising hseen with rfl | rfl
  · have hdistinct : DigestKind.xxh3.digest .empty ≠ DigestKind.xxh3.digest linked := by
      decide +kernel
    exact hdistinct hsame
  · have himports : (Outline.ofContent "a.ts" (DigestKind.xxh3.digest linked) .empty).imports ≠
        (Outline.ofContent "a.ts" (DigestKind.xxh3.digest linked) linked).imports := by
      decide +kernel
    exact himports (congrArg Outline.imports heq)

end Edited

end Engine

end Ripple
