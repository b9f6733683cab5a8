import Ripple.Proofs.Tracker.Ends

/-!
# The Jobs of a Tracker Go Through

On a store that does not fail, every job of a tracker goes through from every
state. What it does then is told by how it ends.

## Theorems

* `Indexer.sure_scan`, `Indexer.sure_pass`: A scan and a pass go through.
* `Tracker.sure_takeSnapshot`, `Tracker.sure_track`: Snapshots are taken.
-/

namespace Ripple

open Store Job

variable {σ : Type} [BlobStore σ] [LawfulStore σ]

theorem HashRegistry.sure_save : Sure (save : Job (HashRegistry × σ) Unit) := by
  refine sure_bind sure_get fun s => ?_
  dsimp only
  split
  · exact sure_bind (sure_onSecond (sure_writeJson _ _)) fun _ => sure_modify _
  · exact sure_pure ()

namespace Indexer

theorem sure_storeFiles : Sure (storeFiles : Job (Indexer × σ) Unit) :=
  sure_bind sure_get fun _ => sure_bind (sure_onSecond (sure_writeJson _ _)) fun _ =>
    sure_inside HashRegistry.sure_save

theorem sure_storeTimes : Sure (storeTimes : Job (Indexer × σ) Unit) :=
  sure_bind sure_get fun _ => sure_onSecond (sure_writeJson _ _)

theorem sure_scan (tree : FileTree) (now : Int64) : Sure (scan tree now : Job (Indexer × σ) Unit) :=
  sure_bind (sure_modify _) fun _ => sure_bind sure_storeFiles fun _ => sure_storeTimes

theorem sure_pass (tree : FileTree) (now : Int64) (changed : List String) :
    Sure (pass tree now changed : Job (Indexer × σ) IndexOutcome) :=
  sure_bind sure_get fun _ => sure_bind (sure_modify _) fun _ =>
    sure_when _ sure_storeFiles (sure_when _ sure_storeTimes (sure_pure _))

end Indexer

namespace Tracker

theorem sure_saveOutlines (outlines : List Outline) :
    Sure (saveOutlines outlines : Job σ Unit) := by
  induction outlines with
  | nil => exact sure_pure ()
  | cons o rest ih => exact sure_bind (sure_writeJson _ _) fun _ => ih

theorem sure_removeOutlines (paths : List String) : Sure (removeOutlines paths : Job σ Unit) := by
  induction paths with
  | nil => exact sure_pure ()
  | cons path rest ih => exact sure_bind (sure_delete _) fun _ => ih

theorem sure_removeStale (files : Dict String FileRecord) :
    Sure (removeStale files : Job σ Unit) := by
  refine sure_bind (sure_inspect latest_ok) fun newest => ?_
  cases newest with
  | none => exact sure_pure ()
  | some previous => exact sure_removeOutlines _

variable (scene : Scene)

theorem sure_finish (files : Dict String FileRecord) (outlines : Dict String Outline) :
    Sure (finish scene files outlines : Job (Tracker × σ) Snapshot) := by
  have hids : ∀ store : σ, ∃ ids, History.ids store = .ok ids := fun store =>
    (History.ids_eq store).imp fun _ hids => hids.1
  have hnote : ∀ versioned id, Sure (noteCommit scene versioned id : Job σ Unit) :=
    fun versioned id store =>
      (runs_noteCommit scene versioned id store).elim fun after hrun => ⟨(), after, hrun.1⟩
  have hgraph : ∀ g, Sure (GraphCache.save g : Job (GraphCache × σ) Unit) := fun g =>
    sure_bind (sure_onSecond (sure_writeJson _ _)) fun _ => sure_modify _
  refine sure_bind sure_get fun _ => sure_bind (sure_inside (hgraph _)) fun _ => sure_onSecond ?_
  refine sure_bind (sure_inspect hids) fun _ => sure_bind (sure_writeJson _ _) fun _ => ?_
  exact sure_bind (hnote _ _) fun _ => sure_pure _

theorem sure_takeSnapshot : Sure (takeSnapshot scene : Job (Tracker × σ) Snapshot) :=
  sure_bind (sure_inside (Indexer.sure_scan _ _)) fun _ => sure_bind sure_get fun _ =>
    sure_bind (sure_onSecond (sure_saveOutlines _)) fun _ =>
      sure_bind (sure_onSecond (sure_removeStale _)) fun _ => sure_finish _ _ _

theorem sure_trackFrom (previous : Snapshot) (outcome : IndexOutcome) :
    Sure (trackFrom scene previous outcome : Job (Tracker × σ) TrackOutcome) :=
  sure_bind sure_get fun _ => sure_bind (sure_onSecond (sure_removeOutlines _)) fun _ =>
    sure_bind (sure_onSecond (sure_saveOutlines _)) fun _ =>
      sure_bind (sure_finish _ _ _) fun _ => sure_pure _

theorem sure_track (changed : List String) :
    Sure (track scene changed : Job (Tracker × σ) TrackOutcome) := by
  refine sure_bind (sure_onSecond (sure_inspect latest_ok)) fun newest => ?_
  cases newest with
  | none => exact sure_bind (sure_takeSnapshot scene) fun _ => sure_pure _
  | some previous =>
    refine sure_bind (sure_inside (Indexer.sure_pass _ _ _)) fun outcome => ?_
    split
    · exact sure_pure _
    · exact sure_trackFrom _ _ _

/-- A snapshot of all files goes through and is added. -/
theorem runs_takeSnapshot (t : Tracker) (store : σ) {ids : List String}
    (hids : History.ids store = .ok ids) {files : Dict String FileRecord}
    (hfiles : (t.indexer.scanned scene.tree scene.now).files = files) :
    ∃ t' after, (takeSnapshot scene).Runs (t, store)
      (made scene ids t.maxDepth files (outlinesOf scene.tree files)) (t', after) ∧
        t.Left (t.indexer.scanned scene.tree scene.now) t' ∧
        History.Added store after
          (made scene ids t.maxDepth files (outlinesOf scene.tree files)) := by
  subst hfiles
  obtain ⟨s, ⟨t', after⟩, hrun, hleft, hfiled⟩ :=
    (ends_takeSnapshot scene t store hids rfl).exists_runs (sure_takeSnapshot scene)
  obtain ⟨rfl, hadd⟩ := hfiled.added_of_ok
  exact ⟨t', after, hrun, hleft, hadd⟩

end Tracker

end Ripple
