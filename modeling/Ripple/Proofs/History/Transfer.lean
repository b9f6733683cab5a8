import Ripple.History.Transfer
import Ripple.Proofs.History.Forms
import Ripple.Proofs.Store.Lossless
import Ripple.Proofs.Tracker.Ends

/-!
# Taking in Snapshots

The file of an exported snapshot gives it back, whether it is packed or not,
and taking it in adds this snapshot to the history, unless there is one with
its id. The notes are stored after the snapshot, so if they cannot be stored
the snapshot stays.

## Theorems

* `ExportedSnapshot.ofJson_toJson`: What is written to a file comes back.
-/

namespace Ripple

open Store Job Json

theorem Json.uint32_ofNat (n : UInt32) : uint32? (ofNat n.toNat) = some n := by
  have hfits : (0 ≤ (n.toNat : Int) && (n.toNat : Int) < UInt32.size) = true := by
    simp only [Bool.and_eq_true, decide_eq_true_eq]
    exact ⟨Int.natCast_nonneg _, Int.ofNat_lt.mpr n.toNat_lt_size⟩
  rw [ofNat, uint32?, if_pos hfits, Int.toNat_natCast, UInt32.ofNat_toNat]

theorem ExportedSnapshot.ofJson_toJson (e : ExportedSnapshot) :
    ExportedSnapshot.ofJson? e.toJson = some e := by
  simp [ExportedSnapshot.ofJson?, ExportedSnapshot.toJson, record?, uint32_ofNat,
    Snapshot.ofJson_toJson, SnapshotNotes.ofJson_toJson]

theorem ExportedSnapshot.stored_toJson {depth : Nat} (e : ExportedSnapshot) :
    Stored (depth + 8) e.toJson := by
  have hversion : Stored (depth + 7) (ofNat e.version.toNat) := by
    have hlt := e.version.toNat_lt
    refine Stored.int (Int.le_trans (by decide) (Int.natCast_nonneg _)) (Int.ofNat_lt.mpr ?_)
    exact Nat.lt_trans hlt (by decide)
  refine Stored.object ?_
  simp only [List.forall_mem_cons]
  exact ⟨hversion, .text _, e.snapshot.stored_toJson, e.notes.stored_toJson, nofun⟩

namespace History

/-- The file of an exported snapshot can be read, unless its form is too new. -/
theorem readExported_file (path : String) {e : ExportedSnapshot} (h : ¬ exportVersion < e.version) :
    readExported path (if isPackedFile path then Packing.gzip (bytesOfJson e.toJson)
      else bytesOfJson e.toJson) = .ok e := by
  have hjson : jsonOfBytes? (bytesOfJson e.toJson) = some e.toJson :=
    jsonOfBytes_bytesOfJson e.stored_toJson
  have hread : (jsonOfBytes? (bytesOfJson e.toJson)).bind ExportedSnapshot.ofJson? = some e := by
    rw [hjson, Option.bind_some, e.ofJson_toJson]
  cases hpack : isPackedFile path with
  | true =>
    simp only [readExported, hpack, if_true, Packing.gunzip_gzip, bind, Except.bind, hread,
      if_neg h]
  | false =>
    simp only [readExported, hpack, Bool.false_eq_true, if_false, bind, Except.bind, hread,
      if_neg h]

variable {σ : Type} [BlobStore σ]

/-- Taking in a file adds its snapshot, or leaves the snapshots alone. -/
theorem ends_importFrom [AtomicStore σ] (path : String) (content : ByteArray) (store : σ) :
    (importFrom path content).Ends store fun _ after => AgreeBelow Keys.snapshots store after ∨
      ∃ e, readExported path content = .ok e ∧ Added store after e.snapshot := by
  have hlook : (inspect fun _ => readExported path content).Ends store fun result after =>
      result = readExported path content ∧ after = store := ⟨rfl, rfl⟩
  refine ends_bind hlook ?_ ?_
  · rintro _ _ ⟨-, rfl⟩
    exact .inl (agreeBelow_refl _ _)
  rintro e store ⟨hread, rfl⟩
  refine ends_bind (P := fun _ after => after = store) rfl ?_ ?_
  · rintro _ _ rfl
    exact .inl (agreeBelow_refl _ _)
  rintro there store rfl
  cases there with
  | true => exact .inl (agreeBelow_refl _ _)
  | false =>
    refine ends_bind (ends_save e.snapshot _) (fun _ _ hfiled => .inl hfiled.agree_of_error)
      fun _ middle hfiled => Ends.then_pure ?_ _
    refine (avoids_writeJson (Keys.beginsWith_notes _) _ middle).imp fun _ _ hagree => ?_
    exact .inr ⟨e, hread.symm, hfiled.added_of_ok.2.trans_agree hagree⟩

/-- An import goes through and adds the snapshot of the file, if no write fails and there is none
    with its id. -/
theorem runs_importFrom [LawfulStore σ] {path : String} {content : ByteArray} {e : ExportedSnapshot}
    (hread : readExported path content = .ok e) {store : σ}
    (hnew : contains store e.snapshot.id = .ok false) : ∃ after,
      (importFrom path content).Runs store e.snapshot.id after ∧ Added store after e.snapshot := by
  obtain ⟨_, middle, hsave, hfiled⟩ := (ends_save e.snapshot store).exists_runs (sure_writeJson _ _)
  obtain ⟨_, after, hnotes, hagree⟩ :=
    (avoids_writeJson (Keys.beginsWith_notes e.snapshot.id)
      { e.notes with snapshotId := e.snapshot.id : SnapshotNotes }.toJson middle).exists_runs
      (sure_writeJson _ _)
  refine ⟨after, ?_, hfiled.added_of_ok.2.trans_agree hagree⟩
  refine runs_bind (runs_inspect hread) (runs_bind (runs_inspect hnew) ?_)
  exact runs_bind hsave (runs_bind hnotes (runs_pure _ after))

end History

end Ripple
