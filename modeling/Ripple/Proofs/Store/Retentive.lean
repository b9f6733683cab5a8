import Ripple.Proofs.FileTree.Edit
import Ripple.Proofs.Json.RoundTrip
import Ripple.Proofs.Packing.Gzip
import Ripple.Proofs.Store.Atomic
import Ripple.Store.Either

/-!
# What Is Stored Comes Back

The least that one expects of a store is that a value comes back after it was
put there. This says nothing of other keys, of failures or of listing, and so
it holds of the store in a directory as well, whose paths may lead through
each other and whose writes leave directories behind when they fail.

A JSON value goes into a store as text, which is packed if its key ends
accordingly, and each of these layers gives back what it was given.
-/

namespace Ripple

/-- A store in which a value is found after it was put there. -/
class RetentiveStore (σ : Type) [BlobStore σ] : Prop where
  /-- A value is found after it was put under a key. -/
  get_of_put : ∀ {store after : σ} {key : String} {bytes : ByteArray},
    BlobStore.put store key bytes = (.ok (), after) → BlobStore.get after key = .ok (some bytes)

/-- A store whose writes go through or change nothing is retentive. -/
instance {σ : Type} [BlobStore σ] [AtomicStore σ] : RetentiveStore σ where
  get_of_put := by
    intro store after key bytes h
    obtain ⟨after', ⟨hput, hblob⟩ | ⟨e, hput, -⟩⟩ := AtomicStore.put_cases store key bytes
    · rw [h] at hput
      obtain rfl := (Prod.mk.inj hput).2
      rw [AtomicStore.get_eq, hblob, if_pos rfl]
    · rw [h] at hput
      cases hput

namespace DirectoryStore

variable {s after : DirectoryStore} {path key : String} {bytes : ByteArray}

theorem at_of_putAt (h : s.putAt path bytes = (.ok (), after)) :
    after.root = s.root ∧ after.disk.at? path = .ok (.file bytes s.now) := by
  unfold putAt at h
  split at h
  next made disk hmade =>
    dsimp only at h
    split at h
    · cases h
    · split at h
      · cases h
      next written hwrite =>
        split at h
        · cases h
        next moved hmove =>
          cases h
          -- What is moved is what was just written at the path that it is moved from.
          obtain ⟨node, hsrc, htgt⟩ := FileTree.at_moveFile hmove
          rw [FileTree.at_writeFile hwrite] at hsrc
          cases hsrc
          exact ⟨rfl, htgt⟩

theorem get_of_put (h : s.put key bytes = (.ok (), after)) : after.get key = .ok (some bytes) := by
  unfold put at h
  split at h
  · cases h
  next path hpath =>
    obtain ⟨hroot, hfile⟩ := at_of_putAt h
    -- The path of a key depends on the root only, which stays.
    have hafter : after.pathOf key = .ok path := by
      rw [pathOf, hroot]
      exact hpath
    have hread : after.disk.read path = .ok bytes := by
      rw [FileTree.read, hfile]
      rfl
    rw [get, hafter]
    simp only [bind, Except.bind, hread]
    rfl

end DirectoryStore

instance : RetentiveStore DirectoryStore := ⟨DirectoryStore.get_of_put⟩

theorem get_put_of_ok {σ : Type} [BlobStore σ] [RetentiveStore σ] {store : σ} {key : String}
    {bytes : ByteArray} (h : (BlobStore.put store key bytes).1 = .ok ()) :
    BlobStore.get (BlobStore.put store key bytes).2 key = .ok (some bytes) :=
  RetentiveStore.get_of_put (Prod.ext h rfl)

theorem RetentiveStore.blob_of_put {σ : Type} [BlobStore σ] [RetentiveStore σ] {store after : σ}
    {key : String} {bytes : ByteArray} (h : BlobStore.put store key bytes = (.ok (), after)) :
    Store.blob? after key = some bytes := by
  rw [Store.blob?, RetentiveStore.get_of_put h]

/-- A store of either kind is retentive, since both kinds are. -/
instance : RetentiveStore EitherStore where
  get_of_put := by
    intro store after key bytes h
    cases store with
    | memory s =>
      obtain ⟨hdone, rfl⟩ := Prod.mk.inj h
      have hget := get_put_of_ok hdone
      exact hget
    | directory s =>
      obtain ⟨hdone, rfl⟩ := Prod.mk.inj h
      have hget := get_put_of_ok hdone
      exact hget

namespace Store

/-- What is packed for a key is unpacked for it. -/
theorem unpacked_packed (key : String) (bytes : ByteArray) :
    unpacked? key (packed key bytes) = some bytes := by
  unfold unpacked? packed
  cases isPacked key with
  | true => exact Packing.gunzip_gzip bytes
  | false => rfl

/-- The text of a value gives it back. -/
theorem jsonOfBytes_bytesOfJson {j : Json} (h : Json.Stored Json.maxDepth j) :
    jsonOfBytes? (bytesOfJson j) = some j := by
  have htext : String.fromUTF8? j.pretty.toUTF8 = some j.pretty := by
    rw [String.fromUTF8?, String.toUTF8_eq_toByteArray, dif_pos j.pretty.isValidUTF8]
    rfl
  rw [jsonOfBytes?, bytesOfJson, htext, Option.bind_some, Json.parse_pretty h]

/-- A value that was written is read. -/
theorem readJson_of_writeJson {σ α : Type} [BlobStore σ] [RetentiveStore σ] {store after : σ}
    {key : String} {j : Json} (hstored : Json.Stored Json.maxDepth j)
    (h : (writeJson key j).Runs store () after) (read : Json → Option α) :
    readJson? read after key = read j := by
  have hget : BlobStore.get after key = .ok (some (packed key (bytesOfJson j))) :=
    RetentiveStore.get_of_put h
  simp only [readJson?, hget, unpacked_packed, Option.bind_some, jsonOfBytes_bytesOfJson hstored]

end Store

end Ripple
