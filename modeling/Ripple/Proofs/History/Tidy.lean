import Ripple.Proofs.History.Carried
import Ripple.Proofs.Store.Altered

/-!
# Keeping the Snapshots in Order

All that is stored beside the snapshots is stored elsewhere, and a snapshot is
a file right in the directory of the snapshots as long as its id is no path.
Then there is never a directory among the snapshots, and a write touches one
form of one snapshot at most, also if it fails. A form that is missing is found
to be missing, so that the other one is looked for.
-/

namespace Ripple

open List Path Store

namespace Path

theorem endsInName_append_tail (path : String) {tail : String} (h : '/' ∉ tail.toList)
    (hlen : 3 ≤ tail.length) : EndsInName (path ++ tail) := by
  rcases splitText_append_tail path h with ⟨front, last, hparts⟩
  have hlong : 3 ≤ (last ++ tail).length := by
    rw [String.length_append]
    omega
  rw [EndsInName, hparts, getLastD_concat]
  constructor
  · intro hempty
    rw [hempty] at hlong
    exact absurd hlong (by decide)
  · intro hdot
    rw [hdot] at hlong
    exact absurd hlong (by decide)

end Path

namespace Keys

/-- A key that does not get in the way of snapshots. -/
structure Orderly (key : String) : Prop where
  /-- It does not mean a directory. -/
  endsInName : EndsInName key
  /-- It needs no directory among the snapshots. -/
  shallow : ∀ name, ¬ segments "history/snapshots" ++ [name] <+: (segments key).dropLast
  /-- A snapshot at its place has this key. -/
  own : ∀ id packed, '/' ∉ id.toList → segments (snapshot id packed) = segments key →
    snapshot id packed = key

variable {id key : String} {packed : Bool}

theorem endsInName_formName (id : String) (packed : Bool) : EndsInName (formName id packed) := by
  rcases formEnding_plain packed with ⟨hslash, -, hlen⟩
  exact endsInName_append_tail id hslash hlen

theorem formName_true (id : String) : formName id true = formName id false ++ ".gz" := by
  rw [formName, formName, String.append_assoc]
  rfl

theorem segments_snapshot (h : '/' ∉ id.toList) :
    segments (snapshot id packed) = segments "history/snapshots" ++ [formName id packed] := by
  rw [snapshot_eq_below, segments_slash, segments_formName h]

theorem endsInName_snapshot (id : String) (packed : Bool) : EndsInName (snapshot id packed) := by
  rw [snapshot_eq_below]
  exact (endsInName_slash _ _).mpr (endsInName_formName id packed)

theorem orderly_snapshot (h : '/' ∉ id.toList) (packed : Bool) : Orderly (snapshot id packed) where
  endsInName := endsInName_snapshot id packed
  shallow name hpre := by
    rw [segments_snapshot h, dropLast_concat] at hpre
    have hlen := hpre.length_le
    rw [length_append, length_singleton] at hlen
    omega
  own id' packed' h' heq := by
    rw [segments_snapshot h, segments_snapshot h'] at heq
    have hname := (List.cons.inj (append_cancel_left heq)).1
    rw [snapshot_eq_below, snapshot_eq_below, hname]

theorem orderly_of_not_prefix (hends : EndsInName key)
    (h : ¬ segments "history/snapshots" <+: segments key) : Orderly key where
  endsInName := hends
  shallow name hbelow := h ((prefix_append _ _).trans (hbelow.trans ( dropLast_prefix _)))
  own id packed hid heq := by
    rw [segments_snapshot hid] at heq
    exact absurd (heq ▸ prefix_append _ _) h

theorem orderly_notes (id : String) : Orderly (notes id) := by
  rw [notes_eq_below]
  refine orderly_of_not_prefix ((endsInName_slash _ _).mpr (endsInName_formName id false)) ?_
  rw [segments_slash]
  intro hpre
  have hlen : (segments "history/snapshots").length = (segments "history/metadata").length := by
    decide
  have heq := prefix_of_prefix_length_le hpre (prefix_append _ _)
    (Nat.le_of_eq hlen)
  exact absurd heq (by decide)

theorem orderly_index {rest : String} (hends : EndsInName rest) :
    Orderly ("index" ++ "/" ++ rest) := by
  refine orderly_of_not_prefix ((endsInName_slash _ _).mpr hends) ?_
  rw [segments_slash]
  rintro ⟨others, heq⟩
  exact absurd (List.cons.inj heq).1 (by decide)

theorem orderly_outline (path : String) : Orderly (outline path) := by
  have hkey : outline path = "index" ++ "/" ++ (("ast/" ++ sanitize path) ++ ".json") := by
    rfl
  rw [hkey]
  exact orderly_index (endsInName_append_tail _ (by decide) (by decide))

end Keys

namespace DirectoryStore

/-- The snapshots of a directory are files with names that fit. -/
structure Tidy (s : DirectoryStore) : Prop where
  /-- There is no directory among them. -/
  flat : ∀ name, ¬ s.tree.HasDirectory (segments "history/snapshots" ++ [name])
  /-- Their names fit. -/
  fits : ∀ name, s.tree.HasFile (segments "history/snapshots" ++ [name]) →
    name.utf8ByteSize ≤ FileTree.maxNameSize

variable {s after : DirectoryStore} {places : List String → Prop} {made : List String}

theorem Altered.tidy (h : s.Altered places made after) (hs : s.Tidy)
    (hmade : ∀ name, ¬ segments "history/snapshots" ++ [name] <+: made) : after.Tidy where
  flat name hdir := (h.directories _ hdir).elim (hs.flat name) (hmade name)
  fits name hfile := (h.files _ name hfile).elim (hs.fits name) id

end DirectoryStore

namespace EitherStore

variable {store : EitherStore} {id key : String} {packed : Bool} {bytes : ByteArray}

/-- A store with its snapshots in order. -/
def Ready : EitherStore → Prop
  | memory _ => True
  | directory s => s.Serves ∧ s.Tidy

theorem Ready.serves (h : store.Ready) : store.Serves := by
  cases store with
  | memory s => exact trivial
  | directory s => exact h.1

/-- An id that is no path. -/
def Flat : EitherStore → String → Prop
  | memory _, _ => True
  | directory _, id => '/' ∉ id.toList

theorem Shows.flat (h : store.Shows id) : store.Flat id := by
  cases store with
  | memory s => exact trivial
  | directory s => exact h.1

/-- A key that can be written without getting in the way of snapshots. -/
def Admits : EitherStore → String → Prop
  | memory _, _ => True
  | directory _, key => Keys.Orderly key

theorem admits_of_orderly (h : Keys.Orderly key) : store.Admits key := by
  cases store with
  | memory s => exact trivial
  | directory s => exact h

theorem Flat.admits (h : store.Flat id) (packed : Bool) :
    store.Admits (Keys.snapshot id packed) := by
  cases store with
  | memory s => exact trivial
  | directory s => exact Keys.orderly_snapshot h packed

/-- What a write or a removal does to the forms of the snapshots that show: it leaves them alone, or
    it sets the one form that it is about. -/
structure Touched (store : EitherStore) (key : String) (new : Option ByteArray)
    (after : EitherStore) : Prop where
  ready : after.Ready
  shows : after.Shows = store.Shows
  flat : after.Flat = store.Flat
  /-- Other forms stay. -/
  forms : ∀ id packed, store.Shows id →
    blob? after (Keys.snapshot id packed) = blob? store (Keys.snapshot id packed) ∨
      Keys.snapshot id packed = key ∧ blob? after (Keys.snapshot id packed) = new

section Directories

variable {s after : DirectoryStore}

theorem blob_directory (s : DirectoryStore) (key : String) :
    blob? (directory s) key = blob? s key := rfl

theorem touched_put_directory {result : Except Error Unit} (hs : s.Serves ∧ s.Tidy)
    (hkey : Keys.Orderly key) (h : s.put key bytes = (result, after)) :
    (directory s).Touched key (some bytes) (directory after) := by
  have hput := DirectoryStore.altered_put hs.1 hkey.endsInName h
  have hafter := DirectoryStore.serves_put hs.1 hkey.endsInName h
  refine ⟨⟨hafter, hput.tidy hs.2 hkey.shallow⟩, rfl, rfl, fun id packed hshows => ?_⟩
  have hshown : (directory s).Shows (Keys.formName id packed) := Keys.shows_formName.mpr hshows
  rw [blob_directory]
  by_cases hplace : result = .ok () ∧ segments (Keys.snapshot id packed) = segments key
  · rcases hplace with ⟨rfl, hplace⟩
    have heq := hkey.own id packed hshows.1 hplace
    exact .inr ⟨heq, heq ▸ RetentiveStore.blob_of_put h⟩
  · refine .inl (hput.blob_eq hs.1 (not_or.mpr ⟨fun hunfinished => hshown.2 ?_, hplace⟩))
    rw [Keys.segments_snapshot hshows.1] at hunfinished
    exact DirectoryStore.isHidden_unfinished hunfinished

theorem touched_delete_directory {result : Except Error Bool} (hs : s.Serves ∧ s.Tidy)
    (hkey : Keys.Orderly key) (h : s.delete key = (result, after)) :
    (directory s).Touched key none (directory after) := by
  rcases DirectoryStore.altered_delete hs.1 h with ⟨hdel, rfl | hgone⟩
  · exact ⟨hs, rfl, rfl, fun _ _ _ => .inl rfl⟩
  · have hafter : after.Serves := by
      refine hdel.serves hs.1 fun names name hplace hfile _ => ?_
      exact absurd (hplace ▸ hfile) hgone
    have htidy : after.Tidy := hdel.tidy hs.2 fun name hpre =>
      concat_ne_nil _ _ (List.prefix_nil.mp hpre)
    refine ⟨⟨hafter, htidy⟩, rfl, rfl, fun id packed hshows => ?_⟩
    by_cases hplace : segments (Keys.snapshot id packed) = segments key
    · refine .inr ⟨hkey.own id packed hshows.1 hplace, ?_⟩
      refine Option.eq_none_iff_forall_ne_some.mpr fun content hblob => hgone ?_
      rcases hafter.blob_eq_some_iff.mp hblob with ⟨-, modified, hnode⟩
      exact ⟨content, modified, hplace ▸ hnode⟩
    · exact .inl (hdel.blob_eq hs.1 hplace)

end Directories

/-- In memory a change of one key is a change of one form at most. -/
theorem touched_memory {s after : MemoryStore} {new : Option ByteArray}
    (h : ∀ other, blob? after other = if other = key then new else blob? s other) :
    (memory s).Touched key new (memory after) := by
  refine ⟨trivial, rfl, rfl, fun id packed _ => ?_⟩
  have hblob : blob? (memory after) (Keys.snapshot id packed) =
      if Keys.snapshot id packed = key then new else blob? (memory s) (Keys.snapshot id packed) :=
    h _
  rw [hblob]
  by_cases heq : Keys.snapshot id packed = key
  · exact .inr ⟨heq, if_pos heq⟩
  · exact .inl (if_neg heq)

/-- A write touches one form at most. -/
theorem touched_put (hs : store.Ready) (hkey : store.Admits key) (bytes : ByteArray) :
    store.Touched key (some bytes) (BlobStore.put store key bytes).2 := by
  cases store with
  | memory s =>
    have hput : (Store.put key bytes).Runs s () ⟨s.blobs.insert key bytes⟩ := rfl
    exact touched_memory (Job.blob_of_put hput)
  | directory s => exact touched_put_directory hs hkey rfl

/-- A removal touches one form at most. -/
theorem touched_delete (hs : store.Ready) (hkey : store.Admits key) :
    store.Touched key none (BlobStore.delete store key).2 := by
  cases store with
  | memory s =>
    have hdel : (Store.delete key).Runs s (s.blobs.contains key) ⟨s.blobs.erase key⟩ := rfl
    exact touched_memory (Job.blob_of_delete hdel)
  | directory s => exact touched_delete_directory hs hkey rfl

/-- Whether there is a plain form can be found out if there is a form at all. -/
theorem get_plain (hs : store.Ready) (hshows : store.Shows id)
    (h : (blob? store (Keys.snapshot id packed)).isSome) :
    BlobStore.get store (Keys.snapshot id false) = .ok (blob? store (Keys.snapshot id false)) := by
  cases store with
  | memory s => exact AtomicStore.get_eq s _
  | directory s =>
    cases hplain : blob? (directory s) (Keys.snapshot id false) with
    | some bytes => exact get_of_blob hplain
    | none =>
      cases packed with
      | false =>
        rw [hplain] at h
        cases h
      | true =>
        rcases hs with ⟨hserves, htidy⟩
        rcases Option.isSome_iff_exists.mp h with ⟨bytes, hblob⟩
        have hpack : blob? s (Keys.snapshot id true) = some bytes := hblob
        rcases hserves.blob_eq_some_iff.mp hpack with ⟨-, modified, hnode⟩
        rw [Keys.segments_snapshot hshows.1] at hnode
        have hfits := htidy.fits _ ⟨bytes, modified, hnode⟩
        rw [Keys.snapshot_eq_below] at hpack hplain ⊢
        refine DirectoryStore.get_below_eq_none hserves Keys.isPlain_snapshots
          (Keys.isName_formName hshows.1 false) ?_ hpack ?_ (htidy.flat _) hplain
        · rw [Keys.formName_true, String.toList_append]
          exact sublist_append_left _ _
        · rw [Keys.formName_true, String.utf8ByteSize_append] at hfits
          omega

end EitherStore

end Ripple
