import Ripple.History.Transfer
import Ripple.Proofs.History.Latest
import Ripple.Proofs.Store.Listing
import Ripple.Proofs.Store.Lossless

/-!
# Which Snapshots Are Listed

The id of a snapshot is part of its key as it is, so in a directory it may lead
further down, or look like the name of an unfinished value. Such a snapshot is
stored and can be read, but it is not listed. All others are listed, once,
whichever form they are stored in, and whatever is listed has a value.

Notes are stored in another directory than snapshots, so they never get in the
way of a snapshot.

## Theorems

* `History.mem_ids_iff_of_serves`: A snapshot is listed if it has a form and its id shows.
* `History.runs_importFrom_iff`: An import is a check and two writes.
* `History.stored_listed_iff_shows`: What is stored is listed iff its id shows.
-/

namespace Ripple

open List Path Store Job

namespace DirectoryStore

/-- An ending without a dash does not make a name look like that of an unfinished value. -/
theorem isHidden_append_iff {name tail : String} (h : '-' ∉ tail.toList) :
    IsHidden (name ++ tail) ↔ IsHidden name := by
  rw [IsHidden, String.toList_append]
  constructor
  · rintro ⟨front, rest, hsplit⟩
    rcases List.append_eq_append_iff.mp hsplit with ⟨middle, hname, -⟩ | ⟨middle, hmark, htail⟩
    · exact ⟨front, middle, hname.symm⟩
    · -- The dash of the mark would be in the ending.
      rcases eq_nil_or_concat' middle with rfl | ⟨others, last, rfl⟩
      · exact ⟨front, [], by rw [append_nil, hmark, append_nil]⟩
      · have hlast := congrArg List.getLast? hmark
        rw [← append_assoc, getLast?_concat, getLast?_append] at hlast
        obtain rfl : '-' = last := Option.some.inj hlast
        refine absurd ?_ h
        rw [htail]
        exact mem_append_left _ (mem_append_right _ mem_cons_self)
  · intro hhidden
    exact hhidden.trans (infix_append' [] _ _)

end DirectoryStore

namespace EitherStore

variable {store after : EitherStore} {key : String} {bytes : ByteArray}

theorem shows_of_put (h : BlobStore.put store key bytes = (.ok (), after)) :
    after.Shows = store.Shows := by
  cases store with
  | memory s =>
    obtain ⟨-, rfl⟩ := Prod.mk.inj h
    rfl
  | directory s =>
    obtain ⟨-, rfl⟩ := Prod.mk.inj h
    rfl

/-- Writes in one directory are not seen in another one of the same depth. -/
theorem apart_below {directory other name name' : String}
    (hlen : (segments other).length = (segments directory).length)
    (hne : segments other ≠ segments directory) (hname : segments name ≠ []) :
    store.Apart (directory ++ "/" ++ name) (other ++ "/" ++ name') := by
  have hplaces : ∀ rest, segments (other ++ "/" ++ name') ≠ segments directory ++ rest := by
    intro rest heq
    rw [segments_slash] at heq
    exact hne (append_inj_left heq hlen)
  cases store with
  | memory s =>
    intro heq
    exact hplaces (segments name) (by rw [heq, segments_slash])
  | directory s =>
    refine ⟨segments_slash directory name ▸ hplaces _, ?_⟩
    rw [DirectoryStore.unfinished, segments_slash directory name,
      dropLast_append_of_ne_nil hname, append_assoc]
    exact hplaces _

end EitherStore

namespace Keys

/-- What the name of a form of a snapshot ends in. -/
def formEnding (packed : Bool) : String := if packed then ".json.gz" else ".json"

/-- The name of a form of a snapshot in its directory. -/
def formName (id : String) (packed : Bool) : String := id ++ formEnding packed

theorem formEnding_plain (packed : Bool) : '/' ∉ (formEnding packed).toList ∧
    '-' ∉ (formEnding packed).toList ∧ 3 ≤ (formEnding packed).length := by
  cases packed with
  | false => decide
  | true => decide

theorem snapshot_eq_below (id : String) (packed : Bool) :
    snapshot id packed = "history/snapshots" ++ "/" ++ formName id packed := by
  rfl

theorem notes_eq_below (id : String) :
    notes id = "history/metadata" ++ "/" ++ formName id false := by
  rfl

theorem isPlain_snapshots : DirectoryStore.IsPlain "history/snapshots" := by
  have hparts : splitText '/' "history/snapshots" = ["history", "snapshots"] := by decide
  intro part hpart
  rcases mem_cons.mp hpart with rfl | hpart
  · exact isName_of_length (by decide) (by decide)
  · rw [mem_singleton.mp hpart]
    exact isName_of_length (by decide) (by decide)

theorem segments_formName_ne_nil (id : String) (packed : Bool) :
    segments (formName id packed) ≠ [] := by
  obtain ⟨hslash, -, hlen⟩ := formEnding_plain packed
  obtain ⟨front, last, hparts⟩ := segments_append_tail id hslash hlen
  rw [formName, hparts]
  exact concat_ne_nil _ _

theorem shows_formName {store : EitherStore} {id : String} {packed : Bool} :
    store.Shows (formName id packed) ↔ store.Shows id := by
  obtain ⟨hslash, hdash, -⟩ := formEnding_plain packed
  cases store with
  | memory s => exact Iff.rfl
  | directory s =>
    refine and_congr ?_ (not_congr (DirectoryStore.isHidden_append_iff hdash))
    rw [formName, String.toList_append, mem_append, or_iff_left hslash]

variable {store : EitherStore}

theorem apart_notes_snapshot (id id' : String) (packed : Bool) :
    store.Apart (notes id) (snapshot id' packed) := by
  rw [notes_eq_below, snapshot_eq_below]
  exact EitherStore.apart_below (by decide) (by decide) (segments_formName_ne_nil id false)

end Keys

namespace History

variable {store after : EitherStore} {id : String} {found : List String}

theorem ids_eq_ok_iff : ids store = .ok found ↔ ∃ keys,
    BlobStore.list store ("history/snapshots" ++ "/") = .ok keys ∧
      sortedSet (keys.filterMap Keys.snapshotOfKey?) = found := by
  rw [ids, show Keys.snapshots = "history/snapshots" ++ "/" from rfl]
  cases BlobStore.list store ("history/snapshots" ++ "/") with
  | error e => simp [Except.map]
  | ok keys => simp [Except.map]

theorem mem_ids_iff_of_serves (hs : store.Serves) (hfound : ids store = .ok found) :
    id ∈ found ↔ store.Shows id ∧ ∃ packed, (blob? store (Keys.snapshot id packed)).isSome := by
  obtain ⟨keys, hkeys, rfl⟩ := ids_eq_ok_iff.mp hfound
  have hlist : ∀ packed, Keys.snapshot id packed ∈ keys ↔
      store.Shows id ∧ (blob? store (Keys.snapshot id packed)).isSome := by
    intro packed
    rw [Keys.snapshot_eq_below, EitherStore.mem_list_iff hs Keys.isPlain_snapshots hkeys,
      Keys.shows_formName]
  rw [mem_sortedSet, mem_filterMap, ← exists_and_left]
  constructor
  · rintro ⟨key, hkey, hid⟩
    obtain ⟨packed, rfl⟩ := Keys.eq_snapshot_of_snapshotOfKey hid
    exact ⟨packed, (hlist packed).mp hkey⟩
  · rintro ⟨packed, hshown⟩
    exact ⟨_, (hlist packed).mpr hshown, Keys.snapshotOfKey_form id packed⟩

theorem mem_ids_iff_shows (hs : store.WellFormed) (hfound : ids store = .ok found) :
    id ∈ found ↔ store.Shows id ∧ ∃ packed, (blob? store (Keys.snapshot id packed)).isSome :=
  mem_ids_iff_of_serves hs.serves hfound

/-- A history lists a snapshot under a condition, and none twice. -/
def Lists (store : EitherStore) (id : String) (condition : Prop) : Prop :=
  ∃ found, ids store = .ok found ∧ found.Nodup ∧ (id ∈ found ↔ condition)

theorem lists_of_blob (hs : store.WellFormed) {packed : Bool} {bytes : ByteArray}
    (h : blob? store (Keys.snapshot id packed) = some bytes) : Lists store id (store.Shows id) := by
  have hbelow := h
  rw [Keys.snapshot_eq_below] at hbelow
  obtain ⟨keys, hkeys⟩ := EitherStore.exists_list_of_blob hs.serves Keys.isPlain_snapshots hbelow
  have hids := ids_eq_ok_iff.mpr ⟨keys, hkeys, rfl⟩
  refine ⟨_, hids, (increasing_sortedSet _).nodup, (mem_ids_iff_shows hs hids).trans ?_⟩
  exact and_iff_left ⟨packed, Option.isSome_iff_exists.mpr ⟨bytes, h⟩⟩

theorem runs_importFrom_iff {σ : Type} [BlobStore σ] {path : String} {content : ByteArray}
    {store after : σ} {id : String} : (importFrom path content).Runs store id after ↔
      ∃ e middle, readExported path content = .ok e ∧ contains store e.snapshot.id = .ok false ∧
        (save e.snapshot).Runs store () middle ∧
        (saveNotes { e.notes with snapshotId := e.snapshot.id }).Runs middle () after ∧
        e.snapshot.id = id := by
  constructor
  · intro h
    obtain ⟨e, first, hfile, h⟩ := runs_bind_iff.mp h
    obtain ⟨hread, rfl⟩ := Prod.mk.inj hfile
    obtain ⟨there, first, hlook, h⟩ := runs_bind_iff.mp h
    obtain ⟨hthere, rfl⟩ := Prod.mk.inj hlook
    cases there with
    | true => cases h
    | false =>
      obtain ⟨⟨⟩, middle, hsave, h⟩ := runs_bind_iff.mp h
      obtain ⟨⟨⟩, last, hnotes, h⟩ := runs_bind_iff.mp h
      obtain ⟨hid, rfl⟩ := runs_pure_iff.mp h
      exact ⟨e, middle, hread, hthere, hsave, hnotes, hid⟩
  · rintro ⟨e, middle, hread, hthere, hsave, hnotes, rfl⟩
    refine runs_bind (runs_inspect hread) (runs_bind (runs_inspect hthere) ?_)
    exact runs_bind hsave (runs_bind hnotes (runs_pure _ after))

theorem lists_of_put (hs : store.WellFormed) {packed : Bool} {bytes : ByteArray}
    (h : (Store.put (Keys.snapshot id packed) bytes).Runs store () after) :
    Lists after id (store.Shows id) := by
  have hput := EitherStore.stored_of_put hs h
  rw [← EitherStore.shows_of_put h]
  exact lists_of_blob hput.wellFormed hput.found

/-- Whatever goes through to store a snapshot, it is listed afterwards iff its id shows, and it is
    not listed twice: if it is saved, if it is taken in from a file, and if one of its forms is
    stored. What is listed has a form. -/
theorem stored_listed_iff_shows (hs : store.WellFormed) :
    (∀ s after, (save s).Runs store () after → Lists after s.id (store.Shows s.id)) ∧
      (∀ path content id after, (importFrom path content).Runs store id after →
        Lists after id (store.Shows id)) ∧
      (∀ id packed bytes after, (Store.put (Keys.snapshot id packed) bytes).Runs store () after →
        Lists after id (store.Shows id)) ∧
      ∀ found, ids store = .ok found →
        ∀ id ∈ found, ∃ packed, (blob? store (Keys.snapshot id packed)).isSome := by
  refine ⟨fun s after h => lists_of_put hs h, fun path content id after h => ?_,
    fun id packed bytes after h => lists_of_put hs h,
    fun found hfound id hid => ((mem_ids_iff_shows hs hfound).mp hid).2⟩
  -- The notes are stored last, and the snapshot is still there.
  obtain ⟨e, middle, -, -, hsave, hnotes, rfl⟩ := runs_importFrom_iff.mp h
  have hfirst := EitherStore.stored_of_put hs hsave
  have hsecond := EitherStore.stored_of_put hfirst.wellFormed hnotes
  have hblob := hfirst.found
  rw [← hsecond.blob_of_apart (Keys.apart_notes_snapshot _ _ _)] at hblob
  rw [← EitherStore.shows_of_put hsave, ← EitherStore.shows_of_put hnotes]
  exact lists_of_blob hsecond.wellFormed hblob

/-- A snapshot of an empty project. -/
def bare (id : String) : Snapshot := ⟨id, 0, .empty, .empty, .empty⟩

theorem wellFormed_directoryWith : (directoryWith []).WellFormed where
  ordered := by
    refine .directory (fun e he => ?_) (pairwise_singleton _ _) fun e he => ?_
    · rw [mem_singleton.mp he]
      exact ⟨by decide, by decide, by decide, by decide⟩
    · rw [mem_singleton.mp he]
      exact FileTree.ordered_empty
  opened := ⟨[], rfl⟩
  writer := by decide
  reachable names content modified hnode := by
    cases names with
    | nil => cases hnode
    | cons name names => cases hnode

/-- A snapshot with a plain id is listed. -/
theorem stored_listed_iff_shows_v1 : (directoryWith []).WellFormed ∧
    (directoryWith []).Shows "v1" ∧ ∃ after, (save (bare "v1")).Runs (directoryWith []) () after ∧
      Lists after "v1" ((directoryWith []).Shows "v1") := by
  have hanswer : ((save (bare "v1")).on (directoryWith [])).1 = .ok () := by decide +kernel
  have hshows : (directoryWith []).Shows "v1" :=
    ⟨by decide, by unfold DirectoryStore.IsHidden; decide⟩
  exact ⟨wellFormed_directoryWith, hshows, _, runs_on hanswer,
    (stored_listed_iff_shows wellFormed_directoryWith).1 _ _ (runs_on hanswer)⟩

/-- A snapshot with a slash in its id is stored in a directory, and is not listed. -/
theorem not_listed_nested : ∃ after, (save (bare "a/b")).Runs (directoryWith []) () after ∧
    contains after "a/b" = .ok true ∧ ids after = .ok [] := by
  have hanswer : ((save (bare "a/b")).on (directoryWith [])).1 = .ok () := by decide +kernel
  exact ⟨_, runs_on hanswer, by decide +kernel, by decide +kernel⟩

end History

end Ripple
