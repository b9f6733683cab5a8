import Ripple.Proofs.History.Tidy

/-!
# A History Goes Onward

What is stored changes in many ways, and most of the time it is enough to know
that the history did not go back: for every snapshot there is one that is not
older, and the newest snapshot is read as before unless it is newer than all
that were there. Changes of this kind can be made one after another.

A snapshot that is added goes onward unless it takes the place of the newest
one, and so does a removal of another one. Packing changes nothing that is read.

This is said of stores in which all snapshots that show can be read under their
ids. A job keeps a store so, and goes onward, wherever it stops.

## Theorems

* `Job.advances_bind`: Jobs in sequence go onward.
-/

namespace Ripple

open List Store Job EitherStore

namespace History

variable {store middle after : EitherStore} {id key : String} {packed : Bool} {bytes : ByteArray}
  {found : List String}

/-- A snapshot that is listed. -/
def Listed (store : EitherStore) (id : String) : Prop :=
  store.Shows id ∧ ∃ packed, (blob? store (Keys.snapshot id packed)).isSome

/-- What the forms of a snapshot say. -/
def reading (store : EitherStore) (id : String) : Except Error Snapshot :=
  ofForms id (blob? store (Keys.snapshot id false)) (blob? store (Keys.snapshot id true))

/-- Bytes that hold a snapshot with an id in one of the two forms. -/
def IsForm (id : String) (packed : Bool) (bytes : ByteArray) : Prop :=
  ∃ s : Snapshot, decoded id (unpacked? (Keys.snapshot id packed) bytes) = .ok s ∧ s.id = id

/-- All snapshots that show can be read under their ids. -/
structure Sound (store : EitherStore) : Prop where
  ready : store.Ready
  /-- A form of a snapshot holds one with its id. -/
  titled : ∀ id packed bytes, store.Shows id →
    blob? store (Keys.snapshot id packed) = some bytes → IsForm id packed bytes

theorem sound_of_empty (hs : store.Ready) (hempty : ∀ key, blob? store key = none) :
    Sound store where
  ready := hs
  titled id packed bytes _ hblob := by
    rw [hempty] at hblob
    cases hblob

theorem sound_directoryWith : Sound (directoryWith []) := by
  refine sound_of_empty ⟨wellFormed_directoryWith.serves, fun name h => ?_, fun name h => ?_⟩
    blob_directoryWith_nil
  · rcases h with ⟨entries, hnode⟩
    cases hnode
  · rcases h with ⟨content, modified, hnode⟩
    cases hnode

section Reading

theorem isForm_plain_iff : IsForm id false bytes ↔
    ∃ s : Snapshot, decoded id (some bytes) = .ok s ∧ s.id = id := by
  rw [IsForm, unpacked?, isPacked_snapshot, if_neg Bool.false_ne_true]

theorem isForm_packed_iff : IsForm id true bytes ↔
    ∃ s : Snapshot, decoded id (Packing.gunzip? bytes) = .ok s ∧ s.id = id := by
  rw [IsForm, unpacked?, isPacked_snapshot_true, if_pos rfl]

theorem Sound.reading_of_listed (hs : Sound store) (h : Listed store id) :
    ∃ s, reading store id = .ok s ∧ s.id = id := by
  rcases h with ⟨hshows, packed, hsome⟩
  unfold reading
  cases hplain : blob? store (Keys.snapshot id false) with
  | some bytes => exact isForm_plain_iff.mp (hs.titled id false bytes hshows hplain)
  | none =>
    cases hpack : blob? store (Keys.snapshot id true) with
    | some bytes => exact isForm_packed_iff.mp (hs.titled id true bytes hshows hpack)
    | none =>
      cases packed with
      | false =>
        rw [hplain] at hsome
        cases hsome
      | true =>
        rw [hpack] at hsome
        cases hsome

theorem listed_of_reading {s : Snapshot} (hshows : store.Shows id)
    (h : reading store id = .ok s) : Listed store id := by
  refine ⟨hshows, ?_⟩
  unfold reading at h
  cases hplain : blob? store (Keys.snapshot id false) with
  | some bytes => exact ⟨false, Option.isSome_iff_exists.mpr ⟨bytes, hplain⟩⟩
  | none =>
    cases hpack : blob? store (Keys.snapshot id true) with
    | some bytes => exact ⟨true, Option.isSome_iff_exists.mpr ⟨bytes, hpack⟩⟩
    | none =>
      rw [hplain, hpack] at h
      cases h

theorem Sound.listed_of_reading_eq (hs : Sound store) (hshows : after.Shows = store.Shows)
    (h : Listed store id) (heq : reading after id = reading store id) : Listed after id := by
  rcases hs.reading_of_listed h with ⟨s, hread, -⟩
  refine listed_of_reading ?_ (heq.trans hread)
  rw [hshows]
  exact h.1

theorem Sound.load_eq_reading (hs : Sound store) (h : Listed store id) :
    load store id = reading store id := by
  rcases h with ⟨hshows, packed, hsome⟩
  have hget := get_plain hs.ready hshows hsome
  unfold load reading holds
  rw [hget]
  cases hplain : blob? store (Keys.snapshot id false) with
  | some bytes =>
    have hform := loadForm_eq hplain
    rw [unpacked?, isPacked_snapshot] at hform
    exact hform
  | none =>
    cases packed with
    | false =>
      rw [hplain] at hsome
      cases hsome
    | true =>
      rcases Option.isSome_iff_exists.mp hsome with ⟨bytes, hpack⟩
      have hform := loadForm_eq hpack
      rw [unpacked?, isPacked_snapshot_true] at hform
      rw [get_of_blob hpack, hpack]
      exact hform

theorem isSome_blob_of_holds (h : holds store key = .ok true) : (blob? store key).isSome := by
  unfold holds at h
  cases hget : BlobStore.get store key with
  | error e =>
    rw [hget] at h
    cases h
  | ok found =>
    rw [hget] at h
    rw [blob?, hget]
    exact Except.ok.inj h

theorem listed_of_load {s : Snapshot} (hshows : store.Shows id) (h : load store id = .ok s) :
    Listed store id := by
  refine ⟨hshows, ?_⟩
  unfold load at h
  cases hplain : holds store (Keys.snapshot id false) with
  | error e =>
    rw [hplain] at h
    cases h
  | ok plain =>
    cases plain with
    | true => exact ⟨false, isSome_blob_of_holds hplain⟩
    | false =>
      rw [hplain] at h
      cases hpack : holds store (Keys.snapshot id true) with
      | error e =>
        rw [hpack] at h
        cases h
      | ok there =>
        cases there with
        | true => exact ⟨true, isSome_blob_of_holds hpack⟩
        | false =>
          rw [hpack] at h
          cases h

theorem latest_of_load {older newer : List String} (hids : ids store = .ok (older ++ id :: newer))
    {s : Snapshot} (hload : load store id = .ok s)
    (hnewer : ∀ other ∈ newer, load? store other = none) : latest store = .ok (some s) := by
  have hnone : newer.reverse.findSome? (load? store) = none :=
    findSome?_eq_none_iff.mpr fun other hother => hnewer other (mem_reverse.mp hother)
  have hsome : load? store id = some s := load?_eq_some_iff.mpr hload
  unfold latest
  rw [hids, Except.map, reverse_append, reverse_cons, append_assoc,
    findSome?_append, hnone, singleton_append, findSome?_cons, hsome]
  rfl

theorem Sound.latest_of_ids (hs : Sound store) {older : List String}
    (hids : ids store = .ok (older ++ [id])) :
    ∃ s, latest store = .ok (some s) ∧ reading store id = .ok s ∧ s.id = id := by
  have hlist : Listed store id := (mem_ids_iff_of_serves hs.ready.serves hids).mp
    (mem_append_right _ mem_cons_self)
  rcases hs.reading_of_listed hlist with ⟨s, hread, hid⟩
  have hload : load store id = .ok s := (hs.load_eq_reading hlist).trans hread
  exact ⟨s, latest_of_load hids hload nofun, hread, hid⟩

theorem Sound.latest_spec (hs : Sound store) {s : Snapshot}
    (h : latest store = .ok (some s)) : Listed store s.id ∧ reading store s.id = .ok s ∧
      ∀ id, Listed store id → id = s.id ∨ compare id s.id = .lt := by
  cases hids : ids store with
  | error e =>
    rw [latest, hids] at h
    cases h
  | ok found =>
    have hmem : ∀ id, id ∈ found ↔ Listed store id :=
      fun id => mem_ids_iff_of_serves hs.ready.serves hids
    rcases eq_nil_or_concat' found with rfl | ⟨older, last, rfl⟩
    · rw [latest, hids] at h
      cases h
    · rcases hs.latest_of_ids hids with ⟨s', hlatest, hread, rfl⟩
      cases hlatest.symm.trans h
      refine ⟨(hmem _).mp (mem_append_right _ mem_cons_self), hread, fun id hid => ?_⟩
      exact (increasing_ids hids).eq_or_lt_last ((hmem id).mpr hid)

end Reading

/-- A history did not go back from one store to another. -/
structure Onward (store after : EitherStore) : Prop where
  sound : Sound after
  shows : after.Shows = store.Shows
  flat : after.Flat = store.Flat
  /-- For every snapshot that was listed there is one that is not older. -/
  later : ∀ id, Listed store id → ∃ id', Listed after id' ∧ (id = id' ∨ compare id id' = .lt)
  /-- The newest snapshot is read as before, or it is newer than all that were listed. -/
  newest : ∀ id, Listed after id → (∀ id', Listed after id' → id' = id ∨ compare id' id = .lt) →
    Listed store id ∧ reading after id = reading store id ∨
      ∀ id', Listed store id' → compare id' id = .lt

section Order

theorem eq_or_lt_trans {a b c : String} (hab : a = b ∨ compare a b = .lt)
    (hbc : b = c ∨ compare b c = .lt) : a = c ∨ compare a c = .lt := by
  rcases hab with rfl | hab
  · exact hbc
  · rcases hbc with rfl | hbc
    · exact .inr hab
    · exact .inr (Std.TransCmp.lt_trans hab hbc)

theorem lt_of_eq_or_lt_of_lt {a b c : String} (hab : a = b ∨ compare a b = .lt)
    (hbc : compare b c = .lt) : compare a c = .lt := by
  rcases hab with rfl | hab
  · exact hbc
  · exact Std.TransCmp.lt_trans hab hbc

theorem not_lt_of_eq_or_lt {a b : String} (h : a = b ∨ compare a b = .lt) : compare b a ≠ .lt := by
  rcases h with rfl | h
  · exact compare_self_ne_lt a
  · exact compare_lt_asymm h

end Order

namespace Onward

theorem refl (hs : Sound store) : Onward store store :=
  ⟨hs, rfl, rfl, fun id h => ⟨id, h, .inl rfl⟩, fun _ h _ => .inl ⟨h, rfl⟩⟩

theorem trans (h : Onward store middle) (h' : Onward middle after) : Onward store after where
  sound := h'.sound
  shows := h'.shows.trans h.shows
  flat := h'.flat.trans h.flat
  later id hid := by
    rcases h.later id hid with ⟨second, hsnd, hle⟩
    rcases h'.later second hsnd with ⟨third, hthird, hle'⟩
    exact ⟨third, hthird, eq_or_lt_trans hle hle'⟩
  newest id hid hmax := by
    rcases h'.newest id hid hmax with ⟨hmid, hread⟩ | hall
    · -- It was the newest one in between as well, since one that was newer would have stayed.
      have hbetween : ∀ id', Listed middle id' → id' = id ∨ compare id' id = .lt := by
        intro id' hid'
        rcases h'.later id' hid' with ⟨third, hthird, hle⟩
        exact eq_or_lt_trans hle (hmax third hthird)
      rcases h.newest id hmid hbetween with ⟨hstore, hread'⟩ | hall
      · exact .inl ⟨hstore, hread.trans hread'⟩
      · exact .inr hall
    · right
      intro id' hid'
      rcases h.later id' hid' with ⟨second, hsnd, hle⟩
      exact lt_of_eq_or_lt_of_lt hle (hall second hsnd)

end Onward

/-- A history goes onward if every snapshot is read as before, or if one that is newer is. -/
theorem onward_of_readings (hs : Sound store) (hafter : Sound after)
    (hshows : after.Shows = store.Shows) (hflat : after.Flat = store.Flat)
    (h : ∀ id, Listed store id → reading after id = reading store id ∨
      ∃ id', Listed store id' ∧ compare id id' = .lt ∧ reading after id' = reading store id') :
    Onward store after := by
  have hlater : ∀ id, Listed store id →
      ∃ id', Listed after id' ∧ (id = id' ∨ compare id id' = .lt) := by
    intro id hid
    rcases h id hid with hread | ⟨id', hid', hlt, hread⟩
    · exact ⟨id, hs.listed_of_reading_eq hshows hid hread, .inl rfl⟩
    · exact ⟨id', hs.listed_of_reading_eq hshows hid' hread, .inr hlt⟩
  refine ⟨hafter, hshows, hflat, hlater, fun id hid hmax => ?_⟩
  by_cases hold : Listed store id
  · rcases h id hold with hread | ⟨id', hid', hlt, hread⟩
    · exact .inl ⟨hold, hread⟩
    · have hnewer := hmax id' (hs.listed_of_reading_eq hshows hid' hread)
      exact absurd hlt (not_lt_of_eq_or_lt hnewer)
  · -- A snapshot that is new is newer than all that are listed with it.
    right
    intro id' hid'
    rcases hlater id' hid' with ⟨id'', hid'', hle⟩
    rcases eq_or_lt_trans hle (hmax id'' hid'') with rfl | hlt
    · exact absurd hid' hold
    · exact hlt

section Touched

variable {new : Option ByteArray}

theorem reading_of_touched (h : store.Touched key new after) (hshows : store.Shows id)
    (hkey : ∀ packed, Keys.snapshot id packed ≠ key) : reading after id = reading store id := by
  have hsame : ∀ packed, blob? after (Keys.snapshot id packed) =
      blob? store (Keys.snapshot id packed) := by
    intro packed
    rcases h.forms id packed hshows with heq | ⟨heq, -⟩
    · exact heq
    · exact absurd heq (hkey packed)
  rw [reading, reading, hsame, hsame]

/-- A write or a removal goes onward if it leaves a form that can be read, and if what its snapshot
    says stays or there is a newer one. -/
theorem onward_of_touched (hs : Sound store) (h : store.Touched key new after)
    (hnew : ∀ id packed bytes, store.Shows id → Keys.snapshot id packed = key →
      new = some bytes → IsForm id packed bytes)
    (hkept : ∀ id packed, Listed store id → Keys.snapshot id packed = key →
      reading after id = reading store id ∨ ∃ id', Listed store id' ∧ compare id id' = .lt) :
    Onward store after := by
  have hafter : Sound after := by
    refine ⟨h.ready, fun id packed bytes hshows hblob => ?_⟩
    rw [h.shows] at hshows
    rcases h.forms id packed hshows with heq | ⟨hkey, heq⟩
    · exact hs.titled id packed bytes hshows (heq.symm.trans hblob)
    · exact hnew id packed bytes hshows hkey (heq.symm.trans hblob)
  refine onward_of_readings hs hafter h.shows h.flat fun id hid => ?_
  by_cases hkey : ∃ packed, Keys.snapshot id packed = key
  · rcases hkey with ⟨packed, hkey⟩
    rcases hkept id packed hid hkey with hread | ⟨id', hid', hlt⟩
    · exact .inl hread
    · refine .inr ⟨id', hid', hlt, reading_of_touched h hid'.1 fun packed' hkey' => ?_⟩
      rw [(Keys.snapshot_inj.mp (hkey.trans hkey'.symm)).1] at hlt
      exact compare_self_ne_lt id' hlt
  · exact .inl (reading_of_touched h hid.1 (not_exists.mp hkey))

theorem onward_of_elsewhere (hs : Sound store) (h : store.Touched key new after)
    (hkey : beginsWith key Keys.snapshots = false) : Onward store after := by
  have hne : ∀ id packed, Keys.snapshot id packed ≠ key := fun id packed =>
    ne_of_beginsWith hkey (Keys.beginsWith_snapshot id packed)
  exact onward_of_touched hs h (fun id packed _ _ heq => absurd heq (hne id packed))
    fun id packed _ heq => absurd heq (hne id packed)

end Touched

end History

namespace Job

open History

variable {τ ρ π α β : Type} {part : τ → EitherStore}

/-- A job makes the history in a part of its state go onward, wherever it stops. -/
def Advances (part : τ → EitherStore) (job : Job τ α) : Prop :=
  ∀ s, Sound (part s) → job.Ends s fun _ after => Onward (part s) (part after)

theorem advances_of_keeps {job : Job τ α} (h : Keeps part job) : Advances part job := by
  intro s hs
  rw [Ends, h s]
  exact .refl hs

theorem advances_bind {job : Job τ α} {next : α → Job τ β} (h : Advances part job)
    (hnext : ∀ a, Advances part (next a)) : Advances part (job >>= next) := by
  intro s hs
  refine ends_bind (h s hs) (fun _ _ hon => hon) fun a middle hon => ?_
  exact (hnext a middle hon.sound).imp fun _ _ hon' => hon.trans hon'

theorem advances_onSecond {job : Job EitherStore α} (h : Advances id job) :
    Advances Prod.snd (onSecond job : Job (ρ × EitherStore) α) :=
  fun s hs => h s.2 hs

theorem advances_inside {inner : ρ → π} {put : ρ → π → ρ} {job : Job (π × EitherStore) α}
    (h : Advances Prod.snd job) : Advances Prod.snd (inside inner put job) :=
  fun s hs => h (inner s.1, s.2) hs

theorem advances_ignoringFailure {job : Job EitherStore Unit} (h : Advances id job) :
    Advances id (ignoringFailure job) := h

variable {key : String}

theorem advances_writeJson (hkey : Keys.Orderly key)
    (h : beginsWith key Keys.snapshots = false) (j : Json) :
    Advances id (Store.writeJson key j : Job EitherStore Unit) := fun _ hs =>
  onward_of_elsewhere hs
    (touched_put hs.ready (admits_of_orderly hkey) _) h

theorem advances_delete (hkey : Keys.Orderly key) (h : beginsWith key Keys.snapshots = false) :
    Advances id (Store.delete key : Job EitherStore Bool) := fun _ hs =>
  onward_of_elsewhere hs
    (touched_delete hs.ready (admits_of_orderly hkey)) h

end Job

namespace History

variable {store : EitherStore} {key : String}

theorem advances_saveNotes (n : SnapshotNotes) : Advances id (saveNotes n : Job EitherStore Unit) :=
  advances_writeJson (Keys.orderly_notes _) (Keys.beginsWith_notes _) _

/-- Saving a snapshot goes onward if there is none with its id, or one that is newer. -/
theorem ends_save_onward (hs : Sound store) {s : Snapshot} (hflat : store.Flat s.id)
    (hfree : Listed store s.id → ∃ id, Listed store id ∧ compare s.id id = .lt) :
    (save s).Ends store fun _ after => Onward store after := by
  refine onward_of_touched hs (touched_put hs.ready (hflat.admits false) _) ?_ ?_
  · intro id packed bytes _ hkey hbytes
    rcases Keys.snapshot_inj.mp hkey with ⟨rfl, rfl⟩
    refine ⟨s, ?_, rfl⟩
    rw [← Option.some.inj hbytes, unpacked_packed, decoded, Option.bind_some,
      jsonOfBytes_bytesOfJson s.stored_toJson, Option.bind_some, Snapshot.ofJson_toJson]
    rfl
  · intro id packed hid hkey
    rcases Keys.snapshot_inj.mp hkey with ⟨rfl, rfl⟩
    exact .inr (hfree hid)

/-- Taking in a file goes onward if the id in it is no path. -/
theorem ends_importFrom_onward (hs : Sound store) {path : String} {content : ByteArray}
    (hflat : ∀ e, readExported path content = .ok e → store.Flat e.snapshot.id) :
    (importFrom path content).Ends store fun _ after => Onward store after := by
  refine ends_inspect_bind (fun _ _ => .refl hs) fun e hread => ?_
  refine ends_inspect_bind (fun _ _ => .refl hs) fun there hthere => ?_
  cases there with
  | true => exact .refl hs
  | false =>
    have hfree : ¬ Listed store e.snapshot.id := by
      rintro ⟨-, packed, hsome⟩
      rw [blob_of_contains hthere] at hsome
      cases hsome
    refine ends_bind (ends_save_onward hs (hflat e hread) fun h => absurd h hfree)
      (fun _ _ h => h) fun _ middle h => ?_
    exact ends_bind (advances_saveNotes _ middle h.sound) (fun _ _ h' => h.trans h')
      fun _ _ h' => h.trans h'

/-- Tagging a snapshot goes onward. -/
theorem advances_tag (name : String) (tags : List String) (description : Option String) :
    Advances id (tag name tags description : Job EitherStore SnapshotNotes) := by
  intro store hs
  refine ends_inspect_bind (fun _ _ => .refl hs) fun there _ => ?_
  cases there with
  | true =>
    refine ends_inspect_bind (fun _ _ => .refl hs) fun n _ => ?_
    exact ends_bind (advances_saveNotes n store hs) (fun _ _ h => h) fun _ _ h => h
  | false => exact .refl hs

section Upkeep

variable {newest : String}

/-- A removal goes onward if it is about no snapshot or about one that is older than another, and
    the other one stays. -/
theorem ends_delete_onward (hs : Sound store) (hkey : store.Admits key)
    (hnew : Listed store newest)
    (hlt : ∀ id packed, Keys.snapshot id packed = key → compare id newest = .lt) :
    (Store.delete key).Ends store fun _ after => Onward store after ∧ Listed after newest := by
  have htouched := touched_delete hs.ready hkey
  refine ⟨onward_of_touched hs htouched (fun _ _ _ _ _ hnone => by cases hnone)
    fun id packed _ heq => .inr ⟨newest, hnew, hlt id packed heq⟩, ?_⟩
  refine hs.listed_of_reading_eq htouched.shows hnew ?_
  exact reading_of_touched htouched hnew.1 fun packed heq =>
    compare_self_ne_lt newest (hlt newest packed heq)

theorem ends_remove_onward {id : String} (hs : Sound store) (hflat : store.Flat id)
    (hnew : Listed store newest) (hlt : compare id newest = .lt) :
    (remove id).Ends store fun _ after => Onward store after ∧ Listed after newest := by
  have hform : ∀ form id' packed, Keys.snapshot id' packed = Keys.snapshot id form →
      compare id' newest = .lt := fun form id' packed heq => by
    rw [(Keys.snapshot_inj.mp heq).1]
    exact hlt
  refine ends_bind (ends_delete_onward hs (hflat.admits false) hnew (hform false))
    (fun _ _ h => h) fun _ first ⟨hfst, hthere⟩ => ?_
  have hflat' : first.Flat id := by
    rw [hfst.flat]
    exact hflat
  refine ends_bind (ends_delete_onward hfst.sound (hflat'.admits true) hthere (hform true))
    (fun _ _ h => ⟨hfst.trans h.1, h.2⟩) fun _ second ⟨hsnd, hthere'⟩ => ?_
  have hon := hfst.trans hsnd
  -- The notes are not about a snapshot.
  have hnotes : ∀ id' packed, Keys.snapshot id' packed = Keys.notes id →
      compare id' newest = .lt := fun id' packed heq =>
    absurd heq (ne_of_beginsWith (Keys.beginsWith_notes id) (Keys.beginsWith_snapshot id' packed))
  exact ends_bind (ends_delete_onward hsnd.sound
    (admits_of_orderly (Keys.orderly_notes id)) hthere' hnotes)
    (fun _ _ h => ⟨hon.trans h.1, h.2⟩) fun _ _ h => ⟨hon.trans h.1, h.2⟩

/-- Removing old snapshots goes onward as long as they are older than one that stays. -/
theorem ends_enforceFrom_onward (r : Retention) (now : Int64) {older : List String} (kept : Nat)
    (hs : Sound store) (hnew : Listed store newest)
    (holder : ∀ id ∈ older, store.Flat id ∧ compare id newest = .lt) :
    (enforceFrom r now kept older).Ends store fun _ after =>
      Onward store after ∧ Listed after newest := by
  induction older generalizing kept store with
  | nil => exact ⟨.refl hs, hnew⟩
  | cons id rest ih =>
    rcases forall_mem_cons.mp holder with ⟨⟨hflat, hlt⟩, hrest⟩
    refine ends_inspect_bind (fun _ _ => ⟨.refl hs, hnew⟩) fun isExempt _ => ?_
    by_cases hexempt : isExempt = true
    · rw [if_pos hexempt]
      exact ih kept hs hnew hrest
    · rw [if_neg hexempt]
      by_cases hgo : (r.tooOld now id || r.full kept) = true
      · rw [if_pos hgo]
        refine ends_bind (ends_remove_onward hs hflat hnew hlt) (fun _ _ h => h)
          fun _ middle ⟨hon, hthere⟩ => Ends.then_pure ?_ _
        have hrest' : ∀ id ∈ rest, middle.Flat id ∧ compare id newest = .lt := by
          rw [hon.flat]
          exact hrest
        exact (ih kept hon.sound hthere hrest').imp fun _ _ h => ⟨hon.trans h.1, h.2⟩
      · rw [if_neg hgo]
        exact ih (kept + 1) hs hnew hrest

/-- Removing old snapshots goes onward, since the newest one stays. -/
theorem advances_enforce (r : Retention) (now : Int64) :
    Advances id (enforce r now : Job EitherStore (List String)) := by
  intro store hs
  refine ends_inspect_bind (fun _ _ => .refl hs) fun found hfound => ?_
  have hlist : ∀ id, id ∈ found ↔ Listed store id :=
    fun id => mem_ids_iff_of_serves hs.ready.serves hfound
  rcases eq_nil_or_concat' found with rfl | ⟨front, newest, rfl⟩
  · exact .refl hs
  · have hinc := increasing_ids hfound
    rw [reverse_append]
    refine (ends_enforceFrom_onward r now 1 hs
      ((hlist newest).mp (mem_append_right _ mem_cons_self)) fun id hid => ?_).imp
      fun _ _ h => h.1
    have hfront := mem_reverse.mp hid
    exact ⟨((hlist id).mp (mem_append_left _ hfront)).1.flat, hinc.lt_last hfront⟩

section Packing

variable {id : String} {bytes : ByteArray}

/-- Writing the packed form of a snapshot goes onward, since the plain one stays and is read. -/
theorem onward_of_packed (hs : Sound store) (hshows : store.Shows id)
    (hplain : blob? store (Keys.snapshot id false) = some bytes) {after : EitherStore}
    (h : store.Touched (Keys.snapshot id true) (some (Packing.gzip bytes)) after) :
    Onward store after ∧ blob? after (Keys.snapshot id false) = some bytes := by
  have hstill : blob? after (Keys.snapshot id false) = some bytes := by
    rcases h.forms id false hshows with heq | ⟨heq, -⟩
    · exact heq.trans hplain
    · cases (Keys.snapshot_inj.mp heq).2
  refine ⟨onward_of_touched hs h ?_ ?_, hstill⟩
  · intro id' packed' bytes' _ hkey hbytes
    rcases Keys.snapshot_inj.mp hkey with ⟨rfl, rfl⟩
    rw [← Option.some.inj hbytes, isForm_packed_iff, Packing.gunzip_gzip]
    exact isForm_plain_iff.mp (hs.titled id' false bytes hshows hplain)
  · intro id' packed' _ hkey
    rcases Keys.snapshot_inj.mp hkey with ⟨rfl, rfl⟩
    left
    rw [reading, reading, hstill, hplain]
    exact ofForms_plain _ _ _ _

/-- Removing the plain form goes onward, since the packed one says the same. -/
theorem onward_of_unpacked (hs : Sound store) (hshows : store.Shows id)
    (hplain : blob? store (Keys.snapshot id false) = some bytes)
    (hpack : blob? store (Keys.snapshot id true) = some (Packing.gzip bytes))
    {after : EitherStore} (h : store.Touched (Keys.snapshot id false) none after) :
    Onward store after := by
  refine onward_of_touched hs h (fun _ _ _ _ _ hnone => by cases hnone) fun id' packed' _ hkey => ?_
  rcases Keys.snapshot_inj.mp hkey with ⟨rfl, rfl⟩
  left
  have hstill : blob? after (Keys.snapshot id' true) = some (Packing.gzip bytes) := by
    rcases h.forms id' true hshows with heq | ⟨heq, -⟩
    · exact heq.trans hpack
    · cases (Keys.snapshot_inj.mp heq).2
  rcases h.forms id' false hshows with heq | ⟨-, hnone⟩
  · rw [reading, reading, hstill, heq, hpack]
  · rw [reading, reading, hstill, hnone, hplain]
    exact ofForms_packed _ _ _

theorem ends_pack_onward (hs : Sound store) (hshows : store.Shows id) :
    (pack id).Ends store fun _ after => Onward store after := by
  refine ends_inspect_bind (fun _ _ => .refl hs) fun plain hget => ?_
  cases plain with
  | none => exact .refl hs
  | some bytes =>
    have hplain : blob? store (Keys.snapshot id false) = some bytes := by rw [blob?, hget]
    have hput : (Store.put (Keys.snapshot id true) (Packing.gzip bytes)).Ends store
        fun result after => (Onward store after ∧
          blob? after (Keys.snapshot id false) = some bytes) ∧
          (result = .ok () → blob? after (Keys.snapshot id true) = some (Packing.gzip bytes)) := by
      refine ⟨onward_of_packed hs hshows hplain
        (touched_put hs.ready (hshows.flat.admits true) _), fun hok => ?_⟩
      exact RetentiveStore.blob_of_put (Prod.ext hok rfl)
    refine ends_bind hput (fun _ _ h => h.1.1) ?_
    rintro _ middle ⟨⟨hon, hplain'⟩, hpack⟩
    have hshows' : middle.Shows id := by
      rw [hon.shows]
      exact hshows
    have hdel : (Store.delete (Keys.snapshot id false)).Ends middle
        fun _ after => Onward middle after :=
      onward_of_unpacked hon.sound hshows' hplain' (hpack rfl)
        (touched_delete hon.sound.ready (hshows'.flat.admits false))
    exact ends_bind hdel (fun _ _ h => hon.trans h) fun _ _ h => hon.trans h

end Packing

theorem ends_packAll_onward {chosen : List String} (hs : Sound store)
    (hshows : ∀ id ∈ chosen, store.Shows id) :
    (packAll chosen).Ends store fun _ after => Onward store after := by
  induction chosen generalizing store with
  | nil => exact .refl hs
  | cons id rest ih =>
    rcases forall_mem_cons.mp hshows with ⟨hid, hrest⟩
    refine ends_bind (ends_pack_onward hs hid) (fun _ _ h => h) fun done middle h => ?_
    have hrest' : ∀ id ∈ rest, middle.Shows id := by
      rw [h.shows]
      exact hrest
    exact ends_bind (ih h.sound hrest') (fun _ _ h' => h.trans h') fun _ _ h' => h.trans h'

theorem advances_compress (afterHours now : Int64) :
    Advances id (compress afterHours now : Job EitherStore (List String)) := by
  intro store hs
  refine ends_inspect_bind (fun _ _ => .refl hs) fun found hfound => ?_
  refine ends_packAll_onward hs fun id hid => ?_
  exact ((mem_ids_iff_of_serves hs.ready.serves hfound).mp (mem_of_mem_filter hid)).1

/-- Upkeep goes onward. -/
theorem advances_maintain (r : Retention) (afterHours now : Int64) :
    Advances id (maintain r afterHours now : Job EitherStore UpkeepReport) :=
  advances_bind (advances_enforce r now) fun _ =>
    advances_bind (advances_compress afterHours now) fun _ => advances_of_keeps (keeps_pure _)

end Upkeep

end History

end Ripple
