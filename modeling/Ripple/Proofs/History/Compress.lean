import Ripple.Proofs.History.Forms
import Ripple.Proofs.Store.Recorded

/-!
# Packing Is Not Seen

Packing a snapshot writes its packed form and then removes the plain one. In
between both are there, and the machine may stop at every point. A reader must
not see any of it: the same snapshots are listed, each of them is read as
before, with the same error if it cannot be read, and the notes stay.

Neither of the two steps is seen, for different reasons. Writing the packed
form is not seen since the plain one is there and counts. Removing the plain
form is not seen since the packed one was written from it. That a packed form
was there before, possibly one that means another snapshot, makes no
difference: it did not count, and it is overwritten.

## Theorems

* `History.always_compress`: No step of packing is seen.
* `History.runs_packAll_of_packed`: What is packed is not packed again.
* `History.compress_is_transparent`: Packing is not seen at any point, leaves no
  old snapshot plain, and is done after one pass.
-/

namespace Ripple

open Store Job

namespace History

variable {σ : Type} [BlobStore σ]

/-- A reader does not see a difference between two stores. -/
structure Unseen (before after : σ) : Prop where
  /-- Each snapshot is read as before, or fails as before. -/
  load : ∀ id, History.load after id = History.load before id
  ids : History.ids after = History.ids before
  notes : ∀ id, blob? after (Keys.notes id) = blob? before (Keys.notes id)

theorem unseen_refl (store : σ) : Unseen store store := ⟨fun _ => rfl, rfl, fun _ => rfl⟩

theorem Unseen.trans {first second third : σ} (h : Unseen first second)
    (h' : Unseen second third) : Unseen first third :=
  ⟨fun id => (h'.load id).trans (h.load id), h'.ids.trans h.ids,
    fun id => (h'.notes id).trans (h.notes id)⟩

section Steps

variable [AtomicStore σ] {store after : σ} {id : String} {bytes : ByteArray}

/-- Stores are not told apart if every snapshot is read alike and is there alike. -/
theorem unseen_of_forms
    (hforms : ∀ id, ofForms id (blob? after (Keys.snapshot id false))
        (blob? after (Keys.snapshot id true)) =
      ofForms id (blob? store (Keys.snapshot id false)) (blob? store (Keys.snapshot id true)))
    (hthere : ∀ id, (∃ packed, (blob? after (Keys.snapshot id packed)).isSome) ↔
      ∃ packed, (blob? store (Keys.snapshot id packed)).isSome)
    (hnotes : ∀ id, blob? after (Keys.notes id) = blob? store (Keys.notes id)) :
    Unseen store after :=
  ⟨fun id => by rw [load_eq, load_eq, hforms], ids_eq_of_forms hthere, hnotes⟩

theorem unseen_of_blob (h : ∀ key, blob? after key = blob? store key) : Unseen store after :=
  unseen_of_forms (fun id => by rw [h, h]) (fun id => by simp only [h]) fun id => h _

/-- Changes to the forms of one snapshot are not seen if it is there and is read as before. -/
theorem unseen_of_one
    (hother : ∀ key, (∀ packed, key ≠ Keys.snapshot id packed) → blob? after key = blob? store key)
    (hread : ofForms id (blob? after (Keys.snapshot id false))
        (blob? after (Keys.snapshot id true)) =
      ofForms id (blob? store (Keys.snapshot id false)) (blob? store (Keys.snapshot id true)))
    (hpre : ∃ packed, (blob? store (Keys.snapshot id packed)).isSome)
    (hafter : ∃ packed, (blob? after (Keys.snapshot id packed)).isSome) : Unseen store after := by
  -- Another snapshot has other keys, in whichever form.
  have hsame : ∀ {other}, other ≠ id → ∀ packed,
      blob? after (Keys.snapshot other packed) = blob? store (Keys.snapshot other packed) :=
    fun hid packed => hother _ fun packed' heq => hid (Keys.snapshot_inj.mp heq).1
  refine unseen_of_forms (fun other => ?_) (fun other => ?_) fun other => ?_
  · by_cases hid : other = id
    · rw [hid, hread]
    · rw [hsame hid, hsame hid]
  · by_cases hid : other = id
    · rw [hid]
      exact ⟨fun _ => hpre, fun _ => hafter⟩
    · exact exists_congr fun packed => by rw [hsame hid]
  · exact hother _ (Keys.notes_ne_snapshot other id)

/-- A packed form is not seen beside the plain one. -/
theorem unseen_of_put_packed (hplain : blob? store (Keys.snapshot id false) = some bytes)
    {packed : ByteArray} (hafter : ∀ key, blob? after key =
      if key = Keys.snapshot id true then some packed else blob? store key) :
    Unseen store after := by
  have hkept : blob? after (Keys.snapshot id false) = some bytes := by
    rw [hafter, if_neg (Keys.snapshot_true_ne id id).symm, hplain]
  refine unseen_of_one (fun key hkey => ?_) ?_ ⟨false, by rw [hplain]; rfl⟩
    ⟨false, by rw [hkept]; rfl⟩
  · rw [hafter, if_neg (hkey true)]
  · rw [hkept, hplain]
    exact ofForms_plain id bytes _ _

/-- The plain form is not missed beside a packed one that was made from it. -/
theorem unseen_of_delete_plain (hplain : blob? store (Keys.snapshot id false) = some bytes)
    (hpack : blob? store (Keys.snapshot id true) = some (Packing.gzip bytes))
    (hafter : ∀ key, blob? after key =
      if key = Keys.snapshot id false then none else blob? store key) :
    Unseen store after := by
  have hgone : blob? after (Keys.snapshot id false) = none := by rw [hafter, if_pos rfl]
  have hkept : blob? after (Keys.snapshot id true) = some (Packing.gzip bytes) := by
    rw [hafter, if_neg (Keys.snapshot_true_ne id id), hpack]
  refine unseen_of_one (fun key hkey => ?_) ?_ ⟨false, by rw [hplain]; rfl⟩
    ⟨true, by rw [hkept]; rfl⟩
  · rw [hafter, if_neg (hkey false)]
  · rw [hgone, hkept, hplain]
    exact ofForms_packed id bytes _

end Steps

section Record

variable [AtomicStore σ] {origin : σ} {r : Recorded σ}

/-- Neither of the two steps of packing a snapshot is seen, wherever it stops. -/
theorem always_pack (h : r.Always (Unseen origin)) (id : String) :
    (pack id).Ends r fun _ after => after.Always (Unseen origin) := by
  have hget : (Store.get (Keys.snapshot id false)).Runs r
      (blob? r.current (Keys.snapshot id false)) r :=
    runs_inspect (AtomicStore.get_eq r.current _)
  refine ends_bind_of_runs hget ?_
  cases hplain : blob? r.current (Keys.snapshot id false) with
  | none => exact h
  | some bytes =>
    -- After the first step both forms are there, and the second one needs this.
    have hput : (Store.put (Keys.snapshot id true) (Packing.gzip bytes)).Ends r
        fun result after => after.Always (Unseen origin) ∧ (result = .ok () →
          blob? after.current (Keys.snapshot id false) = some bytes ∧
            blob? after.current (Keys.snapshot id true) = some (Packing.gzip bytes)) := by
      refine ends_recorded_put (fun after hafter => ?_) fun e after hafter => ?_
      · refine ⟨h.moved (h.current.trans (unseen_of_put_packed hplain hafter)), fun _ => ⟨?_, ?_⟩⟩
        · exact (hafter _).trans ((if_neg (Keys.snapshot_true_ne id id).symm).trans hplain)
        · exact (hafter _).trans (if_pos rfl)
      · exact ⟨h.moved (h.current.trans (unseen_of_blob hafter)), fun hok => by cases hok⟩
    refine ends_bind hput (fun _ _ hstopped => hstopped.1) fun _ middle hmid => ?_
    obtain ⟨hmid, hforms⟩ := hmid
    obtain ⟨hplain', hpack'⟩ := hforms rfl
    refine Ends.then_pure (ends_recorded_delete (fun found after hafter => ?_)
      fun e after hafter => ?_) _
    · exact hmid.moved (hmid.current.trans (unseen_of_delete_plain hplain' hpack' hafter))
    · exact hmid.moved (hmid.current.trans (unseen_of_blob hafter))

theorem always_packAll (ids : List String) (h : r.Always (Unseen origin)) :
    (packAll ids).Ends r fun _ after => after.Always (Unseen origin) := by
  -- The invariant is about all states since the start, so it is handed on from one id to the next.
  induction ids generalizing r with
  | nil => exact h
  | cons id rest ih =>
    refine ends_bind (always_pack h id) (fun _ _ hstopped => hstopped) fun _ middle hmid => ?_
    exact (ih hmid).then_pure _

theorem always_compress (afterHours now : Int64) (store : σ) :
    (compress afterHours now).Ends (Recorded.start store) fun _ after =>
      after.Always (Unseen store) := by
  obtain ⟨found, hfound, -⟩ := ids_eq store
  have hids : ids (Recorded.start store) = .ok found := hfound
  exact ends_bind_of_runs (runs_inspect hids)
    (always_packAll _ (Recorded.always_start (unseen_refl store)))

omit [AtomicStore σ] in
theorem mirrors_pack (id : String) : Mirrors (pack id) (pack id : Job σ Bool) := by
  refine mirrors_bind (mirrors_get _) fun found => ?_
  cases found with
  | none => exact mirrors_pure false
  | some bytes =>
    exact mirrors_bind (mirrors_put _ _) fun _ =>
      mirrors_bind (mirrors_delete _) fun _ => mirrors_pure true

omit [AtomicStore σ] in
theorem mirrors_packAll (ids : List String) :
    Mirrors (packAll ids) (packAll ids : Job σ (List String)) := by
  induction ids with
  | nil => exact mirrors_pure []
  | cons id rest ih =>
    exact mirrors_bind (mirrors_pack id) fun _ => mirrors_bind ih fun _ => mirrors_pure _

omit [AtomicStore σ] in
theorem mirrors_compress (afterHours now : Int64) :
    Mirrors (compress afterHours now) (compress afterHours now : Job σ (List String)) :=
  mirrors_bind (mirrors_inspect fun _ => rfl) fun _ => mirrors_packAll _

end Record

section Passes

variable [AtomicStore σ] {store after : σ}

/-- A snapshot that was packed is not plain, and no other one becomes plain. -/
theorem plain_of_pack {id : String} {done : Bool} (h : (pack id).Runs store done after) :
    blob? after (Keys.snapshot id false) = none ∧
      ∀ other, blob? store (Keys.snapshot other false) = none →
        blob? after (Keys.snapshot other false) = none := by
  rw [pack, runs_bind_of_runs (runs_get_blob store _)] at h
  cases hplain : blob? store (Keys.snapshot id false) with
  | none =>
    rw [hplain] at h
    obtain ⟨-, rfl⟩ := runs_pure_iff.mp h
    exact ⟨hplain, fun _ hother => hother⟩
  | some bytes =>
    rw [hplain] at h
    obtain ⟨_, middle, hput, hrest⟩ := runs_bind_iff.mp h
    obtain ⟨_, last, hdel, hpure⟩ := runs_bind_iff.mp hrest
    obtain ⟨-, rfl⟩ := runs_pure_iff.mp hpure
    have hmid : ∀ other, blob? middle (Keys.snapshot other false) =
        blob? store (Keys.snapshot other false) := by
      intro other
      rw [blob_of_put hput, if_neg (Keys.snapshot_true_ne id other).symm]
    refine ⟨by rw [blob_of_delete hdel, if_pos rfl], fun other hother => ?_⟩
    -- Whatever the removal does to the key, there is nothing under it.
    rw [blob_of_delete hdel, hmid, hother, ite_self]

/-- None of the snapshots that were to be packed is plain. -/
theorem plain_of_packAll {ids done : List String} (h : (packAll ids).Runs store done after) :
    (∀ id ∈ ids, blob? after (Keys.snapshot id false) = none) ∧
      ∀ other, blob? store (Keys.snapshot other false) = none →
        blob? after (Keys.snapshot other false) = none := by
  induction ids generalizing store done with
  | nil =>
    obtain ⟨-, rfl⟩ := runs_pure_iff.mp h
    exact ⟨fun _ hid => absurd hid List.not_mem_nil, fun _ hother => hother⟩
  | cons id rest ih =>
    obtain ⟨_, middle, hpack, hrest⟩ := runs_bind_iff.mp h
    obtain ⟨_, last, hall, hpure⟩ := runs_bind_iff.mp hrest
    obtain ⟨-, rfl⟩ := runs_pure_iff.mp hpure
    obtain ⟨hid, hpacked⟩ := plain_of_pack hpack
    obtain ⟨hothers, hlast⟩ := ih hall
    exact ⟨List.forall_mem_cons.mpr ⟨hlast id hid, hothers⟩,
      fun other hother => hlast other (hpacked other hother)⟩

theorem runs_packAll_of_packed {ids : List String}
    (h : ∀ id ∈ ids, blob? store (Keys.snapshot id false) = none) :
    (packAll ids).Runs store [] store := by
  induction ids with
  | nil => exact runs_pure [] store
  | cons id rest ih =>
    obtain ⟨hid, hrest⟩ := List.forall_mem_cons.mp h
    have hpack : (pack id).Runs store false store := by
      refine runs_bind (runs_get_blob store _) ?_
      rw [hid]
      exact runs_pure false store
    exact runs_bind hpack (runs_bind (ih hrest) (runs_pure [] store))

omit [AtomicStore σ] in
theorem exists_runs_packAll [LawfulStore σ] (ids : List String) (store : σ) :
    ∃ done after, (packAll ids).Runs store done after := by
  induction ids generalizing store with
  | nil => exact ⟨[], store, runs_pure [] store⟩
  | cons id rest ih =>
    have hpack : ∃ done after, (pack id).Runs store done after := by
      refine exists_runs_bind (runs_get_blob store _) ?_
      cases blob? store (Keys.snapshot id false) with
      | none => exact ⟨false, store, runs_pure false store⟩
      | some bytes =>
        obtain ⟨middle, hput, -⟩ :=
          LawfulStore.put_eq store (Keys.snapshot id true) (Packing.gzip bytes)
        obtain ⟨found, after, hdel, -⟩ := LawfulStore.delete_eq middle (Keys.snapshot id false)
        exact ⟨true, after, runs_bind hput (runs_bind hdel (runs_pure true after))⟩
    obtain ⟨done, middle, hpack⟩ := hpack
    obtain ⟨others, after, hrest⟩ := ih middle
    exact exists_runs_bind hpack ⟨_, after, runs_bind hrest (runs_pure _ after)⟩

omit [AtomicStore σ] in
theorem runs_compress_iff {afterHours now : Int64} {found done : List String}
    (hfound : ids store = .ok found) : (compress afterHours now).Runs store done after ↔
      (packAll (found.filter (isAged afterHours now))).Runs store done after :=
  runs_bind_of_runs (runs_inspect hfound)

end Passes

/-- Packing is not seen at any point. With a record it does what it does without, and a reader sees
    no difference between the store and any state on the record, whether packing goes through or
    stops. If it goes through, no listed snapshot is left plain whose time is long enough ago, and
    packing once more packs nothing and changes nothing. It goes through if no write fails. -/
theorem compress_is_transparent [AtomicStore σ] (afterHours now : Int64) (store : σ) :
    let recorded := (compress afterHours now).on (Recorded.start store)
    recorded.1 = ((compress afterHours now).on store).1 ∧
      recorded.2.current = ((compress afterHours now).on store).2 ∧
      (∀ state ∈ recorded.2.states, Unseen store state) ∧
      (∀ done after, (compress afterHours now).Runs store done after →
        (∀ found, ids store = .ok found → ∀ id ∈ found,
          (isAged afterHours now id = true → blob? after (Keys.snapshot id false) = none) ∧
          ∀ time, Snapshot.idTime? id = some time → InWord (afterHours.toInt * 3600000) →
            InWord (now.toInt - time.toInt) →
            afterHours.toInt * 3600000 ≤ now.toInt - time.toInt →
              blob? after (Keys.snapshot id false) = none) ∧
        (compress afterHours now).Runs after [] after) ∧
      (LawfulStore σ → ∃ done after, (compress afterHours now).Runs store done after) := by
  obtain ⟨hresult, hcurrent⟩ := mirrors_compress afterHours now (Recorded.start store)
  have hunseen := always_compress afterHours now store
  obtain ⟨found, hfound, -⟩ := ids_eq store
  refine ⟨hresult, hcurrent, hunseen, fun done after hrun => ?_, fun _ => ?_⟩
  · have hplain : ∀ id ∈ found, isAged afterHours now id = true →
        blob? after (Keys.snapshot id false) = none := fun id hid haged =>
      (plain_of_packAll ((runs_compress_iff hfound).mp hrun)).1 id
        (List.mem_filter.mpr ⟨hid, haged⟩)
    refine ⟨fun found' hfound' id hid => ?_, ?_⟩
    · obtain rfl := Except.ok.inj (hfound.symm.trans hfound')
      exact ⟨hplain id hid, fun time htime hlimit hage hle =>
        hplain id hid ((isAged_iff htime hlimit hage).mpr hle)⟩
    · -- The same snapshots are listed after the pass, and the old ones of them are packed.
      have hids : ids after = .ok found := by
        have hlast := hunseen.current.ids
        rw [hcurrent, show (compress afterHours now).on (Recorded.start store).current = _ from
          hrun, hfound] at hlast
        exact hlast
      refine (runs_compress_iff hids).mpr (runs_packAll_of_packed fun id hid => ?_)
      obtain ⟨hmem, haged⟩ := List.mem_filter.mp hid
      exact hplain id hmem haged
  · obtain ⟨done, after, hall⟩ := exists_runs_packAll (found.filter (isAged afterHours now)) store
    exact ⟨done, after, (runs_compress_iff hfound).mpr hall⟩

/-- A store with a plain snapshot that cannot be read. -/
def onePlain : MemoryStore := ⟨.ofList [(Keys.snapshot "1-a" false, ByteArray.empty)]⟩

/-- An unreadable snapshot is packed in two writes, neither of which is seen. -/
theorem compress_is_transparent_onePlain : (blob? onePlain (Keys.snapshot "1-a" false)).isSome ∧
      ((compress 1 7200000).on (Recorded.start onePlain)).2.states.length = 3 ∧
      (∀ state ∈ ((compress 1 7200000).on (Recorded.start onePlain)).2.states,
        Unseen onePlain state) ∧
      ∃ done after, (compress 1 7200000).Runs onePlain done after ∧
        blob? after (Keys.snapshot "1-a" false) = none ∧
        (compress 1 7200000).Runs after [] after := by
  obtain ⟨-, -, hunseen, hafter, hruns⟩ := compress_is_transparent 1 7200000 onePlain
  obtain ⟨done, after, hrun⟩ := hruns inferInstance
  obtain ⟨hplain, hagain⟩ := hafter done after hrun
  refine ⟨rfl, by decide +kernel, hunseen, done, after, hrun, ?_, hagain⟩
  exact (hplain ["1-a"] (by decide +kernel) "1-a" List.mem_cons_self).1 (by decide +kernel)

end History

end Ripple
