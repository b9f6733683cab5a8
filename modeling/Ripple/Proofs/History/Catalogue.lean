import Ripple.Proofs.History.Compress

/-!
# Histories With Imports and Upkeep

A history does not only grow. Snapshots are taken in from files, old ones are
removed and others are packed, and each of it may stop half way. What a new
snapshot needs of the snapshots before it is kept all the same: the last id has
a time with thirteen digits, so that the next one can be given a later time,
and the snapshot with the last id can be read.

There is one time after which this does not help any more. The clock may show
the last time with thirteen digits, and a snapshot may get it. The next one
then gets a time with fourteen digits, and its id comes before that of the
other. From then on the other one stays the last one: upkeep never removes it,
and no new id comes after it. So the order of the ids of new snapshots depends
on whether there is a snapshot with that time, and on nothing else.

## Theorems

* `History.Catalogued.latest_eq`: The newest snapshot is the one with the last id.
* `History.ends_maintain`: What upkeep may do, wherever it stops.
-/

namespace Ripple

open List Store Job

namespace Snapshot

/-- The last time with thirteen digits. -/
def lastTime : Int64 := 9999999999999

/-- The id of a snapshot whose time fits. -/
def Regular (id : String) : Prop := ∃ time salt, Fits time ∧ id = makeId time salt

theorem toInt_lastTime : lastTime.toInt = 10 ^ 13 - 1 := by decide

theorem fits_lastTime : Fits lastTime := ⟨by decide, by decide⟩

theorem toInt_lastTime_add_one : (lastTime + 1).toInt = 10 ^ 13 := by decide

/-- A time up to the first one with fourteen digits fits, or is that time. -/
theorem fits_or_eq {time : Int64} (hnonneg : 0 ≤ time.toInt) (hle : time.toInt ≤ 10 ^ 13) :
    Fits time ∨ time = lastTime + 1 := by
  rcases Int.lt_or_eq_of_le hle with hlt | heq
  · exact .inl ⟨hnonneg, hlt⟩
  · exact .inr (Int64.toInt_inj.mp (heq.trans toInt_lastTime_add_one.symm))

/-- The first time with fourteen digits gives an id that comes before that of the last time with
    thirteen. -/
theorem compare_makeId_lastTime (salt salt' : String) :
    compare (makeId (lastTime + 1) salt) (makeId lastTime salt') = .lt := by
  refine compareOfLessAndEq_eq_lt.mpr ?_
  change (makeId (lastTime + 1) salt).toList < (makeId lastTime salt').toList
  rw [toList_makeId (by decide), toList_makeId fits_lastTime.nonneg]
  have hone : (paddedDigits 13 (lastTime + 1).toInt.toNat).toList =
      '1' :: List.replicate 13 '0' := by decide +kernel
  have hnine : (paddedDigits 13 lastTime.toInt.toNat).toList = '9' :: List.replicate 12 '9' := by
    decide +kernel
  rw [hone, hnine, cons_append, cons_append, cons_lt_cons_iff]
  exact .inl (by decide)

end Snapshot

namespace History

section Ids

open Snapshot

/-- The ids of a history, as new snapshots and imports make them: all times fit, up to the first one
    that does not, and that one is only there if the last one that does was there before. -/
structure Dated (found : List String) : Prop where
  /-- Every id has a time, which fits or is the first one that does not. -/
  time : ∀ id ∈ found, ∃ time salt, 0 ≤ time.toInt ∧ time.toInt ≤ 10 ^ 13 ∧ id = makeId time salt
  /-- A time that does not fit comes after the last one that does. -/
  capped : ∀ id ∈ found, idTime? id = some (lastTime + 1) →
    ∃ other ∈ found, idTime? other = some lastTime

variable {found : List String}

theorem dated_nil : Dated [] :=
  ⟨fun _ hid => absurd hid not_mem_nil, fun _ hid => absurd hid not_mem_nil⟩

theorem Dated.regular_or (h : Dated found) {id : String} (hid : id ∈ found) :
    Regular id ∨ ∃ salt, id = makeId (lastTime + 1) salt := by
  obtain ⟨time, salt, hnonneg, hle, rfl⟩ := h.time id hid
  rcases fits_or_eq hnonneg hle with hfits | rfl
  · exact .inl ⟨time, salt, hfits, rfl⟩
  · exact .inr ⟨salt, rfl⟩

variable {front : List String} {last : String}

theorem Dated.last_of_lastTime (h : Dated (front ++ [last]))
    (hinc : Increasing (front ++ [last])) {id : String} (hid : id ∈ front ++ [last])
    (htime : idTime? id = some lastTime) : ∃ salt, last = makeId lastTime salt := by
  have hlast : last ∈ front ++ [last] := mem_append_right _ mem_cons_self
  have hself : ∀ {id}, id ∈ front ++ [last] → idTime? id = some lastTime →
      ∃ salt, id = makeId lastTime salt := by
    intro id hid htime
    obtain ⟨time, salt, hnonneg, -, rfl⟩ := h.time id hid
    rw [idTime_makeId hnonneg] at htime
    exact ⟨salt, by rw [Option.some.inj htime]⟩
  obtain ⟨salt, rfl⟩ := hself hid htime
  rcases hinc.eq_or_lt_last hid with rfl | hpre
  · exact ⟨salt, rfl⟩
  rcases h.regular_or hlast with ⟨time, salt', hfits, rfl⟩ | ⟨salt', rfl⟩
  · -- A later id with a time that fits has no earlier time.
    have hle := toInt_le_of_compare_makeId fits_lastTime hfits hpre
    have hlt := hfits.lt
    rw [toInt_lastTime] at hle
    have heq : time = lastTime := Int64.toInt_inj.mp (by rw [toInt_lastTime]; omega)
    exact ⟨salt', by rw [heq]⟩
  · exact absurd (compare_makeId_lastTime salt' salt) (compare_lt_asymm hpre)

theorem Dated.regular (h : Dated found) (hfree : ∀ id ∈ found, idTime? id ≠ some lastTime) :
    ∀ id ∈ found, Regular id := by
  intro id hid
  rcases h.regular_or hid with hreg | ⟨salt, rfl⟩
  · exact hreg
  · obtain ⟨other, hother, htime⟩ := h.capped _ hid (idTime_makeId (by decide) salt)
    exact absurd htime (hfree other hother)

/-- If no id has the last time, then the next time fits and the next id comes after all others. -/
theorem Dated.lt_makeId (h : Dated found) (hinc : Increasing found)
    (hfree : ∀ id ∈ found, idTime? id ≠ some lastTime) {now : Int64} (hnow : now.toInt < 10 ^ 13) :
    Fits (Tracker.timeAfter found now) ∧ ∀ salt, ∀ id ∈ found,
      compare id (makeId (Tracker.timeAfter found now) salt) = .lt := by
  have hreg := h.regular hfree
  have hbdd : ∀ id ∈ found, ∀ time, idTime? id = some time → time.toInt < 10 ^ 13 - 1 := by
    intro id hid time htime
    obtain ⟨time', salt, hfits, rfl⟩ := hreg id hid
    rw [idTime_makeId hfits.nonneg] at htime
    obtain rfl := Option.some.inj htime
    have hne : time'.toInt ≠ 10 ^ 13 - 1 := by
      intro heq
      obtain rfl : time' = lastTime := Int64.toInt_inj.mp (heq.trans toInt_lastTime.symm)
      exact hfree _ hid (idTime_makeId hfits.nonneg salt)
    have hlt := hfits.lt
    omega
  obtain ⟨hnonneg, hlater⟩ := lt_timeAfter hinc hreg now
  have hle := timeAfter_le (by decide) hreg hbdd (Int.le_sub_one_of_lt hnow)
  have hfits : Fits (Tracker.timeAfter found now) := ⟨hnonneg, by omega⟩
  refine ⟨hfits, fun salt id hid => ?_⟩
  obtain ⟨time, salt', htime, rfl⟩ := hreg id hid
  exact compare_makeId htime hfits (hlater time salt' htime hid) salt' salt

/-- If an id has the last time, then the next time is the first one that does not fit. -/
theorem Dated.timeAfter_eq (h : Dated found) (hinc : Increasing found) {id : String}
    (hid : id ∈ found) (htime : idTime? id = some lastTime) {now : Int64}
    (hnow : now.toInt < 10 ^ 13) : Tracker.timeAfter found now = lastTime + 1 := by
  rcases eq_nil_or_concat' found with rfl | ⟨front, last, rfl⟩
  · exact absurd hid not_mem_nil
  obtain ⟨salt, rfl⟩ := h.last_of_lastTime hinc hid htime
  have hlt : now < lastTime + 1 := by
    rw [Int64.lt_iff_toInt_lt]
    exact hnow
  simp only [Tracker.timeAfter, getLast?_concat, Option.bind_some,
    idTime_makeId fits_lastTime.nonneg, if_pos hlt]

/-- If an id has the last time, then the next id comes before the last one. -/
theorem Dated.makeId_lt (h : Dated found) (hinc : Increasing found) {id : String}
    (hid : id ∈ found) (htime : idTime? id = some lastTime) {now : Int64}
    (hnow : now.toInt < 10 ^ 13) (salt : String) : ∃ last, found.getLast? = some last ∧
      compare (makeId (Tracker.timeAfter found now) salt) last = .lt := by
  rw [h.timeAfter_eq hinc hid htime hnow]
  rcases eq_nil_or_concat' found with rfl | ⟨front, last, rfl⟩
  · exact absurd hid not_mem_nil
  · obtain ⟨salt', rfl⟩ := h.last_of_lastTime hinc hid htime
    exact ⟨_, getLast?_concat, compare_makeId_lastTime salt salt'⟩

variable {found' : List String} {id : String}

theorem Dated.of_regular (h : Dated found) (hid : Regular id)
    (hmore : ∀ other, other ∈ found' ↔ other ∈ found ∨ other = id) : Dated found' where
  time other hother := by
    rcases (hmore other).mp hother with hold | rfl
    · exact h.time other hold
    · obtain ⟨time, salt, hfits, heq⟩ := hid
      exact ⟨time, salt, hfits.nonneg, Int.le_of_lt hfits.lt, heq⟩
  capped other hother htime := by
    have hold : other ∈ found := by
      rcases (hmore other).mp hother with hold | rfl
      · exact hold
      · obtain ⟨time, salt, hfits, rfl⟩ := hid
        rw [idTime_makeId hfits.nonneg] at htime
        have hlt := hfits.lt
        rw [Option.some.inj htime] at hlt
        exact absurd hlt (Int.lt_irrefl _)
    obtain ⟨first, hfst, hlast⟩ := h.capped other hold htime
    exact ⟨first, (hmore first).mpr (.inl hfst), hlast⟩

/-- The ids stay dated if the next one is added. -/
theorem Dated.of_made (h : Dated found) (hinc : Increasing found) {now : Int64}
    (hnow : now.toInt < 10 ^ 13) {salt : String}
    (hid : id = makeId (Tracker.timeAfter found now) salt)
    (hmore : ∀ other, other ∈ found' ↔ other ∈ found ∨ other = id) : Dated found' := by
  by_cases hfree : ∀ other ∈ found, idTime? other ≠ some lastTime
  · exact h.of_regular ⟨_, salt, (h.lt_makeId hinc hfree hnow).1, hid⟩ hmore
  · push Not at hfree
    obtain ⟨first, hfst, htime⟩ := hfree
    rw [h.timeAfter_eq hinc hfst htime hnow] at hid
    refine ⟨fun other hother => ?_, fun _ _ _ => ⟨first, (hmore first).mpr (.inl hfst), htime⟩⟩
    rcases (hmore other).mp hother with hold | rfl
    · exact h.time other hold
    · exact ⟨lastTime + 1, salt, by decide, by decide, hid⟩

/-- The ids stay dated if some are taken away and the last one stays. -/
theorem Dated.of_fewer (h : Dated found) (hinc : Increasing found)
    (hfewer : ∀ other ∈ found', other ∈ found) (hlast : found'.getLast? = found.getLast?) :
    Dated found' := by
  refine ⟨fun other hother => h.time other (hfewer other hother), fun other hother htime => ?_⟩
  obtain ⟨first, hfst, hfirstTime⟩ := h.capped other (hfewer other hother) htime
  rcases eq_nil_or_concat' found with rfl | ⟨front, last, rfl⟩
  · exact absurd hfst not_mem_nil
  · obtain ⟨salt, rfl⟩ := h.last_of_lastTime hinc hfst hfirstTime
    rw [getLast?_concat] at hlast
    exact ⟨_, mem_of_getLast? hlast, idTime_makeId fits_lastTime.nonneg salt⟩

end Ids

variable {σ : Type} [BlobStore σ]

/-- A snapshot of a store has the last time with thirteen digits. -/
def Exhausted (store : σ) : Prop :=
  ∃ found, ids store = .ok found ∧ ∃ id ∈ found, Snapshot.idTime? id = some Snapshot.lastTime

/-- The ids of a store are dated, and the snapshot with the last one can be read. -/
structure Catalogued (store : σ) : Prop where
  dated : ∀ found, ids store = .ok found → Dated found
  /-- The snapshot with the last id can be read. -/
  readable : ∀ found last, ids store = .ok found → found.getLast? = some last →
    ∃ s, load store last = .ok s ∧ s.id = last

/-- What upkeep may do to the snapshots of a store, as far as new snapshots can tell. -/
structure Upkept (store after : σ) : Prop where
  /-- Snapshots may go, but the last one stays the last one. -/
  fewer : ∀ found found', ids store = .ok found → ids after = .ok found' →
    (∀ id ∈ found', id ∈ found) ∧ found'.getLast? = found.getLast?
  /-- The snapshot with the last id is read as before. -/
  newest : ∀ found last, ids store = .ok found → found.getLast? = some last →
    load after last = load store last

/-- Forms of snapshots are taken away, those of the newest one apart. -/
def Thinned (newest : String) (store after : σ) : Prop :=
  ∀ id packed, blob? after (Keys.snapshot id packed) = blob? store (Keys.snapshot id packed) ∨
    id ≠ newest ∧ blob? after (Keys.snapshot id packed) = none

/-- A job takes forms of snapshots away, those of the newest one apart, wherever it stops. -/
def Thins {α : Type} (newest : String) (job : Job σ α) : Prop :=
  ∀ store, job.Ends store fun _ after => Thinned newest store after

variable [AtomicStore σ] {store after : σ}

section Catalogue

theorem mem_ids_added_iff {s : Snapshot} (hadd : Added store after s) {found found' : List String}
    (hfound : ids store = .ok found) (hfound' : ids after = .ok found') (id : String) :
    id ∈ found' ↔ id ∈ found ∨ id = s.id := by
  constructor
  · exact mem_ids_of_added hadd hfound hfound'
  · rintro (hold | rfl)
    · obtain ⟨packed, hsome⟩ := (mem_ids_iff hfound).mp hold
      refine (mem_ids_iff hfound').mpr ⟨packed, ?_⟩
      rw [hadd _ (Keys.beginsWith_snapshot id packed)]
      split
      · rfl
      · exact hsome
    · exact self_mem_ids_of_added hadd hfound'

theorem catalogued_of_empty (h : ∀ key, blob? store key = none) : Catalogued store := by
  have hids := ids_of_empty h
  refine ⟨fun found hfound => ?_, fun found last hfound hlast => ?_⟩
  · obtain rfl := Except.ok.inj (hids.symm.trans hfound)
    exact dated_nil
  · obtain rfl := Except.ok.inj (hids.symm.trans hfound)
    cases hlast

theorem Catalogued.of_agree (h : Catalogued store)
    (hagree : AgreeBelow Keys.snapshots store after) : Catalogued after := by
  have hids := ids_congr hagree
  refine ⟨fun found hfound => h.dated found (hids ▸ hfound), fun found last hfound hlast => ?_⟩
  obtain ⟨s, hload, hid⟩ := h.readable found last (hids ▸ hfound) hlast
  exact ⟨s, (load_of_agree hagree).mpr hload, hid⟩

/-- A store stays catalogued if a snapshot is added and its ids stay dated. -/
theorem Catalogued.of_added (h : Catalogued store) {s : Snapshot} (hadd : Added store after s)
    (hdated : ∀ found, ids after = .ok found → Dated found) : Catalogued after := by
  refine ⟨hdated, fun found' last hfound' hlast => ?_⟩
  obtain ⟨found, hfound, hinc, -⟩ := ids_eq store
  have hmore := mem_ids_added_iff hadd hfound hfound'
  by_cases hid : last = s.id
  · exact ⟨s, (load_of_added hadd last s).mpr (.inl ⟨hid, rfl⟩), hid.symm⟩
  -- If it is not the new one then it was the last one before.
  obtain ⟨front, rfl⟩ := List.getLast?_eq_some_iff.mp hlast
  have hmem : last ∈ found := ((hmore last).mp (mem_of_getLast? hlast)).resolve_right hid
  have hmax : ∀ other ∈ found, other = last ∨ compare other last = .lt := fun other hother =>
    (increasing_ids hfound').eq_or_lt_last ((hmore other).mpr (.inl hother))
  obtain ⟨front', rfl⟩ := hinc.eq_concat hmem hmax
  obtain ⟨s', hload, hs'⟩ := h.readable _ last hfound getLast?_concat
  exact ⟨s', (load_of_added hadd last s').mpr (.inr ⟨hid, hload⟩), hs'⟩

theorem Catalogued.of_taken (h : Catalogued store) {s : Snapshot} (hreg : Snapshot.Regular s.id)
    (hadd : Added store after s) : Catalogued after := by
  obtain ⟨found, hfound, -⟩ := ids_eq store
  refine h.of_added hadd fun found' hfound' => ?_
  exact (h.dated found hfound).of_regular hreg (mem_ids_added_iff hadd hfound hfound')

/-- A store stays catalogued if a new snapshot is added. -/
theorem Catalogued.of_grown (h : Catalogued store) {now : Int64} (hnow : now.toInt < 10 ^ 13)
    (hgrown : Grown now store after) : Catalogued after := by
  cases hgrown with
  | still hagree => exact h.of_agree hagree
  | more hfound hid hadd =>
    refine h.of_added hadd fun found' hfound' => ?_
    exact (h.dated _ hfound).of_made (increasing_ids hfound) hnow hid
      (mem_ids_added_iff hadd hfound hfound')

/-- A store stays catalogued after upkeep. -/
theorem Catalogued.of_upkept (h : Catalogued store) (hupkept : Upkept store after) :
    Catalogued after := by
  obtain ⟨found, hfound, hinc, -⟩ := ids_eq store
  refine ⟨fun found' hfound' => ?_, fun found' last hfound' hlast => ?_⟩
  · obtain ⟨hfewer, hlast⟩ := hupkept.fewer found found' hfound hfound'
    exact (h.dated found hfound).of_fewer hinc hfewer hlast
  · rw [(hupkept.fewer found found' hfound hfound').2] at hlast
    obtain ⟨s, hload, hid⟩ := h.readable found last hfound hlast
    exact ⟨s, (hupkept.newest found last hfound hlast).trans hload, hid⟩

theorem Catalogued.latest_eq (h : Catalogued store) :
    (ids store = .ok [] ∧ latest store = .ok none) ∨ ∃ front s,
      ids store = .ok (front ++ [s.id]) ∧ load store s.id = .ok s ∧
        latest store = .ok (some s) := by
  obtain ⟨found, hfound, hinc, -⟩ := ids_eq store
  rcases eq_nil_or_concat' found with rfl | ⟨front, last, rfl⟩
  · refine .inl ⟨hfound, ?_⟩
    rw [latest, hfound]
    rfl
  · obtain ⟨s, hload, rfl⟩ := h.readable _ last hfound getLast?_concat
    refine .inr ⟨front, s, hfound, hload, ?_⟩
    exact latest_of_greatest hfound (mem_append_right _ mem_cons_self)
      (fun _ hid => hinc.eq_or_lt_last hid) (load?_eq_some_iff.mpr hload)

theorem Catalogued.latest_of_upkept (h : Catalogued store) (hupkept : Upkept store after) :
    latest after = latest store := by
  obtain ⟨found', hfound', -⟩ := ids_eq after
  rcases h.latest_eq with ⟨hids, hlatest⟩ | ⟨front, s, hids, hload, hlatest⟩
  · have hnil : found' = [] := List.getLast?_eq_none_iff.mp (hupkept.fewer _ _ hids hfound').2
    rw [hlatest, latest, hfound', hnil]
    rfl
  · have hlast := (hupkept.fewer _ _ hids hfound').2.trans getLast?_concat
    obtain ⟨front', rfl⟩ := List.getLast?_eq_some_iff.mp hlast
    rw [hlatest]
    refine latest_of_greatest hfound' (mem_append_right _ mem_cons_self)
      (fun _ hid => (increasing_ids hfound').eq_or_lt_last hid) (load?_eq_some_iff.mpr ?_)
    exact (hupkept.newest _ _ hids getLast?_concat).trans hload

variable {found : List String} {now : Int64} {salt : String} {s : Snapshot}

omit [AtomicStore σ] in
/-- A new id comes after all others if no snapshot has the last time. -/
theorem Catalogued.lt_new (h : Catalogued store) (hfound : ids store = .ok found)
    (hnow : now.toInt < 10 ^ 13) (hid : s.id = Snapshot.makeId (Tracker.timeAfter found now) salt)
    (hfree : ¬ Exhausted store) : ∀ id ∈ found, compare id s.id = .lt := by
  have hlt := (h.dated found hfound).lt_makeId (increasing_ids hfound)
    (fun id hmem htime => hfree ⟨found, hfound, id, hmem, htime⟩) hnow
  rw [hid]
  exact hlt.2 salt

/-- A new snapshot is the newest one if no snapshot had the last time. -/
theorem Catalogued.latest_of_new (h : Catalogued store) (hfound : ids store = .ok found)
    (hnow : now.toInt < 10 ^ 13) (hid : s.id = Snapshot.makeId (Tracker.timeAfter found now) salt)
    (hadd : Added store after s) (hfree : ¬ Exhausted store) :
    latest after = .ok (some s) := by
  obtain ⟨found', hfound', -⟩ := ids_eq after
  refine latest_of_greatest hfound' (self_mem_ids_of_added hadd hfound') (fun id hmem => ?_)
    (load_of_blob (blob_of_added hadd))
  rcases mem_ids_of_added hadd hfound hfound' hmem with hold | hnew
  · exact .inr (h.lt_new hfound hnow hid hfree id hold)
  · exact .inl hnew

/-- A new snapshot comes before the newest one if some snapshot had the last time. -/
theorem Catalogued.latest_of_exhausted (h : Catalogued store) (hfound : ids store = .ok found)
    (hnow : now.toInt < 10 ^ 13) (hid : s.id = Snapshot.makeId (Tracker.timeAfter found now) salt)
    (hadd : Added store after s) (hexhausted : Exhausted store) :
    ∃ previous, previous.id ∈ found ∧ compare s.id previous.id = .lt ∧
      latest store = .ok (some previous) ∧ latest after = .ok (some previous) := by
  obtain ⟨found', hfound', -⟩ := ids_eq after
  obtain ⟨listed, hlist, id, hmem, htime⟩ := hexhausted
  obtain rfl := Except.ok.inj (hfound.symm.trans hlist)
  obtain ⟨last, hlast, hpre⟩ :=
    (h.dated found hfound).makeId_lt (increasing_ids hfound) hmem htime hnow salt
  rw [← hid] at hpre
  rcases h.latest_eq with ⟨hnil, -⟩ | ⟨front, previous, hids, hload, hlatest⟩
  · obtain rfl := Except.ok.inj (hfound.symm.trans hnil)
    exact absurd hmem not_mem_nil
  obtain rfl := Except.ok.inj (hfound.symm.trans hids)
  rw [getLast?_concat] at hlast
  obtain rfl := Option.some.inj hlast
  have hprev : previous.id ∈ front ++ [previous.id] := mem_append_right _ mem_cons_self
  have hne : previous.id ≠ s.id := fun heq => compare_self_ne_lt _ (heq ▸ hpre)
  refine ⟨previous, hprev, hpre, hlatest, ?_⟩
  refine latest_of_greatest hfound'
    ((mem_ids_added_iff hadd hfound hfound' _).mpr (.inl hprev)) (fun other hother => ?_)
    (load?_eq_some_iff.mpr ((load_of_added hadd _ _).mpr (.inr ⟨hne, hload⟩)))
  rcases mem_ids_of_added hadd hfound hfound' hother with hold | rfl
  · exact (increasing_ids hfound).eq_or_lt_last hold
  · exact .inr hpre

end Catalogue

section Thinning

variable {α β : Type} {newest : String}

omit [AtomicStore σ] in
theorem Thinned.trans {middle : σ} (h : Thinned newest store middle)
    (h' : Thinned newest middle after) : Thinned newest store after := by
  intro id packed
  rcases h' id packed with hsame | hgone
  · rw [hsame]
    exact h id packed
  · exact .inr hgone

omit [AtomicStore σ] in
theorem thins_of_avoids {job : Job σ α} (h : Avoids Keys.snapshots job) : Thins newest job :=
  fun store id packed => .inl (h store _ (Keys.beginsWith_snapshot id packed))

omit [AtomicStore σ] in
theorem thins_bind {job : Job σ α} {next : α → Job σ β} (h : Thins newest job)
    (hnext : ∀ a, Thins newest (next a)) : Thins newest (job >>= next) := by
  intro store
  refine ends_bind (h store) (fun _ _ hthinned => hthinned) fun a middle hthinned => ?_
  exact (hnext a middle).imp fun _ _ hafter => hthinned.trans hafter

theorem thins_delete {id : String} (hid : id ≠ newest) (packed : Bool) :
    Thins newest (Store.delete (Keys.snapshot id packed) : Job σ Bool) := by
  intro store other packed'
  obtain ⟨after, ⟨found, hdel, hblob⟩ | ⟨e, hdel, hblob⟩⟩ :=
    AtomicStore.delete_cases store (Keys.snapshot id packed)
  · rw [show (Store.delete (Keys.snapshot id packed) : Job σ Bool).on store = _ from hdel, hblob]
    by_cases hkey : Keys.snapshot other packed' = Keys.snapshot id packed
    · exact .inr ⟨(Keys.snapshot_inj.mp hkey).1 ▸ hid, if_pos hkey⟩
    · exact .inl (if_neg hkey)
  · rw [show (Store.delete (Keys.snapshot id packed) : Job σ Bool).on store = _ from hdel]
    exact .inl (hblob _)

theorem thins_remove {id : String} (hid : id ≠ newest) : Thins newest (remove id : Job σ Bool) :=
  thins_bind (thins_delete hid false) fun _ => thins_bind (thins_delete hid true) fun _ =>
    thins_of_avoids (avoids_bind (avoids_delete (Keys.beginsWith_notes id)) fun _ => avoids_pure _)

theorem thins_enforceFrom (r : Retention) (now : Int64) {older : List String}
    (hnew : newest ∉ older) (kept : Nat) :
    Thins newest (enforceFrom r now kept older : Job σ (List String)) := by
  induction older generalizing kept with
  | nil => exact thins_of_avoids (avoids_pure [])
  | cons id rest ih =>
    have hrest : newest ∉ rest := fun hmem => hnew (mem_cons_of_mem id hmem)
    have hid : id ≠ newest := fun heq => hnew (heq ▸ mem_cons_self)
    refine thins_bind (thins_of_avoids (avoids_inspect _)) fun exempt => ?_
    cases exempt with
    | true => exact ih hrest kept
    | false =>
      rw [if_neg Bool.false_ne_true]
      split
      · exact thins_bind (thins_remove hid) fun _ => thins_bind (ih hrest kept) fun _ =>
          thins_of_avoids (avoids_pure _)
      · exact ih hrest (kept + 1)

end Thinning

section Upkeep

omit [AtomicStore σ] in
theorem upkept_of_ids (hids : ids after = ids store) (hload : ∀ id, load after id = load store id) :
    Upkept store after := by
  refine ⟨fun found found' hfound hfound' => ?_, fun _ last _ _ => hload last⟩
  obtain rfl := Except.ok.inj (hfound.symm.trans (hids.symm.trans hfound'))
  exact ⟨fun _ hid => hid, rfl⟩

omit [AtomicStore σ] in
theorem upkept_refl (store : σ) : Upkept store store := upkept_of_ids rfl fun _ => rfl

theorem upkept_of_agree (h : AgreeBelow Keys.snapshots store after) : Upkept store after := by
  refine upkept_of_ids (ids_congr h) fun id => ?_
  rw [load_eq, load_eq, h _ (Keys.beginsWith_snapshot id false),
    h _ (Keys.beginsWith_snapshot id true)]

theorem Upkept.trans {middle : σ} (h : Upkept store middle) (h' : Upkept middle after) :
    Upkept store after := by
  obtain ⟨between, hbetween, -⟩ := ids_eq middle
  refine ⟨fun found found' hfound hfound' => ?_, fun found last hfound hlast => ?_⟩
  · obtain ⟨hfewer, hlast⟩ := h.fewer found between hfound hbetween
    obtain ⟨hfewer', hlast'⟩ := h'.fewer between found' hbetween hfound'
    exact ⟨fun id hid => hfewer id (hfewer' id hid), hlast'.trans hlast⟩
  · have hmid := (h.fewer found between hfound hbetween).2.trans hlast
    exact (h'.newest between last hbetween hmid).trans (h.newest found last hfound hlast)

omit [AtomicStore σ] in
theorem Unseen.upkept (h : Unseen store after) : Upkept store after := upkept_of_ids h.ids h.load

theorem Thinned.upkept {front : List String} {newest : String}
    (hfound : ids store = .ok (front ++ [newest])) (h : Thinned newest store after) :
    Upkept store after := by
  have hlast : newest ∈ front ++ [newest] := mem_append_right _ mem_cons_self
  have hsame : ∀ packed, blob? after (Keys.snapshot newest packed) =
      blob? store (Keys.snapshot newest packed) :=
    fun packed => (h newest packed).resolve_right fun hgone => hgone.1 rfl
  refine ⟨fun found found' hids hfound' => ?_, fun found last hids hlast' => ?_⟩
  · obtain rfl := Except.ok.inj (hfound.symm.trans hids)
    have hfewer : ∀ id ∈ found', id ∈ front ++ [newest] := by
      intro id hid
      obtain ⟨packed, hsome⟩ := (mem_ids_iff hfound').mp hid
      refine (mem_ids_iff hfound).mpr ⟨packed, ?_⟩
      rcases h id packed with hkept | ⟨-, hgone⟩
      · rw [← hkept]
        exact hsome
      · rw [hgone] at hsome
        cases hsome
    have hstays : newest ∈ found' := by
      obtain ⟨packed, hsome⟩ := (mem_ids_iff hfound).mp hlast
      exact (mem_ids_iff hfound').mpr ⟨packed, by rw [hsame]; exact hsome⟩
    obtain ⟨front', rfl⟩ := (increasing_ids hfound').eq_concat hstays fun id hid =>
      (increasing_ids hfound).eq_or_lt_last (hfewer id hid)
    exact ⟨hfewer, by rw [getLast?_concat, getLast?_concat]⟩
  · obtain rfl := Except.ok.inj (hfound.symm.trans hids)
    rw [getLast?_concat] at hlast'
    obtain rfl := Option.some.inj hlast'
    rw [load_eq, load_eq, hsame, hsame]

theorem ends_enforce (r : Retention) (now : Int64) (store : σ) :
    (enforce r now).Ends store fun _ after => Upkept store after := by
  obtain ⟨found, hfound, hinc, -⟩ := ids_eq store
  refine ends_bind_of_runs (runs_inspect hfound) ?_
  rcases eq_nil_or_concat' found with rfl | ⟨front, newest, rfl⟩
  · exact upkept_refl store
  · have hnew : newest ∉ front.reverse := fun hmem =>
      compare_self_ne_lt newest (hinc.lt_last (mem_reverse.mp hmem))
    rw [reverse_append]
    exact (thins_enforceFrom r now hnew 1 store).imp fun _ _ hthinned =>
      hthinned.upkept hfound

theorem ends_compress (afterHours now : Int64) (store : σ) :
    (compress afterHours now).Ends store fun _ after => Upkept store after := by
  have huns := (always_compress afterHours now store).current
  rw [(mirrors_compress afterHours now (Recorded.start store)).2] at huns
  exact huns.upkept

theorem ends_maintain (r : Retention) (afterHours now : Int64) (store : σ) :
    (maintain r afterHours now).Ends store fun _ after => Upkept store after := by
  refine ends_bind (ends_enforce r now store) (fun _ _ hupkept => hupkept)
    fun _ middle hupkept => Ends.then_pure ?_ _
  exact (ends_compress afterHours now middle).imp fun _ _ hafter => hupkept.trans hafter

theorem avoids_tag (id : String) (tags : List String) (description : Option String) :
    Avoids Keys.snapshots (tag id tags description : Job σ SnapshotNotes) := by
  refine avoids_bind (avoids_inspect _) fun there => ?_
  cases there with
  | true =>
    refine avoids_bind (avoids_inspect _) fun n => ?_
    exact avoids_bind (avoids_writeJson (Keys.beginsWith_notes _) _) fun _ => avoids_pure n
  | false => exact fun store => agreeBelow_refl _ store

end Upkeep

end History

end Ripple
