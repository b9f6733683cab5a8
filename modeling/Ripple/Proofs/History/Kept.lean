import Ripple.Proofs.History.Latest

/-!
# Histories That Were Kept in Order

If snapshots are only ever stored under their own ids then each of them can be
read, and the newest one is the one with the last id. Then the id of a further
snapshot, which takes its time from the last id, is not the id of the newest
one. No order of ids and times is needed for this, and no limit on the number
of digits: only that the last id does not have the last time that there is.

## Theorems

* `History.Kept.of_added`: Adding a snapshot of the kind keeps the history in order.
-/

namespace Ripple

open List Store

namespace Snapshot

/-- An id with a time before 1970 has no time that can be read off it. -/
theorem idTime_makeId_of_neg {time : Int64} (h : time.toInt < 0) (salt : String) :
    idTime? (makeId time salt) = none := by
  have hpadded : ∃ digits, paddedTime time = "-" ++ digits := by
    unfold paddedTime
    cases htime : time.toInt with
    | ofNat n =>
      rw [htime] at h
      exact absurd h (Int.not_lt.mpr (Int.natCast_nonneg n))
    | negSucc n => exact ⟨_, rfl⟩
  obtain ⟨digits, hdig⟩ := hpadded
  have hfront : (makeId time salt).toList.takeWhile (· ≠ '-') = [] := by
    rw [makeId, hdig, String.toList_append, String.toList_append, String.toList_append]
    rfl
  rw [idTime?, hfront]
  rfl

end Snapshot

namespace History

variable {σ : Type} [BlobStore σ] {P : Snapshot → Prop}

/-- Whatever is kept among the snapshots of a store is the stored form of a snapshot of some kind,
    under the key of its id. -/
def Kept (P : Snapshot → Prop) (store : σ) : Prop :=
  ∀ key bytes, beginsWith key Keys.snapshots = true → blob? store key = some bytes →
    ∃ s, P s ∧ key = Keys.snapshot s.id false ∧ bytes = bytesOfJson s.toJson

theorem kept_of_empty {store : σ} (h : ∀ key, blob? store key = none) : Kept P store :=
  fun key _ _ hblob => nomatch (h key).symm.trans hblob

theorem Kept.of_agree {store after : σ} (h : Kept P store)
    (hagree : AgreeBelow Keys.snapshots store after) : Kept P after := by
  intro key bytes hbeg hblob
  rw [hagree key hbeg] at hblob
  exact h key bytes hbeg hblob

theorem Kept.of_added {store after : σ} (h : Kept P store) {s : Snapshot}
    (hadd : Added store after s) (hs : P s) : Kept P after := by
  intro key bytes hbeg hblob
  rw [hadd key hbeg] at hblob
  split at hblob
  next hkey => exact ⟨s, hs, hkey, (Option.some.inj hblob).symm⟩
  next => exact h key bytes hbeg hblob

/-- A new id is not the last id, unless that one has the last time that there is. -/
theorem makeId_timeAfter_ne {found : List String} {id : String} (hlast : found.getLast? = some id)
    (htime : Snapshot.idTime? id ≠ some Int64.maxValue) (now : Int64) (salt : String) :
    Snapshot.makeId (Tracker.timeAfter found now) salt ≠ id := by
  intro hid
  have hread := congrArg Snapshot.idTime? hid
  by_cases hneg : (Tracker.timeAfter found now).toInt < 0
  · -- The last id then has no time, and the new one is not before 1970.
    rw [Snapshot.idTime_makeId_of_neg hneg] at hread
    simp only [Tracker.timeAfter, hlast, Option.bind_some, ← hread] at hneg
    exact absurd (toInt_le_of_clock 0 now) (Int.not_le.mpr hneg)
  · -- The last id then has the time of the new one, which comes after it if there is a next one.
    rw [Snapshot.idTime_makeId (Int.not_lt.mp hneg)] at hread
    rw [← hread] at htime
    generalize htimeAfter : Tracker.timeAfter found now = time at hread htime
    have hclock : (time + 1).toInt ≤ time.toInt := by
      have hle := toInt_le_of_clock (time + 1) now
      simp only [Tracker.timeAfter, hlast, Option.bind_some, ← hread] at htimeAfter
      rw [htimeAfter] at hle
      exact hle
    have hmax : time.toInt ≠ 2 ^ 63 - 1 := fun hmax =>
      htime (congrArg some (Int64.toInt_inj.mp (hmax.trans Int64.toInt_maxValue.symm)))
    have hlow := Int64.le_toInt time
    have hhigh := Int64.toInt_lt time
    rw [Int64.toInt_add, Int64.toInt_one, Int.bmod_eq_of_le (by omega) (by omega)] at hclock
    omega

variable [AtomicStore σ] {store : σ} {found : List String}

theorem Kept.load_of_mem (h : Kept P store) (hfound : ids store = .ok found) {id : String}
    (hid : id ∈ found) : ∃ s, P s ∧ s.id = id ∧ load? store id = some s := by
  obtain ⟨listed, hlist, -, hmem⟩ := ids_eq store
  obtain rfl : found = listed := Except.ok.inj (hfound.symm.trans hlist)
  obtain ⟨key, hsome, hbeg, hkey⟩ := (hmem id).mp hid
  obtain ⟨bytes, hblob⟩ := Option.isSome_iff_exists.mp hsome
  obtain ⟨s, hs, rfl, rfl⟩ := h key bytes hbeg hblob
  rw [Keys.snapshotOfKey_snapshot] at hkey
  obtain rfl := Option.some.inj hkey
  exact ⟨s, hs, rfl, load_of_blob hblob⟩

/-- The newest snapshot of a history in order is the one with the last id. -/
theorem Kept.latest (h : Kept P store) (hfound : ids store = .ok found) {s : Snapshot}
    (hlatest : latest store = .ok (some s)) :
    P s ∧ found.getLast? = some s.id ∧ load store s.id = .ok s := by
  rw [History.latest, hfound] at hlatest
  replace hlatest := Except.ok.inj hlatest
  rcases eq_nil_or_concat' found with rfl | ⟨front, last, rfl⟩
  · cases hlatest
  -- The last id is tried first, and there is something to be read under it.
  obtain ⟨s', hs, hid, hload⟩ := h.load_of_mem hfound (mem_append_right _ mem_cons_self)
  simp only [reverse_append, reverse_singleton, singleton_append,
    findSome?_cons, hload, Option.some.injEq] at hlatest
  subst hlatest
  rw [getLast?_concat, hid]
  exact ⟨hs, rfl, load?_eq_some_iff.mp hload⟩

end History

end Ripple
