import Ripple.Proofs.Snapshot.Ids
import Ripple.Proofs.Snapshot.RoundTrip
import Ripple.Proofs.Store.Keys
import Ripple.Proofs.Store.Retentive
import Ripple.Tracker

/-!
# The Newest Snapshot

A snapshot that was saved last is the newest one. Three things come together
for it: its time comes after the times of all others, ids come in the order of
their times, and what was stored can be read.

Only the keys of snapshots matter here. A store in which some other key was
changed has the same history, and saving a snapshot changes the history in
one place.

## Theorems

* `History.latest_congr`: The newest snapshot depends on the keys of snapshots only.
* `History.load_of_added`: What can be read after a snapshot was added.
-/

namespace Ripple

open List Store Snapshot

namespace History

variable {σ : Type} [BlobStore σ]

variable {store after : σ} {s : Snapshot}

/-- All snapshots of a store are plain, and their ids have times that fit. -/
def Orderly (store : σ) : Prop :=
  ∀ key, beginsWith key Keys.snapshots = true → (blob? store key).isSome →
    ∃ time salt, Fits time ∧ key = Keys.snapshot (makeId time salt) false

/-- A store has one snapshot more than another, or in place of another. -/
def Added (store after : σ) (s : Snapshot) : Prop :=
  ∀ key, beginsWith key Keys.snapshots = true → blob? after key =
    if key = Keys.snapshot s.id false then some (bytesOfJson s.toJson) else blob? store key

/-- No snapshot of a store has a time at a limit or after it. -/
def Bounded (limit : Int) (store : σ) : Prop :=
  ∀ found, ids store = .ok found → ∀ id ∈ found, ∀ time, idTime? id = some time → time.toInt < limit

/-- What becomes of a store at some time on the clock: its snapshots stay, or one is added that
    got its time from the clock. -/
inductive Grown (now : Int64) (store after : σ) : Prop
  /-- The snapshots stay. -/
  | still (agree : AgreeBelow Keys.snapshots store after)
  /-- A snapshot is added. -/
  | more {found : List String} {s : Snapshot} {salt : String} (hfound : ids store = .ok found)
      (hid : s.id = makeId (Tracker.timeAfter found now) salt)
      (added : Added store after s)

theorem Added.trans_agree {middle : σ} (h : Added store middle s)
    (hagree : AgreeBelow Keys.snapshots middle after) : Added store after s :=
  fun key hkey => (hagree key hkey).trans (h key hkey)

theorem Added.of_agree {middle : σ} (hagree : AgreeBelow Keys.snapshots store middle)
    (h : Added middle after s) :
    Added store after s := by
  intro key hkey
  rw [h key hkey, hagree key hkey]

theorem blob_of_added (hadd : Added store after s) :
    blob? after (Keys.snapshot s.id false) = some (bytesOfJson s.toJson) := by
  rw [hadd _ (Keys.beginsWith_snapshot s.id false), if_pos rfl]

theorem orderly_of_added (h : Orderly store) {time : Int64} {salt : String}
    (hid : s.id = makeId time salt) (hfits : Fits time)
    (hadd : Added store after s) : Orderly after := by
  intro key hbeg hsome
  by_cases hkey : key = Keys.snapshot s.id false
  · exact ⟨time, salt, hfits, hid ▸ hkey⟩
  · rw [hadd key hbeg, if_neg hkey] at hsome
    exact h key hbeg hsome

theorem orderly_of_agree (h : Orderly store) (hagree : AgreeBelow Keys.snapshots store after) :
    Orderly after := by
  intro key hbeg hsome
  rw [hagree key hbeg] at hsome
  exact h key hbeg hsome

theorem Bounded.mono {limit limit' : Int} (h : Bounded limit store) (hle : limit ≤ limit') :
    Bounded limit' store :=
  fun found hfound id hid time htime => Int.lt_of_lt_of_le (h found hfound id hid time htime) hle

theorem load?_eq_some_iff {id : String} : load? store id = some s ↔ load store id = .ok s := by
  rw [load?]
  cases load store id with
  | ok s' => simp [Except.toOption]
  | error e => simp [Except.toOption]

theorem exists_load_of_latest (h : latest store = .ok (some s)) : ∃ id, load store id = .ok s := by
  rw [latest] at h
  cases hids : ids store with
  | error e =>
    rw [hids] at h
    cases h
  | ok found =>
    rw [hids] at h
    obtain ⟨id, -, hid⟩ := exists_of_findSome?_eq_some (Except.ok.inj h)
    exact ⟨id, load?_eq_some_iff.mp hid⟩

variable [AtomicStore σ]

section Reading

theorem ids_eq (store : σ) : ∃ found, ids store = .ok found ∧ Increasing found ∧
    ∀ id, id ∈ found ↔ ∃ key, (blob? store key).isSome ∧
      beginsWith key Keys.snapshots = true ∧ Keys.snapshotOfKey? key = some id := by
  obtain ⟨keys, hlist, hkeys⟩ := AtomicStore.list_eq store Keys.snapshots
  refine ⟨sortedSet (keys.filterMap Keys.snapshotOfKey?), ?_, increasing_sortedSet _, fun id => ?_⟩
  · rw [ids, hlist]
    rfl
  · rw [mem_sortedSet, mem_filterMap]
    refine exists_congr fun key => ?_
    rw [hkeys, and_assoc]

variable {store after : σ}

theorem ids_of_empty (h : ∀ key, blob? store key = none) : ids store = .ok [] := by
  obtain ⟨found, hfound, -, hmem⟩ := ids_eq store
  have hnil : found = [] := by
    refine eq_nil_iff_forall_not_mem.mpr fun id hid => ?_
    obtain ⟨key, hkey, -⟩ := (hmem id).mp hid
    rw [h key] at hkey
    exact nomatch hkey
  rw [hfound, hnil]

theorem holds_eq (store : σ) (key : String) :
    Store.holds store key = .ok (blob? store key).isSome := by
  rw [Store.holds, AtomicStore.get_eq]
  rfl

theorem readJson_congr {α : Type} (read : Json → Option α) {key : String}
    (h : blob? after key = blob? store key) :
    Store.readJson? read after key = Store.readJson? read store key := by
  simp only [Store.readJson?, AtomicStore.get_eq, h]

/-- Reading a snapshot depends on the bytes under its two keys only. -/
theorem load_congr {id : String}
    (h : ∀ packed, blob? after (Keys.snapshot id packed) = blob? store (Keys.snapshot id packed)) :
    load? after id = load? store id := by
  simp only [load?, load, loadForm, holds_eq, readJson_congr _ (h _), h]

theorem ids_congr (h : AgreeBelow Keys.snapshots store after) : ids after = ids store := by
  obtain ⟨found, hfound, hinc, hmem⟩ := ids_eq store
  obtain ⟨found', hfound', hinc', hmem'⟩ := ids_eq after
  have hsame : found' = found := by
    refine hinc'.eq_of_mem_iff hinc fun id => ?_
    rw [hmem, hmem']
    refine exists_congr fun key => ?_
    constructor
    · rintro ⟨hsome, hbeg, hid⟩
      exact ⟨h key hbeg ▸ hsome, hbeg, hid⟩
    · rintro ⟨hsome, hbeg, hid⟩
      exact ⟨(h key hbeg).symm ▸ hsome, hbeg, hid⟩
  rw [hfound, hfound', hsame]

theorem latest_congr (h : AgreeBelow Keys.snapshots store after) : latest after = latest store := by
  have hload : load? after = load? store := by
    funext id
    exact load_congr fun packed => h _ (Keys.beginsWith_snapshot id packed)
  rw [latest, latest, ids_congr h, hload]

theorem load_of_blob {s : Snapshot}
    (h : blob? store (Keys.snapshot s.id false) = some (bytesOfJson s.toJson)) :
    load? store s.id = some s := by
  have hjson : jsonOfBytes? (bytesOfJson s.toJson) = some s.toJson :=
    jsonOfBytes_bytesOfJson s.stored_toJson
  have hread : Store.readJson? ofJson? store (Keys.snapshot s.id false) = some s := by
    simp only [Store.readJson?, AtomicStore.get_eq, h, unpacked?, isPacked_snapshot,
      Bool.false_eq_true, if_false, Option.bind_some, hjson, s.ofJson_toJson]
  have hform : loadForm store s.id false = .ok s := by
    rw [loadForm, hread]
  have hload : load store s.id = .ok s := by
    rw [load, holds_eq, h, ← hform]
    rfl
  rw [load?, hload]
  rfl

theorem load_of_empty (h : ∀ key, blob? store key = none) (id : String) :
    load store id = .error (.snapshotNotFound id) := by
  rw [load, holds_eq, holds_eq, h, h]
  rfl

theorem load_of_agree (h : AgreeBelow Keys.snapshots store after) {id : String} {s : Snapshot} :
    load after id = .ok s ↔ load store id = .ok s := by
  have hsame : load? after id = load? store id :=
    load_congr fun packed => h _ (Keys.beginsWith_snapshot id packed)
  rw [← load?_eq_some_iff, ← load?_eq_some_iff, hsame]

end Reading

section Times

variable {found : List String}

theorem Orderly.fits {store : σ} (h : Orderly store) (hfound : ids store = .ok found) :
    ∀ id ∈ found, ∃ time salt, Fits time ∧ id = makeId time salt := by
  obtain ⟨found', hfound', -, hmem⟩ := ids_eq store
  obtain rfl : found = found' := Except.ok.inj (hfound.symm.trans hfound')
  intro id hid
  obtain ⟨key, hsome, hbeg, hkey⟩ := (hmem id).mp hid
  obtain ⟨time, salt, hfits, rfl⟩ := h key hbeg hsome
  rw [Keys.snapshotOfKey_snapshot] at hkey
  exact ⟨time, salt, hfits, (Option.some.inj hkey).symm⟩

theorem toInt_le_of_clock (floor now : Int64) :
    floor.toInt ≤ (if now < floor then floor else now).toInt := by
  split
  · exact Int.le_refl _
  next hnot => exact Int64.le_iff_toInt_le.mp (Int64.not_lt.mp hnot)

theorem clock_toInt_le {floor now : Int64} {limit : Int} (hfloor : floor.toInt ≤ limit)
    (hnow : now.toInt ≤ limit) : (if now < floor then floor else now).toInt ≤ limit := by
  split
  · exact hfloor
  · exact hnow

theorem toInt_add_one {time : Int64} (h : Fits time) : (time + 1).toInt = time.toInt + 1 := by
  have hnonneg := h.nonneg
  have hbound := h.lt
  rw [Int64.toInt_add, Int64.toInt_one]
  exact Int.bmod_eq_of_le (by omega) (by omega)

/-- The time of a new snapshot is not before 1970 and comes after the times of all others. -/
theorem lt_timeAfter (hinc : Increasing found)
    (h : ∀ id ∈ found, ∃ time salt, Fits time ∧ id = makeId time salt)
    (now : Int64) : 0 ≤ (Tracker.timeAfter found now).toInt ∧
      ∀ time salt, Fits time → makeId time salt ∈ found →
        time.toInt < (Tracker.timeAfter found now).toInt := by
  rcases eq_nil_or_concat' found with rfl | ⟨front, last, rfl⟩
  · exact ⟨toInt_le_of_clock 0 now, fun _ _ _ hmem => absurd hmem not_mem_nil⟩
  obtain ⟨newest, salt, hnew, rfl⟩ := h last (mem_append_right _ mem_cons_self)
  have hclock : (newest + 1).toInt ≤
      (Tracker.timeAfter (front ++ [makeId newest salt]) now).toInt := by
    simp only [Tracker.timeAfter, getLast?_concat, Option.bind_some, idTime_makeId hnew.nonneg]
    exact toInt_le_of_clock (newest + 1) now
  rw [toInt_add_one hnew] at hclock
  have hnonneg := hnew.nonneg
  refine ⟨by omega, fun time salt' hfits hmem => ?_⟩
  -- The last id is the greatest, so no other time is after its time.
  have hle : time.toInt ≤ newest.toInt := by
    rcases mem_append.mp hmem with hfront | hlast
    · exact toInt_le_of_compare_makeId hfits hnew (hinc.lt_last hfront)
    · have hid := congrArg idTime? (mem_singleton.mp hlast)
      rw [idTime_makeId hfits.nonneg, idTime_makeId hnew.nonneg] at hid
      rw [Option.some.inj hid]
  omega

/-- The time of a new snapshot is the time on the clock, or comes right after some other time. -/
theorem timeAfter_le {limit : Int} (hlimit : 0 ≤ limit)
    (h : ∀ id ∈ found, ∃ time salt, Fits time ∧ id = makeId time salt)
    (hbdd : ∀ id ∈ found, ∀ time, idTime? id = some time → time.toInt < limit)
    {now : Int64} (hnow : now.toInt ≤ limit) :
    (Tracker.timeAfter found now).toInt ≤ limit := by
  rcases eq_nil_or_concat' found with rfl | ⟨front, last, rfl⟩
  · exact clock_toInt_le hlimit hnow
  have hlast : last ∈ front ++ [last] := mem_append_right _ mem_cons_self
  obtain ⟨newest, salt, hnew, rfl⟩ := h last hlast
  have htime := idTime_makeId hnew.nonneg salt
  have hlt := hbdd _ hlast newest htime
  simp only [Tracker.timeAfter, getLast?_concat, Option.bind_some, htime]
  refine clock_toInt_le ?_ hnow
  rw [toInt_add_one hnew]
  omega

end Times

section Adding

variable {store after : σ} {s : Snapshot} {found : List String}

/-- A store with one snapshot more has at most one id more. -/
theorem mem_ids_of_added (hadd : Added store after s) {found' : List String}
    (hfound : ids store = .ok found) (hfound' : ids after = .ok found') {id : String}
    (hid : id ∈ found') :
    id ∈ found ∨ id = s.id := by
  obtain ⟨listed, hlist, -, hmem⟩ := ids_eq store
  obtain ⟨listed', hlist', -, hmem'⟩ := ids_eq after
  obtain rfl : found = listed := Except.ok.inj (hfound.symm.trans hlist)
  obtain rfl : found' = listed' := Except.ok.inj (hfound'.symm.trans hlist')
  obtain ⟨key, hsome, hbeg, hkey⟩ := (hmem' id).mp hid
  rw [hadd key hbeg] at hsome
  split at hsome
  next heq =>
    rw [heq, Keys.snapshotOfKey_snapshot] at hkey
    exact Or.inr (Option.some.inj hkey).symm
  · exact Or.inl ((hmem id).mpr ⟨key, hsome, hbeg, hkey⟩)

theorem mem_ids_of_blob (hfound : ids store = .ok found) {id : String}
    (h : (blob? store (Keys.snapshot id false)).isSome) : id ∈ found := by
  obtain ⟨listed, hlist, -, hmem⟩ := ids_eq store
  obtain rfl : found = listed := Except.ok.inj (hfound.symm.trans hlist)
  exact (hmem id).mpr ⟨Keys.snapshot id false, h, Keys.beginsWith_snapshot id false,
    Keys.snapshotOfKey_snapshot id⟩

theorem self_mem_ids_of_added (hadd : Added store after s) (hfound : ids after = .ok found) :
    s.id ∈ found := by
  refine mem_ids_of_blob hfound ?_
  rw [blob_of_added hadd]
  rfl

theorem ids_of_first (hids : ids store = .ok []) (hadd : Added store after s) :
    ids after = .ok [s.id] := by
  obtain ⟨found, hfound, hinc, -⟩ := ids_eq after
  have hsingle : found = [s.id] := by
    refine hinc.eq_of_mem_iff (pairwise_singleton _ _) fun id => ?_
    rw [mem_singleton]
    constructor
    · intro hid
      exact (mem_ids_of_added hadd hids hfound hid).resolve_left not_mem_nil
    · rintro rfl
      exact self_mem_ids_of_added hadd hfound
  rw [hfound, hsingle]

/-- The newest snapshot is the one with the greatest id, if it can be read. -/
theorem latest_of_greatest (hfound : ids store = .ok found) (hmem : s.id ∈ found)
    (hmax : ∀ id ∈ found, id = s.id ∨ compare id s.id = .lt)
    (hload : load? store s.id = some s) : latest store = .ok (some s) := by
  obtain ⟨listed, hlist, hinc, -⟩ := ids_eq store
  obtain rfl : found = listed := Except.ok.inj (hfound.symm.trans hlist)
  obtain ⟨front, hfront⟩ := hinc.eq_concat hmem hmax
  rw [latest, hfound, hfront]
  simp only [Except.map, reverse_append, reverse_singleton, singleton_append, findSome?_cons, hload]

theorem latest_of_first (hempty : ids store = .ok []) (h : Added store after s) :
    latest after = .ok (some s) :=
  latest_of_greatest (ids_of_first hempty h) mem_cons_self
    (fun _ hid => .inl (mem_singleton.mp hid)) (load_of_blob (blob_of_added h))

theorem load_of_added (h : Added store after s) (id : String) (s' : Snapshot) :
    load after id = .ok s' ↔ (id = s.id ∧ s' = s) ∨ (id ≠ s.id ∧ load store id = .ok s') := by
  rw [← load?_eq_some_iff, ← load?_eq_some_iff]
  by_cases hid : id = s.id
  · have hself : load? after s.id = some s := load_of_blob (blob_of_added h)
    rw [hid, hself, Option.some.injEq]
    simp only [true_and, ne_eq, not_true_eq_false, false_and, or_false]
    exact eq_comm
  · have hkey : ∀ packed, Keys.snapshot id packed ≠ Keys.snapshot s.id false := by
      intro packed heq
      cases packed with
      | false => exact hid (Keys.snapshot_injective heq)
      | true => exact Keys.snapshot_true_ne id s.id heq
    have hsame : load? after id = load? store id := by
      refine load_congr fun packed => ?_
      rw [h _ (Keys.beginsWith_snapshot id packed), if_neg (hkey packed)]
    rw [hsame]
    simp only [hid, false_and, ne_eq, not_false_eq_true, true_and, false_or]

theorem exists_load_of_added {old : Snapshot} {id : String} (h : Added store after s)
    (hold : load store id = .ok old) : ∃ s', load after id = .ok s' := by
  by_cases hid : id = s.id
  · exact ⟨s, (load_of_added h id s).mpr (.inl ⟨hid, rfl⟩)⟩
  · exact ⟨old, (load_of_added h id old).mpr (.inr ⟨hid, hold⟩)⟩

/-- A snapshot that was added with an id before the greatest one is passed over. -/
theorem latest_of_added_before (hfound : ids store = .ok found) {previous : Snapshot}
    (hmax : ∀ id ∈ found, id = previous.id ∨ compare id previous.id = .lt)
    (hblob : blob? store (Keys.snapshot previous.id false) = some (bytesOfJson previous.toJson))
    (hadd : Added store after s) (hpre : compare s.id previous.id = .lt) :
    latest after = .ok (some previous) := by
  obtain ⟨found', hfound', -⟩ := ids_eq after
  -- The snapshot has a key of its own, so it replaces nothing.
  have hne : Keys.snapshot previous.id false ≠ Keys.snapshot s.id false := by
    intro hkey
    rw [Keys.snapshot_injective hkey] at hpre
    exact compare_self_ne_lt _ hpre
  have hkept : blob? after (Keys.snapshot previous.id false) =
      some (bytesOfJson previous.toJson) := by
    rw [hadd _ (Keys.beginsWith_snapshot previous.id false), if_neg hne, hblob]
  refine latest_of_greatest hfound' (mem_ids_of_blob hfound' ?_) (fun id hid => ?_)
    (load_of_blob hkept)
  · rw [hkept]
    rfl
  · rcases mem_ids_of_added hadd hfound hfound' hid with hold | rfl
    · exact hmax id hold
    · exact Or.inr hpre

/-- A snapshot that was added with a time after all others is the newest one, as long as no
    snapshot has a time with more than thirteen digits. -/
theorem latest_of_added (h : Orderly store) (hfound : ids store = .ok found) {now : Int64}
    {salt : String} (hid : s.id = makeId (Tracker.timeAfter found now) salt)
    (hadd : Added store after s) (hbdd : Bounded (10 ^ 13) after) :
    Orderly after ∧ latest after = .ok (some s) := by
  obtain ⟨listed, hlist, hinc, -⟩ := ids_eq store
  obtain rfl : found = listed := Except.ok.inj (hfound.symm.trans hlist)
  obtain ⟨found', hfound', -, -⟩ := ids_eq after
  obtain ⟨hnonneg, hlater⟩ := lt_timeAfter hinc (h.fits hfound) now
  have hself := self_mem_ids_of_added hadd hfound'
  have hfits : Fits (Tracker.timeAfter found now) := by
    refine ⟨hnonneg, hbdd found' hfound' s.id hself _ ?_⟩
    rw [hid, idTime_makeId hnonneg]
  have hmax : ∀ id ∈ found', id = s.id ∨ compare id s.id = .lt := by
    intro id hmem
    rcases mem_ids_of_added hadd hfound hfound' hmem with hold | hnew
    · obtain ⟨time, salt', htime, rfl⟩ := h.fits hfound id hold
      rw [hid]
      exact Or.inr (compare_makeId htime hfits (hlater time salt' htime hold) salt' salt)
    · exact Or.inl hnew
  exact ⟨orderly_of_added h hid hfits hadd,
    latest_of_greatest hfound' hself hmax (load_of_blob (blob_of_added hadd))⟩

/-- The times of snapshots get past a limit by one at most, as long as the clock does not. -/
theorem Bounded.of_grown {limit : Int} (h : Bounded limit store) (hord : Orderly store)
    (hlimit : 0 ≤ limit) {now : Int64} (hnow : now.toInt ≤ limit) (hgrown : Grown now store after) :
    Bounded (limit + 1) after := by
  cases hgrown with
  | still hagree =>
    intro found hfound
    exact h.mono (by omega) found (ids_congr hagree ▸ hfound)
  | more hfound hid hadd =>
    obtain ⟨_, hlist, hinc, -⟩ := ids_eq store
    obtain rfl := Except.ok.inj (hfound.symm.trans hlist)
    have hfits := hord.fits hfound
    have hnonneg := (lt_timeAfter hinc hfits now).1
    have hle := timeAfter_le hlimit hfits (h _ hfound) hnow
    intro found' hfound' id hmem time htime
    rcases mem_ids_of_added hadd hfound hfound' hmem with hold | rfl
    · exact h.mono (by omega) _ hfound id hold time htime
    · rw [hid, idTime_makeId hnonneg] at htime
      obtain rfl := Option.some.inj htime
      omega

end Adding

end History

end Ripple
