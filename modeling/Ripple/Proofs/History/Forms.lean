import Ripple.History.Upkeep
import Ripple.Proofs.History.Latest

/-!
# Forms and Ages of Snapshots

Upkeep moves snapshots from one form to another and removes them, so one has
to know what a reader sees of the two forms. There is a snapshot if one of its
forms is there, and what is read is the plain form, or the packed one if there
is no plain one. Packing does not change what is read, an unreadable form
included, since what was packed is unpacked to the same bytes.

Upkeep goes by ages, and these are words. As long as no word overflows they
are what they should be: differences and products of integers.

## Theorems

* `History.load_eq`: A snapshot is read from its forms.
* `History.mem_ids_iff`: There is a snapshot if one of its forms is there.
* `History.ofForms_packed`: Packing does not change what is read.
-/

namespace Ripple

open Store

namespace History

variable (id : String)

/-- The snapshot of some bytes, if there are any. -/
def decoded (bytes : Option ByteArray) : Except Error Snapshot :=
  ((bytes.bind jsonOfBytes?).bind Snapshot.ofJson?).elim (.error (.unreadableSnapshot id)) .ok

/-- What is read from the bytes of the plain form and of the packed one. -/
def ofForms : Option ByteArray → Option ByteArray → Except Error Snapshot
  | some bytes, _ => decoded id (some bytes)
  | none, some bytes => decoded id (Packing.gunzip? bytes)
  | none, none => .error (.snapshotNotFound id)

theorem ofForms_plain (bytes : ByteArray) (packed packed' : Option ByteArray) :
    ofForms id (some bytes) packed = ofForms id (some bytes) packed' := rfl

theorem ofForms_packed (bytes : ByteArray) (packed : Option ByteArray) :
    ofForms id none (some (Packing.gzip bytes)) = ofForms id (some bytes) packed := by
  rw [ofForms, ofForms, Packing.gunzip_gzip]

variable {σ : Type} [BlobStore σ] [AtomicStore σ]

omit [AtomicStore σ] in
theorem loadForm_eq {store : σ} {id : String} {packed : Bool} {bytes : ByteArray}
    (h : blob? store (Keys.snapshot id packed) = some bytes) :
    loadForm store id packed = decoded id (unpacked? (Keys.snapshot id packed) bytes) := by
  rw [loadForm, decoded, readJson_eq_blob, h, Option.bind_some]
  cases ((unpacked? (Keys.snapshot id packed) bytes).bind jsonOfBytes?).bind Snapshot.ofJson? with
  | some s => rfl
  | none => rfl

theorem load_eq (store : σ) (id : String) : load store id =
    ofForms id (blob? store (Keys.snapshot id false)) (blob? store (Keys.snapshot id true)) := by
  rw [load, holds_eq, holds_eq]
  cases hplain : blob? store (Keys.snapshot id false) with
  | some bytes =>
    have hform := loadForm_eq hplain
    rw [unpacked?, isPacked_snapshot] at hform
    exact hform
  | none =>
    cases hpack : blob? store (Keys.snapshot id true) with
    | some bytes =>
      have hform := loadForm_eq hpack
      rw [unpacked?, isPacked_snapshot_true] at hform
      exact hform
    | none => rfl

theorem mem_ids_iff {store : σ} {found : List String} (hfound : ids store = .ok found)
    {id : String} : id ∈ found ↔ ∃ packed, (blob? store (Keys.snapshot id packed)).isSome := by
  obtain ⟨listed, hlist, -, hmem⟩ := ids_eq store
  obtain rfl : found = listed := Except.ok.inj (hfound.symm.trans hlist)
  rw [hmem]
  constructor
  · rintro ⟨key, hsome, -, hkey⟩
    obtain ⟨packed, rfl⟩ := Keys.eq_snapshot_of_snapshotOfKey hkey
    exact ⟨packed, hsome⟩
  · rintro ⟨packed, hsome⟩
    exact ⟨Keys.snapshot id packed, hsome, Keys.beginsWith_snapshot id packed,
      Keys.snapshotOfKey_form id packed⟩

omit [AtomicStore σ] in
theorem increasing_ids {store : σ} {found : List String} (hfound : ids store = .ok found) :
    Increasing found := by
  unfold ids at hfound
  cases hlist : BlobStore.list store Keys.snapshots with
  | error e =>
    rw [hlist] at hfound
    cases hfound
  | ok keys =>
    rw [hlist] at hfound
    exact Except.ok.inj hfound ▸ increasing_sortedSet _

theorem ids_eq_of_forms {store after : σ}
    (h : ∀ id, (∃ packed, (blob? after (Keys.snapshot id packed)).isSome) ↔
      ∃ packed, (blob? store (Keys.snapshot id packed)).isSome) : ids after = ids store := by
  obtain ⟨found, hfound, hinc, -⟩ := ids_eq store
  obtain ⟨found', hfound', hinc', -⟩ := ids_eq after
  have hsame : found' = found := by
    refine hinc'.eq_of_mem_iff hinc fun id => ?_
    rw [mem_ids_iff hfound, mem_ids_iff hfound', h]
  rw [hfound, hfound', hsame]

end History

section Ages

/-- An integer that is the value of a word. -/
def InWord (n : Int) : Prop := Int64.minValue.toInt ≤ n ∧ n ≤ Int64.maxValue.toInt

theorem InWord.bounds {n : Int} (h : InWord n) :
    -9223372036854775808 ≤ n ∧ n < 9223372036854775808 :=
  ⟨h.1, Int.lt_add_one_iff.mpr h.2⟩

theorem InWord.toInt_mul {a b : Int64} (h : InWord (a.toInt * b.toInt)) :
    (a * b).toInt = a.toInt * b.toInt := by
  obtain ⟨hlow, hhigh⟩ := h.bounds
  rw [Int64.toInt_mul]
  exact Int.bmod_eq_of_le (by omega) (by omega)

theorem InWord.toInt_sub {a b : Int64} (h : InWord (a.toInt - b.toInt)) :
    (a - b).toInt = a.toInt - b.toInt := by
  obtain ⟨hlow, hhigh⟩ := h.bounds
  rw [Int64.toInt_sub]
  exact Int.bmod_eq_of_le (by omega) (by omega)

/-- When a snapshot is old enough to be packed, in integers. -/
theorem History.isAged_iff {afterHours now time : Int64} {id : String}
    (htime : Snapshot.idTime? id = some time) (hlimit : InWord (afterHours.toInt * 3600000))
    (hage : InWord (now.toInt - time.toInt)) :
    isAged afterHours now id = true ↔ afterHours.toInt * 3600000 ≤ now.toInt - time.toInt := by
  have hproduct : (afterHours * hourMs).toInt = afterHours.toInt * 3600000 :=
    InWord.toInt_mul (b := hourMs) hlimit
  simp only [isAged, htime, decide_eq_true_eq, Int64.le_iff_toInt_le, hproduct, hage.toInt_sub]

/-- The age of a snapshot, in integers; one without a time is new. -/
def ageOf (now : Int64) (id : String) : Int :=
  match Snapshot.idTime? id with
  | some time => now.toInt - time.toInt
  | none => 0

theorem toInt_snapshotAge {now : Int64} {id : String} (h : InWord (ageOf now id)) :
    (snapshotAge now id).toInt = ageOf now id := by
  unfold snapshotAge ageOf at *
  cases htime : Snapshot.idTime? id with
  | none => simp
  | some time =>
    simp only [htime] at h
    exact h.toInt_sub

/-- When a snapshot is older than it may be, in integers. -/
theorem Retention.tooOld_iff {r : Retention} {now : Int64} {id : String}
    (hlimit : ∀ days, r.maxAgeDays = some days → InWord (days.toInt * 86400000))
    (hage : InWord (ageOf now id)) : r.tooOld now id = true ↔
      ∃ days, r.maxAgeDays = some days ∧ days.toInt * 86400000 < ageOf now id := by
  unfold tooOld
  cases hdays : r.maxAgeDays with
  | none => simp
  | some days =>
    have hproduct : (days * dayMs).toInt = days.toInt * 86400000 :=
      InWord.toInt_mul (b := dayMs) (hlimit days hdays)
    simp only [decide_eq_true_eq, gt_iff_lt, Int64.lt_iff_toInt_lt, hproduct,
      toInt_snapshotAge hage, Option.some.injEq, exists_eq_left']

end Ages

end Ripple
