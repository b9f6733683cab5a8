import Ripple.Store.Basic
import Ripple.Store.Keys

/-!
# Keys of Snapshots

The id of a snapshot is read off its key, and no other key is taken for one of
a snapshot: all of them begin in another way. What is kept under the key of a
plain snapshot is not packed. A key from which an id can be read is the key of
that snapshot in one of its two forms, and different snapshots and different
forms have different keys.

## Theorems

* `Keys.beginsWith_outline`, `Keys.beginsWith_notes`: Other keys are not keys of snapshots.
* `Store.isPacked_snapshot`: A plain snapshot is not packed.
* `Keys.snapshot_true_ne`: A packed snapshot has another key than every plain one.
-/

namespace Ripple

open List

theorem beginsWith_append (front rest : String) : beginsWith (front ++ rest) front = true := by
  rw [beginsWith, String.toList_append, isPrefixOf_iff_prefix]
  exact prefix_append _ _

theorem stripFront_append (front rest : String) :
    stripFront? front (front ++ rest) = some rest := by
  rw [stripFront?, if_pos (beginsWith_append front rest), String.toList_append,
    ← String.length_toList, drop_left, String.ofList_toList]

theorem stripTail_append (rest tail : String) : stripTail? tail (rest ++ tail) = some rest := by
  have hfinishes : finishesWith (rest ++ tail) tail = true := by
    rw [finishesWith, String.toList_append, isSuffixOf_iff_suffix]
    exact suffix_append _ _
  have hlen : (rest ++ tail).length - tail.length = rest.toList.length := by
    rw [String.length_append, Nat.add_sub_cancel, String.length_toList]
  rw [stripTail?, if_pos hfinishes, String.toList_append, hlen, take_left, String.ofList_toList]

theorem eq_append_of_stripFront {front text rest : String}
    (h : stripFront? front text = some rest) :
    text = front ++ rest := by
  rw [stripFront?] at h
  split at h
  next hbeg =>
    obtain ⟨after, hafter⟩ := isPrefixOf_iff_prefix.mp hbeg
    rw [← Option.some.inj h, ← String.toList_inj, String.toList_append, String.toList_ofList,
      ← hafter, ← String.length_toList, drop_left]
  next => cases h

theorem eq_append_of_stripTail {tail text rest : String} (h : stripTail? tail text = some rest) :
    text = rest ++ tail := by
  rw [stripTail?] at h
  split at h
  next hfinishes =>
    obtain ⟨before, hpre⟩ := isSuffixOf_iff_suffix.mp hfinishes
    have hlen : text.length - tail.length = before.length := by
      rw [← String.length_toList, ← hpre, length_append, String.length_toList,
        Nat.add_sub_cancel]
    rw [← Option.some.inj h, ← String.toList_inj, String.toList_append, String.toList_ofList,
      hlen, ← hpre, take_left]
  next => cases h

theorem finishesWith_append_eq_false (rest : String) {tail tail' : String} {a b : Char}
    (ha : tail.toList.getLast? = some a) (hb : tail'.toList.getLast? = some b) (hne : a ≠ b) :
    finishesWith (rest ++ tail) tail' = false := by
  rw [finishesWith, String.toList_append, Bool.eq_false_iff, ne_eq, isSuffixOf_iff_suffix]
  rintro ⟨front, hfront⟩
  have hlast := congrArg List.getLast? hfront
  rw [getLast?_append, getLast?_append, ha, hb] at hlast
  exact hne (Option.some.inj hlast).symm

theorem beginsWith_append_eq_false (rest : String) {head front : String} (n : Nat)
    (hlen : n ≤ head.toList.length) (hne : front.toList.take n ≠ head.toList.take n)
    (hfront : n ≤ front.toList.length) : beginsWith (head ++ rest) front = false := by
  rw [beginsWith, String.toList_append, Bool.eq_false_iff, ne_eq, isPrefixOf_iff_prefix]
  rintro ⟨tail, htail⟩
  have htake := congrArg (List.take n) htail
  rw [take_append_of_le_length hfront, take_append_of_le_length hlen] at htake
  exact hne htake

namespace Keys

variable (id : String)

theorem snapshot_false : snapshot id false = snapshots ++ (id ++ ".json") := by
  rfl

theorem beginsWith_snapshot (packed : Bool) : beginsWith (snapshot id packed) snapshots = true := by
  rw [snapshot, String.append_assoc]
  exact beginsWith_append _ _

/-- The id of a snapshot comes back from its key. -/
theorem snapshotOfKey_snapshot : snapshotOfKey? (snapshot id false) = some id := by
  have hplain : finishesWith (id ++ ".json") ".json.gz" = false :=
    finishesWith_append_eq_false id rfl rfl (by decide)
  have hpack : stripTail? ".json.gz" (id ++ ".json") = none := by
    rw [stripTail?, if_neg (Bool.eq_false_iff.mp hplain)]
  rw [snapshotOfKey?, snapshot_false, stripFront_append, Option.bind_some, hpack,
    stripTail_append]

theorem snapshot_injective {id id' : String} (h : snapshot id false = snapshot id' false) :
    id = id' := by
  have hids := congrArg snapshotOfKey? h
  rw [snapshotOfKey_snapshot, snapshotOfKey_snapshot] at hids
  exact Option.some.inj hids

theorem beginsWith_outline (path : String) : beginsWith (outline path) snapshots = false := by
  rw [outline, String.append_assoc]
  exact beginsWith_append_eq_false _ 1 (by decide) (by decide) (by decide)

theorem beginsWith_notes : beginsWith (notes id) snapshots = false := by
  have hnotes : notes id = "history/metadata/" ++ (id ++ ".json") := String.append_assoc ..
  rw [hnotes]
  exact beginsWith_append_eq_false _ 9 (by decide) (by decide) (by decide)

theorem beginsWith_hashes : beginsWith hashes snapshots = false := by decide

theorem beginsWith_files : beginsWith files snapshots = false := by decide

theorem beginsWith_times : beginsWith times snapshots = false := by decide

theorem beginsWith_graph : beginsWith graph snapshots = false := by decide

end Keys

theorem Store.isPacked_snapshot (id : String) :
    Store.isPacked (Keys.snapshot id false) = false := by
  exact finishesWith_append_eq_false _ rfl rfl (by decide)

theorem Store.isPacked_snapshot_true (id : String) :
    Store.isPacked (Keys.snapshot id true) = true := by
  rw [Store.isPacked, finishesWith, Keys.snapshot, String.toList_append, isSuffixOf_iff_suffix]
  exact (suffix_append ".json".toList ".gz".toList).trans (suffix_append _ _)

namespace Keys

theorem snapshot_true_ne (id id' : String) : snapshot id true ≠ snapshot id' false := by
  intro heq
  have hpack := Store.isPacked_snapshot_true id
  rw [heq, Store.isPacked_snapshot] at hpack
  exact Bool.false_ne_true hpack

theorem snapshot_true (id : String) : snapshot id true = snapshots ++ (id ++ ".json.gz") := by
  rfl

theorem snapshotOfKey_form (id : String) (packed : Bool) :
    snapshotOfKey? (snapshot id packed) = some id := by
  cases packed with
  | false => exact snapshotOfKey_snapshot id
  | true =>
    rw [snapshotOfKey?, snapshot_true, stripFront_append, Option.bind_some, stripTail_append]

/-- Different snapshots and different forms have different keys. -/
theorem snapshot_inj {id id' : String} {packed packed' : Bool} :
    snapshot id packed = snapshot id' packed' ↔ id = id' ∧ packed = packed' := by
  constructor
  · intro h
    have hids := congrArg snapshotOfKey? h
    rw [snapshotOfKey_form, snapshotOfKey_form] at hids
    refine ⟨Option.some.inj hids, ?_⟩
    cases packed with
    | false =>
      cases packed' with
      | false => rfl
      | true => exact absurd h.symm (snapshot_true_ne id' id)
    | true =>
      cases packed' with
      | false => exact absurd h (snapshot_true_ne id id')
      | true => rfl
  · rintro ⟨rfl, rfl⟩
    rfl

theorem eq_snapshot_of_snapshotOfKey {key id : String} (h : snapshotOfKey? key = some id) :
    ∃ packed, key = snapshot id packed := by
  obtain ⟨name, hname, hid⟩ := Option.bind_eq_some_iff.mp h
  have hkey := eq_append_of_stripFront hname
  split at hid
  next hpack =>
    obtain rfl := Option.some.inj hid
    exact ⟨true, by rw [hkey, eq_append_of_stripTail hpack, snapshot_true]⟩
  next => exact ⟨false, by rw [hkey, eq_append_of_stripTail hid, snapshot_false]⟩

theorem notes_injective {id id' : String} (h : notes id = notes id') : id = id' := by
  exact (String.append_right_inj _).mp ((String.append_left_inj _).mp h)

theorem notes_ne_snapshot (id id' : String) (packed : Bool) : notes id ≠ snapshot id' packed := by
  intro h
  have hbeg := beginsWith_snapshot id' packed
  rw [← h, beginsWith_notes] at hbeg
  exact Bool.false_ne_true hbeg

end Keys

end Ripple
