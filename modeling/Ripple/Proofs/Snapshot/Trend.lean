import Mathlib.Data.Prod.Lex
import Mathlib.Data.String.Basic
import Ripple.Snapshot.Trend

/-!
# Trends in Any Order

Nearly everything that is said of a series of snapshots depends on its order:
which half a number falls into, which numbers come right before it, which
snapshots are neighbours. The snapshots may be given in any order all the same,
since they are put in the order of time first, and snapshots of the same time in
that of their ids. If no two agree in both there is only one such order.

## Theorems

* `Snapshot.notAfter_iff`: Snapshots are compared by place.
* `pairwise_mergeSort_notAfter`: Snapshots of different places come in strict order.
* `TrendReport.ofSnapshots_order_irrelevant`: What is said of a series does not depend on the order
  in which it is given.
-/

namespace Ripple

open Snapshot

/-- The place of a snapshot in a series, by time and then by id. -/
def Snapshot.place (s : Snapshot) : Int ×ₗ String := toLex (s.timestamp.toInt, s.id)

/-- Two snapshots differ in time or id. -/
def Snapshot.Apart (a b : Snapshot) : Prop := (a.timestamp, a.id) ≠ (b.timestamp, b.id)

theorem Snapshot.notAfter_iff {a b : Snapshot} : a.notAfter b = true ↔ a.place ≤ b.place := by
  simp only [notAfter, place, Prod.Lex.toLex_le_toLex, Int64.lt_iff_toInt_lt, ← Int64.toInt_inj,
    Bool.or_eq_true, Bool.and_eq_true, Bool.not_eq_true', decide_eq_true_eq,
    decide_eq_false_iff_not, not_lt]

theorem Snapshot.Apart.place_ne {a b : Snapshot} (h : a.Apart b) : a.place ≠ b.place := by
  intro hsame
  obtain ⟨htime, hid⟩ := Prod.mk.inj (toLex_inj.mp hsame)
  exact h (Prod.ext (Int64.toInt_inj.mp htime) hid)

theorem pairwise_mergeSort_notAfter {snapshots : List Snapshot} (h : snapshots.Pairwise Apart) :
    (snapshots.mergeSort notAfter).Pairwise fun a b => a.place < b.place := by
  have hsort : (snapshots.mergeSort notAfter).Pairwise fun a b =>
      a.notAfter b = true := by
    refine List.pairwise_mergeSort (fun a b c hab hbc => ?_) (fun a b => ?_) snapshots
    · rw [notAfter_iff] at hab hbc ⊢
      exact hab.trans hbc
    · rw [Bool.or_eq_true, notAfter_iff, notAfter_iff]
      exact le_total a.place b.place
  have hapart : (snapshots.mergeSort notAfter).Pairwise Apart :=
    ((List.mergeSort_perm snapshots _).pairwise_iff Ne.symm).mpr h
  refine (hsort.and hapart).imp fun hpair => ?_
  exact lt_of_le_of_ne (notAfter_iff.mp hpair.1) hpair.2.place_ne

/-- If no two snapshots agree in time and id, the same is said of them in whatever order they are
    given. All of them are measured, in strict order of time and then of ids. -/
theorem TrendReport.ofSnapshots_order_irrelevant {snapshots : List Snapshot}
    (h : snapshots.Pairwise fun a b => (a.timestamp, a.id) ≠ (b.timestamp, b.id)) :
    (∀ other, other.Perm snapshots → ofSnapshots other = ofSnapshots snapshots) ∧
      (ofSnapshots snapshots).metrics.Perm (snapshots.map Metrics.ofSnapshot) ∧
      (ofSnapshots snapshots).metrics.Pairwise fun a b => a.timestamp < b.timestamp ∨
        a.timestamp = b.timestamp ∧ a.snapshotId < b.snapshotId := by
  have hstrict := pairwise_mergeSort_notAfter h
  refine ⟨fun other hperm => ?_, (List.mergeSort_perm snapshots _).map _, ?_⟩
  · -- Both series are in the one strict order of the same snapshots.
    have hother := pairwise_mergeSort_notAfter ((hperm.pairwise_iff Ne.symm).mpr h)
    have hsame : other.mergeSort notAfter = snapshots.mergeSort notAfter :=
      List.Perm.eq_of_pairwise (fun a b _ _ hab hba => absurd hba hab.asymm) hother hstrict
        (((List.mergeSort_perm other _).trans hperm).trans (List.mergeSort_perm snapshots _).symm)
    rw [ofSnapshots, hsame, ← ofSnapshots]
  · refine List.pairwise_map.mpr (hstrict.imp fun {a b} hlt => ?_)
    rw [place, place, Prod.Lex.toLex_lt_toLex, ← Int64.lt_iff_toInt_lt, Int64.toInt_inj] at hlt
    exact hlt

/-- A snapshot of a project without files. -/
def Snapshot.bare (id : String) (timestamp : Int64) : Snapshot :=
  ⟨id, timestamp, .empty, .empty, .empty⟩

theorem TrendReport.ofSnapshots_order_irrelevant_bare :
    [bare "b" 7, .bare "a" 7, .bare "c" 3].Pairwise
        (fun a b => (a.timestamp, a.id) ≠ (b.timestamp, b.id)) ∧
      ofSnapshots [.bare "c" 3, .bare "b" 7, .bare "a" 7] =
        ofSnapshots [.bare "b" 7, .bare "a" 7, .bare "c" 3] := by
  have h : [bare "b" 7, .bare "a" 7, .bare "c" 3].Pairwise
      (fun a b => (a.timestamp, a.id) ≠ (b.timestamp, b.id)) := by decide
  exact ⟨h, (ofSnapshots_order_irrelevant h).1 _ (by decide)⟩

end Ripple
