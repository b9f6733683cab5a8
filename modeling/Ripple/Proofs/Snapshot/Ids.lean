import Mathlib.Algebra.Group.Int.Defs
import Mathlib.Algebra.Group.Nat.Defs
import Ripple.Proofs.Dict
import Ripple.Snapshot.Basic

/-!
# The Order of Ids

Ids are texts, and the newest snapshot is the one with the greatest id. That
this is the one with the latest time rests on the thirteen places of the time
in an id: texts of digits come in the order of their values only if they have
the same length. A time with more than thirteen digits breaks the order, so
what is said about the order is said of times that fit.

## Theorems

* `Snapshot.compare_makeId`: Ids come in the order of their times.
-/

namespace Ripple

open List

section Digits

/-- Of two texts of digits of one length, the one that goes on from a smaller value has the
    smaller value. -/
theorem ofDigitChars_lt_of_lt {xs ys : List Char} (hlen : xs.length = ys.length)
    (hxs : ∀ c ∈ xs, c.isDigit = true) {i j : Nat} (h : i < j) :
    Nat.ofDigitChars 10 xs i < Nat.ofDigitChars 10 ys j := by
  induction xs generalizing ys i j with
  | nil =>
    rw [length_eq_zero_iff.mp hlen.symm]
    exact h
  | cons a xs ih =>
    obtain ⟨b, ys, rfl⟩ := exists_cons_of_length_eq_add_one hlen.symm
    obtain ⟨ha, hxs⟩ := forall_mem_cons.mp hxs
    have hnine : a.toNat ≤ '9'.toNat := (Char.isDigit_iff_toNat.mp ha).2
    have hvals : 10 * i + (a.toNat - '0'.toNat) < 10 * j + (b.toNat - '0'.toNat) := by
      have hten : '9'.toNat - '0'.toNat = 9 := rfl
      omega
    exact ih (Nat.succ.inj hlen) hxs hvals

/-- Texts of digits of one length come in the order of their values, whatever follows them. -/
theorem append_lt_append_of_ofDigitChars_lt {xs ys : List Char} (hlen : xs.length = ys.length)
    (hxs : ∀ c ∈ xs, c.isDigit = true) (hys : ∀ c ∈ ys, c.isDigit = true) {i : Nat}
    (h : Nat.ofDigitChars 10 xs i < Nat.ofDigitChars 10 ys i) (us vs : List Char) :
    xs ++ us < ys ++ vs := by
  induction xs generalizing ys i with
  | nil =>
    rw [length_eq_zero_iff.mp hlen.symm] at h
    exact absurd h (Nat.lt_irrefl _)
  | cons a xs ih =>
    obtain ⟨b, ys, rfl⟩ := exists_cons_of_length_eq_add_one hlen.symm
    obtain ⟨ha, hxs⟩ := forall_mem_cons.mp hxs
    obtain ⟨hb, hys⟩ := forall_mem_cons.mp hys
    have hrest : xs.length = ys.length := Nat.succ.inj hlen
    have hzero : '0'.toNat ≤ b.toNat := (Char.isDigit_iff_toNat.mp hb).1
    rw [Nat.ofDigitChars_cons, Nat.ofDigitChars_cons] at h
    rw [cons_append, cons_append, cons_lt_cons_iff]
    rcases Nat.lt_trichotomy a.toNat b.toNat with hlt | heq | hgt
    · exact Or.inl hlt
    · rw [heq] at h
      exact Or.inr ⟨Char.toNat_inj.mp heq, ih hrest hxs hys h⟩
    · -- A greater first digit cannot be made up for.
      have hvals : 10 * i + (b.toNat - '0'.toNat) < 10 * i + (a.toNat - '0'.toNat) := by omega
      have hcontra := ofDigitChars_lt_of_lt hrest.symm hys hvals
      omega

theorem toList_paddedDigits (width n : Nat) : (paddedDigits width n).toList =
      List.replicate (width - (Nat.toDigits 10 n).length) '0' ++ Nat.toDigits 10 n := by
  have hdig : (toString n).toList = Nat.toDigits 10 n := Nat.toList_repr
  rw [paddedDigits, String.toList_append, String.toList_ofList, ← String.length_toList, hdig]

theorem length_paddedDigits {width n : Nat} (hwidth : 0 < width) (h : n < 10 ^ width) :
    (paddedDigits width n).toList.length = width := by
  have hlen : (Nat.toDigits 10 n).length ≤ width :=
    (Nat.length_toDigits_le_iff (by decide) hwidth).mpr h
  rw [toList_paddedDigits, length_append, length_replicate]
  omega

theorem isDigit_of_mem_paddedDigits {width n : Nat} :
    ∀ c ∈ (paddedDigits width n).toList, c.isDigit = true := by
  intro c hc
  rw [toList_paddedDigits, mem_append] at hc
  rcases hc with hc | hc
  · rw [eq_of_mem_replicate hc]
    rfl
  · exact Nat.isDigit_of_mem_toDigits (by decide) (by decide) hc

theorem ofDigitChars_paddedDigits (width n : Nat) :
    Nat.ofDigitChars 10 (paddedDigits width n).toList 0 = n := by
  rw [toList_paddedDigits, Nat.ofDigitChars_append, Nat.ofDigitChars_replicate_zero, Nat.mul_zero,
    Nat.ofDigitChars_ten_toDigits]

end Digits

namespace Snapshot

/-- A time fills the thirteen places that an id has for it. -/
structure Fits (time : Int64) : Prop where
  nonneg : 0 ≤ time.toInt
  lt : time.toInt < 10 ^ 13

theorem toList_makeId {time : Int64} (h : 0 ≤ time.toInt) (salt : String) :
    (makeId time salt).toList =
      (paddedDigits 13 time.toInt.toNat).toList ++ '-' :: salt.toList := by
  have hpadded : paddedTime time = paddedDigits 13 time.toInt.toNat := by
    unfold paddedTime
    cases htime : time.toInt with
    | ofNat n => rfl
    | negSucc n =>
      rw [htime] at h
      exact absurd h (Int.not_le.mpr (Int.negSucc_lt_zero n))
  rw [makeId, hpadded, String.toList_append, String.toList_append, append_assoc]
  rfl

theorem compare_makeId {time later : Int64} (h : Fits time) (hlater : Fits later)
    (hlt : time.toInt < later.toInt) (salt salt' : String) :
    compare (makeId time salt) (makeId later salt') = .lt := by
  have hnonneg := h.nonneg
  have hboundLater := hlater.lt
  have hlen : (paddedDigits 13 time.toInt.toNat).toList.length =
      (paddedDigits 13 later.toInt.toNat).toList.length := by
    rw [length_paddedDigits (by decide) (by omega), length_paddedDigits (by decide) (by omega)]
  have hvals : Nat.ofDigitChars 10 (paddedDigits 13 time.toInt.toNat).toList 0 <
      Nat.ofDigitChars 10 (paddedDigits 13 later.toInt.toNat).toList 0 := by
    rw [ofDigitChars_paddedDigits, ofDigitChars_paddedDigits]
    omega
  refine compareOfLessAndEq_eq_lt.mpr ?_
  change (makeId time salt).toList < (makeId later salt').toList
  rw [toList_makeId h.nonneg, toList_makeId hlater.nonneg]
  exact append_lt_append_of_ofDigitChars_lt hlen isDigit_of_mem_paddedDigits
    isDigit_of_mem_paddedDigits hvals _ _

theorem toInt_le_of_compare_makeId {time later : Int64} (h : Fits time) (hlater : Fits later)
    {salt salt' : String} (hlt : compare (makeId time salt) (makeId later salt') = .lt) :
    time.toInt ≤ later.toInt := by
  by_contra hnot
  have hgt := compare_makeId hlater h (Int.not_le.mp hnot) salt' salt
  exact compare_lt_asymm hlt hgt

theorem int64OfText_digits {digits : List Char} (hne : digits ≠ [])
    (hdig : ∀ c ∈ digits, c.isDigit = true) :
    int64OfText? digits = int64OfInt? (Nat.ofDigitChars 10 digits 0) := by
  have hvalue : digitsValue? digits = some (Nat.ofDigitChars 10 digits 0) := by
    have hcheck : ¬ (digits.isEmpty || digits.any fun c => !c.isDigit) = true := by
      rw [Bool.or_eq_true, List.isEmpty_iff, any_eq_true, not_or]
      refine ⟨hne, ?_⟩
      rintro ⟨c, hc, hnot⟩
      rw [hdig c hc] at hnot
      exact nomatch hnot
    rw [digitsValue?, if_neg hcheck, Nat.ofDigitChars_eq_foldl]
  -- A digit is no sign, so the last case of the match is taken.
  unfold int64OfText?
  split
  · exact nomatch hdig '-' mem_cons_self
  · exact nomatch hdig '+' mem_cons_self
  · rw [hvalue, Option.bind_some]

/-- The time of an id can be read off it, whether it fits or not. -/
theorem idTime_makeId {time : Int64} (h : 0 ≤ time.toInt) (salt : String) :
    idTime? (makeId time salt) = some time := by
  have hne : (paddedDigits 13 time.toInt.toNat).toList ≠ [] := by
    rw [toList_paddedDigits]
    exact append_ne_nil_of_right_ne_nil _ Nat.toDigits_ne_nil
  have hfront : (makeId time salt).toList.takeWhile (· ≠ '-') =
      (paddedDigits 13 time.toInt.toNat).toList := by
    have hdig : ∀ c ∈ (paddedDigits 13 time.toInt.toNat).toList, decide (c ≠ '-') = true := by
      intro c hc
      rw [decide_eq_true_eq]
      rintro rfl
      exact nomatch isDigit_of_mem_paddedDigits '-' hc
    rw [toList_makeId h, takeWhile_append_of_pos hdig, takeWhile_cons_of_neg, append_nil]
    decide
  have hvalue := ofDigitChars_paddedDigits 13 time.toInt.toNat
  rw [idTime?, hfront, int64OfText_digits hne isDigit_of_mem_paddedDigits, hvalue,
    Int.toNat_of_nonneg h, int64OfInt_toInt]

end Snapshot

end Ripple
