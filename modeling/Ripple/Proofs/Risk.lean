import Mathlib.Data.List.Basic
import Ripple.Report.Compare

/-!
# Scores as Exact Numbers

All scores that a comparison gives are whole points or seven tenths of some
points. Counted in tenths of a point they are whole numbers, and comparing
scores is comparing these numbers. Only a score that was read from elsewhere
is a decimal, and nothing is said about those here.

The largest of some exact scores then reaches a threshold iff one of them
does, so that the level of a report can be found from its details one by one.

## Theorems

* `Score.below_eq_true_iff`, `Score.reaches_eq_true_iff`: Comparing scores is comparing tenths.
* `RiskLevel.ofScore_eq_breaking_iff`: When a score is breaking.
-/

namespace Ripple

namespace Score

/-- A score that is no decimal. -/
def IsExact : Score → Prop
  | points _ => True
  | discounted _ => True
  | measured _ => False

/-- An exact score in tenths of a point. -/
def tenths : Score → Nat
  | points n => 10 * n
  | discounted n => 7 * n
  | measured _ => 0

variable {a b s : Score}

theorem below_eq_true_iff (ha : a.IsExact) (hb : b.IsExact) :
    a.below b = true ↔ a.tenths < b.tenths := by
  cases a <;> cases b <;> simp_all [below, tenths, IsExact]

theorem reaches_eq_true_iff (h : s.IsExact) (threshold : Nat) :
    s.reaches threshold = true ↔ 10 * threshold ≤ s.tenths := by
  cases s with
  | points n =>
    rw [reaches, tenths, decide_eq_true_eq]
    omega
  | discounted n => rw [reaches, tenths, decide_eq_true_eq]
  | measured x => exact absurd h id

theorem isExact_max (ha : a.IsExact) (hb : b.IsExact) : (a.max b).IsExact := by
  unfold Score.max
  split
  · exact hb
  · exact ha

theorem le_tenths_max_iff (ha : a.IsExact) (hb : b.IsExact) (n : Nat) :
    n ≤ (a.max b).tenths ↔ n ≤ a.tenths ∨ n ≤ b.tenths := by
  have hbelow := below_eq_true_iff ha hb
  unfold Score.max
  by_cases hlt : a.tenths < b.tenths
  · rw [if_pos (hbelow.mpr hlt)]
    omega
  · rw [if_neg fun h => hlt (hbelow.mp h)]
    omega

/-- Taking the larger score again and again gives an exact score, which has as many tenths as some
    number iff the first score has or one of the others. -/
theorem foldl_max (scores : List Score) (h : ∀ s ∈ scores, s.IsExact) (hs : s.IsExact) :
    (scores.foldl Score.max s).IsExact ∧ ∀ n, n ≤ (scores.foldl Score.max s).tenths ↔
      n ≤ s.tenths ∨ ∃ other ∈ scores, n ≤ other.tenths := by
  induction scores generalizing s with
  | nil => exact ⟨hs, fun n => by simp⟩
  | cons first rest ih =>
    obtain ⟨hfst, hrest⟩ := List.forall_mem_cons.mp h
    obtain ⟨hexact, htenths⟩ := ih hrest (isExact_max hs hfst)
    refine ⟨hexact, fun n => ?_⟩
    rw [List.foldl_cons, htenths, le_tenths_max_iff hs hfst, List.exists_mem_cons_iff, or_assoc]

theorem isExact_zero : zero.IsExact := trivial

theorem isExact_largest {scores : List Score} (h : ∀ s ∈ scores, s.IsExact) :
    (largest scores).IsExact :=
  (foldl_max scores h isExact_zero).1

/-- The largest of some exact scores reaches a threshold iff one of them does. -/
theorem reaches_largest_iff {scores : List Score} (h : ∀ s ∈ scores, s.IsExact) {threshold : Nat}
    (hpos : 0 < threshold) : (largest scores).reaches threshold = true ↔
      ∃ s ∈ scores, s.reaches threshold = true := by
  have hzero : ¬ 10 * threshold ≤ zero.tenths := by
    simp only [zero, tenths]
    omega
  rw [reaches_eq_true_iff (isExact_largest h), largest, (foldl_max scores h isExact_zero).2]
  rw [or_iff_right hzero]
  exact exists_congr fun s => and_congr_right fun hs => (reaches_eq_true_iff (h s hs) _).symm

/-- The largest of some exact scores is below the largest of some others iff one of the others is
    above zero and above them all. -/
theorem below_largest_iff {xs ys : List Score} (hx : ∀ s ∈ xs, s.IsExact)
    (hy : ∀ s ∈ ys, s.IsExact) : (largest xs).below (largest ys) = true ↔
      ∃ y ∈ ys, 0 < y.tenths ∧ ∀ x ∈ xs, x.tenths < y.tenths := by
  have hxs := (foldl_max xs hx isExact_zero).2
  have hys := (foldl_max ys hy isExact_zero).2
  rw [below_eq_true_iff (isExact_largest hx) (isExact_largest hy), largest]
  constructor
  · intro hlt
    -- The largest of the others is one of them, since it is above zero.
    obtain hzero | ⟨y, hmem, hle⟩ := (hys _).mp (Nat.le_refl _)
    · exact absurd (Nat.lt_of_lt_of_le hlt hzero) (Nat.not_lt_zero _)
    · refine ⟨y, hmem, Nat.lt_of_lt_of_le (Nat.zero_lt_of_lt hlt) hle, fun x hxmem => ?_⟩
      exact Nat.lt_of_le_of_lt ((hxs _).mpr (.inr ⟨x, hxmem, Nat.le_refl _⟩))
        (Nat.lt_of_lt_of_le hlt hle)
  · rintro ⟨y, hmem, hpos, habove⟩
    refine Nat.lt_of_lt_of_le (Nat.not_le.mp fun hle => ?_)
      ((hys _).mpr (.inr ⟨y, hmem, Nat.le_refl _⟩))
    rcases (hxs _).mp hle with hzero | ⟨x, hxmem, hge⟩
    · exact absurd (Nat.lt_of_lt_of_le hpos hzero) (Nat.not_lt_zero _)
    · exact absurd (habove x hxmem) (Nat.not_lt.mpr hge)

theorem isExact_adjusted (n : Nat) (isPublic : Bool) : ((points n).adjusted isPublic).IsExact := by
  cases isPublic <;> trivial

/-- Points that are not public are not breaking, as long as they are at most a hundred. -/
theorem reaches_adjusted_iff {n : Nat} (h : n ≤ 100) (isPublic : Bool) :
    ((points n).adjusted isPublic).reaches RiskLevel.breakingThreshold = true ↔
      isPublic = true ∧ RiskLevel.breakingThreshold ≤ n := by
  rw [reaches_eq_true_iff (isExact_adjusted n isPublic)]
  cases isPublic with
  | true =>
    rw [eq_self_iff_true, true_and]
    exact Nat.mul_le_mul_left_iff (by decide)
  | false =>
    have hless : ¬ 10 * 80 ≤ 7 * n := by omega
    exact iff_of_false hless fun hpublic => Bool.false_ne_true hpublic.1

end Score

theorem RiskLevel.ofScore_eq_breaking_iff {s : Score} :
    RiskLevel.ofScore s = .breaking ↔ s.reaches breakingThreshold = true := by
  unfold ofScore
  split
  · next h => simp [h]
  · next h =>
    split
    · simp [h]
    · simp [h]

theorem RiskLevel.ofScore_eq_risky_iff {s : Score} : RiskLevel.ofScore s = .risky ↔
    ¬ s.reaches breakingThreshold = true ∧ s.reaches riskyThreshold = true := by
  unfold ofScore
  split
  · next h => simp [h]
  · next h => split <;> simp_all

theorem RiskLevel.ofScore_eq_safe_iff {s : Score} : RiskLevel.ofScore s = .safe ↔
    ¬ s.reaches breakingThreshold = true ∧ ¬ s.reaches riskyThreshold = true := by
  unfold ofScore
  split
  · next h => simp [h]
  · next h => split <;> simp_all

end Ripple
