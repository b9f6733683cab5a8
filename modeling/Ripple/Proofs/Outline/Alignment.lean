import Mathlib.Data.List.Basic
import Ripple.Outline.Drift

/-!
# Best Alignments

The distance of two sequences is the least number of single changes that lead
from one to the other, where a change inserts, deletes or substitutes one item
anywhere. A table of costs does not know about changes. It is filled by a
recurrence over beginnings of the sequences, and its last cell is the distance
for two reasons. Steps that go through both sequences from left to right are
changes one after the other; and changes in whatever order can be put together
to steps of this kind, without more of them. Among steps the recurrence is the
best one can do, since the last step of a sequence of steps is one of the three
that it looks at.

Reading the table backwards, a cell always comes from one of its neighbours.
Along the border it is the only one there is, and elsewhere it is the one that
made the least, so reading never ends before both sequences do. The steps that
are read off cost what the cell says.

## Theorems

* `leastCost_le_of_leads`: No steps are better than the recurrence.
* `Leads.changes`, `exists_leads_of_changes`: Steps are changes, and changes give steps.
* `isDistance_leastCost`: The recurrence gives the distance.
-/

namespace Ripple

open List

variable {α β : Type}

section Changes

/-- One item is inserted, deleted or substituted. -/
inductive Changed : List α → List α → Prop
  | insert (front back : List α) (b : α) : Changed (front ++ back) (front ++ b :: back)
  | delete (front back : List α) (a : α) : Changed (front ++ a :: back) (front ++ back)
  | substitute (front back : List α) (a b : α) :
      Changed (front ++ a :: back) (front ++ b :: back)

/-- A number of changes, one after the other. -/
inductive Changes : Nat → List α → List α → Prop
  | none (items : List α) : Changes 0 items items
  | more {n : Nat} {first second last : List α} (change : Changed first second)
      (rest : Changes n second last) : Changes (n + 1) first last

/-- The least number of changes between two sequences. -/
structure IsDistance (distance : Nat) (old new : List α) : Prop where
  /-- So many changes lead from one to the other. -/
  reached : Changes distance old new
  /-- Fewer do not. -/
  least : ∀ n, Changes n old new → distance ≤ n

theorem Changed.cons {first second : List α} (h : Changed first second) (c : α) :
    Changed (c :: first) (c :: second) := by
  cases h with
  | insert front back b => exact .insert (c :: front) back b
  | delete front back a => exact .delete (c :: front) back a
  | substitute front back a b => exact .substitute (c :: front) back a b

theorem Changes.cons {n : Nat} {first last : List α} (h : Changes n first last) (c : α) :
    Changes n (c :: first) (c :: last) := by
  induction h with
  | none items => exact .none (c :: items)
  | more change _ ih => exact .more (change.cons c) ih

theorem Changes.trans {m n : Nat} {first second third : List α} (h : Changes m first second)
    (h' : Changes n second third) : Changes (m + n) first third := by
  induction h with
  | none items =>
    rw [Nat.zero_add]
    exact h'
  | @more m _ _ _ change _ ih =>
    rw [show m + 1 + n = m + n + 1 by omega]
    exact .more change (ih h')

theorem changes_to_sublist {part whole : List α} (h : part.Sublist whole) :
    Changes (whole.length - part.length) whole part := by
  induction h with
  | slnil => exact .none []
  | @cons part whole a h ih =>
    have hlen := h.length_le
    rw [length_cons, show whole.length + 1 - part.length = whole.length - part.length + 1 by omega]
    exact .more (.delete [] whole a) ih
  | @cons_cons part whole a _ ih =>
    rw [length_cons, length_cons, Nat.add_sub_add_right]
    exact ih.cons a

theorem changes_of_sublist {part whole : List α} (h : part.Sublist whole) :
    Changes (whole.length - part.length) part whole := by
  induction h with
  | slnil => exact .none []
  | @cons part whole a h ih =>
    have hlen := h.length_le
    rw [length_cons, show whole.length + 1 - part.length = whole.length - part.length + 1 by omega]
    exact .more (.insert [] part a) (ih.cons a)
  | @cons_cons part whole a _ ih =>
    rw [length_cons, length_cons, Nat.add_sub_add_right]
    exact ih.cons a

end Changes

section Interleaving

/-- Two sequences run through each other in a third one. -/
inductive Interleaved : List α → List α → List α → Prop
  | nil : Interleaved [] [] []
  | left {xs ys zs : List α} (x : α) (h : Interleaved xs ys zs) : Interleaved (x :: xs) ys (x :: zs)
  | right {xs ys zs : List α} (y : α) (h : Interleaved xs ys zs) :
      Interleaved xs (y :: ys) (y :: zs)

theorem Interleaved.length_eq {xs ys zs : List α} (h : Interleaved xs ys zs) :
    zs.length = xs.length + ys.length := by
  induction h with
  | nil => rfl
  | left x _ ih => simp only [length_cons, ih]; omega
  | right y _ ih => simp only [length_cons, ih]; omega

theorem Interleaved.sublist {xs ys zs : List α} (h : Interleaved xs ys zs) : xs.Sublist zs := by
  induction h with
  | nil => exact .slnil
  | left x _ ih => exact .cons_cons x ih
  | right y _ ih => exact .cons y ih

theorem Interleaved.map (f : α → β) {xs ys zs : List α} (h : Interleaved xs ys zs) :
    Interleaved (xs.map f) (ys.map f) (zs.map f) := by
  induction h with
  | nil => exact .nil
  | left x _ ih => exact .left (f x) ih
  | right y _ ih => exact .right (f y) ih

/-- What is taken from each item by one of two rules runs through what is taken by the other. -/
theorem interleaved_filterMap {γ : Type} {first second either : γ → Option α}
    (h : ∀ c, either c = first c ∧ second c = none ∨ either c = second c ∧ first c = none)
    (items : List γ) :
    Interleaved (items.filterMap first) (items.filterMap second) (items.filterMap either) := by
  induction items with
  | nil => exact .nil
  | cons c rest ih =>
    rcases h c with ⟨hc, hnone⟩ | ⟨hc, hnone⟩
    · rw [filterMap_cons_none hnone, filterMap_cons, filterMap_cons, hc]
      cases first c with
      | none => exact ih
      | some x => exact .left x ih
    · rw [filterMap_cons_none hnone, filterMap_cons, filterMap_cons, hc]
      cases second c with
      | none => exact ih
      | some y => exact .right y ih

end Interleaving

namespace Edit

/-- The item of the old sequence that a step goes past. -/
def old? : Edit α → Option α
  | keep a => some a
  | delete a => some a
  | insert _ => none
  | substitute a _ => some a

/-- The item of the new sequence that a step goes past. -/
def new? : Edit α → Option α
  | keep a => some a
  | delete _ => none
  | insert b => some b
  | substitute _ b => some b

/-- The item that a step keeps. -/
def kept? : Edit α → Option α
  | keep a => some a
  | _ => none

/-- The old item that a step does not keep. -/
def gone? : Edit α → Option α
  | delete a => some a
  | substitute a _ => some a
  | _ => none

/-- The new item that a step does not find. -/
def come? : Edit α → Option α
  | insert b => some b
  | substitute _ b => some b
  | _ => none

/-- Whether a step changes something. -/
def isChange : Edit α → Bool
  | keep _ => false
  | _ => true

end Edit

/-- Steps lead from one sequence to another. -/
structure Leads (edits : List (Edit α)) (old new : List α) : Prop where
  /-- They go past the items of the one. -/
  old_eq : edits.filterMap Edit.old? = old
  /-- They go past the items of the other. -/
  new_eq : edits.filterMap Edit.new? = new

section Steps

variable {edits : List (Edit α)} {old new : List α}

theorem Leads.reverse (h : Leads edits old new) : Leads edits.reverse old.reverse new.reverse where
  old_eq := by rw [filterMap_reverse, h.old_eq]
  new_eq := by rw [filterMap_reverse, h.new_eq]

theorem changes_of_edits (edits : List (Edit α)) : Changes (edits.countP Edit.isChange)
    (edits.filterMap Edit.old?) (edits.filterMap Edit.new?) := by
  induction edits with
  | nil => exact .none []
  | cons e rest ih =>
    cases e with
    | keep a => exact ih.cons a
    | delete a =>
      rw [countP_cons_of_pos rfl]
      exact .more (.delete [] _ a) ih
    | insert b =>
      rw [countP_cons_of_pos rfl]
      exact .more (.insert [] _ b) (ih.cons b)
    | substitute a b =>
      rw [countP_cons_of_pos rfl]
      exact .more (.substitute [] _ a b) (ih.cons b)

theorem Leads.changes (h : Leads edits old new) : Changes (edits.countP Edit.isChange) old new := by
  rw [← h.old_eq, ← h.new_eq]
  exact changes_of_edits edits

theorem Leads.split_at {front back : List α} {b : α} (h : Leads edits (front ++ b :: back) new) :
    ∃ before e after, edits = before ++ [e] ++ after ∧ before.filterMap Edit.old? = front ∧
      e.old? = some b ∧ after.filterMap Edit.old? = back := by
  rcases List.filterMap_eq_append_iff.mp h.old_eq with ⟨before, rest, rfl, hpre, hrest⟩
  rcases List.filterMap_eq_cons_iff.mp hrest with ⟨between, e, after, rfl, hnone, he, hafter⟩
  refine ⟨before ++ between, e, after, by simp, ?_, he, hafter⟩
  rw [filterMap_append, hpre, List.filterMap_eq_nil_iff.mpr hnone, append_nil]

/-- Some of the steps are made in another way, for the same items of the new sequence. -/
theorem Leads.remake {before some after : List (Edit α)} {first : List α}
    (h : Leads (before ++ some ++ after) old new) (other : List (Edit α))
    (hold : before.filterMap Edit.old? ++ other.filterMap Edit.old? ++
      after.filterMap Edit.old? = first)
    (hnew : other.filterMap Edit.new? = some.filterMap Edit.new?)
    (hcount : other.countP Edit.isChange ≤ some.countP Edit.isChange + 1) :
    ∃ edits, Leads edits first new ∧
      edits.countP Edit.isChange ≤ (before ++ some ++ after).countP Edit.isChange + 1 := by
  refine ⟨before ++ other ++ after, ⟨?_, ?_⟩, ?_⟩
  · simp only [filterMap_append, hold]
  · rw [← h.new_eq]
    simp only [filterMap_append, hnew]
  · simp only [countP_append]
    omega

/-- Steps that begin after a change can begin before it, with one more of them at most. -/
theorem Leads.of_changed {first : List α} (h : Leads edits old new) (hchange : Changed first old) :
    ∃ edits', Leads edits' first new ∧
      edits'.countP Edit.isChange ≤ edits.countP Edit.isChange + 1 := by
  cases hchange with
  | delete front back a =>
    -- The item that goes is gone past at its place.
    rcases List.filterMap_eq_append_iff.mp h.old_eq with ⟨before, after, rfl, rfl, rfl⟩
    rw [← append_nil before] at h ⊢
    exact h.remake [.delete a] (by simp [Edit.old?]) rfl (Nat.le_refl 1)
  | insert front back b =>
    -- What was done with the item that comes is done with nothing.
    rcases h.split_at with ⟨before, e, after, rfl, rfl, he, rfl⟩
    cases e with
    | keep a =>
      exact h.remake [.insert a] (by simp [filterMap_cons, Edit.old?]) rfl (Nat.le_refl 1)
    | delete a => exact h.remake [] (by simp) rfl (Nat.zero_le _)
    | insert c => cases he
    | substitute a c =>
      exact h.remake [.insert c] (by simp [filterMap_cons, Edit.old?]) rfl (Nat.le_succ 1)
  | substitute front back a b =>
    -- What was done with the one item is done with the other.
    rcases h.split_at with ⟨before, e, after, rfl, rfl, he, rfl⟩
    have hold (e : Edit α) (he : e.old? = some a) : before.filterMap Edit.old? ++
        [e].filterMap Edit.old? ++ after.filterMap Edit.old? =
          before.filterMap Edit.old? ++ a :: after.filterMap Edit.old? := by
      rw [filterMap_cons_some he, filterMap_nil, append_assoc, singleton_append]
    cases e with
    | keep c => exact h.remake [.substitute a c] (hold _ rfl) rfl (Nat.le_refl 1)
    | delete c => exact h.remake [.delete a] (hold _ rfl) rfl (Nat.le_succ 1)
    | insert c => cases he
    | substitute c d => exact h.remake [.substitute a d] (hold _ rfl) rfl (Nat.le_succ 1)

theorem leads_keep (items : List α) : Leads (items.map Edit.keep) items items where
  old_eq := by simp [filterMap_map, Function.comp_def, Edit.old?]
  new_eq := by simp [filterMap_map, Function.comp_def, Edit.new?]

/-- Changes give steps, not more of them than there are changes. -/
theorem exists_leads_of_changes {n : Nat} (h : Changes n old new) :
    ∃ edits, Leads edits old new ∧ edits.countP Edit.isChange ≤ n := by
  induction h with
  | none items =>
    refine ⟨items.map Edit.keep, leads_keep items, ?_⟩
    rw [Nat.le_zero, countP_eq_zero]
    intro e he
    rcases mem_map.mp he with ⟨a, -, rfl⟩
    simp [Edit.isChange]
  | more change _ ih =>
    rcases ih with ⟨edits, hleads, hcount⟩
    rcases hleads.of_changed change with ⟨edits', hleads', hcount'⟩
    exact ⟨edits', hleads', by omega⟩

theorem Leads.interleaved_old (h : Leads edits old new) :
    Interleaved (edits.filterMap Edit.kept?) (edits.filterMap Edit.gone?) old := by
  rw [← h.old_eq]
  refine interleaved_filterMap (fun e => ?_) edits
  cases e <;> simp [Edit.old?, Edit.kept?, Edit.gone?]

theorem Leads.interleaved_new (h : Leads edits old new) :
    Interleaved (edits.filterMap Edit.kept?) (edits.filterMap Edit.come?) new := by
  rw [← h.new_eq]
  refine interleaved_filterMap (fun e => ?_) edits
  cases e <;> simp [Edit.new?, Edit.kept?, Edit.come?]

theorem interleaved_gone (edits : List (Edit α)) : Interleaved (edits.filterMap Edit.deleted?)
    ((edits.filterMap Edit.substituted?).map Prod.fst) (edits.filterMap Edit.gone?) := by
  rw [map_filterMap]
  refine interleaved_filterMap (fun e => ?_) edits
  cases e <;> simp [Edit.gone?, Edit.deleted?, Edit.substituted?]

theorem interleaved_come (edits : List (Edit α)) : Interleaved (edits.filterMap Edit.inserted?)
    ((edits.filterMap Edit.substituted?).map Prod.snd) (edits.filterMap Edit.come?) := by
  rw [map_filterMap]
  refine interleaved_filterMap (fun e => ?_) edits
  cases e <;> simp [Edit.come?, Edit.inserted?, Edit.substituted?]

theorem countP_isChange (edits : List (Edit α)) : edits.countP Edit.isChange =
    (edits.filterMap Edit.inserted?).length + (edits.filterMap Edit.deleted?).length +
      (edits.filterMap Edit.substituted?).length := by
  induction edits with
  | nil => rfl
  | cons e rest ih =>
    rw [countP_cons]
    cases e
    all_goals
      simp only [filterMap_cons, Edit.inserted?, Edit.deleted?, Edit.substituted?,
        Edit.isChange, length_cons, if_true, Bool.false_eq_true, if_false]
      omega

end Steps

section Bounds

variable [DecidableEq α] {distance : Nat} {old new : List α}

theorem length_kept_le {kept : List α} (hold : kept.Sublist old) (hnew : kept.Sublist new) :
    kept.length ≤ (old.filter (· ∈ new)).length := by
  have hkept : kept.filter (· ∈ new) = kept := by
    refine List.filter_eq_self.mpr fun a ha => ?_
    simpa using hnew.subset ha
  rw [← hkept]
  exact (hold.filter _).length_le

/-- What is in the old sequence only has to go, and what is in the new one only has to come. -/
theorem IsDistance.max_le (h : IsDistance distance old new) :
    max (new.filter (· ∉ old)).length (old.filter (· ∉ new)).length ≤ distance := by
  rcases exists_leads_of_changes h.reached with ⟨edits, hleads, hcount⟩
  rw [countP_isChange] at hcount
  have hold := hleads.interleaved_old
  have hnew := hleads.interleaved_new
  -- All items of a sequence are kept or not, and they are in the other one or not.
  have hgone := (interleaved_gone edits).length_eq
  have hcome := (interleaved_come edits).length_eq
  have hkept := length_kept_le hold.sublist hnew.sublist
  have hkept' := length_kept_le hnew.sublist hold.sublist
  have hsplit := length_eq_length_filter_add (l := old) (· ∈ new)
  have hsplit' := length_eq_length_filter_add (l := new) (· ∈ old)
  rw [hold.length_eq] at hsplit
  rw [hnew.length_eq] at hsplit'
  simp only [length_map, ← decide_not] at hgone hcome hsplit hsplit'
  omega

/-- It is enough to take away what is in the old sequence only and to put in what is in the new one
    only, if the rest is in the same order in both. -/
theorem IsDistance.le_add (h : IsDistance distance old new)
    (hcommon : old.filter (· ∈ new) = new.filter (· ∈ old)) :
    distance ≤ (new.filter (· ∉ old)).length + (old.filter (· ∉ new)).length := by
  have hdel := changes_to_sublist (filter_sublist (p := (· ∈ new)) (l := old))
  have hins := changes_of_sublist (filter_sublist (p := (· ∈ old)) (l := new))
  rw [← hcommon] at hins
  have hleast := h.least _ (hdel.trans hins)
  have hsplit := length_eq_length_filter_add (l := old) (· ∈ new)
  have hsplit' := length_eq_length_filter_add (l := new) (· ∈ old)
  rw [← hcommon] at hsplit'
  simp only [← decide_not] at hsplit hsplit'
  omega

end Bounds

section Cost

variable [DecidableEq α]

/-- The least cost of steps from some old to some new items, with the last item of each first. -/
def leastCost : List α → List α → Nat
  | [], new => new.length
  | a :: old, [] => old.length + 1
  | a :: old, b :: new =>
    cellCost a b (leastCost old new) (leastCost old (b :: new)) (leastCost (a :: old) new)
termination_by old new => old.length + new.length

theorem leastCost_nil_left (new : List α) : leastCost [] new = new.length := by
  rw [leastCost]

theorem leastCost_nil_right (old : List α) : leastCost old [] = old.length := by
  cases old with
  | nil => rw [leastCost]
  | cons a old => rw [leastCost, length_cons]

theorem leastCost_cons (a b : α) (old new : List α) : leastCost (a :: old) (b :: new) =
    cellCost a b (leastCost old new) (leastCost old (b :: new)) (leastCost (a :: old) new) := by
  rw [leastCost]

theorem leastCost_delete (a : α) (old new : List α) :
    leastCost (a :: old) new ≤ leastCost old new + 1 := by
  cases new with
  | nil => simp only [leastCost_nil_right, length_cons, Nat.le_refl]
  | cons b new =>
    rw [leastCost_cons, cellCost]
    omega

theorem leastCost_insert (b : α) (old new : List α) :
    leastCost old (b :: new) ≤ leastCost old new + 1 := by
  cases old with
  | nil => simp only [leastCost_nil_left, length_cons, Nat.le_refl]
  | cons a old =>
    rw [leastCost_cons, cellCost]
    omega

theorem leastCost_keep (a : α) (old new : List α) :
    leastCost (a :: old) (a :: new) ≤ leastCost old new := by
  rw [leastCost_cons, cellCost, if_pos rfl]
  omega

theorem leastCost_substitute (a b : α) (old new : List α) :
    leastCost (a :: old) (b :: new) ≤ leastCost old new + 1 := by
  rw [leastCost_cons, cellCost]
  split <;> omega

theorem leastCost_le_countP (edits : List (Edit α)) :
    leastCost (edits.filterMap Edit.old?) (edits.filterMap Edit.new?) ≤
      edits.countP Edit.isChange := by
  induction edits with
  | nil => simp [leastCost_nil_left]
  | cons e rest ih =>
    cases e with
    | keep a => exact Nat.le_trans (leastCost_keep a _ _) ih
    | delete a =>
      rw [countP_cons_of_pos rfl]
      exact Nat.le_trans (leastCost_delete a _ _) (Nat.succ_le_succ ih)
    | insert b =>
      rw [countP_cons_of_pos rfl]
      exact Nat.le_trans (leastCost_insert b _ _) (Nat.succ_le_succ ih)
    | substitute a b =>
      rw [countP_cons_of_pos rfl]
      exact Nat.le_trans (leastCost_substitute a b _ _) (Nat.succ_le_succ ih)

theorem leastCost_le_of_leads {edits : List (Edit α)} {old new : List α}
    (h : Leads edits old new) : leastCost old new ≤ edits.countP Edit.isChange := by
  rw [← h.old_eq, ← h.new_eq]
  exact leastCost_le_countP edits

/-- What items are called does not matter, as long as different items are called differently. -/
theorem leastCost_map [DecidableEq β] {f : α → β} (hf : Function.Injective f) (old new : List α) :
    leastCost (old.map f) (new.map f) = leastCost old new := by
  induction old generalizing new with
  | nil => simp only [map_nil, leastCost_nil_left, length_map]
  | cons a old ih =>
    induction new with
    | nil => simp only [map_nil, leastCost_nil_right, length_map]
    | cons b new ih' =>
      have hnew := ih (b :: new)
      simp only [map_cons] at hnew ih'
      simp only [map_cons, leastCost_cons, cellCost, ih, hnew, ih', hf.eq_iff]

end Cost

section Table

variable [DecidableEq α]

/-- The costs of some old items with each further beginning of new items. -/
def costsAfter (old done : List α) : List α → List Nat
  | [] => []
  | b :: new => leastCost old (b :: done) :: costsAfter old (b :: done) new

/-- The costs of some old items with each beginning of the new items. -/
def costRow (old new : List α) : List Nat := leastCost old [] :: costsAfter old [] new

theorem costsAfter_nil (done new : List α) :
    costsAfter [] done new = List.range' (done.length + 1) new.length := by
  induction new generalizing done with
  | nil => rfl
  | cons b new ih =>
    rw [costsAfter, ih, leastCost_nil_left, length_cons, length_cons, range'_succ]

theorem firstRow_eq (new : List α) : firstRow new = costRow [] new := by
  rw [firstRow, costRow, costsAfter_nil, leastCost_nil_left, range_eq_range']
  rfl

theorem extendRow_costsAfter (a : α) (old done new : List α) :
    extendRow a (leastCost old done) (leastCost (a :: old) done) (costsAfter old done new) new =
      costsAfter (a :: old) done new := by
  induction new generalizing done with
  | nil => rfl
  | cons b new ih => simp only [costsAfter, extendRow, ← leastCost_cons, ih]

theorem nextRow_costRow (a : α) (old new : List α) :
    nextRow new (costRow old new) a = costRow (a :: old) new := by
  have hfst : leastCost old [] + 1 = leastCost (a :: old) [] := by
    rw [leastCost_nil_right, leastCost_nil_right, length_cons]
  simp only [nextRow, costRow, hfst, extendRow_costsAfter]

theorem getElem_rowsFrom (new done old : List α) {i : Nat} (h : i ≤ old.length) :
    (rowsFrom new (costRow done new) old)[i]? =
      some (costRow ((old.take i).reverse ++ done) new) := by
  induction old generalizing done i with
  | nil =>
    rw [Nat.le_zero.mp h]
    rfl
  | cons a old ih =>
    cases i with
    | zero => rfl
    | succ i =>
      rw [rowsFrom, getElem?_cons_succ, nextRow_costRow, ih _ (Nat.le_of_succ_le_succ h)]
      simp

theorem getElem_costsAfter (old done new : List α) {j : Nat} (h : j < new.length) :
    (costsAfter old done new)[j]? = some (leastCost old ((new.take (j + 1)).reverse ++ done)) := by
  induction new generalizing done j with
  | nil => exact absurd h (Nat.not_lt_zero j)
  | cons b new ih =>
    cases j with
    | zero => rfl
    | succ j =>
      rw [costsAfter, getElem?_cons_succ, ih _ (Nat.lt_of_succ_lt_succ h)]
      simp

theorem getElem_costRow (old new : List α) {j : Nat} (h : j ≤ new.length) :
    (costRow old new)[j]? = some (leastCost old (new.take j).reverse) := by
  cases j with
  | zero => rfl
  | succ j => rw [costRow, getElem?_cons_succ, getElem_costsAfter _ _ _ h, append_nil]

/-- The cell of some old and some new items holds their least cost. -/
theorem costAt_costTable (old new : List α) {i j : Nat} (hi : i ≤ old.length)
    (hj : j ≤ new.length) :
    costAt (costTable old new) i j = leastCost (old.take i).reverse (new.take j).reverse := by
  rw [costAt, costTable, firstRow_eq, getElem_rowsFrom _ _ _ hi, append_nil, Option.getD_some,
    getElem_costRow _ _ hj, Option.getD_some]

omit [DecidableEq α] in
theorem reverse_take_of_suffix {items rest : List α} (h : rest <:+ items.reverse) :
    (items.take rest.length).reverse = rest := by
  have hpre : rest.reverse <+: items := by
    rw [← reverse_reverse items]
    exact List.reverse_prefix.mpr h
  rw [← length_reverse, ← List.prefix_iff_eq_take.mp hpre, reverse_reverse]

/-- Walking back through both sequences, the table holds the least cost of what is left. -/
theorem costAt_of_suffix {old new as bs : List α} (ha : as <:+ old.reverse)
    (hb : bs <:+ new.reverse) :
    costAt (costTable old new) as.length bs.length = leastCost as bs := by
  have hi := ha.length_le
  have hj := hb.length_le
  rw [length_reverse] at hi hj
  rw [costAt_costTable old new hi hj, reverse_take_of_suffix ha, reverse_take_of_suffix hb]

end Table

section Tracing

variable [DecidableEq α] {t : Trace α} {old new : List α} {a b : α}

/-- What is read off leads through both sequences at the least cost. -/
structure Retraces (t : Trace α) (old new : List α) : Prop where
  /-- Reading ends where no item is left. -/
  stop : t.stop = (0, 0)
  /-- The steps lead from one sequence to the other. -/
  leads : Leads t.edits old new
  /-- They cost the least. -/
  cost : t.edits.countP Edit.isChange = leastCost old new

/-- A step that leads to what is read off, at the cost that it adds. -/
theorem Retraces.after {e : Edit α} {old' new' : List α} (h : Retraces t old new)
    (hold : e.old?.toList ++ old = old') (hnew : e.new?.toList ++ new = new')
    (hcost : leastCost old' new' = leastCost old new + e.isChange.toNat) :
    Retraces (t.after e) old' new' where
  stop := h.stop
  leads := by
    rw [← hold, ← hnew, ← h.leads.old_eq, ← h.leads.new_eq]
    cases e <;> exact ⟨rfl, rfl⟩
  cost := by
    rw [hcost, ← h.cost, Trace.after, countP_cons]
    cases e <;> rfl

/-- If no other step can have led to a cell, then different items were substituted. -/
theorem leastCost_of_substitute
    (hkeep : ¬ (a = b ∧ leastCost (a :: old) (b :: new) = leastCost old new))
    (hdel : leastCost (a :: old) (b :: new) ≠ leastCost old (b :: new) + 1)
    (hins : leastCost (a :: old) (b :: new) ≠ leastCost (a :: old) new + 1) :
    leastCost (a :: old) (b :: new) = leastCost old new + 1 := by
  rw [leastCost_cons, cellCost] at hkeep hdel hins ⊢
  by_cases hab : a = b
  · rw [if_pos hab] at hkeep hdel hins ⊢
    exact absurd ⟨hab, by omega⟩ hkeep
  · rw [if_neg hab] at hdel hins ⊢
    omega

/-- A table holds the least costs of all that is left of two sequences on the way back. -/
def Tabulates (table : List (List Nat)) (old new : List α) : Prop :=
  ∀ as bs, as <:+ old → bs <:+ new → costAt table as.length bs.length = leastCost as bs

section

variable {table : List (List Nat)}

theorem Tabulates.cell (h : Tabulates table old new) :
    costAt table old.length new.length = leastCost old new :=
  h old new (suffix_refl _) (suffix_refl _)

theorem Tabulates.withoutOld (h : Tabulates table (a :: old) new) : Tabulates table old new :=
  fun as bs ha hb => h as bs (ha.trans (suffix_cons a old)) hb

theorem Tabulates.withoutNew (h : Tabulates table old (b :: new)) : Tabulates table old new :=
  fun as bs ha hb => h as bs ha (hb.trans (suffix_cons b new))

/-- Reading a table of least costs never ends early, and leads through both sequences. -/
theorem Tabulates.retraces (h : Tabulates table old new) :
    Retraces (traceBack table old new) old new := by
  fun_induction traceBack table old new with
  | case1 => exact ⟨rfl, ⟨rfl, rfl⟩, by rw [leastCost]; rfl⟩
  | case2 a old hcell ih =>
    refine (ih h.withoutOld).after rfl rfl ?_
    simp only [leastCost_nil_right, length_cons]
    rfl
  | case3 a old hcell =>
    -- Along the border the cost is the number of items, so it always falls by one.
    have hhere := h.cell
    have hpre := h.withoutOld.cell
    simp only [leastCost_nil_right, length_cons, length_nil] at hhere hpre
    omega
  | case4 b new hcell ih =>
    refine (ih h.withoutNew).after rfl rfl ?_
    simp only [leastCost_nil_left, length_cons]
    rfl
  | case5 b new hcell =>
    have hhere := h.cell
    have hpre := h.withoutNew.cell
    simp only [leastCost_nil_left, length_cons, length_nil] at hhere hpre
    omega
  | case6 a old b new cost hkeep ih =>
    have hhere : cost = leastCost (a :: old) (b :: new) := h.cell
    rw [hhere, h.withoutOld.withoutNew.cell, Bool.and_eq_true, decide_eq_true_eq,
      decide_eq_true_eq] at hkeep
    rcases hkeep with ⟨rfl, hcost⟩
    exact (ih h.withoutOld.withoutNew).after rfl rfl hcost
  | case7 a old b new cost _ hdel ih =>
    have hhere : cost = leastCost (a :: old) (b :: new) := h.cell
    have hpre : costAt table old.length (new.length + 1) = leastCost old (b :: new) :=
      h.withoutOld.cell
    rw [hhere, hpre] at hdel
    exact (ih h.withoutOld).after rfl rfl hdel
  | case8 a old b new cost _ _ hins ih =>
    have hhere : cost = leastCost (a :: old) (b :: new) := h.cell
    have hpre : costAt table (old.length + 1) new.length = leastCost (a :: old) new :=
      h.withoutNew.cell
    rw [hhere, hpre] at hins
    exact (ih h.withoutNew).after rfl rfl hins
  | case9 a old b new cost hkeep hdel hins ih =>
    have hhere : cost = leastCost (a :: old) (b :: new) := h.cell
    have hold : costAt table old.length (new.length + 1) = leastCost old (b :: new) :=
      h.withoutOld.cell
    have hnew : costAt table (old.length + 1) new.length = leastCost (a :: old) new :=
      h.withoutNew.cell
    rw [hhere, h.withoutOld.withoutNew.cell, Bool.and_eq_true, decide_eq_true_eq,
      decide_eq_true_eq] at hkeep
    rw [hhere, hold] at hdel
    rw [hhere, hnew] at hins
    exact (ih h.withoutOld.withoutNew).after rfl rfl
      (leastCost_of_substitute hkeep hdel hins)

end

theorem retraces_costTable (old new : List α) :
    Retraces (traceBack (costTable old new) old.reverse new.reverse) old.reverse new.reverse :=
  Tabulates.retraces fun _ _ ha hb => costAt_of_suffix ha hb

theorem costAt_costTable_last (old new : List α) :
    costAt (costTable old new) old.length new.length = leastCost old.reverse new.reverse := by
  rw [costAt_costTable old new (Nat.le_refl _) (Nat.le_refl _), take_length, take_length]

theorem isDistance_leastCost (old new : List α) :
    IsDistance (leastCost old.reverse new.reverse) old new where
  reached := by
    have hretraces := retraces_costTable old new
    have hleads := hretraces.leads.reverse
    rw [reverse_reverse, reverse_reverse] at hleads
    have hchanges := hleads.changes
    rwa [countP_reverse, hretraces.cost] at hchanges
  least n h := by
    rcases exists_leads_of_changes h with ⟨edits, hleads, hcount⟩
    have hleast := leastCost_le_of_leads hleads.reverse
    rw [countP_reverse] at hleast
    exact Nat.le_trans hleast hcount

end Tracing

end Ripple
