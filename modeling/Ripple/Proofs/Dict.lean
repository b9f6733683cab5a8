import Ripple.Dict
import Mathlib.Data.List.Sort

/-!
# Finite Maps by Their Lookups

A `Dict` is the ordered list of its entries, and its operations are written
on that list. Nothing that uses a map should have to know this. What a map
says is what `get?` answers for each key, and this module gives the answer
for every operation, so that a proof about a program never opens an entry
list again.

`ext_get` is what makes this enough. The entries are in strictly ascending
key order, so a map is determined by its answers: two maps that answer alike
are the same value. Comparing two maps is then comparing one key at a time.

The order of the keys is the other half of what a map shows, since listings
come out in it. `keys` is strictly ascending by construction, and
`Increasing.eq_of_mem_iff` says that a strictly ascending list is determined by its
members, which is how a listing is identified without following the loop that
made it.

## Theorems

* `Increasing.lt_last`: The last member of an increasing list comes after all others.
* `Increasing.eq_of_mem_iff`: An increasing list is determined by its members.
* `mem_toList_iff`: The entries are the answers.
* `ext_get`: A map is determined by its answers.
* `get_erase`, `get_filter`, `get_map`, `get_filterMap`: What the operations
  answer.
* `mem_sortedSet`, `increasing_sortedSet`: The members of a sorted set, and
  their order.
-/

universe u v w

namespace Ripple

open List

/-- A list in strictly ascending order. -/
def Increasing {κ : Type u} [Ord κ] (items : List κ) : Prop :=
  items.Pairwise fun a b => compare a b = .lt

section Order

variable {κ : Type u} [Ord κ]

theorem Increasing.lt_last {front : List κ} {last a : κ} (h : Increasing (front ++ [last]))
    (ha : a ∈ front) : compare a last = .lt :=
  (pairwise_append.mp h).2.2 a ha last mem_cons_self

theorem Increasing.eq_or_lt_last {front : List κ} {last a : κ} (h : Increasing (front ++ [last]))
    (ha : a ∈ front ++ [last]) : a = last ∨ compare a last = .lt := by
  rcases mem_append.mp ha with hfront | hlast
  · exact .inr (h.lt_last hfront)
  · exact .inl (mem_singleton.mp hlast)

variable [Std.LawfulEqOrd κ]

theorem compare_self_ne_lt (a : κ) : compare a a ≠ .lt := by
  rw [Std.ReflOrd.compare_self]
  simp

theorem Increasing.nodup {items : List κ} (h : Increasing items) : items.Nodup := by
  refine List.Pairwise.imp (fun {a b} hab => ?_) h
  intro heq
  rw [heq] at hab
  exact compare_self_ne_lt b hab

variable [Std.TransOrd κ]

theorem compare_lt_asymm {a b : κ} (hab : compare a b = .lt) : compare b a ≠ .lt :=
  fun hba => compare_self_ne_lt a (Std.TransCmp.lt_trans hab hba)

/-- A list whose keys are in strictly ascending order is determined by its members. -/
theorem eq_of_pairwise_compare {α : Type v} (keyOf : α → κ) {xs ys : List α}
    (hx : xs.Pairwise fun a b => compare (keyOf a) (keyOf b) = .lt)
    (hy : ys.Pairwise fun a b => compare (keyOf a) (keyOf b) = .lt)
    (h : ∀ a, a ∈ xs ↔ a ∈ ys) : xs = ys := by
  have : Std.Irrefl fun a b : α => compare (keyOf a) (keyOf b) = .lt :=
    ⟨fun a => compare_self_ne_lt (keyOf a)⟩
  have : Std.Antisymm fun a b : α => compare (keyOf a) (keyOf b) = .lt :=
    ⟨fun a b hab hba => absurd hba (compare_lt_asymm hab)⟩
  exact List.Pairwise.eq_of_mem_iff hx hy h

theorem Increasing.eq_of_mem_iff {xs ys : List κ} (hx : Increasing xs) (hy : Increasing ys)
    (h : ∀ a, a ∈ xs ↔ a ∈ ys) : xs = ys :=
  eq_of_pairwise_compare (fun a => a) hx hy h

theorem Increasing.eq_concat {items : List κ} (h : Increasing items) {last : κ}
    (hmem : last ∈ items) (hmax : ∀ a ∈ items, a = last ∨ compare a last = .lt) :
    ∃ front, items = front ++ [last] := by
  obtain ⟨front, back, rfl⟩ := append_of_mem hmem
  obtain ⟨-, hback, -⟩ := pairwise_append.mp h
  cases back with
  | nil => exact ⟨front, rfl⟩
  | cons a back =>
    have hafter : compare last a = .lt := (pairwise_cons.mp hback).1 a mem_cons_self
    have ha : a ∈ front ++ last :: a :: back := mem_append_right _ (mem_cons_of_mem _ mem_cons_self)
    rcases hmax a ha with heq | hlt
    · rw [heq] at hafter
      exact absurd hafter (compare_self_ne_lt last)
    · exact absurd hlt (compare_lt_asymm hafter)

end Order

namespace Dict

section Answers

variable {κ : Type u} {α : Type v} {β : Type w} [Ord κ]

theorem get_empty (key : κ) : (empty : Dict κ α).get? key = none := rfl

theorem increasing_keys (d : Dict κ α) : Increasing d.keys := by
  unfold Increasing keys
  rw [pairwise_map]
  exact d.ascending

@[simp] theorem keys_map (d : Dict κ α) (f : κ → α → β) : (d.map f).keys = d.keys := by
  simp only [keys, map, map_map, Function.comp_def]

theorem size_eq_zero_iff (d : Dict κ α) : d.size = 0 ↔ ∀ key, key ∉ d.keys := by
  unfold size keys
  rw [length_eq_zero_iff, ← map_eq_nil_iff, eq_nil_iff_forall_not_mem]

variable [Std.LawfulEqOrd κ]

variable {key : κ} {value : α} {entries : List (κ × α)} {d : Dict κ α}

/-- In ascending entries no key repeats, so each entry is the answer to its
    key. -/
theorem lookup_of_mem (hasc : Ascending entries) (h : (key, value) ∈ entries) :
    lookup key entries = some value := by
  induction entries with
  | nil => exact absurd h not_mem_nil
  | cons entry rest ih =>
    have hrest := pairwise_cons.mp hasc
    unfold lookup
    rcases mem_cons.mp h with heq | hmem
    · rw [← heq, if_pos Std.ReflOrd.compare_self]
    · have hne : ¬ compare key entry.1 = .eq := by
        intro hc
        have hlt : compare entry.1 key = .lt := hrest.1 _ hmem
        rw [Std.LawfulEqOrd.eq_of_compare hc] at hlt
        exact compare_self_ne_lt _ hlt
      rw [if_neg hne]
      exact ih hrest.2 hmem

theorem mem_toList_iff : (key, value) ∈ d.toList ↔ d.get? key = some value :=
  ⟨lookup_of_mem d.ascending, mem_of_lookup⟩

theorem mem_keys_iff : key ∈ d.keys ↔ (d.get? key).isSome := by
  unfold keys
  rw [mem_map, Option.isSome_iff_exists]
  constructor
  · rintro ⟨⟨k, value⟩, hmem, rfl⟩
    exact ⟨value, mem_toList_iff.mp hmem⟩
  · rintro ⟨value, hget⟩
    exact ⟨(key, value), mem_toList_iff.mpr hget, rfl⟩

theorem mem_keys_of_get (h : d.get? key = some value) : key ∈ d.keys :=
  mem_keys_iff.mpr (Option.isSome_iff_exists.mpr ⟨value, h⟩)

theorem contains_eq_true_iff : d.contains key = true ↔ key ∈ d.keys := by
  rw [mem_keys_iff, contains]

theorem contains_eq_false_iff : d.contains key = false ↔ d.get? key = none := by
  rw [Bool.eq_false_iff, ne_eq, contains_eq_true_iff, mem_keys_iff, Option.not_isSome_iff_eq_none]

@[simp] theorem get_filter (d : Dict κ α) (keep : κ → α → Bool) (key : κ) :
    (d.filter keep).get? key = (d.get? key).filter (keep key) := by
  refine Option.ext (fun value => ?_)
  rw [← mem_toList_iff, Option.filter_eq_some_iff, ← mem_toList_iff]
  simp only [filter, mem_filter]

@[simp] theorem get_erase [DecidableEq κ] (d : Dict κ α) (key other : κ) :
    (d.erase key).get? other = if other = key then none else d.get? other := by
  rw [erase, get_filter]
  by_cases h : other = key
  · cases d.get? other <;> simp [h]
  · have hne : ¬ compare key other = .eq := fun hc => h (Std.LawfulEqOrd.eq_of_compare hc).symm
    cases d.get? other <;> simp [h, hne]

@[simp] theorem get_filterMap (d : Dict κ α) (f : κ → α → Option β) (key : κ) :
    (d.filterMap f).get? key = (d.get? key).bind (f key) := by
  refine Option.ext (fun value => ?_)
  rw [← mem_toList_iff, Option.bind_eq_some_iff]
  simp only [filterMap, mem_filterMap, Option.map_eq_some_iff, Prod.mk.injEq]
  constructor
  · rintro ⟨⟨k, a⟩, hmem, b, hb, rfl, rfl⟩
    exact ⟨a, mem_toList_iff.mp hmem, hb⟩
  · rintro ⟨a, hget, hb⟩
    exact ⟨(key, a), mem_toList_iff.mpr hget, value, hb, rfl, rfl⟩

@[simp] theorem get_map (d : Dict κ α) (f : κ → α → β) (key : κ) :
    (d.map f).get? key = (d.get? key).map (f key) := by
  have hmap : d.map f = d.filterMap fun key value => some (f key value) :=
    Dict.ext (by simp [map, filterMap])
  rw [hmap, get_filterMap, Option.map_eq_bind]
  rfl

variable [Std.TransOrd κ]

theorem ext_get {a b : Dict κ α} (h : ∀ key, a.get? key = b.get? key) : a = b := by
  refine Dict.ext (eq_of_pairwise_compare Prod.fst a.ascending b.ascending (fun e => ?_))
  rw [mem_toList_iff, mem_toList_iff, h e.1]

variable [DecidableEq κ]

theorem erase_of_none (h : d.get? key = none) : d.erase key = d := by
  refine ext_get fun other => ?_
  rw [get_erase]
  split
  next heq => rw [heq, h]
  · rfl

theorem get_insert_eq_some {other : κ} {new : α} (h : (d.insert key value).get? other = some new) :
    other = key ∧ new = value ∨ d.get? other = some new := by
  rw [get_insert] at h
  split at h
  next hkey => exact .inl ⟨hkey, (Option.some.inj h).symm⟩
  · exact .inr h

/-- A run of insertions answers with the last value that it sets, or else as before. -/
theorem get_insertAll (d : Dict κ α) (entries : List (κ × α)) (key : κ) :
    (d.insertAll entries).get? key =
      ((entries.reverse.find? (·.1 = key)).map Prod.snd).or (d.get? key) := by
  induction entries generalizing d with
  | nil => rfl
  | cons entry rest ih =>
    have hins : (d.insert entry.1 entry.2).get? key =
        (([entry].find? (·.1 = key)).map Prod.snd).or (d.get? key) := by
      by_cases hkey : key = entry.1 <;> simp [hkey, eq_comm]
    rw [reverse_cons, find?_append, Option.map_or, Option.or_assoc, ← hins]
    exact ih (d.insert entry.1 entry.2)

theorem get_insertAll_of_not_mem (h : ∀ value, (key, value) ∉ entries) :
    (d.insertAll entries).get? key = d.get? key := by
  have hnone : entries.reverse.find? (·.1 = key) = none := by
    refine List.find?_eq_none.mpr fun entry hentry hkey => ?_
    rw [← of_decide_eq_true hkey] at h
    exact h entry.2 (mem_reverse.mp hentry)
  rw [get_insertAll, hnone]
  rfl

theorem mem_of_get_insertAll (h : (d.insertAll entries).get? key = some value) :
    (key, value) ∈ entries ∨ d.get? key = some value := by
  rw [get_insertAll, Option.or_eq_some_iff, Option.map_eq_some_iff] at h
  rcases h with ⟨entry, hfind, rfl⟩ | ⟨-, hget⟩
  · have hkey : entry.1 = key := by simpa using find?_some hfind
    exact Or.inl (hkey ▸ mem_reverse.mp (mem_of_find?_eq_some hfind))
  · exact Or.inr hget

theorem isSome_get_insertAll : ((d.insertAll entries).get? key).isSome ↔
      key ∈ entries.map Prod.fst ∨ (d.get? key).isSome := by
  rw [get_insertAll, Option.isSome_or, Option.isSome_map, Bool.or_eq_true]
  simp [mem_map]

/-- A run of insertions that gives a key no second value answers with the
    value it sets. -/
theorem get_insertAll_of_mem (hmem : (key, value) ∈ entries)
    (huniq : ∀ other, (key, other) ∈ entries → other = value) :
    (d.insertAll entries).get? key = some value := by
  obtain ⟨found, hfound⟩ := Option.isSome_iff_exists.mp
    (isSome_get_insertAll (d := empty) |>.mpr (.inl (mem_map_of_mem hmem)))
  have hset := huniq found ((mem_of_get_insertAll hfound).resolve_right nofun)
  rw [get_insertAll, get_empty, Option.or_none] at hfound
  rw [get_insertAll, hfound, Option.some_or, hset]

/-- Two runs of insertions under the same keys answer with values that
    correspond. -/
theorem get_insertAll_map (items : List α) (keyOf : α → κ) (f : α → β)
    {e : Dict κ β} (h : ∀ value, d.get? key = some value → e.get? key = some (f value))
    (hget : (d.insertAll (items.map fun item => (keyOf item, item))).get? key = some value) :
    (e.insertAll (items.map fun item => (keyOf item, f item))).get? key = some (f value) := by
  induction items generalizing d e with
  | nil => exact h value hget
  | cons item rest ih =>
    refine ih (d := d.insert (keyOf item) item) (e := e.insert (keyOf item) (f item)) ?_ hget
    intro other hother
    rw [get_insert] at hother ⊢
    split at hother
    next hkey => rw [if_pos hkey, Option.some.inj hother]
    next hkey => rw [if_neg hkey, h other hother]

theorem mem_keys_ofList :
    key ∈ (ofList entries).keys ↔ key ∈ entries.map Prod.fst := by
  rw [mem_keys_iff, ofList, isSome_get_insertAll]
  exact or_iff_left Bool.false_ne_true

/-- A map that is listed by a function answers with the function on what is
    listed. -/
theorem get_ofList_tabulate (items : List κ) (f : κ → α) (key : κ) :
    (ofList (items.map fun item => (item, f item))).get? key
      = if key ∈ items then some (f key) else none := by
  by_cases h : key ∈ items
  · rw [if_pos h]
    refine get_insertAll_of_mem (mem_map.mpr ⟨key, h, rfl⟩) (fun other hother => ?_)
    rcases mem_map.mp hother with ⟨item, _, heq⟩
    rw [Prod.mk.injEq] at heq
    rw [← heq.2, heq.1]
  · rw [if_neg h]
    refine get_insertAll_of_not_mem (fun value hmem => ?_)
    rcases mem_map.mp hmem with ⟨item, hitem, heq⟩
    rw [Prod.mk.injEq] at heq
    exact h (heq.1 ▸ hitem)

theorem get_insertAll_toList (d e : Dict κ α) (key : κ) :
    (d.insertAll e.toList).get? key = (e.get? key).or (d.get? key) := by
  cases hget : e.get? key with
  | none =>
    refine get_insertAll_of_not_mem (fun value hmem => ?_)
    rw [mem_toList_iff, hget] at hmem
    exact absurd hmem (by simp)
  | some value =>
    refine get_insertAll_of_mem (mem_toList_iff.mpr hget) (fun other hother => ?_)
    rw [mem_toList_iff, hget, Option.some.injEq] at hother
    exact hother.symm

theorem ofList_toList (d : Dict κ α) : ofList d.toList = d := by
  refine ext_get (fun key => ?_)
  rw [show ofList d.toList = insertAll empty d.toList from rfl, get_insertAll_toList, get_empty,
    Option.or_none]

end Answers

end Dict

section SortedSet

variable {κ : Type u} [Ord κ] [Std.TransOrd κ] [Std.LawfulEqOrd κ]

@[simp] theorem mem_sortedSet [DecidableEq κ] {items : List κ} {item : κ} :
    item ∈ sortedSet items ↔ item ∈ items := by
  unfold sortedSet
  rw [Dict.mem_keys_iff, Dict.get_ofList_tabulate]
  by_cases h : item ∈ items <;> simp [h]

theorem increasing_sortedSet (items : List κ) : Increasing (sortedSet items) :=
  Dict.increasing_keys _

/-- Lists have one sorted set iff they have the same members. -/
theorem sortedSet_eq_iff [DecidableEq κ] {xs ys : List κ} :
    sortedSet xs = sortedSet ys ↔ ∀ a, a ∈ xs ↔ a ∈ ys := by
  constructor
  · intro h a
    rw [← mem_sortedSet, h, mem_sortedSet]
  · intro h
    refine (increasing_sortedSet xs).eq_of_mem_iff (increasing_sortedSet ys) fun a => ?_
    rw [mem_sortedSet, mem_sortedSet, h]

end SortedSet

end Ripple
