/-!
# Finite Maps with Ordered Keys

The library answers in key order everywhere: reports, graphs and stored
records all list their entries by ascending key. A `Dict` is therefore the
ordered list of its entries, with the order as part of the type. Two
dictionaries with the same entries are then the same value, which is what
comparing two snapshots for equality means.

Text keys are ordered by code point, which is also the order of their UTF-8
bytes.

## Theorems

* `Dict.mem_insertEntry`: What an insertion leaves in the list.
* `Dict.ascending_insertEntry`: Insertion keeps the order.
* `Dict.get_insert`: What a map answers after an insertion.
* `total_lt_total`: A sum falls with one of its terms.
-/

universe u v w

namespace Ripple

/-- Entries come in strictly ascending key order. -/
def Ascending {κ : Type u} {α : Type v} [Ord κ] (entries : List (κ × α)) : Prop :=
  entries.Pairwise fun a b => compare a.1 b.1 = .lt

/-- A finite map, kept as its entries in strictly ascending key order. -/
structure Dict (κ : Type u) (α : Type v) [Ord κ] where
  toList : List (κ × α)
  /-- No key repeats and none is out of place. -/
  ascending : Ascending toList

namespace Dict

variable {κ : Type u} {α : Type v} {β : Type w} [Ord κ]

/-- Puts an entry in its place, over an entry with the same key. -/
def insertEntry (key : κ) (value : α) : List (κ × α) → List (κ × α)
  | [] => [(key, value)]
  | entry :: rest =>
    match compare key entry.1 with
    | .lt => (key, value) :: entry :: rest
    | .eq => (key, value) :: rest
    | .gt => entry :: insertEntry key value rest

/-- An inserted list holds the new entry and otherwise only old ones. -/
theorem mem_insertEntry {key : κ} {value : α} {entries : List (κ × α)} {entry : κ × α}
    (h : entry ∈ insertEntry key value entries) : entry = (key, value) ∨ entry ∈ entries := by
  induction entries with
  | nil => exact Or.inl (by simpa [insertEntry] using h)
  | cons head rest ih =>
    unfold insertEntry at h
    split at h
    · rcases List.mem_cons.mp h with h | h
      · exact Or.inl h
      · exact Or.inr h
    · rcases List.mem_cons.mp h with h | h
      · exact Or.inl h
      · exact Or.inr (List.mem_cons_of_mem _ h)
    · rcases List.mem_cons.mp h with h | h
      · exact Or.inr (h ▸ List.mem_cons_self)
      · exact (ih h).imp_right (List.mem_cons_of_mem _)

/-- Insertion keeps keys in strictly ascending order. -/
theorem ascending_insertEntry [Std.TransOrd κ] [Std.LawfulEqOrd κ] (key : κ) (value : α)
    {entries : List (κ × α)} (h : Ascending entries) :
    Ascending (insertEntry key value entries) := by
  induction entries with
  | nil => simp [insertEntry, Ascending]
  | cons head rest ih =>
    have hrest := List.pairwise_cons.mp h
    unfold insertEntry
    split
    case h_1 hlt =>
      refine List.pairwise_cons.mpr ⟨?_, h⟩
      intro b hb
      rcases List.mem_cons.mp hb with rfl | hb
      · exact hlt
      · exact Std.TransCmp.lt_trans hlt (hrest.1 b hb)
    case h_2 heq =>
      have : key = head.1 := Std.LawfulEqOrd.eq_of_compare heq
      exact List.pairwise_cons.mpr ⟨fun b hb => this ▸ hrest.1 b hb, hrest.2⟩
    case h_3 hgt =>
      refine List.pairwise_cons.mpr ⟨?_, ih hrest.2⟩
      intro b hb
      rcases mem_insertEntry hb with rfl | hb
      · exact Std.OrientedCmp.lt_of_gt hgt
      · exact hrest.1 b hb

def empty : Dict κ α := ⟨[], .nil⟩

@[ext] theorem ext {a b : Dict κ α} (h : a.toList = b.toList) : a = b := by
  cases a; cases b; cases h; rfl

instance [DecidableEq κ] [DecidableEq α] : DecidableEq (Dict κ α) := fun a b =>
  if h : a.toList = b.toList then isTrue (ext h) else isFalse fun e => h (e ▸ rfl)

variable (d : Dict κ α)

def keys : List κ := d.toList.map Prod.fst

def values : List α := d.toList.map Prod.snd

def size : Nat := d.toList.length

def isEmpty (d : Dict κ α) : Bool := d.toList.isEmpty

def lookup (key : κ) : List (κ × α) → Option α
  | [] => none
  | entry :: rest => if compare key entry.1 = .eq then some entry.2 else lookup key rest

def get? (key : κ) : Option α := lookup key d.toList

def contains (key : κ) : Bool := (d.get? key).isSome

def getD (d : Dict κ α) (key : κ) (fallback : α) : α := (d.get? key).getD fallback

def insert [Std.TransOrd κ] [Std.LawfulEqOrd κ] (d : Dict κ α) (key : κ) (value : α) : Dict κ α :=
  ⟨insertEntry key value d.toList, ascending_insertEntry key value d.ascending⟩

/-- Putting an entry in its place changes the answer to its key only. -/
theorem lookup_insertEntry [Std.LawfulEqOrd κ] [DecidableEq κ] (key other : κ) (value : α)
    (entries : List (κ × α)) :
    lookup other (insertEntry key value entries)
      = if other = key then some value else lookup other entries := by
  induction entries with
  | nil =>
    simp only [insertEntry, lookup, Std.LawfulEqOrd.compare_eq_iff_eq]
  | cons entry rest ih =>
    unfold insertEntry
    split
    · simp only [lookup, Std.LawfulEqOrd.compare_eq_iff_eq]
    · rename_i heq
      have hkey : key = entry.1 := Std.LawfulEqOrd.eq_of_compare heq
      simp only [lookup, Std.LawfulEqOrd.compare_eq_iff_eq, ← hkey]
      by_cases hother : other = key
      · rw [if_pos hother, if_pos hother]
      · rw [if_neg hother, if_neg hother, if_neg hother]
    · rename_i hgt
      simp only [lookup, ih, Std.LawfulEqOrd.compare_eq_iff_eq]
      by_cases hentry : other = entry.1
      · -- The key stands further on, so it is not the one of this entry.
        have hne : other ≠ key := by
          intro hc
          rw [← hc, ← hentry, Std.ReflOrd.compare_self] at hgt
          exact absurd hgt (by simp only [reduceCtorEq, not_false_eq_true])
        rw [if_pos hentry, if_pos hentry, if_neg hne]
      · rw [if_neg hentry, if_neg hentry]

@[simp] theorem get_insert [Std.TransOrd κ] [Std.LawfulEqOrd κ] [DecidableEq κ] (d : Dict κ α)
    (key other : κ) (value : α) :
    (d.insert key value).get? other = if other = key then some value else d.get? other :=
  lookup_insertEntry key other value d.toList

/-- An answer of a list of entries is one of the entries. -/
theorem mem_of_lookup [Std.LawfulEqOrd κ] {key : κ} {value : α} {entries : List (κ × α)}
    (h : lookup key entries = some value) : (key, value) ∈ entries := by
  induction entries with
  | nil => simp only [lookup, reduceCtorEq] at h
  | cons entry rest ih =>
    unfold lookup at h
    by_cases hkey : compare key entry.1 = .eq
    · rw [if_pos hkey, Option.some.injEq] at h
      have hk : key = entry.1 := Std.LawfulEqOrd.eq_of_compare hkey
      rw [hk, ← h]
      exact List.mem_cons_self
    · rw [if_neg hkey] at h
      exact List.mem_cons_of_mem _ (ih h)

theorem mem_values_of_get [Std.LawfulEqOrd κ] {d : Dict κ α} {key : κ} {value : α}
    (h : d.get? key = some value) : value ∈ d.values :=
  List.mem_map.mpr ⟨(key, value), mem_of_lookup h, rfl⟩

def filter (d : Dict κ α) (keep : κ → α → Bool) : Dict κ α :=
  ⟨d.toList.filter fun entry => keep entry.1 entry.2, List.Pairwise.filter _ d.ascending⟩

def erase (key : κ) : Dict κ α :=
  d.filter fun other _ => compare key other ≠ .eq

def map (d : Dict κ α) (f : κ → α → β) : Dict κ β :=
  ⟨d.toList.map fun entry => (entry.1, f entry.1 entry.2),
    List.pairwise_map.mpr (by exact d.ascending)⟩

/-- Changes values or drops entries, and keeps the remaining keys. -/
def filterMap (d : Dict κ α) (f : κ → α → Option β) : Dict κ β :=
  ⟨d.toList.filterMap fun entry => (f entry.1 entry.2).map (Prod.mk entry.1), by
    refine List.Pairwise.filterMap _ ?_ d.ascending
    intro a b hab x hx y hy
    obtain ⟨_, _, rfl⟩ := Option.map_eq_some_iff.mp hx
    obtain ⟨_, _, rfl⟩ := Option.map_eq_some_iff.mp hy
    exact hab⟩

/-- Sets entries one after another, so the last of equal keys stays. -/
def insertAll [Std.TransOrd κ] [Std.LawfulEqOrd κ] (d : Dict κ α) (entries : List (κ × α)) :
    Dict κ α :=
  entries.foldl (fun acc entry => acc.insert entry.1 entry.2) d

/-- The map with the given entries, the last of equal keys staying. -/
def ofList [Std.TransOrd κ] [Std.LawfulEqOrd κ] (entries : List (κ × α)) : Dict κ α :=
  empty.insertAll entries

/-- Sets the value of a key from its present one. -/
def alter [Std.TransOrd κ] [Std.LawfulEqOrd κ] (d : Dict κ α) (key : κ) (f : Option α → α) :
    Dict κ α :=
  d.insert key (f (d.get? key))

end Dict

/-- A list as an ascending list without repeats. -/
def sortedSet {κ : Type u} [Ord κ] [Std.TransOrd κ] [Std.LawfulEqOrd κ] (items : List κ) : List κ :=
  (Dict.ofList (items.map fun item => (item, ()))).keys

/-- The sum of a number over the items of a list. -/
def total {α : Type u} (size : α → Nat) : List α → Nat
  | [] => 0
  | item :: rest => size item + total size rest

theorem total_le_total {α : Type u} {size other : α → Nat} (h : ∀ item, size item ≤ other item)
    (items : List α) : total size items ≤ total other items := by
  induction items with
  | nil => exact Nat.le_refl _
  | cons item rest ih => exact Nat.add_le_add (h item) ih

theorem size_le_total {α : Type u} (size : α → Nat) {items : List α} {item : α} (h : item ∈ items) :
    size item ≤ total size items := by
  induction h with
  | head rest => exact Nat.le_add_right _ _
  | tail first _ ih => exact Nat.le_trans ih (Nat.le_add_left _ _)

/-- A sum falls when one of its terms falls and none rises. -/
theorem total_lt_total {α : Type u} {size other : α → Nat} {items : List α} {item : α}
    (hmem : item ∈ items) (hlt : size item < other item) (hle : ∀ item, size item ≤ other item) :
    total size items < total other items := by
  induction hmem with
  | head rest => exact Nat.add_lt_add_of_lt_of_le hlt (total_le_total hle rest)
  | tail first _ ih => exact Nat.add_lt_add_of_le_of_lt (hle first) ih

end Ripple
