import Ripple.Dict

/-!
# Forests of Numbered Places

Numbered places are put into groups that can be joined. Each place points to
a place, and a place that points to itself is the root of its group. From any
other place the root is found by following what the places point to.

No place points to a later one. So a place that is no root points to an
earlier one, and following ends. On the way each second place is made to point
two steps ahead, which makes the way shorter for the next search and leaves
every root as it is. Two groups are joined by letting the later one of their
roots point to the earlier one, and so the root of a group is its first
place.

## Theorems

* `RootSearch.step_decreases`: The search for a root comes to an end.
-/

namespace Ripple

/-- Places that each point to a place. -/
structure Forest (size : Nat) where
  parents : Vector (Fin size) size
  /-- No place points to a later one. -/
  backward : ∀ place : Fin size, parents[place] ≤ place

namespace Forest

variable {size : Nat} (f : Forest size)

def parent (place : Fin size) : Fin size := f.parents[place]

theorem parent_le (place : Fin size) : f.parent place ≤ place := f.backward place

/-- Each place in a group of its own. -/
def alone (size : Nat) : Forest size where
  parents := .ofFn id
  backward place := by simp

/-- Lets a place point to another one that is not after it. -/
def redirect (place target : Fin size) (h : target ≤ place) : Forest size where
  parents := f.parents.set place target
  backward other := by
    rw [Fin.getElem_fin, Vector.getElem_set]
    split
    · next heq => exact Fin.le_def.mpr (heq ▸ h)
    · exact f.backward other

@[simp] theorem parent_alone (place : Fin size) : (alone size).parent place = place := by
  simp [parent, alone]

theorem parent_redirect {place target : Fin size} (h : target ≤ place) (other : Fin size) :
    (f.redirect place target h).parent other =
      if other = place then target else f.parent other := by
  simp only [parent, redirect, Fin.getElem_fin, Vector.getElem_set, eq_comm, Fin.ext_iff]

end Forest

structure RootSearch (size : Nat) where
  forest : Forest size
  place : Fin size

namespace RootSearch

variable {size : Nat} (s : RootSearch size)

def atRoot : Bool := s.forest.parent s.place = s.place

/-- The place two steps ahead. -/
def ahead : Fin size := s.forest.parent (s.forest.parent s.place)

theorem ahead_le : s.ahead ≤ s.place :=
  Nat.le_trans (s.forest.parent_le _) (s.forest.parent_le _)

/-- One step: the place is made to point two steps ahead, and the search goes on from there. -/
def step : RootSearch size where
  forest := s.forest.redirect s.place s.ahead s.ahead_le
  place := s.ahead

theorem step_decreases {s : RootSearch size} (h : ¬ s.atRoot) : s.step.place < s.place := by
  have hne : s.forest.parent s.place ≠ s.place := by simpa [atRoot] using h
  exact Nat.lt_of_le_of_lt (s.forest.parent_le _)
    (Nat.lt_of_le_of_ne (s.forest.parent_le _) fun heq => hne (Fin.ext heq))

def run (s : RootSearch size) : RootSearch size :=
  if _h : s.atRoot then s else run s.step
termination_by s.place.val
decreasing_by exact step_decreases _h

end RootSearch

namespace Forest

variable {size : Nat}

/-- Finds the root of a place, and makes ways shorter. -/
def find (f : Forest size) (place : Fin size) : RootSearch size := .run ⟨f, place⟩

/-- Joins the groups of two places. -/
def join (f : Forest size) (a b : Fin size) : Forest size :=
  let first := f.find a
  let second := first.forest.find b
  if h : first.place < second.place then
    second.forest.redirect second.place first.place (Fin.le_of_lt h)
  else if h : second.place < first.place then
    second.forest.redirect first.place second.place (Fin.le_of_lt h)
  else second.forest

def joinAll (f : Forest size) (pairs : List (Fin size × Fin size)) : Forest size :=
  pairs.foldl (fun f pair => f.join pair.1 pair.2) f

/-- Adds a place to the group of its root. -/
def collect (state : Forest size × Dict Nat (List (Fin size))) (place : Fin size) :
    Forest size × Dict Nat (List (Fin size)) :=
  let found := state.1.find place
  (found.forest, state.2.alter found.place fun members => members.getD [] ++ [place])

/-- All groups by their roots; the members of a group are in order. -/
def gather (f : Forest size) : Dict Nat (List (Fin size)) :=
  ((List.finRange size).foldl collect (f, .empty)).2

end Forest

end Ripple
