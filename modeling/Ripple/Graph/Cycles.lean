import Ripple.Graph.Basic

/-!
# Cycles of Imports

A cycle is found by going from a file to its dependencies, from those to
theirs, and so on, until the way comes back to the file. Only greater files
are entered, so that each cycle is found from its smallest file, and no file
is entered twice on one way. Of cycles through the same files only the first
one that is found is kept.

The search keeps the way from the file to the present one, and for each file
on it the dependencies that are left to look at. When nothing is left to look
at it goes back by one file. The same file may thus be entered many times, on
different ways, and nothing like a set of visited files bounds the work. What
does is the length of a way: `work` bounds what can come of a single
dependency by the number of files that the way may still grow by.

## Theorems

* `CycleSearch.step_decreases`: The search comes to an end.
-/

namespace Ripple

structure CycleSearch where
  /-- The way to the present file, the present one first; each file comes with the dependencies
  that are left to look at. -/
  stack : List (String × List String)
  /-- The cycles that were found, the last one first. -/
  found : List (List String)

namespace CycleSearch

/-- The files on the way, the present one first. -/
def path (s : CycleSearch) : List String := s.stack.map Prod.fst

variable (g : ImportGraph) (start : String) (maxFiles : Nat)

/-- Looks at one dependency of the present file: it closes a cycle, or the way goes on with it, or
it is passed over. -/
def look (s : CycleSearch) (next : String) : CycleSearch :=
  if next = start then { s with found := s.path.reverse :: s.found }
  else if start < next && !s.path.contains next && s.path.length < maxFiles then
    { s with stack := (next, g.dependenciesOf next) :: s.stack }
  else s

/-- One step: the next dependency of the present file is looked at, or the search goes back. -/
def step (s : CycleSearch) : CycleSearch :=
  match s.stack with
  | [] => s
  | (_, []) :: below => { s with stack := below }
  | (file, next :: others) :: below =>
    look g start maxFiles { s with stack := (file, others) :: below } next

/-- The most steps that come of a dependency, if no file has more than a number of dependencies and
the way grows by a number of files at most. -/
def work (degree : Nat) : Nat → Nat
  | 0 => 1
  | more + 1 => degree * work degree more + 2

def pending (g : ImportGraph) (maxFiles : Nat) : List (String × List String) → Nat
  | [] => 0
  | frame :: below =>
    frame.2.length * work g.edgeCount (maxFiles - (below.length + 1)) + 1 + pending g maxFiles below

/-- A file has no more dependencies than there are imports. -/
theorem length_dependenciesOf_le (file : String) :
    (g.dependenciesOf file).length ≤ g.edgeCount := by
  unfold ImportGraph.dependenciesOf
  split
  case h_1 node hnode =>
    exact size_le_total (fun n : ImportNode => n.dependencies.length) (Dict.mem_values_of_get hnode)
  case h_2 => exact Nat.zero_le _

/-- Looking at a dependency costs less than what it was counted for. -/
theorem pending_look_lt (file next : String)
    (others : List String) (below : List (String × List String)) (found : List (List String)) :
    pending g maxFiles (look g start maxFiles ⟨(file, others) :: below, found⟩ next).stack <
      pending g maxFiles ((file, next :: others) :: below) := by
  have hless : pending g maxFiles ((file, others) :: below) <
      pending g maxFiles ((file, next :: others) :: below) := by
    have hpos : 0 < work g.edgeCount (maxFiles - (below.length + 1)) := by
      unfold work
      split <;> omega
    simp only [pending, List.length_cons, Nat.add_mul]
    omega
  unfold look
  split
  case isTrue => exact hless
  case isFalse =>
    split
    case isTrue hgo =>
      -- The way grows, so there is one file less by which it may grow further.
      obtain ⟨more, hmore⟩ : ∃ more, maxFiles - (below.length + 1) = more + 1 := by
        simp only [path, Bool.and_eq_true, decide_eq_true_eq, List.length_map,
          List.length_cons] at hgo
        exact ⟨maxFiles - (below.length + 2), by omega⟩
      have hnext : maxFiles - (below.length + 1 + 1) = more := by omega
      have hdegree := Nat.mul_le_mul_right (work g.edgeCount more)
        (length_dependenciesOf_le g next)
      simp only [pending, List.length_cons, Nat.add_mul, hmore, hnext, work]
      omega
    case isFalse => exact hless

theorem step_decreases {s : CycleSearch} (h : s.stack ≠ []) :
    pending g maxFiles (s.step g start maxFiles).stack < pending g maxFiles s.stack := by
  unfold step
  split
  case h_1 hstack => exact absurd hstack h
  case h_2 file below hstack =>
    rw [hstack]
    simp only [pending, List.length_nil, Nat.zero_mul]
    omega
  case h_3 file next others below hstack =>
    rw [hstack]
    exact pending_look_lt g start maxFiles file next others below s.found

def run (g : ImportGraph) (start : String) (maxFiles : Nat) (s : CycleSearch) : CycleSearch :=
  if _h : s.stack = [] then s else run g start maxFiles (s.step g start maxFiles)
termination_by pending g maxFiles s.stack
decreasing_by exact step_decreases g start maxFiles _h

def opening : CycleSearch :=
  ⟨[(start, g.dependenciesOf start)], []⟩

end CycleSearch

/-- The cycles of at most a number of files whose smallest file is given, in the order in which they
are found. -/
def cyclesThrough (g : ImportGraph) (maxFiles : Nat) (start : String) : List (List String) :=
  (CycleSearch.run g start maxFiles (.opening g start)).found.reverse

/-- Adds a list to others, unless one of them has the same members; each comes after its members in
ascending order. -/
def addDistinct (kept : List (List String × List String)) (cycle : List String) :
    List (List String × List String) :=
  let key := sortedSet cycle
  if kept.any fun entry => entry.1 = key then kept else (key, cycle) :: kept

/-- Keeps the first of the lists with the same members. -/
def distinctMembers (cycles : List (List String)) : List (List String) :=
  ((cycles.foldl addDistinct []).map Prod.snd).reverse

/-- The cycles of at most a number of files, each starting at its smallest file. -/
def cyclesWithin (g : ImportGraph) (maxFiles : Nat) : List (List String) :=
  distinctMembers (g.nodes.keys.flatMap (cyclesThrough g maxFiles))

end Ripple
