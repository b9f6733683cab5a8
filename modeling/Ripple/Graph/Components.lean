import Ripple.Dict

/-!
# Components of a Graph

A graph is given by the successors of each node, and only steps between
listed nodes count. Two nodes belong together if each can be reached from the
other. A component is a largest set of at least two nodes that belong
together.

The components are found by two searches. The first one goes along the edges,
always on from the node found last, and puts the nodes in the order in which
it is done with them. The second one takes the nodes in the opposite order
and goes against the edges: what it reaches from a node without meeting an
earlier group is the group of that node. Neither search recurses along a
path, so a long chain of nodes costs no more than a short one.

Both searches keep the nodes that are still fresh, that is, listed and not
found so far. A successor that is not listed is never fresh, so edges that
lead out of the list need no further care.

## Theorems

* `FinishSearch.step_decreases`, `GroupSearch.step_decreases`: Both searches come to an end.
-/

namespace Ripple

universe u

theorem length_filter_ne_lt {item : String} {items : List String} (h : items.contains item) :
    (items.filter (· ≠ item)).length < items.length :=
  List.length_filter_lt_length_iff_exists.mpr ⟨item, by simpa using h, by simp⟩

/-- A list in ascending order, with as many copies of each item. -/
def sortAscending {κ : Type u} [Ord κ] (items : List κ) : List κ :=
  items.mergeSort fun a b => (compare a b).isLE

structure FinishSearch where
  fresh : List String
  /-- The way to the present node, the present one first; each node comes with the successors
  that are left to look at. -/
  stack : List (String × List String)
  /-- The nodes that are done with, the last one first. -/
  finished : List String

namespace FinishSearch

/-- How much there is left to look at on the way to the present node. -/
def pending (s : FinishSearch) : Nat := total (fun frame => frame.2.length + 1) s.stack

/-- One step: the next successor of the present node is looked at, or the node is done with. -/
def step (successors : String → List String) (s : FinishSearch) : FinishSearch :=
  match s.stack with
  | [] => s
  | (node, []) :: below => { s with stack := below, finished := node :: s.finished }
  | (node, next :: others) :: below =>
    if s.fresh.contains next then
      { s with
        fresh := s.fresh.filter (· ≠ next)
        stack := (next, successors next) :: (node, others) :: below }
    else { s with stack := (node, others) :: below }

/-- A step finds a fresh node, or leaves less to look at. -/
theorem step_decreases (successors : String → List String) {s : FinishSearch} (h : s.stack ≠ []) :
    Prod.Lex (· < ·) (· < ·) ((s.step successors).fresh.length, (s.step successors).pending)
      (s.fresh.length, s.pending) := by
  unfold step
  split
  case h_1 hstack => exact absurd hstack h
  case h_2 node below hstack =>
    refine Prod.Lex.right _ ?_
    simp only [pending, hstack, total, List.length_nil]
    omega
  case h_3 node next others below hstack =>
    split
    case isTrue hfresh => exact Prod.Lex.left _ _ (length_filter_ne_lt hfresh)
    case isFalse =>
      refine Prod.Lex.right _ ?_
      simp only [pending, hstack, total, List.length_cons]
      omega

def run (successors : String → List String) (s : FinishSearch) : FinishSearch :=
  if _h : s.stack = [] then s else run successors (s.step successors)
termination_by (s.fresh.length, s.pending)
decreasing_by exact step_decreases successors _h

def visit (successors : String → List String) (s : FinishSearch) (start : String) : FinishSearch :=
  if s.fresh.contains start then
    run successors
      { s with fresh := s.fresh.filter (· ≠ start), stack := [(start, successors start)] }
  else s

end FinishSearch

/-- The nodes in the order in which the search along the edges is done with them, the last one
first. -/
def finishOrder (nodes : List String) (successors : String → List String) : List String :=
  (nodes.foldl (FinishSearch.visit successors) ⟨nodes, [], []⟩).finished

structure GroupSearch where
  fresh : List String
  stack : List String
  /-- The nodes of the group, the last one first. -/
  members : List String

namespace GroupSearch

/-- Takes a node into the group, unless it was found before. -/
def take (s : GroupSearch) (node : String) : GroupSearch :=
  if s.fresh.contains node then
    ⟨s.fresh.filter (· ≠ node), node :: s.stack, node :: s.members⟩
  else s

/-- One step: everything in front of a node is taken into the group. -/
def step (before : String → List String) (s : GroupSearch) : GroupSearch :=
  match s.stack with
  | [] => s
  | node :: rest => (before node).foldl take { s with stack := rest }

/-- Taking nodes does not add to what is left to do. -/
theorem foldl_take_le (nodes : List String) (s : GroupSearch) :
    (nodes.foldl take s).fresh.length + (nodes.foldl take s).stack.length ≤
      s.fresh.length + s.stack.length := by
  induction nodes generalizing s with
  | nil => exact Nat.le_refl _
  | cons node rest ih =>
    refine Nat.le_trans (ih (s.take node)) ?_
    unfold take
    split
    case isTrue hfresh =>
      have hlt := length_filter_ne_lt hfresh
      simp only [List.length_cons]
      omega
    case isFalse => exact Nat.le_refl _

theorem step_decreases (before : String → List String) {s : GroupSearch} (h : s.stack ≠ []) :
    (s.step before).fresh.length + (s.step before).stack.length <
      s.fresh.length + s.stack.length := by
  unfold step
  split
  case h_1 hstack => exact absurd hstack h
  case h_2 node rest hstack =>
    have hle := foldl_take_le (before node) { s with stack := rest }
    rw [hstack, List.length_cons]
    simp only at hle
    omega

def run (before : String → List String) (s : GroupSearch) : GroupSearch :=
  if _h : s.stack = [] then s else run before (s.step before)
termination_by s.fresh.length + s.stack.length
decreasing_by exact step_decreases before _h

end GroupSearch

/-- The groups found so far, and the nodes that are in none of them. -/
structure Grouping where
  fresh : List String
  /-- The groups, the last one first. -/
  groups : List (List String)

/-- Adds the group of a node, unless the node is in a group already. -/
def Grouping.visit (before : String → List String) (g : Grouping) (start : String) : Grouping :=
  if g.fresh.contains start then
    let s := GroupSearch.run before ⟨g.fresh.filter (· ≠ start), [start], [start]⟩
    ⟨s.fresh, s.members :: g.groups⟩
  else g

/-- The nodes from which an edge leads to a node; every node is given with its successors. -/
def predecessors (edges : List (String × List String)) (node : String) : List String :=
  (edges.filter fun entry => entry.2.contains node).map Prod.fst

/-- The groups of all nodes, the last one first. -/
def groups (nodes : List String) (successors : String → List String) : List (List String) :=
  let edges := nodes.map fun node => (node, successors node)
  ((finishOrder nodes successors).foldl (Grouping.visit (predecessors edges)) ⟨nodes, []⟩).groups

/-- The components of a graph: the groups of two or more nodes. Each is ascending, and so are
they among each other. -/
def components (nodes : List String) (successors : String → List String) : List (List String) :=
  sortAscending (((groups nodes successors).filter fun members => 1 < members.length).map
    sortAscending)

def componentsOfMap (graph : Dict String (List String)) : List (List String) :=
  components graph.keys fun v => graph.getD v []

end Ripple
