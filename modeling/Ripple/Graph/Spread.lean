import Ripple.Graph.Basic

/-!
# How a Change Spreads

A change to a file may matter to every file that depends on it, directly or
through others. The search goes from the changed files along the dependents
and notes the least number of steps at which it has reached each file so far.
A file that is reached again in fewer steps is gone on from once more, so the
numbers are right in the end whatever the order in which files are taken up.

There are two such orders. A search by breadth takes up the files in the
order in which they were reached, and a search by depth the one that was
reached last.

A file may thus be taken up several times, but each time its number has
become smaller. The sum of the numbers over all dependents bounds the work,
where a file that was not reached counts as one step beyond the limit.

## Theorems

* `Spread.look_lowers`: A file is taken up again only in fewer steps.
* `Spread.step_decreases`: The search comes to an end.
-/

namespace Ripple

structure Spread where
  /-- The least number of steps at which each file was reached so far. -/
  best : Dict String Nat
  /-- The files in the order in which they were found, the last one first. -/
  found : List String
  /-- The files to go on from with their numbers of steps, the next one first. -/
  frontier : List (String × Nat)

/-- Everything that a graph names as a dependent. -/
def ImportGraph.allDependents (g : ImportGraph) : List String :=
  g.nodes.values.flatMap (·.dependents)

namespace Spread

/-- Adds a file to go on from, as the next one in a search by depth and as the last one in a
search by breadth. -/
def push (depthFirst : Bool) (frontier : List (String × Nat)) (entry : String × Nat) :
    List (String × Nat) :=
  if depthFirst then entry :: frontier else frontier ++ [entry]

/-- Looks at one dependent of a file: it is gone on from if it is reached in fewer steps than
before. -/
def look (depthFirst : Bool) (depth : Nat) (s : Spread) (file : String) : Spread :=
  match s.best.get? file with
  | none =>
    { best := s.best.insert file depth
      found := file :: s.found
      frontier := push depthFirst s.frontier (file, depth) }
  | some known =>
    if depth < known then
      { s with
        best := s.best.insert file depth
        frontier := push depthFirst s.frontier (file, depth) }
    else s

/-- Takes up the next file. It is left alone if it was reached in fewer steps meanwhile, or if the
limit is reached. -/
def step (g : ImportGraph) (depthFirst : Bool) (maxDepth : Nat) (s : Spread) : Spread :=
  match s.frontier with
  | [] => s
  | (file, depth) :: rest =>
    if (s.best.get? file).any (· < depth) || maxDepth ≤ depth then { s with frontier := rest }
    else (g.dependentsOf file).foldl (look depthFirst (depth + 1)) { s with frontier := rest }

/-- The number of steps to a file so far, or one beyond the limit. -/
def label (maxDepth : Nat) (s : Spread) (file : String) : Nat := s.best.getD file (maxDepth + 1)

/-- How much the numbers of steps can still fall. -/
def pending (g : ImportGraph) (maxDepth : Nat) (s : Spread) : Nat :=
  total (s.label maxDepth) g.allDependents

/-- Looking at a file changes nothing, or lowers its number and no other one. -/
theorem look_lowers {depthFirst : Bool} {maxDepth depth : Nat} (hdepth : depth ≤ maxDepth)
    (s : Spread) (file : String) :
    s.look depthFirst depth file = s ∨
      ((s.look depthFirst depth file).label maxDepth file < s.label maxDepth file ∧
        ∀ other, (s.look depthFirst depth file).label maxDepth other ≤ s.label maxDepth other) := by
  have hinsert : depth < s.label maxDepth file →
      (s.best.insert file depth).getD file (maxDepth + 1) < s.label maxDepth file ∧
        ∀ other, (s.best.insert file depth).getD other (maxDepth + 1) ≤ s.label maxDepth other := by
    intro hlt
    refine ⟨?_, fun other => ?_⟩
    · rw [Dict.getD, Dict.get_insert, if_pos rfl]
      exact hlt
    · rw [Dict.getD, Dict.get_insert]
      by_cases hother : other = file
      · rw [if_pos hother, hother]
        exact Nat.le_of_lt hlt
      · rw [if_neg hother]
        exact Nat.le_refl _
  unfold look
  split
  case h_1 hnone =>
    refine Or.inr (hinsert ?_)
    rw [label, Dict.getD, hnone]
    exact Nat.lt_succ_of_le hdepth
  case h_2 known hknown =>
    split
    case isTrue hlt =>
      refine Or.inr (hinsert ?_)
      rw [label, Dict.getD, hknown]
      exact hlt
    case isFalse => exact Or.inl rfl

/-- Looking at dependents changes nothing, or lowers what is pending. -/
theorem foldl_look_lowers {g : ImportGraph} {depthFirst : Bool} {maxDepth depth : Nat}
    (hdepth : depth ≤ maxDepth) (files : List String)
    (hfiles : ∀ file ∈ files, file ∈ g.allDependents) (s : Spread) :
    files.foldl (look depthFirst depth) s = s ∨
      (files.foldl (look depthFirst depth) s).pending g maxDepth < s.pending g maxDepth := by
  induction files generalizing s with
  | nil => exact Or.inl rfl
  | cons file rest ih =>
    rw [List.foldl_cons]
    have hrest := ih (fun other hother => hfiles other (List.mem_cons_of_mem _ hother))
      (s.look depthFirst depth file)
    rcases look_lowers hdepth s file with heq | ⟨hlt, hle⟩
    · rw [heq] at hrest ⊢
      exact hrest
    · have hlook : (s.look depthFirst depth file).pending g maxDepth < s.pending g maxDepth :=
        total_lt_total (hfiles file List.mem_cons_self) hlt hle
      rcases hrest with heq | hlower
      · rw [heq]
        exact Or.inr hlook
      · exact Or.inr (Nat.lt_trans hlower hlook)

/-- What depends on a file is named as a dependent. -/
theorem mem_allDependents {g : ImportGraph} {file dependent : String}
    (h : dependent ∈ g.dependentsOf file) : dependent ∈ g.allDependents := by
  unfold ImportGraph.dependentsOf at h
  split at h
  case h_1 node hnode =>
    exact List.mem_flatMap.mpr ⟨node, Dict.mem_values_of_get hnode, h⟩
  case h_2 => exact absurd h List.not_mem_nil

/-- Taking up a file lowers what is pending, or leaves fewer files to go on from. -/
theorem step_decreases (g : ImportGraph) (depthFirst : Bool) (maxDepth : Nat) {s : Spread}
    (h : s.frontier ≠ []) :
    Prod.Lex (· < ·) (· < ·)
      ((s.step g depthFirst maxDepth).pending g maxDepth,
        (s.step g depthFirst maxDepth).frontier.length)
      (s.pending g maxDepth, s.frontier.length) := by
  unfold step
  split
  case h_1 hempty => exact absurd hempty h
  case h_2 file depth rest hfrontier =>
    have hshorter : rest.length < s.frontier.length := by
      rw [hfrontier, List.length_cons]
      exact Nat.lt_succ_self _
    split
    case isTrue => exact Prod.Lex.right _ hshorter
    case isFalse hgo =>
      have hdepth : depth + 1 ≤ maxDepth := by
        simp only [Bool.or_eq_true, decide_eq_true_eq, not_or] at hgo
        omega
      rcases foldl_look_lowers hdepth (g.dependentsOf file) (fun _ => mem_allDependents)
        { s with frontier := rest } with heq | hlower
      · rw [heq]
        exact Prod.Lex.right _ hshorter
      · exact Prod.Lex.left _ _ hlower

def run (g : ImportGraph) (depthFirst : Bool) (maxDepth : Nat) (s : Spread) : Spread :=
  if _h : s.frontier = [] then s else run g depthFirst maxDepth (s.step g depthFirst maxDepth)
termination_by (s.pending g maxDepth, s.frontier.length)
decreasing_by exact step_decreases g depthFirst maxDepth _h

def start (depthFirst : Bool) (seeds : List String) : Spread where
  best := .ofList (seeds.map fun file => (file, 0))
  found := []
  frontier := (seeds.map fun file => (file, 0)).foldl (push depthFirst) []

end Spread

/-- The search along the dependents from some files, by depth or by breadth, within a number of
steps. -/
def ImportGraph.spread (g : ImportGraph) (depthFirst : Bool) (maxDepth : Nat)
    (seeds : List String) : Spread :=
  Spread.run g depthFirst maxDepth (Spread.start depthFirst seeds)

end Ripple
