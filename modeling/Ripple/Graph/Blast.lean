import Ripple.Graph.Basic

/-!
# Files Hit by a Change

The files that a change reaches, together with those that were met again on
the way that led to them. The search goes round by round; every file is linked
to the one from which it was first reached, and a dependent that already lies
on the way back along the links closes a circle.
-/

namespace Ripple

structure ImpactSet where
  impacted : List String
  /-- The files met again on the way that led to them. -/
  circular : List String

/-- The way that led to a file, followed back from the file to the one it was first reached from.
Links are given with the last one first, so what a file was reached from was linked before it. -/
def wayTo : List (String × Option String) → String → List String
  | [], _ => []
  | (child, parent) :: earlier, file =>
    if child = file then file :: parent.elim [] (wayTo earlier) else wayTo earlier file

structure BlastSearch where
  /-- The files that were reached, each with the file that it was first reached from. -/
  links : List (String × Option String)
  impacted : List String
  circular : List String
  /-- The files to go on from in the next round, the last one first. -/
  next : List String

def BlastSearch.reached (s : BlastSearch) : List String := s.links.map Prod.fst

def BlastSearch.look (seeds : List String) (file : String) (s : BlastSearch) (dependent : String) :
    BlastSearch :=
  let hit := if seeds.contains dependent then s.impacted else dependent :: s.impacted
  if (wayTo s.links file).contains dependent then
    { s with circular := dependent :: s.circular, impacted := hit }
  else if s.reached.contains dependent then s
  else
    { s with
      links := (dependent, some file) :: s.links
      impacted := hit
      next := dependent :: s.next }

def BlastSearch.expand (g : ImportGraph) (seeds : List String) (s : BlastSearch)
    (file : String) : BlastSearch :=
  (g.dependentsOf file).foldl (look seeds file) s

def BlastSearch.run (g : ImportGraph) (seeds : List String) : Nat → BlastSearch → BlastSearch
  | 0, s => s
  | rounds + 1, s =>
    match s.next with
    | [] => s
    | files => run g seeds rounds (files.reverse.foldl (expand g seeds) { s with next := [] })

def BlastSearch.start (seeds : List String) : BlastSearch :=
  ⟨seeds.map fun seed => (seed, none), [], [], seeds.reverse⟩

def impactSet (g : ImportGraph) (changed : List String) (maxDepth : Nat) : ImpactSet :=
  let seeds := sortedSet changed
  let s := BlastSearch.run g seeds maxDepth (.start seeds)
  ⟨sortedSet s.impacted, sortedSet s.circular⟩

end Ripple
