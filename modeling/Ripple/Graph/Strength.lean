import Ripple.Graph.Basic
import Ripple.Graph.Paths

/-!
# Coupling Strength

How closely two files are coupled, between zero and one: whether one imports
the other, whether both do, how many short import paths join them, and how
many of their imports they share.
-/

namespace Ripple

def shortPathEdges : Nat := 5

/-- The number of short paths beyond which more make no difference. -/
def shortPathCap : Nat := 5

namespace ImportGraph

variable (g : ImportGraph)

/-- The number of short import paths from one file to another, counted up to the cap. -/
def shortPathCount (source target : String) : Nat :=
  (pathsUpTo g.dependenciesOf (· = target) shortPathEdges [source] shortPathCap).length

/-- The number of short import paths between two files as a share of the cap. -/
def pathShare (a b : String) : Float :=
  (min (g.shortPathCount a b + g.shortPathCount b a) shortPathCap).toFloat / shortPathCap.toFloat

/-- The share of imports that two files have in common. -/
def sharedImports (a b : String) : Float :=
  let left := (g.dependenciesOf a).eraseDups
  let right := (g.dependenciesOf b).eraseDups
  let both := left.filter right.contains
  let either := left ++ right.filter fun x => !left.contains x
  if either.isEmpty then 0.0 else both.length.toFloat / either.length.toFloat

/-- The coupling of two files. -/
def strength (a b : String) : Float :=
  if a = b || !g.nodes.contains a || !g.nodes.contains b then 0.0
  else
    let forth := g.hasEdge a b
    let back := g.hasEdge b a
    let direct : Float := if forth || back then 1.0 else 0.0
    let mutually : Float := if forth && back then 1.0 else 0.0
    let total := 0.4 * direct + 0.2 * mutually + 0.2 * g.pathShare a b + 0.2 * g.sharedImports a b
    if total < 0.0 then 0.0 else if 1.0 < total then 1.0 else total

end ImportGraph

end Ripple
