import Ripple.Graph.Basic
import Ripple.Graph.Components
import Ripple.Graph.Forest

/-!
# Clusters

Files that import each other belong to one cluster. An import in one direction
alone joins nothing, not even if there is a longer way back.

The files of a graph are numbered in their order, and the numbers of files
that import each other are joined in a forest.
-/

namespace Ripple

namespace ImportGraph

variable (g : ImportGraph)

/-- The places of files that import each other, in a list of paths. -/
def mutualPairs (paths : List String) : List (Fin paths.length × Fin paths.length) :=
  g.nodes.toList.flatMap fun (a, node) => node.dependencies.filterMap fun b =>
    if compare a b = .lt && g.hasEdge b a then
      (paths.finIdxOf? a).bind fun i => (paths.finIdxOf? b).map fun j => (i, j)
    else none

/-- The files of a graph, with those joined that import each other. -/
def mutualForest : Forest g.nodes.keys.length :=
  (Forest.alone _).joinAll (g.mutualPairs g.nodes.keys)

/-- All groups of files joined by imports in both directions, each in ascending order. -/
def mutualGroups : List (List String) :=
  let paths := g.nodes.keys
  g.mutualForest.gather.values.map fun members => members.map paths.get

/-- The groups of at least a size and of at least two files, in ascending order. -/
def largeGroups (minSize : Nat) : List (List String) :=
  sortAscending (g.mutualGroups.filter fun members => max minSize 2 ≤ members.length)

/-- The clusters of at least a size, numbered from one. -/
def clusters (minSize : Nat) : Dict String (List String) :=
  .ofList ((g.largeGroups minSize).zipIdx.map fun (members, i) =>
    ("cluster-" ++ toString (i + 1), members))

end ImportGraph

end Ripple
