import Ripple.Graph.Build
import Ripple.Graph.Paths
import Ripple.Graph.Spread

/-!
# Impact of a Change

How much a change of some files matters to the files that it spreads to. It
falls with the number of steps at which a file is reached, and is larger for
files that are reached in one step and for files that depend on each other in
a circle.

The order in which files are found depends on the way of searching. The files
found and their distances do not.
-/

namespace Ripple

/-- How much a change matters by the way a file is reached. -/
structure Weights where
  /-- For files reached in one step. -/
  direct : Float
  /-- For files that depend on each other in a circle. -/
  circular : Float
  /-- For all other files. -/
  transitive : Float

def Weights.standard : Weights := ⟨1.0, 0.8, 0.5⟩

/-- The way a file is reached. -/
inductive Tier where
  | direct | circular | transitive
deriving DecidableEq, Repr

def Tier.text : Tier → String
  | direct => "direct"
  | circular => "circular"
  | transitive => "transitive"

def Weights.of (w : Weights) : Tier → Float
  | .direct => w.direct
  | .circular => w.circular
  | .transitive => w.transitive

structure Impact where
  changedFiles : List String
  /-- The affected files, ascending; changed files are not among them. -/
  affectedFiles : List String
  /-- The affected files in the order in which they were found. -/
  traversalOrder : List String
  /-- The least number of steps to each affected file. -/
  depths : Dict String Nat
  tiers : Dict String Tier
  circularFiles : List String
  heatMap : Dict String Float
  impactScore : Float

structure FileImpact where
  path : String
  dependencies : List String
  dependents : List String
  circular : Bool
  heatMap : Dict String Float

/-- The larger of two numbers, where a number that is none does not count. -/
def floatMax (a b : Float) : Float :=
  if a.isNaN then b else if b.isNaN then a else if a < b then b else a

/-- Heat on a scale on which the hottest file has one. -/
def scaleHeat (heat : Dict String Float) : Dict String Float :=
  let top := heat.values.foldl floatMax 0.0
  if 0.0 < top then heat.map fun _ x => x / top else heat

namespace ImportGraph

/-- The way a file is reached in a number of steps. -/
def tierOf (circular : List String) (path : String) (depth : Nat) : Tier :=
  if depth = 1 then .direct else if circular.contains path then .circular else .transitive

variable (g : ImportGraph)

/-- What a change of files affects, where a search from them has noted numbers of steps and found
files in an order. -/
def impactOf (weights : Weights) (withHeat : Bool) (seeds : List String)
    (best : Dict String Nat) (order : List String) : Impact :=
  let depths := best.filter fun path _ => !seeds.contains path
  let inCircle := g.components.flatten
  let circularFiles := depths.keys.filter inCircle.contains
  let tiers := depths.map fun path depth => tierOf inCircle path depth
  let raw := (depths.map fun path depth =>
    weights.of (tierOf inCircle path depth) / (depth.toFloat + 1.0)).insertAll
      (seeds.map fun s => (s, 1.0))
  let heat := (scaleHeat raw).insertAll (seeds.map fun s => (s, 1.0))
  let affectedHeat := (depths.keys.filterMap heat.get?).foldl (· + ·) 0.0
  { changedFiles := seeds
    affectedFiles := depths.keys
    traversalOrder := order
    depths
    tiers
    circularFiles
    heatMap := if withHeat then heat else .empty
    impactScore := if g.nodes.isEmpty then 0.0 else affectedHeat / g.nodes.size.toFloat }

def impact (weights : Weights) (maxDepth : Nat) (changed : List String)
    (depthFirst withHeat : Bool) : Impact :=
  let seeds := sortedSet changed
  let reached := g.spread depthFirst maxDepth seeds
  g.impactOf weights withHeat seeds reached.best reached.found.reverse

def maxPaths : Nat := 1000

/-- The import paths from sources to targets with a bounded number of imports. -/
def pathsBetween (maxDepth : Nat) (sources targets : List String) : List (List String) :=
  flatMapUpTo maxPaths
    (fun source limit => pathsUpTo g.dependenciesOf targets.contains maxDepth [source] limit)
    sources

/-- What a change of one file affects, if it is in the graph. -/
def fileImpact? (weights : Weights) (maxDepth : Nat) (path : String) : Option FileImpact :=
  (g.nodes.get? path).map fun node =>
    { path
      dependencies := node.dependencies
      dependents := node.dependents
      circular := g.isInCycle path || g.components.any fun c => c.contains path
      heatMap := (g.impact weights maxDepth [path] false true).heatMap }

end ImportGraph

end Ripple
