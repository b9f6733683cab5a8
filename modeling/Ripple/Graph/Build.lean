import Ripple.Graph.Components
import Ripple.Graph.Cycles
import Ripple.Graph.Resolve
import Ripple.Outline.Basic

/-!
# Building Import Graphs

The import graph of a project is made from the outlines of its files alone.
Each import is resolved among the known files; what does not resolve counts
as external.
-/

namespace Ripple

/-- What one file imports: files of the project, and names from outside of it. -/
structure Resolved where
  /-- The files of the project, ascending. -/
  dependencies : List String
  /-- The names from outside of the project, each once. -/
  external : List String

/-- The imports of a file, resolved among the known files. -/
def resolveImports (isKnown : String → Bool) (path : String) (imports : List Import) : Resolved :=
  let target (i : Import) : Option String :=
    if i.isExternal then none else resolveImport? isKnown path i.source
  ⟨sortedSet ((imports.filterMap target).filter (· ≠ path)),
    ((imports.filter fun i => (target i).isNone).map (·.source)).eraseDups⟩

/-- How many files a cycle has at most, unless stated otherwise. -/
def defaultCycleFiles : Nat := 64

namespace ImportGraph

def build (outlines : Dict String Outline) (maxCycleFiles : Nat) : ImportGraph :=
  let resolved := outlines.map fun path o => resolveImports outlines.contains path o.imports
  let dependents (path : String) : List String :=
    (resolved.toList.filter fun entry => entry.2.dependencies.contains path).map Prod.fst
  let nodes := resolved.map fun path r =>
    (⟨path, r.dependencies, dependents path, !r.external.isEmpty⟩ : ImportNode)
  let external := resolved.filterMap fun _ r =>
    if r.external.isEmpty then none else some r.external
  let graph : ImportGraph := ⟨nodes, [], external⟩
  { graph with cycles := cyclesWithin graph (max maxCycleFiles 1) }

/-- Sets of two or more files that all depend on each other. -/
def components (g : ImportGraph) : List (List String) :=
  Ripple.components g.nodes.keys g.dependenciesOf

end ImportGraph

end Ripple
