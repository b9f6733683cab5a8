import Ripple.Dict

/-!
# Import Graphs

The modules of a project with the modules that each one depends on and the
modules that depend on it. Both directions are kept, so that a graph that
comes from elsewhere may disagree with itself; `isConsistent` tells.
-/

namespace Ripple

structure ImportNode where
  path : String
  dependencies : List String
  dependents : List String
  /-- Whether it imports something that is not in the project. -/
  external : Bool
deriving DecidableEq, Repr

def ImportNode.lone (path : String) : ImportNode := ⟨path, [], [], false⟩

structure ImportGraph where
  nodes : Dict String ImportNode
  cycles : List (List String)
  externalImports : Dict String (List String)
deriving DecidableEq

namespace ImportGraph

def empty : ImportGraph := ⟨.empty, [], .empty⟩

/-- Adds an import in both directions, with its modules if they are missing. -/
def addEdge (nodes : Dict String ImportNode) (source target : String) : Dict String ImportNode :=
  let nodes := nodes.alter source fun n =>
    let n := n.getD (.lone source)
    { n with dependencies := n.dependencies ++ [target] }
  nodes.alter target fun n =>
    let n := n.getD (.lone target)
    { n with dependents := n.dependents ++ [source] }

/-- The graph of some lone modules and some imports, in the order in which they are given. -/
def ofEdges (lone : List String) (edges : List (String × String)) : ImportGraph where
  nodes := edges.foldl (fun nodes (source, target) => addEdge nodes source target)
    (Dict.ofList (lone.map fun path => (path, .lone path)))
  cycles := []
  externalImports := .empty

variable (g : ImportGraph)

def dependenciesOf (path : String) : List String :=
  match g.nodes.get? path with
  | some node => node.dependencies
  | none => []

def dependentsOf (path : String) : List String :=
  match g.nodes.get? path with
  | some node => node.dependents
  | none => []

def hasEdge (source target : String) : Bool :=
  (g.dependenciesOf source).contains target

def edgeCount : Nat := total (fun n => n.dependencies.length) g.nodes.values

def isInCycle (path : String) : Bool := g.cycles.any fun c => c.contains path

/-- Whether the two directions agree: a module imports another iff the other lists it as a
dependent. -/
def isConsistent : Bool :=
  let agrees (list back : ImportNode → List String) : Bool :=
    g.nodes.values.all fun node =>
      (list node).all fun other =>
        match g.nodes.get? other with
        | some n => (back n).contains node.path
        | none => false
  agrees ImportNode.dependencies ImportNode.dependents &&
    agrees ImportNode.dependents ImportNode.dependencies

end ImportGraph

end Ripple
