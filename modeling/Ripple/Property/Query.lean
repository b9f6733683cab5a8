import Ripple.Graph.Impact
import Ripple.Property.Basic

/-!
# Questions to Property Graphs

A question names a node by its id, by the path of a file, or by the name of
declarations. Paths follow every relation except the order within a file;
components are formed by calls and imports.
-/

namespace Ripple.PropertyGraph

variable (g : PropertyGraph)

/-- The ids that a question means. -/
def resolve (query : String) : List String :=
  if g.nodes.contains query then [query]
  else if g.nodes.contains (fileId query) then [fileId query]
  else (g.nodes.values.filter fun n => n.kind ≠ .file && n.name = query).map (·.id)

def nodesAt (ids : List String) : List PropertyNode :=
  (sortedSet ids).filterMap g.nodes.get?

def linksOf (relation : Relation) : List Link :=
  g.links.filter fun l => l.relation = relation

def callers (query : String) : List PropertyNode :=
  let targets := g.resolve query
  g.nodesAt (((g.linksOf .calls).filter fun l => targets.contains l.target).map (·.source))

def callees (query : String) : List PropertyNode :=
  let sources := g.resolve query
  g.nodesAt (((g.linksOf .calls).filter fun l => sources.contains l.source).map (·.target))

/-- The nodes after a node by any relation except order, ascending. -/
def successors (id : String) : List String :=
  sortedSet ((g.links.filter fun l => l.source = id && l.relation ≠ .precedes).map (·.target))

/-- The paths from what one question means to what another means, with a bounded number of
links. -/
def paths (source target : String) (maxDepth : Nat) : List (List String) :=
  let targets := g.resolve target
  let table := Dict.ofList ((g.links.map (·.source)).map fun id => (id, g.successors id))
  flatMapUpTo ImportGraph.maxPaths
    (fun id limit => pathsUpTo (fun x => table.getD x []) targets.contains maxDepth [id] limit)
    (g.resolve source)

/-- The nodes that a node calls or imports. -/
def uses (id : String) : List String :=
  (g.links.filter fun l => l.source = id && (l.relation = .calls || l.relation = .imports)).map
    (·.target)

/-- Sets of two or more nodes that all reach each other by calls and imports. -/
def components (g : PropertyGraph) : List (List String) :=
  Ripple.components g.nodes.keys g.uses

/-- The declarations of other files that call one of some names declared in a file. -/
def externalCallers (file : String) (names : List String) : List PropertyNode :=
  let targets := (g.fileIndex.getD file []).filter fun id =>
    match g.nodes.get? id with
    | some n => names.contains n.name
    | none => false
  (g.nodesAt (((g.linksOf .calls).filter fun l => targets.contains l.target).map (·.source))).filter
    fun n => n.file ≠ file

end Ripple.PropertyGraph
