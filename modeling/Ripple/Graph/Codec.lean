import Ripple.Graph.Impact
import Ripple.Json.Basic

/-!
# Stored Graphs

The stored form of import graphs, and of what a change affects.
-/

namespace Ripple

open Json

namespace ImportNode

def toJson (n : ImportNode) : Json :=
  .object
    [("path", .text n.path), ("dependencies", ofTexts n.dependencies),
      ("dependents", ofTexts n.dependents), ("external", .bool n.external)]

instance : ToJson ImportNode := ⟨ImportNode.toJson⟩

def ofJson? : Json → Option ImportNode := record? 4 fun r => do
  let path ← r.required 0 "path" text?
  let dependencies ← r.withDefault 1 "dependencies" texts? []
  let dependents ← r.withDefault 2 "dependents" texts? []
  let external ← r.withDefault 3 "external" bool? false
  return ⟨path, dependencies, dependents, external⟩

instance : OfJson ImportNode := ⟨ImportNode.ofJson?⟩

end ImportNode

namespace ImportGraph

def toJson (g : ImportGraph) : Json :=
  .object
    [("nodes", ofDict ImportNode.toJson g.nodes), ("cycles", .list (g.cycles.map ofTexts)),
      ("external_imports", ofDict ofTexts g.externalImports)]

instance : ToJson ImportGraph := ⟨ImportGraph.toJson⟩

def ofJson? : Json → Option ImportGraph := record? 3 fun r => do
  let nodes ← r.withDefault 0 "nodes" (dictOf? ImportNode.ofJson?) .empty
  let cycles ← r.withDefault 1 "cycles" (listOf? texts?) []
  let externalImports ← r.withDefault 2 "external_imports" (dictOf? texts?) .empty
  return ⟨nodes, cycles, externalImports⟩

instance : OfJson ImportGraph := ⟨ImportGraph.ofJson?⟩

end ImportGraph

namespace Tier

def ofJson? (j : Json) : Option Tier :=
  j.variant?.bind fun s => [direct, circular, transitive].find? fun t => t.text = s

end Tier

namespace Impact

def toJson (i : Impact) : Json :=
  .object
    ([("changed_files", ofTexts i.changedFiles), ("affected_files", ofTexts i.affectedFiles),
        ("traversal_order", ofTexts i.traversalOrder), ("depths", ofDict ofNat i.depths),
        ("tiers", ofDict (fun t => .text t.text) i.tiers),
        ("circular_files", ofTexts i.circularFiles)] ++
      (if i.heatMap.isEmpty then [] else [("heat_map", ofDict .float i.heatMap)]) ++
      [("impact_score", .float i.impactScore)])

instance : ToJson Impact := ⟨Impact.toJson⟩

def ofJson? : Json → Option Impact := record? 8 fun r => do
  let changedFiles ← r.required 0 "changed_files" texts?
  let affectedFiles ← r.required 1 "affected_files" texts?
  let traversalOrder ← r.required 2 "traversal_order" texts?
  let depths ← r.required 3 "depths" (dictOf? fun j => j.uint64?.map UInt64.toNat)
  let tiers ← r.required 4 "tiers" (dictOf? Tier.ofJson?)
  let circularFiles ← r.required 5 "circular_files" texts?
  let heatMap ← r.withDefault 6 "heat_map" (dictOf? float?) .empty
  let impactScore ← r.required 7 "impact_score" float?
  return ⟨changedFiles, affectedFiles, traversalOrder, depths, tiers, circularFiles, heatMap,
    impactScore⟩

instance : OfJson Impact := ⟨Impact.ofJson?⟩

end Impact

namespace FileImpact

def toJson (i : FileImpact) : Json :=
  .object
    [("path", .text i.path), ("dependencies", ofTexts i.dependencies),
      ("dependents", ofTexts i.dependents), ("circular", .bool i.circular),
      ("heat_map", ofDict .float i.heatMap)]

instance : ToJson FileImpact := ⟨FileImpact.toJson⟩

def ofJson? : Json → Option FileImpact := record? 5 fun r => do
  let path ← r.required 0 "path" text?
  let dependencies ← r.required 1 "dependencies" texts?
  let dependents ← r.required 2 "dependents" texts?
  let circular ← r.required 3 "circular" bool?
  let heatMap ← r.required 4 "heat_map" (dictOf? float?)
  return ⟨path, dependencies, dependents, circular, heatMap⟩

instance : OfJson FileImpact := ⟨FileImpact.ofJson?⟩

end FileImpact

end Ripple
