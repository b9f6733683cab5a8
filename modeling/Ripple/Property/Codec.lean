import Ripple.Json.Basic
import Ripple.Property.Basic

/-!
# Stored Property Graphs

The stored form of property graphs and their parts.
-/

namespace Ripple

open Json

namespace NodeKind

def ofJson? (j : Json) : Option NodeKind := j.variant?.bind fun s => all.find? fun k => k.text = s

end NodeKind

namespace Relation

def ofJson? (j : Json) : Option Relation := j.variant?.bind fun s => all.find? fun k => k.text = s

end Relation

namespace PropertyNode

def toJson (n : PropertyNode) : Json :=
  .object
    [("id", .text n.id), ("kind", .text n.kind.text), ("name", .text n.name),
      ("file", .text n.file), ("line", ofUInt64 n.line), ("exported", .bool n.exported)]

instance : ToJson PropertyNode := ⟨PropertyNode.toJson⟩

def ofJson? : Json → Option PropertyNode := record? 6 fun r => do
  let id ← r.required 0 "id" text?
  let kind ← r.required 1 "kind" NodeKind.ofJson?
  let name ← r.required 2 "name" text?
  let file ← r.required 3 "file" text?
  let line ← r.withDefault 4 "line" uint64? 0
  let exported ← r.withDefault 5 "exported" bool? false
  return ⟨id, kind, name, file, line, exported⟩

end PropertyNode

namespace Link

def toJson (l : Link) : Json :=
  .object [("from", .text l.source), ("to", .text l.target), ("kind", .text l.relation.text)]

def ofJson? : Json → Option Link := record? 3 fun r => do
  let source ← r.required 0 "from" text?
  let target ← r.required 1 "to" text?
  let relation ← r.required 2 "kind" Relation.ofJson?
  return ⟨source, target, relation⟩

end Link

namespace PropertyGraph

def toJson (g : PropertyGraph) : Json :=
  .object
    [("nodes", ofDict PropertyNode.toJson g.nodes), ("edges", .list (g.links.map Link.toJson)),
      ("file_index", ofDict ofTexts g.fileIndex)]

instance : ToJson PropertyGraph := ⟨PropertyGraph.toJson⟩

def ofJson? : Json → Option PropertyGraph := record? 3 fun r => do
  let nodes ← r.required 0 "nodes" (dictOf? PropertyNode.ofJson?)
  let links ← r.required 1 "edges" (listOf? Link.ofJson?)
  let fileIndex ← r.required 2 "file_index" (dictOf? texts?)
  return ⟨nodes, links, fileIndex⟩

instance : OfJson PropertyGraph := ⟨PropertyGraph.ofJson?⟩

end PropertyGraph

end Ripple
