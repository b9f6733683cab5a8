import Ripple.Snapshot.Codec

/-!
# Deltas

What changed from one snapshot to another, so that the second can be made
from the first. Of each file that changed the new state is kept as a whole,
and the import graph is kept only if it changed.
-/

namespace Ripple

open Json

/-- The state of one file in a snapshot. -/
structure FileEntry where
  record : Option FileRecord
  outline : Option Outline
deriving DecidableEq, Repr

structure Delta where
  fromId : String
  toId : String
  timestamp : Int64
  added : Dict String FileEntry
  modified : Dict String FileEntry
  removed : List String
  graph : Option ImportGraph
deriving DecidableEq

namespace Snapshot

def entry (s : Snapshot) (path : String) : FileEntry :=
  ⟨s.files.get? path, s.outlines.get? path⟩

def entries (s : Snapshot) (paths : List String) : Dict String FileEntry :=
  .ofList (paths.map fun path => (path, s.entry path))

def delta (first second : Snapshot) : Delta :=
  let before := first.paths
  let after := second.paths
  { fromId := first.id
    toId := second.id
    timestamp := second.timestamp
    added := second.entries (after.filter fun p => !before.contains p)
    modified := second.entries
      (after.filter fun p => before.contains p && first.entry p ≠ second.entry p)
    removed := before.filter fun p => !after.contains p
    graph := if first.graph = second.graph then none else some second.graph }

end Snapshot

/-- Sets the value of a key, or removes the key if there is no value. -/
def Dict.assign {α : Type} (d : Dict String α) (key : String) : Option α → Dict String α
  | some value => d.insert key value
  | none => d.erase key

namespace Delta

def changeCount (d : Delta) : Nat := d.added.size + d.modified.size + d.removed.length

def isEmpty (d : Delta) : Bool := d.changeCount = 0 && d.graph.isNone

/-- The snapshot that a delta leads to; there is none if the delta starts at another snapshot. -/
def applyTo? (d : Delta) (base : Snapshot) : Option Snapshot :=
  if base.id ≠ d.fromId then none
  else
    let entries := d.added.toList ++ d.modified.toList
    some
      { id := d.toId
        timestamp := d.timestamp
        files := entries.foldl (fun files (path, e) => files.assign path e.record)
          (d.removed.foldl Dict.erase base.files)
        outlines := entries.foldl (fun outlines (path, e) => outlines.assign path e.outline)
          (d.removed.foldl Dict.erase base.outlines)
        graph := d.graph.getD base.graph }

end Delta

namespace FileEntry

def toJson (e : FileEntry) : Json :=
  .object (field? "metadata" FileRecord.toJson e.record ++ field? "ast" Outline.toJson e.outline)

def ofJson? : Json → Option FileEntry := record? 2 fun r => do
  let record ← r.optional 0 "metadata" FileRecord.ofJson?
  let outline ← r.optional 1 "ast" Outline.ofJson?
  return ⟨record, outline⟩

end FileEntry

namespace Delta

def toJson (d : Delta) : Json :=
  .object
    ([("from_id", .text d.fromId), ("to_id", .text d.toId), ("timestamp", ofInt64 d.timestamp),
        ("added", ofDict FileEntry.toJson d.added),
        ("modified", ofDict FileEntry.toJson d.modified), ("removed", ofTexts d.removed)] ++
      field? "graph" ImportGraph.toJson d.graph)

instance : ToJson Delta := ⟨Delta.toJson⟩

def ofJson? : Json → Option Delta := record? 7 fun r => do
  let fromId ← r.required 0 "from_id" text?
  let toId ← r.required 1 "to_id" text?
  let timestamp ← r.required 2 "timestamp" int64?
  let added ← r.withDefault 3 "added" (dictOf? FileEntry.ofJson?) .empty
  let modified ← r.withDefault 4 "modified" (dictOf? FileEntry.ofJson?) .empty
  let removed ← r.withDefault 5 "removed" texts? []
  let graph ← r.optional 6 "graph" ImportGraph.ofJson?
  return ⟨fromId, toId, timestamp, added, modified, removed, graph⟩

instance : OfJson Delta := ⟨Delta.ofJson?⟩

end Delta

end Ripple
