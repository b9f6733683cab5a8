import Ripple.Graph.Codec
import Ripple.Outline.Codec
import Ripple.Snapshot.Basic

/-!
# Stored Snapshots

The stored form of snapshots and of what belongs to them.
-/

namespace Ripple

open Json

namespace FileRecord

def toJson (f : FileRecord) : Json :=
  .object
    [("path", .text f.path), ("hash", .text f.hash), ("size", ofUInt64 f.size),
      ("line_count", ofUInt64 f.lineCount), ("language", .text f.language),
      ("last_modified", ofInt64 f.lastModified), ("indexed_at", ofInt64 f.indexedAt)]

instance : ToJson FileRecord := ⟨FileRecord.toJson⟩

def ofJson? : Json → Option FileRecord := record? 7 fun r => do
  let path ← r.required 0 "path" text?
  let hash ← r.required 1 "hash" text?
  let size ← r.required 2 "size" uint64?
  let lineCount ← r.required 3 "line_count" uint64?
  let language ← r.required 4 "language" text?
  let lastModified ← r.required 5 "last_modified" int64?
  let indexedAt ← r.required 6 "indexed_at" int64?
  return ⟨path, hash, size, lineCount, language, lastModified, indexedAt⟩

instance : OfJson FileRecord := ⟨FileRecord.ofJson?⟩

end FileRecord

namespace Snapshot

def toJson (s : Snapshot) : Json :=
  .object
    [("id", .text s.id), ("timestamp", ofInt64 s.timestamp),
      ("files", ofDict FileRecord.toJson s.files), ("asts", ofDict Outline.toJson s.outlines),
      ("graph", s.graph.toJson)]

instance : ToJson Snapshot := ⟨Snapshot.toJson⟩

def ofJson? : Json → Option Snapshot := record? 5 fun r => do
  let id ← r.required 0 "id" text?
  let timestamp ← r.required 1 "timestamp" int64?
  let files ← r.withDefault 2 "files" (dictOf? FileRecord.ofJson?) .empty
  let outlines ← r.withDefault 3 "asts" (dictOf? Outline.ofJson?) .empty
  let graph ← r.withDefault 4 "graph" ImportGraph.ofJson? .empty
  return ⟨id, timestamp, files, outlines, graph⟩

instance : OfJson Snapshot := ⟨Snapshot.ofJson?⟩

end Snapshot

namespace Commit

def toJson (c : Commit) : Json :=
  .object
    [("hash", .text c.hash), ("message", .text c.message), ("author", .text c.author),
      ("timestamp", ofInt64 c.timestamp)]

instance : ToJson Commit := ⟨Commit.toJson⟩

def ofJson? : Json → Option Commit := record? 4 fun r => do
  let hash ← r.required 0 "hash" text?
  let message ← r.withDefault 1 "message" text? ""
  let author ← r.withDefault 2 "author" text? ""
  let timestamp ← r.withDefault 3 "timestamp" int64? 0
  return ⟨hash, message, author, timestamp⟩

end Commit

namespace SnapshotNotes

def toJson (n : SnapshotNotes) : Json :=
  .object
    ([("snapshot_id", .text n.snapshotId), ("tags", ofTexts n.tags)] ++
      field? "description" .text n.description ++ field? "commit" Commit.toJson n.commit)

instance : ToJson SnapshotNotes := ⟨SnapshotNotes.toJson⟩

def ofJson? : Json → Option SnapshotNotes := record? 4 fun r => do
  let snapshotId ← r.required 0 "snapshot_id" text?
  let tags ← r.withDefault 1 "tags" texts? []
  let description ← r.optional 2 "description" text?
  let commit ← r.optional 3 "commit" Commit.ofJson?
  return ⟨snapshotId, tags, description, commit⟩

instance : OfJson SnapshotNotes := ⟨SnapshotNotes.ofJson?⟩

end SnapshotNotes

end Ripple
