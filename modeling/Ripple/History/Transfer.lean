import Ripple.History.Basic
import Ripple.Text.Moment

/-!
# Snapshots as Files

A snapshot with its notes in one file, to be taken to another store. The file
is packed if its name says so. A snapshot is taken in only if there is none
with its id yet, and nothing is stored before that is known.
-/

namespace Ripple

open Json

structure ExportedSnapshot where
  version : UInt32
  exportedAt : String
  snapshot : Snapshot
  notes : SnapshotNotes

def exportVersion : UInt32 := 1

namespace ExportedSnapshot

def toJson (e : ExportedSnapshot) : Json :=
  .object
    [("format_version", ofNat e.version.toNat), ("exported_at", .text e.exportedAt),
      ("snapshot", e.snapshot.toJson), ("metadata", e.notes.toJson)]

def ofJson? : Json → Option ExportedSnapshot := record? 4 fun r => do
  let version ← r.required 0 "format_version" uint32?
  let exportedAt ← r.required 1 "exported_at" text?
  let snapshot ← r.required 2 "snapshot" Snapshot.ofJson?
  let notes ← r.required 3 "metadata" SnapshotNotes.ofJson?
  return ⟨version, exportedAt, snapshot, notes⟩

end ExportedSnapshot

def isPackedFile (path : String) : Bool := Path.extension? path = some "gz"

namespace History

variable {σ : Type} [BlobStore σ]

def exported (store : σ) (id path : String) (now : Int64) : Except Error ByteArray := do
  let s ← load store id
  let e : ExportedSnapshot := ⟨exportVersion, momentText now, s, notes store id⟩
  let bytes := Store.bytesOfJson e.toJson
  return if isPackedFile path then Packing.gzip bytes else bytes

def readExported (path : String) (content : ByteArray) : Except Error ExportedSnapshot := do
  let bytes ←
    if isPackedFile path then
      match Packing.gunzip? content with
      | some bytes => .ok bytes
      | none => .error .undecodable
    else .ok content
  match (Store.jsonOfBytes? bytes).bind ExportedSnapshot.ofJson? with
  | none => .error .malformed
  | some e => if exportVersion < e.version then .error (.unknownVersion e.version) else .ok e

/-- Takes in the content of a file, and says which snapshot it was. -/
def importFrom (path : String) (content : ByteArray) : Job σ String := do
  let e ← Job.inspect fun _ => readExported path content
  if ← Job.inspect fun s => contains s e.snapshot.id then
    throw (.snapshotExists e.snapshot.id)
  else
    save e.snapshot
    saveNotes { e.notes with snapshotId := e.snapshot.id }
    return e.snapshot.id

end History

end Ripple
