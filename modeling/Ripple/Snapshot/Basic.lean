import Ripple.Graph.Basic
import Ripple.Outline.Basic
import Ripple.Text.Digits

/-!
# Snapshots

A snapshot is the state of a project at one time: what is known of each file,
the outline of each file, and the import graph. Snapshots are known by ids
that begin with the time of the snapshot, so that the order of ids is the
order of time.
-/

namespace Ripple

structure FileRecord where
  path : String
  hash : String
  size : UInt64
  lineCount : UInt64
  language : String
  /-- When the file was changed, in milliseconds. -/
  lastModified : Int64
  /-- When the file was looked at, in milliseconds. -/
  indexedAt : Int64
deriving DecidableEq, Repr

/-- The state of a project at one time. -/
structure Snapshot where
  id : String
  timestamp : Int64
  files : Dict String FileRecord
  outlines : Dict String Outline
  graph : ImportGraph
deriving DecidableEq

/-- A commit of a version control system. -/
structure Commit where
  hash : String
  message : String
  author : String
  /-- When it was made, in seconds. -/
  timestamp : Int64
deriving DecidableEq, Repr

/-- What was added to a snapshot later. -/
structure SnapshotNotes where
  snapshotId : String
  tags : List String
  description : Option String
  commit : Option Commit
deriving DecidableEq, Repr

def SnapshotNotes.none (id : String) : SnapshotNotes := ⟨id, [], .none, .none⟩

/-- An integer in thirteen places, filled up with zeros after the sign. -/
def paddedTime (time : Int64) : String :=
  match time.toInt with
  | .ofNat n => paddedDigits 13 n
  | .negSucc n => "-" ++ paddedDigits 12 (n + 1)

namespace Snapshot

def empty (id : String) (timestamp : Int64) : Snapshot := ⟨id, timestamp, .empty, .empty, .empty⟩

/-- The id of a snapshot from its time and a suffix. -/
def makeId (timestamp : Int64) (suffix : String) : String := paddedTime timestamp ++ "-" ++ suffix

/-- The time in the id of a snapshot. -/
def idTime? (id : String) : Option Int64 := int64OfText? (id.toList.takeWhile (· ≠ '-'))

variable (s : Snapshot)

def paths : List String := sortedSet (s.files.keys ++ s.outlines.keys)

def functionCount : Nat :=
  total (fun o => (o.declarations.filter fun d => d.kind = .function).length) s.outlines.values

def totalLines : UInt64 := s.files.values.foldl (fun n f => n + f.lineCount) 0

/-- The outline of a file; a file without one has an outline without content. -/
def outlineOf (path : String) : Outline :=
  (s.outlines.get? path).getD
    (.empty path (((s.files.get? path).map (·.hash)).getD ""))

end Snapshot

end Ripple
