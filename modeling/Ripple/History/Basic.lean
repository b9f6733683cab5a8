import Ripple.Config
import Ripple.Snapshot.Codec
import Ripple.Store.Basic
import Ripple.Store.Keys

/-!
# The History of a Project

The snapshots in a store. A snapshot is kept plain or packed, and a reader
does not see which; of two forms of one snapshot the plain one counts. Ids
come in the order of time, the oldest first.

Notes on a snapshot are kept apart from it, so that tagging a snapshot never
touches it.
-/

namespace Ripple

structure SnapshotSummary where
  id : String
  timestamp : Int64
  compressed : Bool
  tags : List String
  description : Option String
  commitHash : Option String
deriving DecidableEq, Repr

structure Page (α : Type) where
  items : List α
  total : Nat
  offset : Nat
  limit : Nat

namespace SnapshotSummary

def toJson (s : SnapshotSummary) : Json :=
  .object
    ([("id", .text s.id), ("timestamp", Json.ofInt64 s.timestamp),
        ("compressed", .bool s.compressed), ("tags", Json.ofTexts s.tags)] ++
      Json.field? "description" .text s.description ++
      Json.field? "commit_hash" .text s.commitHash)

instance : ToJson SnapshotSummary := ⟨SnapshotSummary.toJson⟩

end SnapshotSummary

def Page.ofList {α : Type} (items : List α) (offset limit : Nat) : Page α :=
  ⟨(items.drop offset).take limit, items.length, offset, limit⟩

def Page.toJson {α : Type} (write : α → Json) (p : Page α) : Json :=
  .object
    [("items", .list (p.items.map write)), ("total", Json.ofNat p.total),
      ("offset", Json.ofNat p.offset), ("limit", Json.ofNat p.limit)]

instance {α : Type} [ToJson α] : ToJson (Page α) := ⟨Page.toJson Json.of⟩

namespace History

variable {σ : Type} [BlobStore σ]

def save (s : Snapshot) : Job σ Unit := Store.writeJson (Keys.snapshot s.id false) s.toJson

variable (store : σ) (id : String)

def loadForm (packed : Bool) : Except Error Snapshot :=
  match Store.readJson? Snapshot.ofJson? store (Keys.snapshot id packed) with
  | some s => .ok s
  | none => .error (.unreadableSnapshot id)

def load : Except Error Snapshot := do
  if ← Store.holds store (Keys.snapshot id false) then loadForm store id false
  else if ← Store.holds store (Keys.snapshot id true) then loadForm store id true
  else .error (.snapshotNotFound id)

def contains : Except Error Bool := do
  if ← Store.holds store (Keys.snapshot id false) then return true
  else Store.holds store (Keys.snapshot id true)

def ids : Except Error (List String) :=
  (BlobStore.list store Keys.snapshots).map fun keys =>
    sortedSet (keys.filterMap Keys.snapshotOfKey?)

def load? : Option Snapshot := (load store id).toOption

/-- The newest snapshot that can be read. -/
def latest : Except Error (Option Snapshot) :=
  (ids store).map fun ids => ids.reverse.findSome? (load? store)

def loadAll : Except Error (List Snapshot) :=
  (ids store).map fun ids => ids.filterMap (load? store)

def notes (store : σ) (id : String) : SnapshotNotes :=
  (Store.readJson? SnapshotNotes.ofJson? store (Keys.notes id)).getD (.none id)

def saveNotes (n : SnapshotNotes) : Job σ Unit := Store.writeJson (Keys.notes n.snapshotId) n.toJson

def addTags (tags new : List String) : List String :=
  new.foldl (fun tags t => if tags.contains t then tags else tags ++ [t]) tags

/-- Notes with further tags and another description, if there is one. -/
def amend (n : SnapshotNotes) (tags : List String) (description : Option String) : SnapshotNotes :=
  { n with
    tags := addTags n.tags tags
    description := match description with
      | some d => some d
      | none => n.description }

/-- Adds tags to a snapshot, and describes it if there is a description. -/
def tag (tags : List String) (description : Option String) : Job σ SnapshotNotes := do
  if ← Job.inspect fun s => contains s id then
    let n ← Job.inspect fun s => .ok (amend (notes s id) tags description)
    saveNotes n
    return n
  else throw (.snapshotNotFound id)

/-- Removes a snapshot and its notes, and says whether there was a snapshot. -/
def remove : Job σ Bool := do
  let plain ← Store.delete (Keys.snapshot id false)
  let packed ← Store.delete (Keys.snapshot id true)
  let _ ← Store.delete (Keys.notes id)
  return plain || packed

def summary : Except Error SnapshotSummary := do
  let n := notes store id
  let compressed ← Store.holds store (Keys.snapshot id true)
  return ⟨id, (Snapshot.idTime? id).getD 0, compressed, n.tags, n.description,
    n.commit.map (·.hash)⟩

/-- Whether a snapshot has a tag, if one is asked for. -/
def hasTag (tag : Option String) (id : String) : Bool :=
  match tag with
  | none => true
  | some t => (notes store id).tags.contains t

/-- A part of the list of snapshots, the newest first. -/
def page (offset limit : Nat) (tag : Option String) : Except Error (Page SnapshotSummary) := do
  let found := (← ids store).reverse.filter (hasTag store tag)
  return Page.ofList (← found.mapM (summary store)) offset limit

end History

end Ripple
