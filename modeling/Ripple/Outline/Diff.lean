import Ripple.Outline.Change

/-!
# Comparing Outlines

Two versions of a file are compared declaration by declaration. A
declaration is known by its key, and the first of a file with a key stands
for all others with it. Files with equal hashes are equal.
-/

namespace Ripple

open Json

structure ModifiedDeclaration where
  key : DeclarationKey
  old : Declaration
  new : Declaration
  changes : List DeclarationChange
deriving DecidableEq, Repr

structure OutlineDiff where
  path : String
  added : List Declaration
  removed : List Declaration
  modified : List ModifiedDeclaration
  unchanged : List DeclarationKey
deriving DecidableEq, Repr

namespace OutlineDiff

def isEmpty (d : OutlineDiff) : Bool := d.added.isEmpty && d.removed.isEmpty && d.modified.isEmpty

def tags (d : OutlineDiff) : List String :=
  d.modified.flatMap fun m => m.changes.map fun c => m.key.text ++ ":" ++ c.tag

end OutlineDiff

namespace Outline

/-- The declarations of a file by key; of equal keys the first one counts. -/
def index (o : Outline) : Dict DeclarationKey Declaration :=
  .ofList (o.declarations.reverse.map fun d => (d.key, d))

def diff (old new : Outline) : OutlineDiff :=
  if old.hash = new.hash then
    ⟨new.path, [], [], [], new.index.keys⟩
  else
    let before := old.index
    let after := new.index
    { path := new.path
      added := (after.filter fun key _ => !before.contains key).values
      removed := (before.filter fun key _ => !after.contains key).values
      modified := before.toList.filterMap fun (key, a) =>
        (after.get? key).bind fun b =>
          match declarationChanges a b with
          | [] => none
          | changes => some ⟨key, a, b, changes⟩
      unchanged := (before.filter fun key a =>
        match after.get? key with
        | some b => (declarationChanges a b).isEmpty
        | none => false).keys }

/-- The share of declarations that two versions have in common. -/
def similarity (old new : Outline) : Float :=
  let size := max (max old.index.size new.index.size) 1
  (old.diff new).unchanged.length.toFloat / size.toFloat

end Outline

namespace ModifiedDeclaration

def toJson (m : ModifiedDeclaration) : Json :=
  .object
    [("key", m.key.toJson), ("old", m.old.toJson), ("new", m.new.toJson),
      ("changes", .list (m.changes.map DeclarationChange.toJson))]

def ofJson? : Json → Option ModifiedDeclaration := record? 4 fun r => do
  let key ← r.required 0 "key" DeclarationKey.ofJson?
  let old ← r.required 1 "old" Declaration.ofJson?
  let new ← r.required 2 "new" Declaration.ofJson?
  let changes ← r.required 3 "changes" (listOf? DeclarationChange.ofJson?)
  return ⟨key, old, new, changes⟩

end ModifiedDeclaration

namespace OutlineDiff

def toJson (d : OutlineDiff) : Json :=
  .object
    [("file_path", .text d.path), ("added", .list (d.added.map Declaration.toJson)),
      ("removed", .list (d.removed.map Declaration.toJson)),
      ("modified", .list (d.modified.map ModifiedDeclaration.toJson)),
      ("unchanged", .list (d.unchanged.map DeclarationKey.toJson))]

instance : ToJson OutlineDiff := ⟨OutlineDiff.toJson⟩

def ofJson? : Json → Option OutlineDiff := record? 5 fun r => do
  let path ← r.required 0 "file_path" text?
  let added ← r.required 1 "added" (listOf? Declaration.ofJson?)
  let removed ← r.required 2 "removed" (listOf? Declaration.ofJson?)
  let modified ← r.required 3 "modified" (listOf? ModifiedDeclaration.ofJson?)
  let unchanged ← r.required 4 "unchanged" (listOf? DeclarationKey.ofJson?)
  return ⟨path, added, removed, modified, unchanged⟩

instance : OfJson OutlineDiff := ⟨OutlineDiff.ofJson?⟩

end OutlineDiff

end Ripple
