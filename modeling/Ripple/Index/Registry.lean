import Ripple.Digest.Basic
import Ripple.Store.Basic
import Ripple.Store.Keys

/-!
# Digests of Files

The digest of each file of a project, as of the last time the file was
looked at. The registry is stored as a whole, and only if it was changed. A
stored registry that cannot be read counts as empty, so every file then
counts as changed.
-/

namespace Ripple

structure HashRegistry where
  kind : DigestKind
  entries : Dict String String
  /-- Whether there are changes that are not stored. -/
  dirty : Bool

namespace HashRegistry

variable {σ : Type} [BlobStore σ]

def ofStore (store : σ) (kind : DigestKind) : HashRegistry :=
  ⟨kind, (Store.readJson? (Json.dictOf? Json.text?) store Keys.hashes).getD .empty, false⟩

variable (r : HashRegistry)

/-- Whether a digest is new for a file. -/
def hasChanged (path hash : String) : Bool := r.entries.get? path ≠ some hash

def update (path hash : String) : HashRegistry :=
  if r.hasChanged path hash then
    { r with entries := r.entries.insert path hash, dirty := true }
  else r

def remove (path : String) : HashRegistry :=
  { r with entries := r.entries.erase path, dirty := r.dirty || r.entries.contains path }

/-- Keeps certain files only. -/
def retain (keep : String → Bool) : HashRegistry :=
  let entries := r.entries.filter fun path _ => keep path
  { r with entries := entries, dirty := r.dirty || entries.size ≠ r.entries.size }

def save : Job (HashRegistry × σ) Unit := do
  let r := (← get).1
  if r.dirty then
    Job.onSecond (Store.writeJson Keys.hashes (Json.ofDict .text r.entries))
    modify fun s => ({ s.1 with dirty := false }, s.2)

end HashRegistry

end Ripple
