import Ripple.Store.Directory
import Ripple.Store.Memory

/-!
# Stores of Either Kind

A store that is in memory or in a directory, for a program that learns only
when it runs which one it is to use. Every operation is the one of the store
that is there.
-/

namespace Ripple

inductive EitherStore where
  | memory (store : MemoryStore)
  | directory (store : DirectoryStore)

namespace EitherStore

/-- The store after an operation on the part that is there. -/
def after {ρ α : Type} (wrap : ρ → EitherStore) (done : α × ρ) : α × EitherStore :=
  (done.1, wrap done.2)

instance : BlobStore EitherStore where
  get
    | memory s, key => BlobStore.get s key
    | directory s, key => BlobStore.get s key
  put
    | memory s, key, bytes => after memory (BlobStore.put s key bytes)
    | directory s, key, bytes => after directory (BlobStore.put s key bytes)
  list
    | memory s, front => BlobStore.list s front
    | directory s, front => BlobStore.list s front
  delete
    | memory s, key => after memory (BlobStore.delete s key)
    | directory s, key => after directory (BlobStore.delete s key)

/-- All keys, also those of unfinished values. -/
def keys : EitherStore → List String
  | memory s => s.blobs.keys
  | directory s =>
    match s.disk.at? s.root with
    | .ok node => sortedSet ((FileTree.allFiles [] node).map Path.ofSegments)
    | .error _ => []

end EitherStore

end Ripple
