import Ripple.Store.Basic

/-!
# Stores in Memory

A store that takes any key and never fails.
-/

namespace Ripple

structure MemoryStore where
  blobs : Dict String ByteArray

namespace MemoryStore

def empty : MemoryStore := ⟨.empty⟩

instance : BlobStore MemoryStore where
  get s key := .ok (s.blobs.get? key)
  put s key bytes := (.ok (), ⟨s.blobs.insert key bytes⟩)
  list s front := .ok (s.blobs.keys.filter fun key => beginsWith key front)
  delete s key := (.ok (s.blobs.contains key), ⟨s.blobs.erase key⟩)

end MemoryStore

end Ripple
