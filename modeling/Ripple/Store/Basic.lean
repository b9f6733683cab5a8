import Ripple.Error
import Ripple.Json.Parser
import Ripple.Json.Printer
import Ripple.Packing.Gzip

/-!
# Stores

A store keeps bytes under keys. All that the library keeps goes through the
four operations of `BlobStore`, so that whatever is said about it for every
store holds for one in memory, for one in a directory, and for one that fails
at some point. A value replaces an earlier one as a whole.

Most values are stored as JSON, packed if their key says so. What cannot be
read is treated as if it were not there.
-/

namespace Ripple

/-- What a store can do. -/
class BlobStore (σ : Type) where
  get : σ → String → Except Error (Option ByteArray)
  put : σ → String → ByteArray → Except Error Unit × σ
  /-- The keys that begin with a text, in their order. -/
  list : σ → String → Except Error (List String)
  /-- Removes a key, and says whether it was there. -/
  delete : σ → String → Except Error Bool × σ

namespace Store

variable {σ : Type} [BlobStore σ]

def holds (store : σ) (key : String) : Except Error Bool :=
  (BlobStore.get store key).map Option.isSome

def get (key : String) : Job σ (Option ByteArray) := Job.inspect fun s => BlobStore.get s key

def put (key : String) (bytes : ByteArray) : Job σ Unit := fun s => BlobStore.put s key bytes

def delete (key : String) : Job σ Bool := fun s => BlobStore.delete s key

variable (key : String)

def isPacked : Bool := finishesWith key ".gz"

def jsonOfBytes? (bytes : ByteArray) : Option Json :=
  (String.fromUTF8? bytes).bind Json.parse?

def bytesOfJson (j : Json) : ByteArray := j.pretty.toUTF8

/-- The bytes of a value under a key, unpacked if they are packed. -/
def unpacked? (bytes : ByteArray) : Option ByteArray :=
  if isPacked key then Packing.gunzip? bytes else some bytes

/-- The bytes of a value under a key, packed if the key says so. -/
def packed (bytes : ByteArray) : ByteArray :=
  if isPacked key then Packing.gzip bytes else bytes

/-- The value under a key; none if it is not there or cannot be read. -/
def readJson? {α : Type} (read : Json → Option α) (store : σ) (key : String) : Option α :=
  match BlobStore.get store key with
  | .ok (some bytes) => ((unpacked? key bytes).bind jsonOfBytes?).bind read
  | _ => none

def writeJson (j : Json) : Job σ Unit := put key (packed key (bytesOfJson j))

end Store

end Ripple
