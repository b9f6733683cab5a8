/-!
# Words in Bytes

Words of several bytes are read from byte strings. A place beyond the end
reads as zero.
-/

namespace Ripple.Digest

variable (b : ByteArray)

def byteAt (i : Nat) : UInt8 := if h : i < b.size then b[i] else 0

/-- The word of four bytes from a place on, lowest byte first. -/
def littleWord32 (i : Nat) : UInt32 :=
  (byteAt b i).toUInt32 ||| ((byteAt b (i + 1)).toUInt32 <<< 8) |||
    ((byteAt b (i + 2)).toUInt32 <<< 16) ||| ((byteAt b (i + 3)).toUInt32 <<< 24)

/-- The word of eight bytes from a place on, lowest byte first. -/
def littleWord64 (i : Nat) : UInt64 :=
  (littleWord32 b i).toUInt64 ||| ((littleWord32 b (i + 4)).toUInt64 <<< 32)

/-- The word of four bytes from a place on, highest byte first. -/
def bigWord32 (i : Nat) : UInt32 :=
  ((byteAt b i).toUInt32 <<< 24) ||| ((byteAt b (i + 1)).toUInt32 <<< 16) |||
    ((byteAt b (i + 2)).toUInt32 <<< 8) ||| (byteAt b (i + 3)).toUInt32

end Ripple.Digest
