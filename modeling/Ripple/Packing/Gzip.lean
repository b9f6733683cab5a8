import Ripple.Packing.Inflate

/-!
# Gzip Files

The file format of RFC 1952. A file is a header, a compressed stream, and the
checksum and size of what was compressed. Bytes are packed in blocks that
hold them as they are; any stream is unpacked. What follows the first member
of a file is passed over.
-/

namespace Ripple.Packing

def crcStep (c : UInt32) : UInt32 :=
  if c &&& 1 = 1 then (0xedb88320 : UInt32) ^^^ (c >>> 1) else c >>> 1

/-- Takes one byte into the checksum. -/
def crcByte (c : UInt32) (b : UInt8) : UInt32 :=
  let c := c ^^^ b.toUInt32
  crcStep (crcStep (crcStep (crcStep (crcStep (crcStep (crcStep (crcStep c)))))))

variable (bytes : List UInt8)

def crc32 : UInt32 := ~~~ (bytes.foldl crcByte 0xffffffff)

/-- The bytes of a number, lowest byte first. -/
def littleBytes : Nat → Nat → List UInt8
  | 0, _ => []
  | places + 1, n => UInt8.ofNat (n % 256) :: littleBytes places (n / 256)

/-- The value of some bytes, lowest byte first. -/
def littleValue : List UInt8 → Nat
  | [] => 0
  | b :: rest => b.toNat + 256 * littleValue rest

/-- The most bytes that a block holds as they are. -/
def maxStored : Nat := 65535

/-- Bytes in blocks that hold them as they are; there are no more blocks than bytes. -/
def storedBlocks : Nat → List UInt8 → List UInt8
  | 0, _ => []
  | fuel + 1, bytes =>
    let chunk := bytes.take maxStored
    let rest := bytes.drop maxStored
    let length := chunk.length
    let header (last : UInt8) : List UInt8 :=
      last :: littleBytes 2 length ++ littleBytes 2 (65535 - length)
    if rest.isEmpty then header 1 ++ chunk
    else header 0 ++ chunk ++ storedBlocks fuel rest

def gzipHeader : List UInt8 := [0x1f, 0x8b, 8, 0, 0, 0, 0, 0, 0, 255]

def gzipBytes : List UInt8 :=
  gzipHeader ++ storedBlocks (bytes.length + 1) bytes ++
    littleBytes 4 (crc32 bytes).toNat ++ littleBytes 4 bytes.length

/-- Passes over a text that ends with a zero byte. -/
def skipText? : List UInt8 → Option (List UInt8)
  | [] => none
  | b :: rest => if b = 0 then some rest else skipText? rest

def skipHeader? : Option (List UInt8) := do
  match bytes with
  | 0x1f :: 0x8b :: 8 :: flags :: _ :: _ :: _ :: _ :: _ :: _ :: rest =>
    if flags &&& 0xe0 ≠ 0 then none
    let rest ← if flags &&& 4 = 0 then some rest else
      match rest with
      | a :: b :: rest =>
        let length := a.toNat + 256 * b.toNat
        if rest.length < length then none else some (rest.drop length)
      | _ => none
    let rest ← if flags &&& 8 = 0 then some rest else skipText? rest
    let rest ← if flags &&& 16 = 0 then some rest else skipText? rest
    if flags &&& 2 = 0 then some rest else
      match rest with
      | a :: b :: tail =>
        let header := bytes.take (bytes.length - rest.length)
        if (crc32 header).toNat % 65536 = a.toNat + 256 * b.toNat then some tail else none
      | _ => none
  | _ => none

def gunzipBytes? : Option ByteArray := do
  let body ← skipHeader? bytes
  let (out, rest) ← inflate? body
  let trailer := rest.take 8
  if trailer.length < 8 then none
  else if littleValue (trailer.take 4) ≠ (crc32 out.data.toList).toNat then none
  else if littleValue (trailer.drop 4) ≠ out.size % UInt32.size then none
  else some out

def gzip (bytes : ByteArray) : ByteArray := ⟨(gzipBytes bytes.data.toList).toArray⟩

def gunzip? (bytes : ByteArray) : Option ByteArray := gunzipBytes? bytes.data.toList

end Ripple.Packing
