import Ripple.Digest.Bytes
import Ripple.Text.Hex

/-!
# SHA-256

The digest of 256 bits from FIPS 180-4. The bytes are padded to whole blocks
of 64 bytes; each block is expanded to 64 words that are mixed into a state
of eight words one after another.
-/

namespace Ripple.Digest

def shaConstants : Array UInt32 :=
  #[0x428a2f98, 0x71374491, 0xb5c0fbcf, 0xe9b5dba5, 0x3956c25b, 0x59f111f1, 0x923f82a4, 0xab1c5ed5,
    0xd807aa98, 0x12835b01, 0x243185be, 0x550c7dc3, 0x72be5d74, 0x80deb1fe, 0x9bdc06a7, 0xc19bf174,
    0xe49b69c1, 0xefbe4786, 0x0fc19dc6, 0x240ca1cc, 0x2de92c6f, 0x4a7484aa, 0x5cb0a9dc, 0x76f988da,
    0x983e5152, 0xa831c66d, 0xb00327c8, 0xbf597fc7, 0xc6e00bf3, 0xd5a79147, 0x06ca6351, 0x14292967,
    0x27b70a85, 0x2e1b2138, 0x4d2c6dfc, 0x53380d13, 0x650a7354, 0x766a0abb, 0x81c2c92e, 0x92722c85,
    0xa2bfe8a1, 0xa81a664b, 0xc24b8b70, 0xc76c51a3, 0xd192e819, 0xd6990624, 0xf40e3585, 0x106aa070,
    0x19a4c116, 0x1e376c08, 0x2748774c, 0x34b0bcb5, 0x391c0cb3, 0x4ed8aa4a, 0x5b9cca4f, 0x682e6ff3,
    0x748f82ee, 0x78a5636f, 0x84c87814, 0x8cc70208, 0x90befffa, 0xa4506ceb, 0xbef9a3f7, 0xc67178f2]

/-- The eight words that blocks are mixed into. -/
structure ShaState where
  a : UInt32
  b : UInt32
  c : UInt32
  d : UInt32
  e : UInt32
  f : UInt32
  g : UInt32
  h : UInt32

def ShaState.start : ShaState :=
  ⟨0x6a09e667, 0xbb67ae85, 0x3c6ef372, 0xa54ff53a, 0x510e527f, 0x9b05688c, 0x1f83d9ab, 0x5be0cd19⟩

def rotateRight (x : UInt32) (n : UInt32) : UInt32 := (x >>> n) ||| (x <<< (32 - n))

/-- Mixes one word into a state. -/
def ShaState.round (s : ShaState) (constant word : UInt32) : ShaState :=
  let s1 := rotateRight s.e 6 ^^^ rotateRight s.e 11 ^^^ rotateRight s.e 25
  let choice := (s.e &&& s.f) ^^^ ((~~~ s.e) &&& s.g)
  let t1 := s.h + s1 + choice + constant + word
  let s0 := rotateRight s.a 2 ^^^ rotateRight s.a 13 ^^^ rotateRight s.a 22
  let majority := (s.a &&& s.b) ^^^ (s.a &&& s.c) ^^^ (s.b &&& s.c)
  ⟨t1 + (s0 + majority), s.a, s.b, s.c, s.d + t1, s.e, s.f, s.g⟩

def ShaState.add (s t : ShaState) : ShaState :=
  ⟨s.a + t.a, s.b + t.b, s.c + t.c, s.d + t.d, s.e + t.e, s.f + t.f, s.g + t.g, s.h + t.h⟩

def wordAt (words : Array UInt32) (i : Nat) : UInt32 := words[i]?.getD 0

/-- Adds the next word to the expansion of a block. -/
def expandWord (words : Array UInt32) (i : Nat) : Array UInt32 :=
  let x := wordAt words (i - 15)
  let y := wordAt words (i - 2)
  let s0 := rotateRight x 7 ^^^ rotateRight x 18 ^^^ (x >>> 3)
  let s1 := rotateRight y 17 ^^^ rotateRight y 19 ^^^ (y >>> 10)
  words.push (wordAt words (i - 16) + s0 + wordAt words (i - 7) + s1)

variable (bytes : ByteArray)

/-- The expansion of the block from a place on. -/
def expandBlock (start : Nat) : Array UInt32 :=
  let first := (List.range 16).foldl (fun words i => words.push (bigWord32 bytes (start + 4 * i))) #[]
  (List.range' 16 48).foldl expandWord first

def ShaState.block (s : ShaState) (i : Nat) : ShaState :=
  let words := expandBlock bytes (64 * i)
  s.add ((List.range 64).foldl
    (fun t j => t.round (wordAt shaConstants j) (wordAt words j)) s)

/-- The bytes of a number, highest byte first. -/
def bigBytes : Nat → Nat → List UInt8
  | 0, _ => []
  | places + 1, n => bigBytes places (n / 256) ++ [UInt8.ofNat (n % 256)]

/-- Bytes padded to whole blocks: a one bit, zeros, and the number of bits. -/
def shaPad : ByteArray :=
  let zeros := (119 - bytes.size % 64) % 64
  (0x80 :: List.replicate zeros 0 ++ bigBytes 8 (8 * bytes.size)).foldl ByteArray.push bytes

def sha256 : String :=
  let padded := shaPad bytes
  let s := (List.range (padded.size / 64)).foldl (ShaState.block padded) .start
  String.join ([s.a, s.b, s.c, s.d, s.e, s.f, s.g, s.h].map fun w => hexText 8 w.toNat)

end Ripple.Digest
