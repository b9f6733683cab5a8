import Ripple.Digest.Bytes
import Ripple.Text.Hex

/-!
# XXH3

The fast digest XXH3 of 128 bits with its default secret. Short inputs are
mixed with the secret directly, in a way that depends on their length; longer
ones go through eight accumulators in stripes of 64 bytes.
-/

namespace Ripple.Digest

def xxhSecret : ByteArray := ⟨#[
  0xb8, 0xfe, 0x6c, 0x39, 0x23, 0xa4, 0x4b, 0xbe, 0x7c, 0x01, 0x81, 0x2c, 0xf7, 0x21, 0xad, 0x1c,
  0xde, 0xd4, 0x6d, 0xe9, 0x83, 0x90, 0x97, 0xdb, 0x72, 0x40, 0xa4, 0xa4, 0xb7, 0xb3, 0x67, 0x1f,
  0xcb, 0x79, 0xe6, 0x4e, 0xcc, 0xc0, 0xe5, 0x78, 0x82, 0x5a, 0xd0, 0x7d, 0xcc, 0xff, 0x72, 0x21,
  0xb8, 0x08, 0x46, 0x74, 0xf7, 0x43, 0x24, 0x8e, 0xe0, 0x35, 0x90, 0xe6, 0x81, 0x3a, 0x26, 0x4c,
  0x3c, 0x28, 0x52, 0xbb, 0x91, 0xc3, 0x00, 0xcb, 0x88, 0xd0, 0x65, 0x8b, 0x1b, 0x53, 0x2e, 0xa3,
  0x71, 0x64, 0x48, 0x97, 0xa2, 0x0d, 0xf9, 0x4e, 0x38, 0x19, 0xef, 0x46, 0xa9, 0xde, 0xac, 0xd8,
  0xa8, 0xfa, 0x76, 0x3f, 0xe3, 0x9c, 0x34, 0x3f, 0xf9, 0xdc, 0xbb, 0xc7, 0xc7, 0x0b, 0x4f, 0x1d,
  0x8a, 0x51, 0xe0, 0x4b, 0xcd, 0xb4, 0x59, 0x31, 0xc8, 0x9f, 0x7e, 0xc9, 0xd9, 0x78, 0x73, 0x64,
  0xea, 0xc5, 0xac, 0x83, 0x34, 0xd3, 0xeb, 0xc3, 0xc5, 0x81, 0xa0, 0xff, 0xfa, 0x13, 0x63, 0xeb,
  0x17, 0x0d, 0xdd, 0x51, 0xb7, 0xf0, 0xda, 0x49, 0xd3, 0x16, 0x55, 0x26, 0x29, 0xd4, 0x68, 0x9e,
  0x2b, 0x16, 0xbe, 0x58, 0x7d, 0x47, 0xa1, 0xfc, 0x8f, 0xf8, 0xb8, 0xd1, 0x7a, 0xd0, 0x31, 0xce,
  0x45, 0xcb, 0x3a, 0x8f, 0x95, 0x16, 0x04, 0x28, 0xaf, 0xd7, 0xfb, 0xca, 0xbb, 0x4b, 0x40, 0x7e]⟩

def secretWord (i : Nat) : UInt64 := littleWord64 xxhSecret i

def prime32A : UInt64 := 0x9E3779B1

def prime32B : UInt64 := 0x85EBCA77

def prime32C : UInt64 := 0xC2B2AE3D

def prime64A : UInt64 := 0x9E3779B185EBCA87

def prime64B : UInt64 := 0xC2B2AE3D27D4EB4F

def prime64C : UInt64 := 0x165667B19E3779F9

def prime64D : UInt64 := 0x85EBCA77C2B2AE63

def prime64E : UInt64 := 0x27D4EB2F165667C5

/-- The lower and the upper half of the product of two words. -/
def wideProduct (a b : UInt64) : UInt64 × UInt64 :=
  let p := a.toNat * b.toNat
  (UInt64.ofNat p, UInt64.ofNat (p / UInt64.size))

/-- Both halves of the product of two words in one word. -/
def foldedProduct (a b : UInt64) : UInt64 :=
  let (low, high) := wideProduct a b
  low ^^^ high

def avalanche (h : UInt64) : UInt64 :=
  let h := (h ^^^ (h >>> 37)) * 0x165667919E3779F9
  h ^^^ (h >>> 32)

/-- The final mixing of a word of a very short input. -/
def strongAvalanche (h : UInt64) : UInt64 :=
  let h := (h ^^^ (h >>> 33)) * prime64B
  let h := (h ^^^ (h >>> 29)) * prime64C
  h ^^^ (h >>> 32)

def swapped32 (x : UInt32) : UInt32 :=
  (x <<< 24) ||| ((x <<< 8) &&& (0x00ff0000 : UInt32)) ||| ((x >>> 8) &&& (0x0000ff00 : UInt32)) ||| (x >>> 24)

def swapped64 (x : UInt64) : UInt64 :=
  ((swapped32 x.toUInt32).toUInt64 <<< 32) ||| (swapped32 (x >>> 32).toUInt32).toUInt64

/-- The lower and the upper word of a digest. -/
structure Digest128 where
  low : UInt64
  high : UInt64

def xxhEmpty : Digest128 :=
  ⟨strongAvalanche (secretWord 64 ^^^ secretWord 72), strongAvalanche (secretWord 80 ^^^ secretWord 88)⟩

variable (b : ByteArray)

def xxhUpTo3 : Digest128 :=
  let n := b.size
  let low : UInt32 := ((byteAt b 0).toUInt32 <<< 16) ||| ((byteAt b (n / 2)).toUInt32 <<< 24) |||
    (byteAt b (n - 1)).toUInt32 ||| ((UInt32.ofNat n) <<< 8)
  let turned := swapped32 low
  let high : UInt32 := (turned <<< 13) ||| (turned >>> 19)
  ⟨strongAvalanche (low.toUInt64 ^^^ (littleWord32 xxhSecret 0 ^^^ littleWord32 xxhSecret 4).toUInt64),
    strongAvalanche (high.toUInt64 ^^^ (littleWord32 xxhSecret 8 ^^^ littleWord32 xxhSecret 12).toUInt64)⟩

def xxhUpTo8 : Digest128 :=
  let n := b.size
  let word := (littleWord32 b 0).toUInt64 + ((littleWord32 b (n - 4)).toUInt64 <<< 32)
  let keyed := word ^^^ (secretWord 16 ^^^ secretWord 24)
  let (low, high) := wideProduct keyed (prime64A + UInt64.ofNat (4 * n))
  let high := high + (low <<< 1)
  let low := low ^^^ (high >>> 3)
  let low := (low ^^^ (low >>> 35)) * 0x9FB21C651E98DF25
  ⟨low ^^^ (low >>> 28), avalanche high⟩

def xxhUpTo16 : Digest128 :=
  let n := b.size
  let last := littleWord64 b (n - 8)
  let (low, high) :=
    wideProduct (littleWord64 b 0 ^^^ last ^^^ (secretWord 32 ^^^ secretWord 40)) prime64A
  let low := low + (UInt64.ofNat (n - 1) <<< 54)
  let last := last ^^^ (secretWord 48 ^^^ secretWord 56)
  let high := high + last + (last &&& (0xffffffff : UInt64)) * (prime32B - 1)
  let low := low ^^^ swapped64 high
  let (a, c) := wideProduct low prime64B
  ⟨avalanche a, avalanche (c + high * prime64B)⟩

/-- Sixteen bytes mixed with the secret. -/
def mixSixteen (i j : Nat) : UInt64 :=
  foldedProduct (littleWord64 b i ^^^ secretWord j) (littleWord64 b (i + 8) ^^^ secretWord (j + 8))

/-- Mixes two groups of sixteen bytes into both words. -/
def mixPair (s : Digest128) (first second secret : Nat) : Digest128 :=
  ⟨(s.low + mixSixteen b first secret) ^^^ (littleWord64 b second + littleWord64 b (second + 8)),
    (s.high + mixSixteen b second (secret + 16)) ^^^
      (littleWord64 b first + littleWord64 b (first + 8))⟩

/-- The digest from both words after all bytes were mixed in. -/
def finishPair (n : Nat) (s : Digest128) : Digest128 :=
  ⟨avalanche (s.low + s.high),
    0 - avalanche (s.low * prime64A + s.high * prime64D + UInt64.ofNat n * prime64B)⟩

def xxhUpTo128 : Digest128 :=
  let n := b.size
  let steps := (List.range ((n - 1) / 32 + 1)).reverse
  finishPair n (steps.foldl (fun s i => mixPair b s (16 * i) (n - 16 * (i + 1)) (32 * i))
    ⟨UInt64.ofNat n * prime64A, 0⟩)

def xxhUpTo240 : Digest128 :=
  let n := b.size
  let s : Digest128 := (List.range 4).foldl
    (fun s i => mixPair b s (32 * i) (32 * i + 16) (32 * i)) ⟨UInt64.ofNat n * prime64A, 0⟩
  let s : Digest128 := ⟨avalanche s.low, avalanche s.high⟩
  let s := (List.range' 4 (n / 32 - 4)).foldl
    (fun s i => mixPair b s (32 * i) (32 * i + 16) (3 + 32 * (i - 4))) s
  finishPair n (mixPair b s (n - 16) (n - 32) 103)

/-- The accumulators before the first stripe. -/
def xxhAccumulators : Array UInt64 :=
  #[prime32C, prime64A, prime64B, prime64C, prime64D, prime32B, prime64E, prime32A]

variable (lanes : Array UInt64)

def laneAt (i : Nat) : UInt64 := lanes[i]?.getD 0

def addLane (i : Nat) (x : UInt64) : Array UInt64 := lanes.modify i (· + x)

/-- Takes a stripe of 64 bytes into the accumulators. -/
def takeStripe (start secret : Nat) (lanes : Array UInt64) : Array UInt64 :=
  (List.range 8).foldl
    (fun lanes k =>
      let word := littleWord64 b (start + 8 * k)
      let keyed := word ^^^ secretWord (secret + 8 * k)
      addLane (addLane lanes (k ^^^ 1) word) k ((keyed &&& (0xffffffff : UInt64)) * (keyed >>> 32)))
    lanes

def scramble : Array UInt64 :=
  lanes.mapIdx fun k (x : UInt64) => ((x ^^^ (x >>> 47)) ^^^ secretWord (128 + 8 * k)) * prime32A

def blockStripes : Nat := 16

/-- Takes some stripes of a block into the accumulators. -/
def takeStripes (start count : Nat) (lanes : Array UInt64) : Array UInt64 :=
  (List.range count).foldl (fun lanes s => takeStripe b (start + 64 * s) (8 * s) lanes) lanes

/-- The accumulators merged into one word. -/
def mergeLanes (secret : Nat) (start : UInt64) : UInt64 :=
  avalanche ((List.range 4).foldl
    (fun r k => r + foldedProduct (laneAt lanes (2 * k) ^^^ secretWord (secret + 16 * k))
      (laneAt lanes (2 * k + 1) ^^^ secretWord (secret + 16 * k + 8))) start)

def xxhLong : Digest128 :=
  let n := b.size
  let block := 64 * blockStripes
  let blocks := (n - 1) / block
  let lanes := (List.range blocks).foldl
    (fun lanes i => scramble (takeStripes b (i * block) blockStripes lanes)) xxhAccumulators
  let lanes := takeStripes b (blocks * block) ((n - 1 - blocks * block) / 64) lanes
  let lanes := takeStripe b (n - 64) 121 lanes
  ⟨mergeLanes lanes 11 (UInt64.ofNat n * prime64A),
    mergeLanes lanes 117 (~~~ (UInt64.ofNat n * prime64B))⟩

def xxh3 : String :=
  let n := b.size
  let d :=
    if n = 0 then xxhEmpty
    else if n ≤ 3 then xxhUpTo3 b
    else if n ≤ 8 then xxhUpTo8 b
    else if n ≤ 16 then xxhUpTo16 b
    else if n ≤ 128 then xxhUpTo128 b
    else if n ≤ 240 then xxhUpTo240 b
    else xxhLong b
  hexText 16 d.high.toNat ++ hexText 16 d.low.toNat

end Ripple.Digest
