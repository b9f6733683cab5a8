/-!
# Inflating

The decoder for the compressed format of RFC 1951. Bits are taken from the
bytes lowest first. A stream is a sequence of blocks; a block holds its bytes
as they are, or symbols in a prefix code that is fixed or described at the
start of the block. A symbol is a byte, the end of the block, or a copy of
bytes that came before.
-/

namespace Ripple.Packing

/-- Bytes of which some bits are taken. -/
structure BitStream where
  bytes : List UInt8
  /-- The number of bits already taken from the first byte. -/
  used : Nat

namespace BitStream

def takeBit? (s : BitStream) : Option (Nat × BitStream) :=
  match s.bytes with
  | [] => none
  | b :: rest =>
    let bit := b.toNat / Nat.pow 2 s.used % 2
    if s.used = 7 then some (bit, ⟨rest, 0⟩) else some (bit, ⟨b :: rest, s.used + 1⟩)

/-- Takes a number of bits, the lowest one first. -/
def takeBits? : Nat → BitStream → Option (Nat × BitStream)
  | 0, s => some (0, s)
  | n + 1, s => do
    let (bit, s) ← s.takeBit?
    let (rest, s) ← takeBits? n s
    return (bit + 2 * rest, s)

/-- Passes over the bits of a byte that is partly taken. -/
def align (s : BitStream) : List UInt8 := if s.used = 0 then s.bytes else s.bytes.drop 1

end BitStream

/-- A prefix code by its code lengths: codes of one length are consecutive numbers, in the order
of their symbols, and follow those of shorter lengths. -/
structure PrefixCode where
  /-- The number of codes of each length, from one on. -/
  counts : List Nat
  /-- The symbols in the order of their codes. -/
  symbols : Array Nat

def maxCodeLength : Nat := 15

namespace PrefixCode

/-- How many codes of the largest length are left after those of some lengths, if the shorter
codes leave some number. -/
def room : Int → List Nat → Int
  | left, [] => left
  | left, count :: rest => room (2 * left - count) rest

/-- The prefix code with a code length for each symbol; a length of zero means no code. A code has
to be complete, except that a single symbol may have a code of its own. -/
def ofLengths? (lengths : List Nat) : Option PrefixCode :=
  let lengthsFrom := List.range' 1 maxCodeLength
  let counts := lengthsFrom.map fun n => lengths.count n
  let symbols := lengthsFrom.flatMap fun n =>
    (lengths.zipIdx.filter fun entry => entry.1 = n).map Prod.snd
  if room 1 counts = 0 || symbols.length ≤ 1 then some ⟨counts, symbols.toArray⟩ else none

/-- Takes the next symbol, given the bits so far, the first code of the present length and the
number of shorter codes. -/
def symbolFrom? (symbols : Array Nat) :
    List Nat → Nat → Nat → Nat → BitStream → Option (Nat × BitStream)
  | [], _, _, _, _ => none
  | count :: counts, code, first, index, s => do
    let (bit, s) ← s.takeBit?
    let code := code + bit
    if code < first + count then
      let symbol ← symbols[index + (code - first)]?
      return (symbol, s)
    else symbolFrom? symbols counts (2 * code) (2 * (first + count)) (index + count) s

def symbol? (c : PrefixCode) (s : BitStream) : Option (Nat × BitStream) :=
  symbolFrom? c.symbols c.counts 0 0 0 s

end PrefixCode

/-- The smallest length of a copy for a length symbol, and the number of bits added to it. -/
def lengthCodes : Array (Nat × Nat) :=
  #[(3, 0), (4, 0), (5, 0), (6, 0), (7, 0), (8, 0), (9, 0), (10, 0), (11, 1), (13, 1), (15, 1),
    (17, 1), (19, 2), (23, 2), (27, 2), (31, 2), (35, 3), (43, 3), (51, 3), (59, 3), (67, 4),
    (83, 4), (99, 4), (115, 4), (131, 5), (163, 5), (195, 5), (227, 5), (258, 0)]

/-- The smallest distance of a copy for a distance symbol, and the number of bits added to it. -/
def distanceCodes : Array (Nat × Nat) :=
  #[(1, 0), (2, 0), (3, 0), (4, 0), (5, 1), (7, 1), (9, 2), (13, 2), (17, 3), (25, 3), (33, 4),
    (49, 4), (65, 5), (97, 5), (129, 6), (193, 6), (257, 7), (385, 7), (513, 8), (769, 8),
    (1025, 9), (1537, 9), (2049, 10), (3073, 10), (4097, 11), (6145, 11), (8193, 12), (12289, 12),
    (16385, 13), (24577, 13)]

/-- Takes the bits that belong to a length or distance symbol. -/
def takeRange? (codes : Array (Nat × Nat)) (symbol : Nat) (s : BitStream) :
    Option (Nat × BitStream) := do
  let (base, bits) ← codes[symbol]?
  let (more, s) ← s.takeBits? bits
  return (base + more, s)

def copyBack (distance : Nat) : Nat → ByteArray → ByteArray
  | 0, out => out
  | n + 1, out =>
    let at_ := out.size - distance
    copyBack distance n (out.push (if h : at_ < out.size then out[at_] else 0))

/-- Decodes symbols up to the end of a block, at most a number of them. -/
def inflateSymbols? (literals distances : PrefixCode) :
    Nat → BitStream → ByteArray → Option (BitStream × ByteArray)
  | 0, _, _ => none
  | fuel + 1, s, out => do
    let (symbol, s) ← literals.symbol? s
    if symbol < 256 then inflateSymbols? literals distances fuel s (out.push (UInt8.ofNat symbol))
    else if symbol = 256 then return (s, out)
    else
      let (length, s) ← takeRange? lengthCodes (symbol - 257) s
      let (symbol, s) ← distances.symbol? s
      let (distance, s) ← takeRange? distanceCodes symbol s
      if out.size < distance then none
      else inflateSymbols? literals distances fuel s (copyBack distance length out)

def fixedLiteralLengths : List Nat :=
  List.replicate 144 8 ++ List.replicate 112 9 ++ List.replicate 24 7 ++ List.replicate 8 8

def fixedDistanceLengths : List Nat := List.replicate 32 5

/-- The order in which the lengths of the codes for code lengths are written. -/
def lengthOrder : List Nat := [16, 17, 18, 0, 8, 7, 9, 6, 10, 5, 11, 4, 12, 3, 13, 2, 14, 1, 15]

/-- Takes a number of values of three bits each. -/
def takeTriples? : Nat → BitStream → Option (List Nat × BitStream)
  | 0, s => some ([], s)
  | n + 1, s => do
    let (value, s) ← s.takeBits? 3
    let (rest, s) ← takeTriples? n s
    return (value :: rest, s)

/-- Takes code lengths until there are enough; the lengths so far are given last one first. -/
def takeLengths? (code : PrefixCode) (total : Nat) :
    Nat → List Nat → BitStream → Option (List Nat × BitStream)
  | 0, _, _ => none
  | fuel + 1, found, s =>
    if found.length = total then some (found.reverse, s)
    else if total < found.length then none
    else do
      let (symbol, s) ← code.symbol? s
      if symbol < 16 then takeLengths? code total fuel (symbol :: found) s
      else if symbol = 16 then
        let previous ← found.head?
        let (more, s) ← s.takeBits? 2
        takeLengths? code total fuel (List.replicate (3 + more) previous ++ found) s
      else
        let (more, s) ← s.takeBits? (if symbol = 17 then 3 else 7)
        let zeros := more + if symbol = 17 then 3 else 11
        takeLengths? code total fuel (List.replicate zeros 0 ++ found) s

/-- Takes the description of the two prefix codes of a block. -/
def takeCodes? (s : BitStream) : Option (PrefixCode × PrefixCode × BitStream) := do
  let (literalCount, s) ← s.takeBits? 5
  let (distanceCount, s) ← s.takeBits? 5
  let (lengthCount, s) ← s.takeBits? 4
  if 29 < literalCount || 29 < distanceCount then none
  let (triples, s) ← takeTriples? (lengthCount + 4) s
  let written := lengthOrder.zip triples
  let code ← PrefixCode.ofLengths? ((List.range 19).map fun n => (written.lookup n).getD 0)
  let literals := literalCount + 257
  let distances := distanceCount + 1
  let (lengths, s) ← takeLengths? code (literals + distances) (literals + distances + 1) [] s
  let first ← PrefixCode.ofLengths? (lengths.take literals)
  let second ← PrefixCode.ofLengths? (lengths.drop literals)
  return (first, second, s)

/-- Takes the bytes of a block that holds them as they are. -/
def takeStored? (s : BitStream) (out : ByteArray) : Option (BitStream × ByteArray) :=
  match s.align with
  | a :: b :: c :: d :: rest =>
    let length := a.toNat + 256 * b.toNat
    if c.toNat + 256 * d.toNat ≠ 65535 - length || rest.length < length then none
    else some (⟨rest.drop length, 0⟩, (rest.take length).foldl ByteArray.push out)
  | _ => none

/-- Decodes blocks up to the last one, at most a number of them. -/
def inflateBlocks? : Nat → BitStream → ByteArray → Option (BitStream × ByteArray)
  | 0, _, _ => none
  | fuel + 1, s, out => do
    let (last, s) ← s.takeBits? 1
    let (kind, s) ← s.takeBits? 2
    let symbols := 8 * s.bytes.length + 1
    let (s, out) ← match kind with
      | 0 => takeStored? s out
      | 1 => do
        let literals ← PrefixCode.ofLengths? fixedLiteralLengths
        let distances ← PrefixCode.ofLengths? fixedDistanceLengths
        inflateSymbols? literals distances symbols s out
      | 2 => do
        let (literals, distances, s) ← takeCodes? s
        inflateSymbols? literals distances symbols s out
      | _ => none
    if last = 1 then return (s, out) else inflateBlocks? fuel s out

/-- The decoded bytes, and the bytes after the stream. Every block and every symbol takes at least
one bit, so the bits bound their number. -/
def inflate? (bytes : List UInt8) : Option (ByteArray × List UInt8) :=
  (inflateBlocks? (8 * bytes.length + 1) ⟨bytes, 0⟩ .empty).map fun (s, out) => (out, s.align)

end Ripple.Packing
