import Mathlib.Algebra.Group.Nat.Defs
import Ripple.Packing.Gzip

/-!
# What Is Packed Can Be Unpacked

Packing writes blocks that hold their bytes as they are, so of all that the
decoder can do it has to do little: take three bits, pass over the rest of
their byte, compare two lengths and copy. What needs an argument is that both
sides count alike. A block has at most as many bytes as its two length bytes
can say, a file may be so large that its size is stored only up to a multiple,
and the decoder must not run out of blocks, which it bounds by the bits of the
whole input.

## Theorems

* `Packing.gunzip_gzip`: What is packed can be unpacked.
-/

namespace Ripple.Packing

open List

section Numbers

@[simp]
theorem length_littleBytes (places n : Nat) : (littleBytes places n).length = places := by
  induction places generalizing n with
  | zero => rfl
  | succ places ih => rw [littleBytes, length_cons, ih]

/-- The bytes of a number give it back, up to a multiple of what they can say. -/
theorem littleValue_littleBytes (places n : Nat) :
    littleValue (littleBytes places n) = n % 256 ^ places := by
  induction places generalizing n with
  | zero => rw [littleBytes, littleValue, Nat.pow_zero, Nat.mod_one]
  | succ places ih =>
    have hlow : (UInt8.ofNat (n % 256)).toNat = n % 256 :=
      UInt8.toNat_ofNat_of_lt' (Nat.mod_lt n (by decide))
    rw [littleBytes, littleValue, ih, hlow, Nat.pow_succ', Nat.mod_mul]

end Numbers

section Blocks

/-- A block that holds bytes as they are. -/
def storedBlock (last : UInt8) (chunk : List UInt8) : List UInt8 :=
  last :: (littleBytes 2 chunk.length ++ littleBytes 2 (65535 - chunk.length)) ++ chunk

theorem storedBlocks_succ (fuel : Nat) (bytes : List UInt8) : storedBlocks (fuel + 1) bytes =
      if (bytes.drop maxStored).isEmpty then storedBlock true.toUInt8 (bytes.take maxStored)
      else storedBlock false.toUInt8 (bytes.take maxStored) ++
        storedBlocks fuel (bytes.drop maxStored) := rfl

/-- The bytes of a block are taken as they are. -/
theorem takeStored_storedBlock {chunk : List UInt8} (h : chunk.length ≤ maxStored) (last : UInt8)
    (rest : List UInt8) (out : ByteArray) :
    takeStored? ⟨storedBlock last chunk ++ rest, 3⟩ out =
      some (⟨rest, 0⟩, chunk.foldl ByteArray.push out) := by
  -- Two bytes are enough for the length of a block, and for what it lacks to the largest length.
  have hvalue : ∀ n ≤ maxStored,
      (UInt8.ofNat (n % 256)).toNat + 256 * (UInt8.ofNat (n / 256 % 256)).toNat = n := by
    intro n hn
    have hbytes := littleValue_littleBytes 2 n
    simp only [littleBytes, littleValue, Nat.mul_zero, Nat.add_zero] at hbytes
    rw [hbytes, Nat.mod_eq_of_lt (Nat.lt_of_le_of_lt hn (by decide))]
  have halign : BitStream.align ⟨storedBlock last chunk ++ rest, 3⟩ =
      littleBytes 2 chunk.length ++ littleBytes 2 (65535 - chunk.length) ++ (chunk ++ rest) := by
    simp only [BitStream.align, storedBlock, cons_append, append_assoc,
      drop_succ_cons, drop_zero, if_neg (show 3 ≠ 0 by decide)]
  have henough : ¬ (chunk ++ rest).length < chunk.length := by
    rw [length_append]
    omega
  simp only [takeStored?, halign, littleBytes, cons_append, nil_append,
    hvalue _ h, hvalue _ (Nat.sub_le 65535 chunk.length), ne_eq, not_true_eq_false, decide_false,
    Bool.false_or, decide_eq_true_eq, if_neg henough, drop_left, take_left]

theorem takeBit_cons (b : UInt8) (rest : List UInt8) {used : Nat} (h : used < 7) :
    BitStream.takeBit? ⟨b :: rest, used⟩ =
      some (b.toNat / Nat.pow 2 used % 2, ⟨b :: rest, used + 1⟩) := by
  simp only [BitStream.takeBit?, if_neg (Nat.ne_of_lt h)]

/-- The first byte of a block says whether it is the last one, and that its bytes are stored. -/
theorem takeBits_flag (isLast : Bool) (rest : List UInt8) :
    BitStream.takeBits? 1 ⟨isLast.toUInt8 :: rest, 0⟩ =
        some (isLast.toNat, ⟨isLast.toUInt8 :: rest, 1⟩) ∧
      BitStream.takeBits? 2 ⟨isLast.toUInt8 :: rest, 1⟩ =
        some (0, ⟨isLast.toUInt8 :: rest, 3⟩) := by
  simp only [BitStream.takeBits?, takeBit_cons, Nat.reduceLT, Nat.reduceAdd,
    Option.bind_eq_bind, Option.bind_some, Option.pure_def]
  cases isLast <;> exact ⟨rfl, rfl⟩

/-- A block is decoded; the last one ends the stream. -/
theorem inflateBlocks_stored {chunk : List UInt8} (h : chunk.length ≤ maxStored) (fuel : Nat)
    (isLast : Bool) (rest : List UInt8) (out : ByteArray) :
    inflateBlocks? (fuel + 1) ⟨storedBlock isLast.toUInt8 chunk ++ rest, 0⟩ out =
      if isLast then some (⟨rest, 0⟩, chunk.foldl ByteArray.push out)
      else inflateBlocks? fuel ⟨rest, 0⟩ (chunk.foldl ByteArray.push out) := by
  have hlast : BitStream.takeBits? 1 ⟨storedBlock isLast.toUInt8 chunk ++ rest, 0⟩ =
      some (isLast.toNat, ⟨storedBlock isLast.toUInt8 chunk ++ rest, 1⟩) :=
    (takeBits_flag isLast _).1
  have hkind : BitStream.takeBits? 2 ⟨storedBlock isLast.toUInt8 chunk ++ rest, 1⟩ =
      some (0, ⟨storedBlock isLast.toUInt8 chunk ++ rest, 3⟩) :=
    (takeBits_flag isLast _).2
  simp only [inflateBlocks?, hlast, hkind, takeStored_storedBlock h, Option.bind_eq_bind,
    Option.bind_some]
  cases isLast <;> rfl

theorem length_drop_lt {fuel : Nat} {bytes : List UInt8} (h : bytes.length < fuel + 1)
    (hrest : ¬ (bytes.drop maxStored).isEmpty = true) : (bytes.drop maxStored).length < fuel := by
  have hne := List.length_pos_iff.mpr fun hnil => hrest (List.isEmpty_iff.mpr hnil)
  rw [length_drop] at hne ⊢
  have hmax : 0 < maxStored := by decide
  omega

/-- All blocks are decoded. -/
theorem inflateBlocks_storedBlocks {fuel : Nat} {bytes : List UInt8} (h : bytes.length < fuel)
    (more : Nat) (rest : List UInt8) (out : ByteArray) :
    inflateBlocks? (fuel + more) ⟨storedBlocks fuel bytes ++ rest, 0⟩ out =
      some (⟨rest, 0⟩, bytes.foldl ByteArray.push out) := by
  induction fuel generalizing bytes out with
  | zero => exact absurd h (Nat.not_lt_zero _)
  | succ fuel ih =>
    -- Each block takes one from the bounds on both sides, so the decoder has the rest to spare.
    have hchunk : (bytes.take maxStored).length ≤ maxStored := length_take_le _ _
    rw [storedBlocks_succ, Nat.add_right_comm]
    by_cases hlast : (bytes.drop maxStored).isEmpty = true
    · have hall : bytes.take maxStored = bytes :=
        take_of_length_le (List.drop_eq_nil_iff.mp (List.isEmpty_iff.mp hlast))
      rw [if_pos hlast, inflateBlocks_stored hchunk, if_pos rfl, hall]
    · rw [if_neg hlast, append_assoc, inflateBlocks_stored hchunk,
        if_neg Bool.false_ne_true, ih (length_drop_lt h hlast), ← foldl_append,
        take_append_drop]

theorem length_le_storedBlocks {fuel : Nat} {bytes : List UInt8} (h : bytes.length < fuel) :
    bytes.length ≤ (storedBlocks fuel bytes).length := by
  induction fuel generalizing bytes with
  | zero => exact absurd h (Nat.not_lt_zero _)
  | succ fuel ih =>
    have hsplit := congrArg List.length (take_append_drop maxStored bytes)
    rw [length_append] at hsplit
    rw [storedBlocks_succ]
    by_cases hlast : (bytes.drop maxStored).isEmpty = true
    · rw [List.isEmpty_iff.mp hlast, length_nil] at hsplit
      rw [if_pos hlast, storedBlock, length_append]
      omega
    · have hrest := ih (length_drop_lt h hlast)
      rw [if_neg hlast, storedBlock, length_append, length_append]
      omega

end Blocks

section Files

theorem toList_foldl_push (bytes : List UInt8) (out : ByteArray) :
    (bytes.foldl ByteArray.push out).data.toList = out.data.toList ++ bytes := by
  induction bytes generalizing out with
  | nil => rw [foldl_nil, append_nil]
  | cons b bytes ih =>
    rw [foldl_cons, ih, ByteArray.data_push, Array.toList_push, append_assoc]
    rfl

theorem foldl_push_empty (bytes : List UInt8) :
    bytes.foldl ByteArray.push .empty = ⟨bytes.toArray⟩ := by
  apply ByteArray.ext
  apply Array.toList_inj.mp
  rw [toList_foldl_push]
  rfl

theorem inflate_storedBlocks (bytes trailer : List UInt8) :
    inflate? (storedBlocks (bytes.length + 1) bytes ++ trailer) =
      some (⟨bytes.toArray⟩, trailer) := by
  have hblocks : bytes.length ≤ (storedBlocks (bytes.length + 1) bytes).length :=
    length_le_storedBlocks (Nat.lt_succ_self bytes.length)
  -- The decoder may take a block for each bit of the stream, and one for each byte is enough.
  obtain ⟨more, hmore⟩ := Nat.exists_eq_add_of_le (show bytes.length + 1 ≤
      8 * (storedBlocks (bytes.length + 1) bytes ++ trailer).length + 1 by
    rw [length_append]
    omega)
  rw [inflate?, hmore, inflateBlocks_storedBlocks (Nat.lt_succ_self _), foldl_push_empty]
  rfl

theorem skipHeader_gzipHeader (rest : List UInt8) : skipHeader? (gzipHeader ++ rest) = some rest :=
  rfl

theorem gunzipBytes_gzipBytes (bytes : List UInt8) :
    gunzipBytes? (gzipBytes bytes) = some ⟨bytes.toArray⟩ := by
  -- A checksum fits in four bytes; a size is compared up to what fits.
  have hcrc : littleValue (littleBytes 4 (crc32 bytes).toNat) = (crc32 bytes).toNat := by
    rw [littleValue_littleBytes]
    exact Nat.mod_eq_of_lt (crc32 bytes).toNat_lt
  have hsize : littleValue (littleBytes 4 bytes.length) =
      (ByteArray.mk bytes.toArray).size % UInt32.size :=
    littleValue_littleBytes 4 bytes.length
  have htake : (littleBytes 4 (crc32 bytes).toNat ++ littleBytes 4 bytes.length).take 8 =
      littleBytes 4 (crc32 bytes).toNat ++ littleBytes 4 bytes.length :=
    take_of_length_le (by simp)
  rw [gunzipBytes?, gzipBytes, append_assoc, append_assoc, skipHeader_gzipHeader]
  simp only [Option.bind_eq_bind, Option.bind_some, inflate_storedBlocks, htake,
    length_append, length_littleBytes, Nat.lt_irrefl, if_false,
    take_left' (length_littleBytes 4 _), drop_left' (length_littleBytes 4 _), hcrc, hsize]
  rw [if_neg (not_not_intro rfl), if_neg (not_not_intro rfl)]

theorem gunzip_gzip (bytes : ByteArray) : gunzip? (gzip bytes) = some bytes := by
  rw [gunzip?, gzip, gunzipBytes_gzipBytes]

end Files

end Ripple.Packing
