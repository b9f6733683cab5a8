/-!
# Reading UTF-8

Bytes are read as text without ever failing: whatever is not the encoding of
a character becomes the replacement character, once for every longest start
of an encoding.
-/

namespace Ripple

/-- The character that stands for invalid bytes. -/
def replacementChar : Char := '�'

/-- Whether a byte lies between two others. -/
def byteIn (low high b : UInt8) : Bool := low ≤ b && b ≤ high

def isContinuation (b : UInt8) : Bool := byteIn 0x80 0xbf b

/-- The bytes that may come second after a first byte of three or four. -/
def secondRange (first : UInt8) : UInt8 × UInt8 :=
  if first = 0xe0 then (0xa0, 0xbf)
  else if first = 0xed then (0x80, 0x9f)
  else if first = 0xf0 then (0x90, 0xbf)
  else if first = 0xf4 then (0x80, 0x8f)
  else (0x80, 0xbf)

/-- Whether a byte may come second after a first byte of three or four. -/
def continues (first second : UInt8) : Bool :=
  byteIn (secondRange first).1 (secondRange first).2 second

/-- The six bits that a continuing byte adds. -/
def lowBits (b : UInt8) : Nat := b.toNat % 64

/-- The characters of some bytes. -/
def lossyChars : List UInt8 → List Char
  | [] => []
  | [a] => [if a < 0x80 then Char.ofNat a.toNat else replacementChar]
  | a :: b :: rest =>
    if a < 0x80 then Char.ofNat a.toNat :: lossyChars (b :: rest)
    else if byteIn 0xc2 0xdf a then
      if isContinuation b then
        Char.ofNat (a.toNat % 32 * 64 + lowBits b) :: lossyChars rest
      else replacementChar :: lossyChars (b :: rest)
    else if byteIn 0xe0 0xef a && continues a b then
      match rest with
      | [] => [replacementChar]
      | c :: tail =>
        if isContinuation c then
          Char.ofNat (a.toNat % 16 * 4096 + lowBits b * 64 + lowBits c) :: lossyChars tail
        else replacementChar :: lossyChars (c :: tail)
    else if byteIn 0xf0 0xf4 a && continues a b then
      match rest with
      | [] => [replacementChar]
      | c :: tail =>
        if isContinuation c then
          match tail with
          | [] => [replacementChar]
          | d :: end_ =>
            if isContinuation d then
              Char.ofNat (a.toNat % 8 * 262144 + lowBits b * 4096 + lowBits c * 64 + lowBits d) ::
                lossyChars end_
            else replacementChar :: lossyChars (d :: end_)
        else replacementChar :: lossyChars (c :: tail)
    else replacementChar :: lossyChars (b :: rest)

def lossyText (bytes : ByteArray) : String := String.ofList (lossyChars bytes.data.toList)

/-- The text of some bytes if all of it is valid. -/
def strictText? (bytes : ByteArray) : Option String := String.fromUTF8? bytes

end Ripple
