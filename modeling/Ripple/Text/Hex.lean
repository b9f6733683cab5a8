/-!
# Numbers in Hexadecimal Digits

Digits are written in lower case and read in either case. Two digits make a
byte, the higher one first.
-/

namespace Ripple

def hexDigit (n : Nat) : Char :=
  if n < 10 then Char.ofNat ('0'.toNat + n) else Char.ofNat ('a'.toNat + (n - 10))

def hexDigits : Nat → Nat → List Char
  | 0, _ => []
  | places + 1, n => hexDigits places (n / 16) ++ [hexDigit (n % 16)]

def hexText (places n : Nat) : String := String.ofList (hexDigits places n)

def hexValue? (c : Char) : Option Nat :=
  if '0' ≤ c && c ≤ '9' then some (c.toNat - '0'.toNat)
  else if 'a' ≤ c && c ≤ 'f' then some (c.toNat - 'a'.toNat + 10)
  else if 'A' ≤ c && c ≤ 'F' then some (c.toNat - 'A'.toNat + 10)
  else none

/-- The bytes that some digits spell out, if their number is even. -/
def bytesOfHex? : List Char → Option (List UInt8)
  | [] => some []
  | a :: b :: rest => do
    return UInt8.ofNat (16 * (← hexValue? a) + (← hexValue? b)) :: (← bytesOfHex? rest)
  | [_] => none

end Ripple
