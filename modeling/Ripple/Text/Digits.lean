/-!
# Numbers in Decimal Digits

Numbers are written with zeros up to a width, and read as far as they fit in 64
bits.
-/

namespace Ripple

def paddedDigits (width n : Nat) : String :=
  let digits := toString n
  String.ofList (List.replicate (width - digits.length) '0') ++ digits

/-- The value of some decimal digits, if there is at least one and nothing else. -/
def digitsValue? (digits : List Char) : Option Nat :=
  if digits.isEmpty || digits.any (fun c => !c.isDigit) then none
  else some (digits.foldl (fun n c => 10 * n + (c.toNat - '0'.toNat)) 0)

/-- An integer, if it fits in 64 bits with its sign. -/
def int64OfInt? (n : Int) : Option Int64 :=
  if Int64.minValue.toInt ≤ n && n ≤ Int64.maxValue.toInt then some (.ofInt n) else none

/-- Every integer of 64 bits fits. -/
theorem int64OfInt_toInt (n : Int64) : int64OfInt? n.toInt = some n := by
  have hfits : (decide (Int64.minValue.toInt ≤ n.toInt) &&
      decide (n.toInt ≤ Int64.maxValue.toInt)) = true := by
    rw [Bool.and_eq_true, decide_eq_true_eq, decide_eq_true_eq]
    exact ⟨n.minValue_le_toInt, n.toInt_le⟩
  rw [int64OfInt?, if_pos hfits, Int64.ofInt_toInt]

/-- The value of some digits with a sign that may stand before them, if it fits in 64 bits. -/
def int64OfText? (text : List Char) : Option Int64 :=
  match text with
  | '-' :: digits => (digitsValue? digits).bind fun n => int64OfInt? (-n)
  | '+' :: digits => (digitsValue? digits).bind fun n => int64OfInt? n
  | digits => (digitsValue? digits).bind fun n => int64OfInt? n

/-- The value of some digits with a plus sign that may stand before them, if it fits in 64
bits. -/
def uint64OfText? (text : List Char) : Option UInt64 :=
  let digits := match text with
    | '+' :: digits => digits
    | _ => text
  (digitsValue? digits).bind fun n => if n < UInt64.size then some (.ofNat n) else none

end Ripple
