/-!
# Shortest Decimals

A double is written with the fewest digits that read back as the same
double, and of those with the decimal nearest to it. A finite double is an
integer times a power of two; all decimals between its two midpoints read
back as it. For one digit, two digits and so on, the two neighbours of the
value on that decimal grid are tried in exact arithmetic.

The written form is positional while the decimal point stays within reach of
the digits, and has an exponent beyond that; there is always a fraction or
an exponent.
-/

namespace Ripple.Decimal

/-- A finite double without its sign: an integer times a power of two. -/
structure Binary where
  mantissa : Nat
  exponent : Int
  /-- Whether the next smaller double is only half as far away as the next larger one. -/
  narrow : Bool
deriving Repr

/-- A decimal: an integer times a power of ten. -/
structure Digits where
  digits : Nat
  exponent : Int
deriving DecidableEq, Repr

def Binary.ofFloat (x : Float) : Binary :=
  let bits := x.toBits.toNat
  let fraction : Nat := bits % Nat.pow 2 52
  let biased : Nat := bits / Nat.pow 2 52 % Nat.pow 2 11
  if biased = 0 then ⟨fraction, -1074, false⟩
  else ⟨fraction + Nat.pow 2 52, (biased : Int) - 1075, fraction = 0 && 1 < biased⟩

def isNegative (x : Float) : Bool := x.toBits.toNat / Nat.pow 2 63 = 1

/-- Two raised to an integer, as a quotient. -/
def powerOfTwo (e : Int) : Nat × Nat :=
  if 0 ≤ e then (Nat.pow 2 e.toNat, 1) else (1, Nat.pow 2 (-e).toNat)

/-- The number of decimal digits of a positive integer, counted up to a bound. -/
def digitCount : Nat → Nat → Nat
  | 0, _ => 0
  | fuel + 1, n => if n = 0 then 0 else digitCount fuel (n / 10) + 1

/-- How often a proper fraction has to be multiplied by ten to reach one. -/
def leadingZeros (den : Nat) : Nat → Nat → Nat
  | 0, _ => 0
  | fuel + 1, num => if den ≤ num then 0 else leadingZeros den fuel (num * 10) + 1

/-- The power of ten of the first digit of a positive quotient. -/
def leadingPower (num den : Nat) : Int :=
  if den ≤ num then (digitCount 400 (num / den) : Int) - 1
  else -(leadingZeros den 400 num : Int)

/-- The value of a double with the ends of the interval that reads back as it, over one divisor. -/
structure Interval where
  value : Nat
  low : Nat
  high : Nat
  den : Nat
  /-- Whether the ends read back too. -/
  closed : Bool

def Binary.interval (b : Binary) : Interval :=
  let (num, den) := powerOfTwo (b.exponent - 2)
  ⟨4 * b.mantissa * num, (4 * b.mantissa - if b.narrow then 1 else 2) * num,
    (4 * b.mantissa + 2) * num, den, b.mantissa % 2 = 0⟩

/-- A number of digits times a power of ten, compared in exact arithmetic. -/
def scaled (n : Nat) (e : Int) (den : Nat) : Nat × Nat :=
  if 0 ≤ e then (n * Nat.pow 10 e.toNat * den, 1) else (n * den, Nat.pow 10 (-e).toNat)

def Interval.holds (i : Interval) (d : Digits) : Bool :=
  let (n, s) := scaled d.digits d.exponent i.den
  if i.closed then i.low * s ≤ n && n ≤ i.high * s else i.low * s < n && n < i.high * s

/-- Twice the distance of a decimal from the value, over the divisor of its power of ten. -/
def Interval.distance (i : Interval) (d : Digits) : Nat :=
  let (n, s) := scaled d.digits d.exponent i.den
  if n ≤ i.value * s then i.value * s - n else n - i.value * s

/-- The better of the two neighbours on a decimal grid, if one of them reads back. -/
def Interval.onGrid? (i : Interval) (step : Int) : Option Digits :=
  let below := if 0 ≤ step then i.value / (i.den * Nat.pow 10 step.toNat)
    else i.value * Nat.pow 10 (-step).toNat / i.den
  let lower : Digits := ⟨below, step⟩
  let upper : Digits := ⟨below + 1, step⟩
  match i.holds lower && below ≠ 0, i.holds upper with
  | true, true =>
    if i.distance lower < i.distance upper then some lower
    else if i.distance upper < i.distance lower then some upper
    else if below % 2 = 0 then some lower else some upper
  | true, false => some lower
  | false, true => some upper
  | false, false => none

/-- The first grid, from coarse to fine, with a decimal that reads back. -/
def Interval.search (i : Interval) : Nat → Int → Digits
  | 0, step => ⟨i.value, step⟩
  | fuel + 1, step =>
    match i.onGrid? step with
    | some d => d
    | none => i.search fuel (step - 1)

/-- Moves zeros at the end of the digits into the power of ten. -/
def Digits.reduce : Nat → Digits → Digits
  | 0, d => d
  | fuel + 1, d =>
    if d.digits ≠ 0 && d.digits % 10 = 0 then reduce fuel ⟨d.digits / 10, d.exponent + 1⟩ else d

/-- The fewest digits that read back as a double. -/
def Binary.shortest (b : Binary) : Digits :=
  if b.mantissa = 0 then ⟨0, 0⟩
  else
    let i := b.interval
    Digits.reduce 20 (i.search 18 (leadingPower i.value i.den))

def zeros (n : Nat) : String := String.ofList (List.replicate n '0')

/-- The largest power of ten below which a number is written without an exponent. -/
def largestPositional : Int := 16

/-- The smallest power of ten above which a number is written without an exponent. -/
def smallestPositional : Int := -5

def Digits.write (d : Digits) : String :=
  let text := toString d.digits
  let point : Int := text.length + d.exponent
  if 0 ≤ d.exponent && point ≤ largestPositional then text ++ zeros d.exponent.toNat ++ ".0"
  else if 0 < point && point ≤ largestPositional then
    String.ofList (text.toList.take point.toNat) ++ "." ++
      String.ofList (text.toList.drop point.toNat)
  else if smallestPositional < point && point ≤ 0 then "0." ++ zeros (-point).toNat ++ text
  else
    let power := toString (point - 1)
    if text.length = 1 then text ++ "e" ++ power
    else String.ofList (text.toList.take 1) ++ "." ++ String.ofList (text.toList.drop 1) ++ "e" ++ power

def writeFloat (x : Float) : String :=
  (if isNegative x then "-" else "") ++ (Binary.ofFloat x).shortest.write

/-- A quotient rounded to an integer, halves going to the even neighbour. -/
def roundHalfEven (num den : Nat) : Nat :=
  let whole := num / den
  let twice := 2 * (num % den)
  if twice < den then whole
  else if den < twice then whole + 1
  else if whole % 2 = 0 then whole else whole + 1

/-- A finite double with a fixed number of decimal places. -/
def writeFixed (places : Nat) (x : Float) : String :=
  let b := Binary.ofFloat x
  let (num, den) := powerOfTwo b.exponent
  let scaledValue := roundHalfEven (b.mantissa * num * Nat.pow 10 places) den
  let text := toString scaledValue
  let padded := zeros (places + 1 - text.length) ++ text
  let front := String.ofList (padded.toList.take (padded.length - places))
  let back := String.ofList (padded.toList.drop (padded.length - places))
  (if isNegative x then "-" else "") ++ front ++ (if places = 0 then "" else "." ++ back)

end Ripple.Decimal
