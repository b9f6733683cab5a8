import Ripple.Json.Basic
import Ripple.Text.Hex

/-!
# Reading JSON

JSON text is read strictly: no trailing commas, no leading zeros, no raw
control characters in text, nothing after the value. An integer beyond 64
bits is read as a number without that precision, and so is a negative zero;
a number beyond the range of doubles is refused. Values nest up to a fixed
depth.
-/

namespace Ripple.Json

/-- What reading at a place yields: a value and the text after it. -/
abbrev Step (α : Type) := List Char → Option (α × List Char)

def skipSpace (cs : List Char) : List Char :=
  cs.dropWhile fun c => c = ' ' || c = '\n' || c = '\t' || c = '\r'

def hexFour? : Step Nat
  | a :: b :: c :: d :: rest =>
    match hexValue? a, hexValue? b, hexValue? c, hexValue? d with
    | some a, some b, some c, some d => some (((a * 16 + b) * 16 + c) * 16 + d, rest)
    | _, _, _, _ => none
  | _ => none

/-- A character given by number; two halves of a pair make one character. -/
def unicodeEscape? : Step Char := fun cs =>
  match hexFour? cs with
  | none => none
  | some (n, rest) =>
    if 0xD800 ≤ n && n < 0xDC00 then
      match rest with
      | '\\' :: 'u' :: low =>
        match hexFour? low with
        | some (m, rest) =>
          if 0xDC00 ≤ m && m < 0xE000 then
            some (Char.ofNat (0x10000 + (n - 0xD800) * 0x400 + (m - 0xDC00)), rest)
          else none
        | none => none
      | _ => none
    else if 0xDC00 ≤ n && n < 0xE000 then none
    else some (Char.ofNat n, rest)

def escape? : Step Char
  | '\x22' :: rest => some ('\x22', rest)
  | '\\' :: rest => some ('\\', rest)
  | '/' :: rest => some ('/', rest)
  | 'b' :: rest => some ('\x08', rest)
  | 'f' :: rest => some ('\x0c', rest)
  | 'n' :: rest => some ('\n', rest)
  | 'r' :: rest => some ('\r', rest)
  | 't' :: rest => some ('\t', rest)
  | 'u' :: rest => unicodeEscape? rest
  | _ => none

/-- The characters of a text after its opening mark; those read come last first. -/
def textBody? : Nat → List Char → Step String
  | 0, _, _ => none
  | _ + 1, _, [] => none
  | _ + 1, found, '\x22' :: rest => some (String.ofList found.reverse, rest)
  | fuel + 1, found, '\\' :: rest =>
    match escape? rest with
    | some (c, rest) => textBody? fuel (c :: found) rest
    | none => none
  | fuel + 1, found, c :: rest => if c.toNat < 0x20 then none else textBody? fuel (c :: found) rest

def decimalValue (digits : List Char) : Nat :=
  digits.foldl (fun n c => n * 10 + (c.toNat - '0'.toNat)) 0

def digitRun (cs : List Char) : List Char × List Char :=
  (cs.takeWhile Char.isDigit, cs.dropWhile Char.isDigit)

/-- The digits in front of a number's point: no zero leads others. -/
def wholePart? : Step (List Char) := fun cs =>
  match digitRun cs with
  | ([], _) => none
  | (['0'], rest) => some (['0'], rest)
  | ('0' :: _, _) => none
  | (digits, rest) => some (digits, rest)

/-- The digits after a number's point, if it has one. -/
def fractionPart? : Step (Option (List Char))
  | '.' :: rest =>
    match digitRun rest with
    | ([], _) => none
    | (digits, rest) => some (some digits, rest)
  | cs => some (none, cs)

def exponentPart? : Step (Option Int) := fun cs =>
  match cs with
  | e :: rest =>
    if e = 'e' || e = 'E' then
      let (negative, rest) := match rest with
        | '+' :: r => (false, r)
        | '-' :: r => (true, r)
        | r => (false, r)
      match digitRun rest with
      | ([], _) => none
      | (digits, rest) =>
        let n : Int := decimalValue digits
        some (some (if negative then -n else n), rest)
    else some (none, cs)
  | [] => some (none, [])

/-- The double nearest to an integer times a power of ten, within the reach of doubles. -/
def scaledFloat (n : Nat) (power : Int) : Float :=
  if n = 0 then 0.0
  else if 400 < power then Float.ofScientific 1 false 400
  else if power < -2000 then 0.0
  else if power < 0 then Float.ofScientific n true power.natAbs
  else Float.ofScientific n false power.toNat

/-- The number with the given parts. -/
def numberOf? (negative : Bool) (whole : List Char) (fraction : Option (List Char))
    (power : Option Int) : Option Json :=
  match fraction, power with
  | none, none =>
    let n := decimalValue whole
    if negative then
      if n = 0 then some (float (-0.0))
      else if Int64.minValue.toInt ≤ -n then some (int (-n))
      else
        let x := scaledFloat n 0
        if x.isFinite then some (float (-x)) else none
    else if n < UInt64.size then some (int n)
    else
      let x := scaledFloat n 0
      if x.isFinite then some (float x) else none
  | _, _ =>
    let digits := fraction.getD []
    let x := scaledFloat (decimalValue (whole ++ digits)) (power.getD 0 - digits.length)
    if x.isFinite then some (float (if negative then -x else x)) else none

def number? : Step Json := fun cs =>
  let (negative, cs) := match cs with
    | '-' :: rest => (true, rest)
    | cs => (false, cs)
  match wholePart? cs with
  | none => none
  | some (whole, cs) =>
    match fractionPart? cs with
    | none => none
    | some (fraction, cs) =>
      match exponentPart? cs with
      | none => none
      | some (power, cs) => (numberOf? negative whole fraction power).map fun j => (j, cs)

/-- The items of a list after its opening bracket or a comma; those read come last first. -/
def items? (item : Step Json) : Nat → List Json → Step (List Json)
  | 0, _, _ => none
  | fuel + 1, found, cs =>
    match item (skipSpace cs) with
    | none => none
    | some (j, cs) =>
      match skipSpace cs with
      | ',' :: rest => items? item fuel (j :: found) rest
      | ']' :: rest => some ((j :: found).reverse, rest)
      | _ => none

/-- The fields of an object after its opening brace or a comma; those read come last first. -/
def fields? (budget : Nat) (item : Step Json) : Nat → List (String × Json) →
    Step (List (String × Json))
  | 0, _, _ => none
  | fuel + 1, found, cs =>
    match skipSpace cs with
    | '\x22' :: rest =>
      match textBody? budget [] rest with
      | none => none
      | some (name, rest) =>
        match skipSpace rest with
        | ':' :: rest =>
          match item (skipSpace rest) with
          | none => none
          | some (j, rest) =>
            match skipSpace rest with
            | ',' :: rest => fields? budget item fuel ((name, j) :: found) rest
            | '}' :: rest => some (((name, j) :: found).reverse, rest)
            | _ => none
        | _ => none
    | _ => none

/-- What follows a word at the front. -/
def keyword? (text : String) (value : Json) : Step Json := fun cs =>
  if text.toList.isPrefixOf cs then some (value, cs.drop text.length) else none

/-- A value, with lists and objects nested up to a depth. -/
def value? (budget : Nat) : Nat → Step Json
  | depth, cs =>
    match cs with
    | 'n' :: _ => keyword? "null" null cs
    | 't' :: _ => keyword? "true" (bool true) cs
    | 'f' :: _ => keyword? "false" (bool false) cs
    | '\x22' :: rest => (textBody? budget [] rest).map fun (s, rest) => (text s, rest)
    | '[' :: rest =>
      match depth with
      | 0 => none
      | depth + 1 =>
        match skipSpace rest with
        | ']' :: rest => some (list [], rest)
        | rest => (items? (value? budget depth) budget [] rest).map fun (l, rest) => (list l, rest)
    | '{' :: rest =>
      match depth with
      | 0 => none
      | depth + 1 =>
        match skipSpace rest with
        | '}' :: rest => some (object [], rest)
        | rest =>
          (fields? budget (value? budget depth) budget [] rest).map fun (l, rest) =>
            (object l, rest)
    | _ => number? cs

/-- How deep lists and objects nest. -/
def maxDepth : Nat := 127

def parse? (s : String) : Option Json :=
  let cs := s.toList
  match value? (cs.length + 1) maxDepth (skipSpace cs) with
  | some (j, rest) => if (skipSpace rest).isEmpty then some j else none
  | none => none

end Ripple.Json
