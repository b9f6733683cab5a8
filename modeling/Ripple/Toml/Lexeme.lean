import Ripple.Json.Parser
import Ripple.Toml.Basic

/-!
# Lexemes of TOML

Blanks, comments, keys, texts, numbers and points in time. Each is read from
the front of the characters that are left, or not at all.
-/

namespace Ripple.Toml

/-- What reading at a place yields: a value and the characters after it. -/
abbrev Step (α : Type) := List Char → Option (α × List Char)

variable (cs : List Char)

def skipBlanks : List Char := cs.dropWhile fun c => c = ' ' || c = '\t'

/-- Whether a character may stand in a comment or between quotation marks. -/
def isPlain (c : Char) : Bool := c = '\t' || (0x20 ≤ c.toNat && c.toNat ≠ 0x7f)

def lineEnd? : List Char → Option (List Char)
  | '\n' :: rest => some rest
  | '\r' :: '\n' :: rest => some rest
  | _ => none

def skipComment : List Char :=
  match cs with
  | '#' :: rest => rest.dropWhile isPlain
  | _ => cs

/-- Passes over blanks, comments and line ends. -/
def skipLines : Nat → List Char → List Char
  | 0, cs => cs
  | fuel + 1, cs =>
    let rest := skipComment (skipBlanks cs)
    match lineEnd? rest with
    | some rest => skipLines fuel rest
    | none => rest

/-- Passes over the rest of a line that holds nothing more. -/
def endLine? : Option (List Char) :=
  match skipComment (skipBlanks cs) with
  | [] => some []
  | rest => lineEnd? rest

/-- A number of hexadecimal digits. -/
def hexRun? : Nat → Nat → Step Nat
  | 0, n, cs => some (n, cs)
  | places + 1, n, c :: cs => (hexValue? c).bind fun d => hexRun? places (16 * n + d) cs
  | _ + 1, _, [] => none

def numberedChar? (places : Nat) : Step Char := fun cs => do
  let (n, rest) ← hexRun? places 0 cs
  if n < 0xD800 || (0xDFFF < n && n < 0x110000) then some (Char.ofNat n, rest) else none

def escape? : Step Char
  | '\x22' :: rest => some ('\x22', rest)
  | '\\' :: rest => some ('\\', rest)
  | 'b' :: rest => some ('\x08', rest)
  | 'f' :: rest => some ('\x0c', rest)
  | 'n' :: rest => some ('\n', rest)
  | 'r' :: rest => some ('\r', rest)
  | 't' :: rest => some ('\t', rest)
  | 'u' :: rest => numberedChar? 4 rest
  | 'U' :: rest => numberedChar? 8 rest
  | _ => none

/-- The characters of a text after its opening mark; those read come last first. -/
def basicBody? : Nat → List Char → Step String
  | 0, _, _ => none
  | _ + 1, _, [] => none
  | fuel + 1, found, c :: rest =>
    if c = '\x22' then some (String.ofList found.reverse, rest)
    else if c = '\\' then
      match escape? rest with
      | some (c, rest) => basicBody? fuel (c :: found) rest
      | none => none
    else if isPlain c then basicBody? fuel (c :: found) rest
    else none

/-- The characters of a literal text after its opening mark. -/
def literalBody? : Option (String × List Char) :=
  let content := cs.takeWhile fun c => isPlain c && c ≠ '\x27'
  match cs.drop content.length with
  | '\x27' :: rest => some (String.ofList content, rest)
  | _ => none

/-- Passes over a line end right after the opening mark. -/
def skipFirstLineEnd : List Char := (lineEnd? cs).getD cs

/-- The number of marks at the front, up to five. -/
def markRun (mark : Char) (cs : List Char) : Nat := ((cs.takeWhile (· = mark)).take 5).length

/-- Passes over blanks and line ends after a backslash at the end of a line. -/
def skipFold : Nat → List Char → List Char
  | 0, cs => cs
  | fuel + 1, cs =>
    let rest := skipBlanks cs
    match lineEnd? rest with
    | some rest => skipFold fuel rest
    | none => rest

/-- The characters of a text of several lines after its opening marks; those read come last
first. -/
def longBody? (isLiteral : Bool) (mark : Char) : Nat → List Char → Step String
  | 0, _, _ => none
  | _ + 1, _, [] => none
  | fuel + 1, found, c :: rest =>
    if c = mark then
      let marks := markRun mark (c :: rest)
      if 3 ≤ marks then
        some (String.ofList (List.replicate (marks - 3) mark ++ found).reverse, rest.drop (marks - 1))
      else longBody? isLiteral mark fuel (c :: found) rest
    else
      match lineEnd? (c :: rest) with
      | some rest => longBody? isLiteral mark fuel ('\n' :: found) rest
      | none =>
        if c = '\\' && !isLiteral then
          match escape? rest, lineEnd? (skipBlanks rest) with
          | some (c, rest), _ => longBody? isLiteral mark fuel (c :: found) rest
          | none, some rest => longBody? isLiteral mark fuel found (skipFold rest.length rest)
          | none, none => none
        else if isPlain c then longBody? isLiteral mark fuel (c :: found) rest
        else none

def text? : Step String := fun cs =>
  match cs with
  | '\x22' :: '\x22' :: '\x22' :: rest =>
    longBody? false '\x22' (rest.length + 1) [] (skipFirstLineEnd rest)
  | '\x27' :: '\x27' :: '\x27' :: rest =>
    longBody? true '\x27' (rest.length + 1) [] (skipFirstLineEnd rest)
  | '\x22' :: rest => basicBody? (rest.length + 1) [] rest
  | '\x27' :: rest => literalBody? rest
  | _ => none

/-- Whether a character may stand in a key without quotation marks. -/
def isBare (c : Char) : Bool := c.isAlphanum || c = '_' || c = '-'

def keyPart? : Step String := fun cs =>
  match cs with
  | '\x22' :: rest => basicBody? (rest.length + 1) [] rest
  | '\x27' :: rest => literalBody? rest
  | _ =>
    match cs.takeWhile isBare with
    | [] => none
    | part => some (String.ofList part, cs.dropWhile isBare)

/-- The further parts of a key, each after a point. -/
def keyTail? : Nat → List Char → Option (List String × List Char)
  | 0, cs => some ([], cs)
  | fuel + 1, cs =>
    match skipBlanks cs with
    | '.' :: rest => do
      let (part, rest) ← keyPart? (skipBlanks rest)
      let (parts, rest) ← keyTail? fuel rest
      return (part :: parts, rest)
    | _ => some ([], cs)

/-- How deep values and keys nest at most. -/
def maxDepth : Nat := 80

/-- A key: its parts before the last, and the last. -/
def key? : Step (List String × String) := fun cs => do
  let (first, rest) ← keyPart? cs
  let (parts, rest) ← keyTail? rest.length rest
  let all := first :: parts
  if maxDepth ≤ all.length then none
  else return ((all.dropLast, all.getLast?.getD first), rest)

/-- Digits of a class with single underscores between them. -/
def digits? (isDigit : Char → Bool) : Step (List Char) := fun cs =>
  match cs with
  | c :: rest => if isDigit c then some (scan [c] rest) else none
  | [] => none
where
  /-- The digits so far, last one first, and the characters after them. -/
  scan : List Char → List Char → List Char × List Char
    | found, '_' :: c :: rest =>
      if isDigit c then scan (c :: found) rest else (found.reverse, '_' :: c :: rest)
    | found, c :: rest => if isDigit c then scan (c :: found) rest else (found.reverse, c :: rest)
    | found, [] => (found.reverse, [])

def sign : Bool × List Char :=
  match cs with
  | '+' :: rest => (false, rest)
  | '-' :: rest => (true, rest)
  | _ => (false, cs)

/-- Decimal digits of which no zero leads others. -/
def wholeDigits? : Step (List Char) := fun cs =>
  match cs with
  | '0' :: rest => some (['0'], rest)
  | _ => digits? Char.isDigit cs

def digitsValue (base : Nat) (digits : List Char) : Nat :=
  digits.foldl (fun n c => base * n + (hexValue? c).getD 0) 0

/-- An integer of 64 bits, if it is in range. -/
def boundedInt? (n : Int) : Option Toml := if (int64OfInt? n).isSome then some (.int n) else none

/-- An integer in a base that is announced by a letter. -/
def basedInteger? (base : Nat) (isDigit : Char → Bool) : Step Toml := fun cs => do
  let (digits, rest) ← digits? isDigit cs
  return (← boundedInt? (digitsValue base digits), rest)

def integer? : Step Toml := fun cs =>
  match cs with
  | '0' :: 'x' :: rest => basedInteger? 16 (fun c => (hexValue? c).isSome) rest
  | '0' :: 'o' :: rest => basedInteger? 8 (fun c => '0' ≤ c && c ≤ '7') rest
  | '0' :: 'b' :: rest => basedInteger? 2 (fun c => c = '0' || c = '1') rest
  | _ => do
    let (negative, rest) := sign cs
    let (digits, rest) ← wholeDigits? rest
    let n : Int := digitsValue 10 digits
    return (← boundedInt? (if negative then -n else n), rest)

/-- The digits after a point, if there is one. -/
def fraction? : Step (Option (List Char)) := fun cs =>
  match cs with
  | '.' :: rest => (digits? Char.isDigit rest).map fun (digits, rest) => (some digits, rest)
  | _ => some (none, cs)

def exponent? : Step (Option Int) := fun cs =>
  match cs with
  | c :: rest =>
    if c = 'e' || c = 'E' then do
      let (negative, rest) := sign rest
      let (digits, rest) ← digits? Char.isDigit rest
      let n : Int := digitsValue 10 digits
      return (some (if negative then -n else n), rest)
    else some (none, cs)
  | [] => some (none, [])

/-- A number with a fraction or an exponent, or one of the special numbers. -/
def float? : Step Toml := fun cs =>
  let (negative, unsigned) := sign cs
  let signed (x : Float) : Float := if negative then -x else x
  match unsigned with
  | 'i' :: 'n' :: 'f' :: rest => some (.float (signed (1.0 / 0.0)), rest)
  | 'n' :: 'a' :: 'n' :: rest => some (.float (0.0 / 0.0), rest)
  | _ => do
    let (whole, rest) ← wholeDigits? unsigned
    let (fraction, rest) ← fraction? rest
    let (power, rest) ← exponent? rest
    if fraction.isNone && power.isNone then none
    let digits := fraction.getD []
    let x := signed
      (Json.scaledFloat (digitsValue 10 (whole ++ digits)) (power.getD 0 - digits.length))
    if x == 1.0 / 0.0 then none else return (.float x, rest)

/-- A number of decimal digits, as a value within bounds. -/
def field? (places low high : Nat) : Step Nat := fun cs =>
  let digits := (cs.take places).takeWhile Char.isDigit
  let n := digitsValue 10 digits
  if digits.length = places && low ≤ n && n ≤ high then some (n, cs.drop places) else none

def monthDays (year month : Nat) : Nat :=
  if month = 2 then
    if year % 400 = 0 || (year % 4 = 0 && year % 100 ≠ 0) then 29 else 28
  else if month = 4 || month = 6 || month = 9 || month = 11 then 30
  else 31

def char? (c : Char) : List Char → Option (List Char)
  | d :: rest => if c = d then some rest else none
  | [] => none

def date? : Option (List Char) := do
  let (year, rest) ← field? 4 0 9999 cs
  let (month, rest) ← field? 2 1 12 (← char? '-' rest)
  let (_, rest) ← field? 2 1 (monthDays year month) (← char? '-' rest)
  return rest

/-- Passes over a time of day. -/
def clock? : Option (List Char) := do
  let (_, rest) ← field? 2 0 23 cs
  let (_, rest) ← field? 2 0 59 (← char? ':' rest)
  let (_, rest) ← field? 2 0 60 (← char? ':' rest)
  match rest with
  | '.' :: fraction =>
    if (fraction.takeWhile Char.isDigit).isEmpty then none
    else return fraction.dropWhile Char.isDigit
  | _ => return rest

/-- Passes over the distance from universal time, if there is one. -/
def zone? : Option (List Char) :=
  match cs with
  | 'Z' :: rest | 'z' :: rest => some rest
  | c :: rest =>
    if c = '+' || c = '-' then do
      let (_, rest) ← field? 2 0 23 rest
      let (_, rest) ← field? 2 0 59 (← char? ':' rest)
      return rest
    else some cs
  | [] => some []

/-- A point in time: a date, a time of day, or both. -/
def time? : Step Toml := fun cs =>
  let written (rest : List Char) : Toml × List Char :=
    (.time (String.ofList (cs.take (cs.length - rest.length))), rest)
  match date? cs with
  | some rest =>
    let joined := match rest with
      | c :: more => if c = 'T' || c = 't' || c = ' ' then (clock? more).bind zone? else none
      | [] => none
    some (written (joined.getD rest))
  | none => (clock? cs).map written

def truth? : Step Toml
  | 't' :: 'r' :: 'u' :: 'e' :: rest => some (.bool true, rest)
  | 'f' :: 'a' :: 'l' :: 's' :: 'e' :: rest => some (.bool false, rest)
  | _ => none

/-- A value that holds no others. -/
def scalar? : Step Toml := fun cs =>
  match text? cs with
  | some (s, rest) => some (.text s, rest)
  | none => (time? cs).or ((float? cs).or ((integer? cs).or (truth? cs)))

end Ripple.Toml
