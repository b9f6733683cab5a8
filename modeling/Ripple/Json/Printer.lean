import Ripple.Decimal.Shortest
import Ripple.Json.Basic
import Ripple.Text.Hex

/-!
# Writing JSON

JSON is written in two forms: on one line without blanks, and spread over
lines with two blanks for each level. Text is written as it is, with escapes
for quotation marks, backslashes and control characters only.
-/

namespace Ripple.Json

def escapeChar (c : Char) : List Char :=
  match c with
  | '\x22' => ['\\', '\x22']
  | '\\' => ['\\', '\\']
  | '\n' => ['\\', 'n']
  | '\r' => ['\\', 'r']
  | '\t' => ['\\', 't']
  | '\x08' => ['\\', 'b']
  | '\x0c' => ['\\', 'f']
  | c =>
    if c.toNat < 0x20 then
      ['\\', 'u', '0', '0', hexDigit (c.toNat / 16), hexDigit (c.toNat % 16)]
    else [c]

def quote (s : String) : String :=
  String.ofList ('\x22' :: s.toList.flatMap escapeChar ++ ['\x22'])

/-- The written form of a number that is no integer; a number that is not finite is null. -/
def writeNumber (x : Float) : String := if x.isFinite then Decimal.writeFloat x else "null"

def writeAtom : Json → String
  | null => "null"
  | bool true => "true"
  | bool false => "false"
  | int n => toString n
  | float x => writeNumber x
  | text s => quote s
  | list _ => "[]"
  | object _ => "\x7b\x7d"

mutual

def compact : Json → String
  | list items => "[" ++ String.intercalate "," (compactItems items) ++ "]"
  | object fields => "\x7b" ++ String.intercalate "," (compactFields fields) ++ "\x7d"
  | j => writeAtom j

def compactItems : List Json → List String
  | [] => []
  | j :: rest => compact j :: compactItems rest

def compactFields : List (String × Json) → List String
  | [] => []
  | (name, j) :: rest => (quote name ++ ":" ++ compact j) :: compactFields rest

end

/-- The blanks in front of a line at a level. -/
def indent (level : Nat) : String := String.ofList (List.replicate (2 * level) ' ')

/-- Lines between brackets, or the brackets alone. -/
def bracket (opening closing : String) (level : Nat) (lines : List String) : String :=
  match lines with
  | [] => opening ++ closing
  | _ =>
    opening ++ "\n" ++
      String.intercalate ",\n" (lines.map fun line => indent (level + 1) ++ line) ++
      "\n" ++ indent level ++ closing

mutual

/-- The form over several lines, at a level. -/
def prettyAt (level : Nat) : Json → String
  | list items => bracket "[" "]" level (prettyItems (level + 1) items)
  | object fields => bracket "\x7b" "\x7d" level (prettyFields (level + 1) fields)
  | j => writeAtom j

def prettyItems (level : Nat) : List Json → List String
  | [] => []
  | j :: rest => prettyAt level j :: prettyItems level rest

def prettyFields (level : Nat) : List (String × Json) → List String
  | [] => []
  | (name, j) :: rest => (quote name ++ ": " ++ prettyAt level j) :: prettyFields level rest

end

def pretty (j : Json) : String := prettyAt 0 j

end Ripple.Json
