/-!
# Blank Space and Trimming

Which characters count as blank space in prose (the Unicode property
White_Space), and cutting such characters off the ends of a text.
-/

namespace Ripple

/-- Characters with the Unicode property White_Space. -/
def isWhite (c : Char) : Bool :=
  let n := c.toNat
  (9 ≤ n && n ≤ 13) || n = 0x20 || n = 0x85 || n = 0xA0 || n = 0x1680 ||
    (0x2000 ≤ n && n ≤ 0x200A) || n = 0x2028 || n = 0x2029 || n = 0x202F || n = 0x205F ||
    n = 0x3000

/-- A text without the characters of a class at either end. -/
def trimWhere (drop : Char → Bool) (cs : List Char) : List Char :=
  ((cs.dropWhile drop).reverse.dropWhile drop).reverse

/-- A text without blank ends. -/
def trim (cs : List Char) : List Char := trimWhere isWhite cs

def trimText (text : String) : String := String.ofList (trim text.toList)

def beginsWith (text front : String) : Bool := front.toList.isPrefixOf text.toList

def finishesWith (text tail : String) : Bool := tail.toList.isSuffixOf text.toList

def stripFront? (front text : String) : Option String :=
  if beginsWith text front then some (String.ofList (text.toList.drop front.length)) else none

/-- What precedes a text at the end of another. -/
def stripTail? (tail text : String) : Option String :=
  if finishesWith text tail then
    some (String.ofList (text.toList.take (text.length - tail.length)))
  else none

/-- Cuts a list at every character of a class. -/
def splitWhere (isCut : Char → Bool) : List Char → List (List Char)
  | [] => [[]]
  | c :: cs =>
    if isCut c then [] :: splitWhere isCut cs
    else
      match splitWhere isCut cs with
      | [] => [[c]]
      | part :: parts => (c :: part) :: parts

def splitText (cut : Char) (text : String) : List String :=
  (splitWhere (· = cut) text.toList).map String.ofList

/-- A line without the return at its end. -/
def stripReturn (line : String) : String := (stripTail? "\r" line).getD line

/-- The lines of a text; a line break at the end begins no further line. -/
def textLines (text : String) : List String :=
  match (splitText '\n' text).reverse with
  | "" :: lines => lines.reverse.map stripReturn
  | last :: lines => (lines.reverse.map stripReturn) ++ [last]
  | [] => []

end Ripple
