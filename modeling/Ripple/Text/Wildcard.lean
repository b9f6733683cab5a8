/-!
# Wildcard Patterns

A pattern stands for a set of texts. A question mark is any character, a star
any run of characters, and brackets hold the characters to choose from. Two
stars in the place of a whole segment of a path are any number of segments.
A slash is a character like any other for all of these.
-/

namespace Ripple

inductive WildcardPart where
  | only (c : Char)
  | any
  /-- A character of some ranges, or of none of them. -/
  | oneOf (inside : Bool) (ranges : List (Char × Char))
  | run
  /-- Any number of whole segments, or all that is left. -/
  | segments
deriving DecidableEq, Repr

abbrev Wildcard := List WildcardPart

namespace Wildcard

/-- The ranges between brackets; a dash between two characters makes a range of them. -/
def ranges : List Char → List (Char × Char)
  | first :: '-' :: last :: rest => (first, last) :: ranges rest
  | c :: rest => (c, c) :: ranges rest
  | [] => []

/-- The characters up to a closing bracket and what follows it; the first one closes nothing. -/
def bracketed? : List Char → Option (List Char × List Char)
  | [] => none
  | first :: rest =>
    match rest.dropWhile (· ≠ ']') with
    | [] => none
    | _ :: after => some (first :: rest.takeWhile (· ≠ ']'), after)

/-- Brackets and what follows them. -/
def choice? : List Char → Option (WildcardPart × List Char)
  | '!' :: cs => (bracketed? cs).map fun (inner, rest) => (.oneOf false (ranges inner), rest)
  | cs => (bracketed? cs).map fun (inner, rest) => (.oneOf true (ranges inner), rest)

/-- Stars and what follows them; two stars take the slash behind them along. -/
def stars? (atSegment : Bool) (cs : List Char) : Option (WildcardPart × List Char) :=
  let count := (cs.takeWhile (· = '*')).length
  let rest := cs.dropWhile (· = '*')
  if count < 2 then some (.run, rest)
  else if count = 2 && atSegment then
    match rest with
    | [] => some (.segments, [])
    | '/' :: after => some (.segments, after)
    | _ => none
  else none

/-- The parts of a pattern; each part takes a character at least. -/
def parts? : Nat → Bool → List Char → Option Wildcard
  | _, _, [] => some []
  | 0, _, _ :: _ => none
  | fuel + 1, atSegment, c :: cs =>
    if c = '?' then (parts? fuel false cs).map (.any :: ·)
    else if c = '*' then do
      let (part, rest) ← stars? atSegment (c :: cs)
      return part :: (← parts? fuel (part = .segments) rest)
    else if c = '[' then do
      let (part, rest) ← choice? cs
      return part :: (← parts? fuel false rest)
    else (parts? fuel (c = '/') cs).map (.only c :: ·)

def ofText? (text : String) : Option Wildcard := parts? text.length true text.toList

/-- Whether a part that stands for one character stands for a given one. -/
def accepts (c : Char) : WildcardPart → Bool
  | .only d => c = d
  | .any => true
  | .oneOf inside ranges => inside == ranges.any fun (low, high) => low ≤ c && c ≤ high
  | .run | .segments => false

/-- All ends of a list, the longest first. -/
def ends : List Char → List (List Char)
  | [] => [[]]
  | c :: cs => (c :: cs) :: ends cs

def afterSlashes : List Char → List (List Char)
  | [] => []
  | c :: cs => if c = '/' then cs :: afterSlashes cs else afterSlashes cs

/-- Whether characters belong to a pattern. -/
def matchesChars : Wildcard → List Char → Bool
  | [], cs => cs.isEmpty
  | .run :: rest, cs => (ends cs).any (matchesChars rest)
  | .segments :: rest, cs => (cs :: afterSlashes cs ++ [[]]).any (matchesChars rest)
  | _ :: _, [] => false
  | part :: rest, c :: cs => accepts c part && matchesChars rest cs

def accepted (pattern : Wildcard) (text : String) : Bool := matchesChars pattern text.toList

end Wildcard

end Ripple
