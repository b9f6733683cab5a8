/-!
# Positions in Source Text

A position counts what a reader of the text has passed: bytes of its UTF-8
form since the start, line ends, and bytes since the last line end. A piece
of text is named by the byte offsets of its two ends.
-/

namespace Ripple

/-- A place between two characters of a text. -/
structure Position where
  /-- Bytes before this place. -/
  offset : Nat
  /-- Line ends before this place. -/
  row : Nat
  /-- Bytes between the last line end and this place. -/
  column : Nat
deriving DecidableEq, Repr, Inhabited

/-- The place before the first character. -/
def Position.origin : Position := ⟨0, 0, 0⟩

def byteWidth (c : Char) : Nat := c.utf8Size

def Position.past (p : Position) (c : Char) : Position :=
  if c = '\n' then ⟨p.offset + 1, p.row + 1, 0⟩
  else ⟨p.offset + byteWidth c, p.row, p.column + byteWidth c⟩

def Position.pastAll (p : Position) (cs : List Char) : Position := cs.foldl Position.past p

/-- What is left after dropping a number of bytes. -/
def dropBytes : Nat → List Char → List Char
  | 0, cs => cs
  | _, [] => []
  | n + 1, c :: cs => dropBytes (n + 1 - byteWidth c) cs
termination_by structural _ cs => cs

/-- The leading characters that fit in a number of bytes. -/
def takeBytes : Nat → List Char → List Char
  | 0, _ => []
  | _, [] => []
  | n + 1, c :: cs => if byteWidth c ≤ n + 1 then c :: takeBytes (n + 1 - byteWidth c) cs else []
termination_by structural _ cs => cs

def slice (source : List Char) (start stop : Nat) : List Char :=
  takeBytes (stop - start) (dropBytes start source)

end Ripple
