import Ripple.Grammar.Parser

/-!
# Statement Ends

A statement may end without a semicolon at the end of the text, before a
closing brace, and at a line end unless the next line can only go on with
the statement. What goes on depends on where the statement stands: after an
expression an opening parenthesis or bracket continues it, after a type it
does not, and after the head of a function an opening brace is its body.

A comment on the line of the statement belongs to the statement: it is read
before the question is asked.
-/

namespace Ripple.Grammar

open Parser

/-- What stands before a place where a statement may end. -/
inductive Ending where
  | closed
  /-- An expression, which an opening parenthesis or bracket continues. -/
  | expression
  | type
  /-- The head of a function, which an opening brace continues. -/
  | signature
deriving DecidableEq, Repr

/-- The rest of the word `instanceof` after its first two letters. -/
def instanceTail : List Char := ['s', 't', 'a', 'n', 'c', 'e', 'o', 'f']

/-- Whether a line that starts with a word beginning in `in` is a line of its own: neither `in`
nor `instanceof` starts one. -/
def startsOwnLine (afterIn : List Char) : Bool :=
  match afterIn with
  | [] => false
  | c :: _ =>
    if !c.isAlpha then false
    else
      match strip? instanceTail afterIn with
      | none => true
      | some (c :: _) => c.isAlpha
      | some [] => false

variable (ending : Ending)

/-- Whether a statement ends before a line that starts with the given text. -/
def Ending.beforeLine : List Char → Bool
  | [] => true
  | '+' :: rest => rest.head? = some '+'
  | '-' :: rest => rest.head? = some '-'
  | '!' :: rest => rest.head? ≠ some '='
  | 'i' :: 'n' :: rest => startsOwnLine rest
  | '{' :: _ => ending ≠ .signature
  | '(' :: _ => ending ≠ .expression
  | '[' :: _ => ending ≠ .expression
  | c :: _ =>
    !(c = '\x60' || c = ',' || c = '.' || c = ';' || c = '*' || c = '%' || c = '>' || c = '<' ||
      c = '=' || c = '?' || c = '^' || c = '|' || c = '&' || c = '/' || c = ':')

/-- Whether a statement ends before the given text. -/
def Ending.before (ending : Ending) : List Char → Bool
  | [] => true
  | '}' :: rest =>
    match rest.dropWhile isPlainSpace with
    | ':' :: _ => ending = .expression
    | _ => true
  | '\n' :: rest => ending.beforeLine (afterTrivia rest)
  | c :: rest => if isPlainSpace c then ending.before rest else false

/-- Whether a statement ends at a cursor without a semicolon. -/
def Ending.fires (c : Cursor) : Bool :=
  match ending with
  | .closed => false
  | _ => !c.mended && ending.before c.gap

/-- Reads the comments that belong to a statement that ends without a semicolon. -/
def unwrittenFrom (ending : Ending) : Nat → Items → Cursor → Reply
  | 0, _, c => refuse c
  | fuel + 1, comments, c =>
    if ending.fires c then .ok comments.reverse c
    else
      match c.absorb? with
      | some (comment, after) => unwrittenFrom ending fuel (comment :: comments) after
      | none => refuse c

/-- The end of a statement without a semicolon. -/
def unwritten : Parser := fun c => unwrittenFrom ending c.budget [] c

def semicolon : Parser := unwritten ending <|> punct ";"

/-- Whether a statement ends before the next token, comments on its line passed. -/
def Ending.ends (c : Cursor) : Bool :=
  match ending with
  | .closed => false
  | _ =>
    match unwritten ending c with
    | .ok _ _ => true
    | .fail _ => false

/-- A rule that goes on with what precedes it, where the statement does not end. -/
def continuing (p : Parser) : Parser := onlyIf (fun c => !ending.ends c) p

/-- A keyword that is also a name, where the statement does not end right after it. -/
def softWord (text : String) : Parser := fun c =>
  match word text c with
  | .fail reached => .fail reached
  | .ok items after => if Ending.ends .expression after then refuse c else .ok items after

end Ripple.Grammar
