import Ripple.Grammar.Lexeme
import Ripple.Source.Tree

/-!
# Reading Places

A cursor stands between two tokens. It knows the text right after the last
token, the comments in front of the next one, and the text from the next one
on. Keeping all three is what the language asks for: whether a statement may
end without a semicolon depends on the text between the tokens.

Faulty text is read by deciding beforehand how it is mended: which stretches
are passed over, and which tokens are supposed. The cursor carries these
repairs along, and a passed-over stretch stands among the comments as an
error node.
-/

namespace Ripple.Grammar

/-- One mending of faulty text, at a byte offset where a token begins. -/
inductive Repair where
  /-- Passes over the text up to another offset. -/
  | skip (start stop : Nat)
  /-- Supposes a token of the given spelling. -/
  | supply (before : Nat) (text : String)
deriving DecidableEq, Repr

/-- A comment or a passed-over stretch, with the text that follows it. -/
structure Extra where
  tree : Tree
  after : List Char

/-- A place between two tokens. -/
structure Cursor where
  /-- The text right after the last token. -/
  gap : List Char
  last : Position
  /-- What stands before the next token. -/
  extras : List Extra
  rest : List Char
  here : Position
  /-- No statement ends at a place that was mended. -/
  mended : Bool
  /-- The furthest offset at which a token was refused. -/
  reached : Nat
  repairs : List Repair
  /-- No loop over the text runs longer than this. -/
  budget : Nat

/-- The items of a tree under construction: nodes with comments between them. -/
abbrev Items := List Tree

/-- A leaf over a run of characters. -/
def leafAt (kind : Kind) (start : Position) (text : List Char) : Tree :=
  ⟨kind, none, start, start.pastAll text, false, []⟩

def skipBlanks : List Char → Position → List Char × Position
  | [], p => ([], p)
  | c :: rest, p => if isBlank c then skipBlanks rest (p.past c) else (c :: rest, p)

/-- Cuts text into leaves for an error node: names, numbers and single marks. -/
def roughLeaves : Nat → List Char → Position → List Tree
  | 0, _, _ => []
  | fuel + 1, cs, p =>
    let (cs, p) := skipBlanks cs p
    match cs with
    | [] => []
    | c :: rest =>
      let (kind, text, after) :=
        match scanName cs with
        | some (name, after) => (Kind.construct .identifier, name, after)
        | none =>
          match scanNumber cs with
          | some (digits, after) => (Kind.construct .number, digits, after)
          | none => (Kind.token (String.singleton c), [c], rest)
      leafAt kind p text :: roughLeaves fuel after (p.pastAll text)

def errorNode (start : Position) (text : List Char) : Tree :=
  let body := text.reverse.dropWhile isBlank |>.reverse
  ⟨.error, none, start, start.pastAll body, true, roughLeaves (body.length + 1) body start⟩

/-- Where the repairs pass over text that begins at an offset. -/
def skipTarget? (repairs : List Repair) (offset : Nat) : Option Nat :=
  repairs.findSome? fun
    | .skip start stop => if start = offset then some stop else none
    | .supply _ _ => none

/-- Collects comments and passed-over stretches up to the next token. -/
def collectExtras (repairs : List Repair) : Nat → List Char → Position → List Extra →
    List Extra × List Char × Position
  | 0, cs, p, found => (found.reverse, cs, p)
  | fuel + 1, cs, p, found =>
    let (cs, p) := skipBlanks cs p
    match skipTarget? repairs p.offset with
    | some stop =>
      let text := takeBytes (stop - p.offset) cs
      let after := dropBytes (stop - p.offset) cs
      collectExtras repairs fuel after (p.pastAll text) (⟨errorNode p text, after⟩ :: found)
    | none =>
      match scanComment cs with
      | some (text, after) =>
        let tree := leafAt (.construct .comment) p text
        collectExtras repairs fuel after tree.stop (⟨tree, after⟩ :: found)
      | none => (found.reverse, cs, p)

namespace Cursor

variable (c : Cursor)

/-- The cursor after a token that ends where the given text begins. -/
def land (after : List Char) (stop : Position) : Cursor :=
  let (extras, rest, here) := collectExtras c.repairs c.budget after stop []
  { c with
    gap := after
    last := stop
    extras
    rest
    here
    mended := extras.any fun extra => extra.tree.kind = .error }

def start (source : List Char) (repairs : List Repair) : Cursor :=
  let blank : Cursor := ⟨source, .origin, [], source, .origin, false, 0, repairs, source.length + 1⟩
  blank.land source .origin

def leading : Items := c.extras.map (·.tree)

/-- The cursor after the first comment in front of the next token. -/
def absorb? : Option (Tree × Cursor) :=
  match c.extras with
  | [] => none
  | extra :: more =>
    if extra.tree.kind = .error then none
    else
      some (extra.tree,
        { c with
          gap := extra.after
          last := extra.tree.stop
          extras := more })

def atEnd : Bool := c.rest.isEmpty

def peek : Char := c.rest.headD '\x00'

/-- The name at the cursor, or the empty text. -/
def lexeme : String :=
  match scanName c.rest with
  | some (name, _) => String.ofList name
  | none => ""

end Cursor

/-- What reading at a cursor yields: the items read, or the furthest refusal. -/
inductive Reply where
  | ok (items : Items) (after : Cursor)
  | fail (reached : Nat)

end Ripple.Grammar
