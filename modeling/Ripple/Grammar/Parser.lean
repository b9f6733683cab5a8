import Ripple.Grammar.Cursor

/-!
# Combinators for Grammar Rules

A rule reads items at a cursor. Rules are joined with `++` for one after the
other and `<|>` for the first that fits, so that a grammar module reads like
the grammar. A node takes the items of its rule as children, but comments in
front of its first token stay outside of it: a comment belongs to the
innermost construct that has tokens on both sides of it.
-/

namespace Ripple.Grammar

def Parser : Type := Cursor → Reply

namespace Parser

def empty : Parser := fun c => .ok [] c

/-- Fits nowhere. -/
def refuse : Parser := fun c => .fail (max c.reached c.here.offset)

/-- One rule after the other. -/
def andThen (p q : Parser) : Parser := fun c =>
  match p c with
  | .fail reached => .fail reached
  | .ok items c =>
    match q c with
    | .fail reached => .fail reached
    | .ok more c => .ok (items ++ more) c

instance : Append Parser := ⟨andThen⟩

/-- The first of two rules that fits. -/
def orElse (p : Parser) (q : Unit → Parser) : Parser := fun c =>
  match p c with
  | .fail reached => q () { c with reached := max c.reached reached }
  | .ok items c => .ok items c

instance : OrElse Parser := ⟨orElse⟩

def opt (p : Parser) : Parser := p.orElse fun _ => empty

/-- The steps of a repetition, at most as many as given; the items so far come last first. -/
def manyFrom (p : Parser) : Nat → List Items → Cursor → Reply
  | 0, found, c => .ok found.reverse.flatten c
  | fuel + 1, found, c =>
    match p c with
    | .fail reached => .ok found.reverse.flatten { c with reached := max c.reached reached }
    | .ok items after =>
      if after.here.offset = c.here.offset && after.last.offset = c.last.offset then
        .ok (items :: found).reverse.flatten after
      else manyFrom p fuel (items :: found) after

def many (p : Parser) : Parser := fun c => manyFrom p c.budget [] c

def sepBy1 (p separator : Parser) : Parser := p ++ many (separator ++ p)

def sepBy (p separator : Parser) : Parser := opt (sepBy1 p separator)

/-- A rule that is chosen by looking ahead. -/
def choose (pick : Cursor → Parser) : Parser := fun c => pick c c

/-- A rule, only where a condition on the cursor holds. -/
def onlyIf (test : Cursor → Bool) (p : Parser) : Parser := fun c =>
  if test c then p c else refuse c

end Parser

open Parser

/-- Whether an item stands between tokens only: a comment or a passed-over stretch. -/
def isExtra (t : Tree) : Bool := t.is .comment || t.kind = .error

/-- The node over a row of items, after the comments that stand in front of it. -/
def gather (c : Construct) (items : Items) : Items :=
  let front := items.takeWhile isExtra
  let inner := items.dropWhile isExtra
  match inner with
  | [] => front
  | first :: _ =>
    let final := inner.getLastD first
    front ++ [⟨.construct c, none, first.start, final.stop, inner.any (·.hasError), inner⟩]

/-- A construct over the items of a rule. -/
def node (c : Construct) (p : Parser) : Parser := fun cursor =>
  match p cursor with
  | .fail reached => .fail reached
  | .ok items after => .ok (gather c items) after

/-- A construct over the items of a rule, unless the rule yields a single item. -/
def nodeIfMany (c : Construct) (p : Parser) : Parser := fun cursor =>
  match p cursor with
  | .fail reached => .fail reached
  | .ok items after =>
    if (items.filter fun t => !isExtra t).length ≤ 1 then .ok items after
    else .ok (gather c items) after

/-- Gives the items of a rule a role. -/
def labelled (role : Role) (p : Parser) : Parser := fun cursor =>
  match p cursor with
  | .fail reached => .fail reached
  | .ok items after =>
    .ok (items.map fun t => if isExtra t then t else { t with role := some role }) after

/-- A rule followed by a chain of suffixes, each of which wraps what precedes it. -/
def chainFrom (suffix : Items → Parser) : Nat → Items → Cursor → Reply
  | 0, items, c => .ok items c
  | fuel + 1, items, c =>
    match suffix items c with
    | .fail reached => .ok items { c with reached := max c.reached reached }
    | .ok items after => chainFrom suffix fuel items after

/-- A rule followed by a chain of suffixes. -/
def chain (p : Parser) (suffix : Items → Parser) : Parser := fun c =>
  match p c with
  | .fail reached => .fail reached
  | .ok items after => chainFrom suffix c.budget items after

/-- A rule that may be followed by one suffix, which wraps what precedes it. -/
def extended (p : Parser) (suffix : Items → Parser) : Parser := fun c =>
  match p c with
  | .fail reached => .fail reached
  | .ok items after =>
    match suffix items after with
    | .fail reached => .ok items { after with reached := max after.reached reached }
    | .ok whole after => .ok whole after

def given (items : Items) : Parser := fun c => .ok items c

def givenAs (role : Role) (items : Items) : Parser := labelled role (given items)

/-- Whether text begins with a spelling, and what follows it. -/
def strip? : List Char → List Char → Option (List Char)
  | [], cs => some cs
  | t :: ts, c :: cs => if t = c then strip? ts cs else none
  | _ :: _, [] => none

variable (text : String)

/-- A supposed token, where the repairs allow it. -/
def supposed : Parser := fun c =>
  if c.repairs.contains (.supply c.here.offset text) then
    .ok [⟨.missing text, none, c.last, c.last, true, []⟩]
      { c with
        repairs := c.repairs.erase (.supply c.here.offset text)
        mended := true }
  else refuse c

/-- A leaf over text that begins at the next token, after the comments before it. -/
def leaf (kind : Kind) (text after : List Char) : Parser := fun c =>
  let tree := leafAt kind c.here text
  .ok (c.leading ++ [tree]) (c.land after tree.stop)

def punct : Parser := fun c =>
  match strip? text.toList c.rest with
  | some after => leaf (.token text) text.toList after c
  | none => supposed text c

def atWord (c : Cursor) : Bool :=
  match strip? text.toList c.rest with
  | some after => !continuesName after
  | none => false

def word : Parser := fun c =>
  match strip? text.toList c.rest with
  | some after => if continuesName after then refuse c else leaf (.token text) text.toList after c
  | none => refuse c

def wordAs (construct : Construct) (text : String) : Parser := fun c =>
  match strip? text.toList c.rest with
  | some after =>
    if continuesName after then refuse c else leaf (.construct construct) text.toList after c
  | none => refuse c

def anyWord (texts : List String) : Parser := fun c =>
  match texts.find? (atWord · c) with
  | some text => word text c
  | none => refuse c

/-- A name, as a construct of the given kind, unless it is among the excluded ones. -/
def nameAs (construct : Construct) (excluded : List String) : Parser := fun c =>
  match scanName c.rest with
  | some (name, after) =>
    if excluded.contains (String.ofList name) then refuse c
    else leaf (.construct construct) name after c
  | none => refuse c

/-- The longest of a list of marks that stands at a cursor. -/
def longestMark? (marks : List String) (c : Cursor) : Option String :=
  (marks.filter fun mark => (strip? mark.toList c.rest).isSome).foldl
    (fun best mark =>
      match best with
      | none => some mark
      | some b => if b.length < mark.length then some mark else some b)
    none

def between (opening closing : String) (p : Parser) : Parser := punct opening ++ p ++ punct closing

end Ripple.Grammar
