import Ripple.Grammar.Nonterminal

/-!
# Literals and Names

Quoted text, template text, numbers, regular expressions, and the names by
which members are defined and reached.

A word is a keyword only where the grammar asks for it. A fixed list of
words may name things although statements begin with them; the words that
expressions and statements are built from may not.
-/

namespace Ripple.Grammar

open Parser

/-- A leaf that begins right at the end of the last token. -/
def joined (kind : Kind) (text after : List Char) : Parser := fun c =>
  let tree := leafAt kind c.last text
  .ok [tree] (c.land after tree.stop)

/-- An escape inside quoted text: its characters and what follows. -/
def scanEscape : List Char → Option (List Char × List Char)
  | '\\' :: 'u' :: '{' :: rest =>
    let digits := rest.takeWhile isHexDigit
    match rest.dropWhile isHexDigit with
    | '}' :: after => some ('\\' :: 'u' :: '{' :: digits ++ ['}'], after)
    | _ => some (['\\', 'u'], '{' :: rest)
  | '\\' :: 'u' :: a :: b :: c :: d :: after =>
    if isHexDigit a && isHexDigit b && isHexDigit c && isHexDigit d then
      some (['\\', 'u', a, b, c, d], after)
    else some (['\\', 'u'], a :: b :: c :: d :: after)
  | '\\' :: 'x' :: a :: b :: after =>
    if isHexDigit a && isHexDigit b then some (['\\', 'x', a, b], after)
    else some (['\\', 'x'], a :: b :: after)
  | '\\' :: '\r' :: '\n' :: after => some (['\\', '\r', '\n'], after)
  | '\\' :: c :: rest =>
    if '0' ≤ c && c ≤ '7' then
      let digits := (c :: rest).takeWhile (fun d => '0' ≤ d && d ≤ '7') |>.take 3
      some ('\\' :: digits, (c :: rest).drop digits.length)
    else some (['\\', c], rest)
  | _ => none

/-- The pieces of quoted text up to the closing mark: plain stretches and escapes. -/
def quotedPieces (isPlain : Char → Bool) : Nat → Items → Cursor → Reply
  | 0, _, c => refuse c
  | fuel + 1, found, c =>
    let plain := c.gap.takeWhile isPlain
    match plain with
    | _ :: _ =>
      let tree := leafAt (.construct .stringFragment) c.last plain
      quotedPieces isPlain fuel (tree :: found)
        (c.land (c.gap.dropWhile isPlain) tree.stop)
    | [] =>
      match scanEscape c.gap with
      | some (escape, after) =>
        let tree := leafAt (.construct .escapeSequence) c.last escape
        quotedPieces isPlain fuel (tree :: found) (c.land after tree.stop)
      | none => .ok found.reverse c

def quotedBody (isPlain : Char → Bool) : Parser := fun c => quotedPieces isPlain c.budget [] c

/-- The closing mark of quoted text, right at the end of the last piece. -/
def closingQuote (mark : Char) : Parser := fun c =>
  match c.gap with
  | d :: after =>
    if d = mark then joined (.token (String.singleton mark)) [mark] after c
    else .fail (max c.reached c.last.offset)
  | [] => .fail (max c.reached c.last.offset)

def quotedWith (mark : Char) : Parser :=
  let isPlain := fun c => c ≠ mark && c ≠ '\\' && c ≠ '\n' && c ≠ '\r'
  node .string
    (punct (String.singleton mark) ++ quotedBody isPlain ++ closingQuote mark)

def quoted : Parser := choose fun c =>
  if c.peek = '\x22' then quotedWith '\x22'
  else if c.peek = '\x27' then quotedWith '\x27'
  else refuse

/-- A plain stretch of template text; a dollar sign counts unless a brace follows it. -/
def scanTemplateText : List Char → List Char × List Char
  | [] => ([], [])
  | '$' :: '{' :: rest => ([], '$' :: '{' :: rest)
  | c :: rest =>
    if c = '\x60' || c = '\\' then ([], c :: rest)
    else
      let (text, after) := scanTemplateText rest
      (c :: text, after)

/-- The pieces of template text, with the given rule inside substitutions. -/
def templatePieces (substitution : Parser) : Nat → List Items → Cursor → Reply
  | 0, _, c => refuse c
  | fuel + 1, found, c =>
    match c.gap with
    | '$' :: '{' :: _ =>
      let raw := { c with rest := c.gap, here := c.last, extras := [] }
      match substitution raw with
      | .fail reached => .fail reached
      | .ok items after => templatePieces substitution fuel (items :: found) after
    | _ =>
      let (text, after) := scanTemplateText c.gap
      match text with
      | _ :: _ =>
        let tree := leafAt (.construct .stringFragment) c.last text
        templatePieces substitution fuel ([tree] :: found) (c.land after tree.stop)
      | [] =>
        match scanEscape c.gap with
        | some (escape, after) =>
          let tree := leafAt (.construct .escapeSequence) c.last escape
          templatePieces substitution fuel ([tree] :: found) (c.land after tree.stop)
        | none => .ok found.reverse.flatten c

/-- All pieces of template text and its closing mark; text without an end is refused at its first
character. -/
def templateBody (substitution : Parser) : Parser := fun c =>
  match templatePieces substitution c.budget [] c with
  | .fail reached => .fail reached
  | .ok items after =>
    match closingQuote '\x60' after with
    | .fail _ => .fail (max c.reached c.last.offset)
    | .ok close after => .ok (items ++ close) after

def templateWith (whole : Construct) (substitution : Parser) : Parser :=
  node whole (punct "\x60" ++ templateBody substitution)

def substitutionOpen : Parser := punct "$\x7b"

def templateRule (g : Rules) : Parser :=
  templateWith .templateString
    (node .templateSubstitution (substitutionOpen ++ g.sequence .inside ++ punct "\x7d"))

def templateTypeRule (g : Rules) : Parser :=
  templateWith .templateLiteralType
    (node .templateType (substitutionOpen ++ g.type .closed ++ punct "\x7d"))

def number : Parser := fun c =>
  match scanNumber c.rest with
  | some (digits, after) => leaf (.construct .number) digits after c
  | none => refuse c

def regexClose : Parser := fun c =>
  match c.gap with
  | '/' :: after => joined (.token "/") ['/'] after c
  | _ => refuse c

def regexFlags : Parser := fun c =>
  match c.gap.takeWhile Char.isAlpha with
  | [] => .ok [] c
  | flags => joined (.construct .regexFlags) flags (c.gap.dropWhile Char.isAlpha) c

def regexBody : Parser := fun c =>
  match scanRegexBody false c.gap with
  | some (body, after) =>
    if body.isEmpty then refuse c else joined (.construct .regexPattern) body after c
  | none => refuse c

def regex : Parser := node .regex (punct "/" ++ regexBody ++ regexClose ++ regexFlags)

/-- Words that begin an expression, and so never name a thing in one. Any other word does, where
it has no meaning of its own. -/
def expressionWords : List String :=
  ["await", "class", "delete", "false", "function", "import", "null", "super", "this", "true",
    "typeof", "undefined", "void", "yield"]

/-- A name in an expression. -/
def identifier : Parser := nameAs .identifier expressionWords

/-- A name where nothing but a name can stand. -/
def anyName : Parser := nameAs .identifier []

/-- A name in an expression, or the name of the undefined value. -/
def identifierOrUndefined : Parser := wordAs .undefinedName "undefined" <|> identifier

/-- A private name such as `#x`. -/
def privateName : Parser := fun c =>
  match c.rest with
  | '#' :: rest =>
    match scanName rest with
    | some (name, after) => leaf (.construct .privatePropertyIdentifier) ('#' :: name) after c
    | none => refuse c
  | _ => refuse c

def memberWord : Parser := nameAs .propertyIdentifier []

/-- The name of a member: a word, a private name, text, a number, or an expression in brackets. -/
def propertyName (g : Rules) : Parser := choose fun c =>
  match c.peek with
  | '#' => privateName
  | '\x22' => quoted
  | '\x27' => quoted
  | '[' => node .computedPropertyName (punct "[" ++ g.inner ++ punct "]")
  | d => if d.isDigit || d = '.' then number else memberWord

def atPropertyName (c : Cursor) : Bool :=
  match c.peek with
  | '#' | '\x22' | '\x27' | '[' => true
  | d => d.isDigit || (scanName c.rest).isSome

end Ripple.Grammar
