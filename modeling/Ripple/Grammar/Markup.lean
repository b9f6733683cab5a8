import Ripple.Grammar.Expressions

/-!
# Markup Elements

Elements in angle brackets inside expressions, as the markup dialect has
them: tags with attributes, text between tags, and expressions in braces.
-/

namespace Ripple.Grammar

open Parser

def isTagChar (c : Char) : Bool := isNameChar c || c = '-'

/-- One word of a tag or attribute name. -/
def tagWord : Parser := fun c =>
  match c.rest with
  | d :: _ =>
    if isNameStart d then
      leaf (.construct .identifier) (c.rest.takeWhile isTagChar) (c.rest.dropWhile isTagChar) c
    else refuse c
  | [] => refuse c

/-- The name of a tag: words joined by dots, or by a colon. -/
def tagName : Parser :=
  nodeIfMany .jsxName (tagWord ++ ((punct ":" ++ tagWord) <|> many (punct "." ++ tagWord)))

/-- Quoted text of an attribute, which may run over lines and has no escapes. -/
def attributeText : Parser := fun c =>
  match c.rest with
  | mark :: rest =>
    if mark = '\x22' || mark = '\x27' then
      match rest.dropWhile (· ≠ mark) with
      | _ :: after =>
        leaf (.construct .string) (mark :: rest.takeWhile (· ≠ mark) ++ [mark]) after c
      | [] => refuse c
    else refuse c
  | [] => refuse c

variable (g : Rules)

def embedded : Parser :=
  node .jsxExpression (between "\x7b" "\x7d" (opt (spread g <|> g.sequence .inside)))

def tagAttribute : Parser :=
  embedded g <|>
    node .jsxAttribute
      (tagName ++ opt (punct "=" ++ (attributeText <|> embedded g <|> g.read .jsx)))

def selfClosing : Parser :=
  node .jsxSelfClosing
    (punct "<" ++ labelled .name tagName ++ opt (typeArguments g) ++ many (tagAttribute g) ++
      (punct "/>" <|> (punct "/" ++ punct ">")))

def openingTag : Parser :=
  node .jsxOpening
    (punct "<" ++ opt (labelled .name tagName ++ opt (typeArguments g) ++ many (tagAttribute g)) ++
      punct ">")

def closingTag : Parser :=
  node .jsxClosing
    ((punct "</" <|> (punct "<" ++ punct "/")) ++ opt (labelled .name tagName) ++ punct ">")

def isMarkupText (c : Char) : Bool := c ≠ '<' && c ≠ '{' && c ≠ '}' && c ≠ '>'

/-- The children of an element: text, elements and expressions, up to the closing tag. -/
def childrenFrom (g : Rules) : Nat → List Items → Cursor → Reply
  | 0, _, c => refuse c
  | fuel + 1, found, c =>
    let raw := { c with rest := c.gap, here := c.last, extras := [] }
    match c.gap with
    | '<' :: '/' :: _ => .ok found.reverse.flatten raw
    | '<' :: _ =>
      match closingTag raw with
      | .ok _ _ => .ok found.reverse.flatten raw
      | .fail _ =>
        match g.read .jsx raw with
        | .fail reached => .fail reached
        | .ok items after => childrenFrom g fuel (items :: found) after
    | '{' :: _ =>
      match embedded g raw with
      | .fail reached => .fail reached
      | .ok items after => childrenFrom g fuel (items :: found) after
    | _ =>
      match c.gap.takeWhile isMarkupText with
      | [] => refuse raw
      | text =>
        let tree := leafAt (.construct .jsxText) c.last text
        childrenFrom g fuel ([tree] :: found) (c.land (c.gap.dropWhile isMarkupText) tree.stop)

def children : Parser := fun c => childrenFrom g c.budget [] c

def markupRule : Parser :=
  selfClosing g <|> node .jsxElement (openingTag g ++ children g ++ closingTag)

end Ripple.Grammar
