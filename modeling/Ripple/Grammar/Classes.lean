import Ripple.Grammar.Expressions

/-!
# Class Members

The body of a class. A member starts with keywords that say who may use it
and how it is kept, but each of these words may also be the name of the
member: it is a keyword only if a name still follows on the same line.
-/

namespace Ripple.Grammar

open Parser

variable (g : Rules)

/-- A method that subclasses have to define. -/
def abstractMethod : Parser :=
  node .abstractMethodSignature
    (opt accessibility ++ word "abstract" ++ opt overriding ++ methodMark ++
      labelled .name (propertyName g) ++ opt (punct "?") ++ callSignature g .signature)

/-- The keywords of a field that say who may use it and where it is defined. -/
def fieldAccess : Parser :=
  opt ((modifier none ["declare"] ++ opt accessibility) <|>
    (accessibility ++ opt (modifier none ["declare"])))

/-- The keywords of a field that say how it is kept. -/
def fieldStorage : Parser :=
  (modifier none ["abstract"] ++ opt (modifier none ["readonly"])) <|>
    (modifier none ["readonly"] ++ opt (modifier none ["abstract"])) <|>
    (modifier none ["static"] ++ opt overriding ++ opt (modifier none ["readonly"])) <|>
    (overriding ++ opt (modifier none ["readonly"])) <|>
    opt (modifier none ["accessor"])

/-- A field with its type and value. -/
def field : Parser :=
  node .publicFieldDefinition
    (many (decorator g) ++ fieldAccess ++ fieldStorage ++ labelled .name (propertyName g) ++
      opt (punct "?" <|> punct "!") ++
      opt (continuing .type (labelled .type (colonType g .type))) ++
      opt (continuing .type (initializer g .topLevel)))

/-- Statements that run when the class is made. -/
def staticBlock : Parser :=
  node .classStaticBlock (word "static" ++ functionBody g .type)

def memberEnd (ending : Ending) : Parser := semicolon ending <|> comma

def classMember : Parser := choose fun c =>
  match c.peek with
  | ';' => punct ";"
  | '@' => decorator g
  | '}' => refuse
  | _ =>
    staticBlock g <|>
      (methodDefinition g ++ opt (semicolon .type)) <|>
      (abstractMethod g ++ memberEnd .type) <|>
      (indexSignature g ++ memberEnd .type) <|>
      (methodSignature g .signature ++ memberEnd .signature) <|>
      (field g ++ memberEnd .expression)

def classBodyRule : Parser :=
  node .classBody (between "\x7b" "\x7d" (many (classMember g)))

end Ripple.Grammar
