import Ripple.Grammar.Classes
import Ripple.Grammar.Markup
import Ripple.Grammar.Modules

/-!
# Statements and Declarations

The statements of a program and the rule of the whole. Words such as `type`
or `declare` begin a declaration only if the statement does not end right
after them; otherwise they are names.
-/

namespace Ripple.Grammar

open Parser

def variableDeclarator (g : Rules) : Parser :=
  node .variableDeclarator
    ((labelled .name anyName ++ punct "!" ++ labelled .type (colonType g .type)) <|>
      (labelled .name (binding g) ++
        opt (continuing .type (labelled .type (colonType g .type))) ++
        opt (continuing .type (initializer g .topLevel))))

variable (g : Rules)

def variableList : Parser :=
  sepBy1 (variableDeclarator g) comma ++ semicolon .expression

/-- The words that join what precedes them to what follows. -/
def joiningWords : List String := ["in", "instanceof", "as", "satisfies"]

def lexicalDeclaration (g : Rules) : Parser :=
  let start := softWord "let" ++ onlyIf (fun c => !joiningWords.contains c.lexeme) empty
  node .lexicalDeclaration ((start <|> word "const") ++ variableList g)

def variableDeclaration (g : Rules) : Parser :=
  node .variableDeclaration (word "var" ++ variableList g)

def functionDeclaration (g : Rules) : Parser :=
  let start := opt (softWord "async") ++ word "function"
  let named := labelled .name anyName ++ callSignature g .signature
  let whole := functionBody g .type ++ opt (unwritten .type)
  node .generatorFunctionDeclaration (start ++ punct "*" ++ named ++ whole) <|>
    node .functionDeclaration (start ++ named ++ whole) <|>
    node .functionSignature (start ++ named ++ semicolon .signature)

def classDeclaration (g : Rules) : Parser :=
  node .classDeclaration
    (many (decorator g) ++ word "class" ++ className ++ classTail g ++ opt (unwritten .type))

def abstractClass : Parser :=
  node .abstractClassDeclaration
    (many (decorator g) ++ word "abstract" ++ word "class" ++ className ++ classTail g)

def extendsTypes : Parser :=
  node .extendsTypeClause (word "extends" ++ sepBy1 (g.type .closed) comma)

def interfaceDeclaration (g : Rules) : Parser :=
  node .interfaceDeclaration
    (word "interface" ++ labelled .name typeName ++ opt (typeParameters g) ++
      opt (extendsTypes g) ++ labelled .body (g.read (.objectType .interfaceBody)))

def enumMember : Parser :=
  node .enumAssignment (labelled .name (propertyName g) ++ initializer g .inside) <|>
    labelled .name (propertyName g)

def enumDeclaration (g : Rules) : Parser :=
  node .enumDeclaration
    (opt (word "const") ++ word "enum" ++ labelled .name anyName ++
      labelled .body
        (node .enumBody (between "\x7b" "\x7d" (sepBy (enumMember g) comma ++ opt comma))))

def typeAlias : Parser :=
  node .typeAliasDeclaration
    (softWord "type" ++ labelled .name typeName ++ opt (typeParameters g) ++ punct "=" ++
      labelled .value (g.type .type) ++ semicolon .type)

def moduleTail : Parser :=
  labelled .name (quoted <|> dottedName) ++ opt (continuing .type (labelled .body (g.block .type)))

/-- A group of declarations under a name. -/
def internalModule (g : Rules) : Parser :=
  node .internalModule (softWord "namespace" ++ moduleTail g)

def moduleDeclaration (g : Rules) : Parser :=
  node .moduleDeclaration (softWord "module" ++ moduleTail g)

/-- A declaration that is not inside an ambient one. -/
def plainDeclaration : Parser := choose fun c =>
  if c.peek = '@' then classDeclaration g <|> abstractClass g
  else
    match c.lexeme with
    | "function" => functionDeclaration g
    | "async" => functionDeclaration g
    | "class" => classDeclaration g
    | "abstract" => abstractClass g
    | "const" => enumDeclaration g <|> lexicalDeclaration g
    | "let" => lexicalDeclaration g
    | "var" => variableDeclaration g
    | "enum" => enumDeclaration g
    | "interface" => interfaceDeclaration g
    | "type" => typeAlias g
    | "namespace" => internalModule g
    | "module" => moduleDeclaration g
    | "import" => importAlias
    | _ => refuse

/-- A declaration of something that is defined elsewhere. -/
def ambientDeclaration (g : Rules) : Parser :=
  node .ambientDeclaration
    (softWord "declare" ++
      (plainDeclaration g <|>
        (word "global" ++ g.block .type) <|>
        (word "module" ++ punct "." ++ memberWord ++ punct ":" ++ g.type .type ++ semicolon .type)))

def declaration : Parser := choose fun c =>
  if atWord "declare" c then ambientDeclaration g else plainDeclaration g

def expressionStatement (g : Rules) : Parser :=
  node .expressionStatement
    ((internalModule g <|> g.sequence .topLevel) ++ semicolon .expression)

def condition : Parser :=
  node .parenthesizedExpression (between "(" ")" (g.sequence .inside))

def ifStatement (g : Rules) : Parser :=
  node .ifStatement
    (word "if" ++ condition g ++ g.statement ++ opt (node .elseClause (word "else" ++ g.statement)))

def switchArm : Parser :=
  node .switchCase (word "case" ++ g.sequence .inside ++ punct ":" ++ many g.statement) <|>
    node .switchDefault (word "default" ++ punct ":" ++ many g.statement)

def switchStatement (g : Rules) : Parser :=
  node .switchStatement
    (word "switch" ++ condition g ++ node .switchBody (between "\x7b" "\x7d" (many (switchArm g))))

def forInHead : Parser :=
  let members := (word "in" <|> word "of") ++ labelled .right (g.sequence .inside)
  between "(" ")"
    (((anyWord ["let", "const", "var"] ++ labelled .left (binding g)) <|>
        labelled .left (g.pattern <|> g.read (.operand .inside))) ++
      members)

def forInStatement (g : Rules) : Parser :=
  node .forInStatement
    (word "for" ++ opt (word "await") ++ forInHead g ++ labelled .body g.statement)

def loopVariables : Parser :=
  let one := node .variableDeclarator
    (labelled .name (binding g) ++ opt (labelled .type (colonType g .closed)) ++
      opt (initializer g .inside))
  node .lexicalDeclaration
      (anyWord ["let", "const"] ++ sepBy1 one comma ++ punct ";") <|>
    node .variableDeclaration (word "var" ++ sepBy1 one comma ++ punct ";")

def forStatement (g : Rules) : Parser :=
  let stop := node .emptyStatement (punct ";")
  node .forStatement
    (word "for" ++
      between "(" ")"
        ((stop <|> loopVariables g <|> (g.sequence .inside ++ punct ";")) ++
          (stop <|> (g.sequence .inside ++ punct ";")) ++
          opt (g.sequence .inside)) ++
      labelled .body g.statement)

def whileStatement (g : Rules) : Parser :=
  node .whileStatement (word "while" ++ condition g ++ labelled .body g.statement)

def doStatement (g : Rules) : Parser :=
  node .doStatement
    (word "do" ++ labelled .body g.statement ++ word "while" ++ condition g ++
      opt (semicolon .type))

def tryStatement (g : Rules) : Parser :=
  node .tryStatement
    (word "try" ++ labelled .body (g.block .type) ++
      opt (node .catchClause
        (word "catch" ++
          opt (between "(" ")" (binding g ++ opt (colonType g .closed))) ++
          labelled .body (g.block .type))) ++
      opt (node .finallyClause (word "finally" ++ labelled .body (g.block .type))))

def jump (c : Construct) (text : String) : Parser :=
  node c (word text ++ opt (continuing .type (nameAs .statementIdentifier [])) ++ semicolon .type)

def returnStatement (g : Rules) : Parser :=
  node .returnStatement
    (word "return" ++ opt (continuing .expression (g.sequence .topLevel)) ++ semicolon .expression)

def throwStatement (g : Rules) : Parser :=
  node .throwStatement (word "throw" ++ g.sequence .topLevel ++ semicolon .expression)

def withStatement (g : Rules) : Parser :=
  node .withStatement (word "with" ++ condition g ++ labelled .body g.statement)

def labeledStatement (g : Rules) : Parser :=
  node .labeledStatement
    (nameAs .statementIdentifier expressionWords ++ punct ":" ++ labelled .body g.statement)

def wordStatement (text : String) : Parser :=
  let other := labeledStatement g <|> expressionStatement g
  match text with
  | "import" => importStatement g <|> importAlias <|> expressionStatement g
  | "export" => exportStatement g (declaration g) <|> other
  | "if" => ifStatement g
  | "switch" => switchStatement g
  | "for" => forInStatement g <|> forStatement g
  | "while" => whileStatement g
  | "do" => doStatement g
  | "try" => tryStatement g
  | "with" => withStatement g
  | "break" => jump .breakStatement "break"
  | "continue" => jump .continueStatement "continue"
  | "return" => returnStatement g
  | "throw" => throwStatement g
  | "debugger" => node .debuggerStatement (word "debugger" ++ semicolon .type)
  | "function" | "class" | "let" | "async" | "type" | "namespace" | "module" | "declare" =>
    declaration g <|> other
  | "abstract" | "const" | "var" | "enum" | "interface" => declaration g
  | "case" | "default" | "else" | "catch" | "finally" => refuse
  | _ => other

def statementRule : Parser := choose fun c =>
  match c.peek with
  | '{' => g.block .type
  | ';' => node .emptyStatement (punct ";")
  | '}' => refuse
  | '\x00' => refuse
  | '@' => exportStatement g (declaration g) <|> declaration g <|> expressionStatement g
  | _ =>
    match c.lexeme with
    | "" => expressionStatement g
    | text => wordStatement g text

def blockRule (ending : Ending) : Parser :=
  node .statementBlock
    (between "\x7b" "\x7d" (many g.statement) ++ opt (unwritten ending))

/-- The first line, if it names the program that runs the file. -/
def hashBang : Parser := fun c =>
  match c.gap with
  | '#' :: '!' :: _ =>
    let raw := { c with rest := c.gap, here := c.last, extras := [] }
    leaf (.construct .hashBangLine) (c.gap.takeWhile (· ≠ '\n')) (c.gap.dropWhile (· ≠ '\n')) raw
  | _ => .ok [] c

def programRule : Parser := hashBang ++ many g.statement

end Ripple.Grammar
