import Ripple.Grammar.Patterns

/-!
# Expressions

Expressions from names up to sequences. Operators bind by level, suffixes
such as calls and member accesses chain from the left, and arrow functions
and assignments take everything to their right.

Every rule is told where the expression stands: at the level of statements a
line end may stop it, inside brackets it may not.
-/

namespace Ripple.Grammar

open Parser

variable (g : Rules)

/-- The remaining elements of a list or the remaining arguments. -/
def spread : Parser := node .spreadElement (punct "..." ++ g.inner)

def arguments (g : Rules) : Parser :=
  labelled .arguments
    (node .arguments (between "(" ")" (sepBy (opt (spread g <|> g.inner)) comma)))

def arrayLiteral : Parser :=
  node .array (between "[" "]" (sepBy (opt (spread g <|> g.inner)) comma))

def functionBody (ending : Ending) : Parser := labelled .body (g.block ending)

def methodDefinition (g : Rules) : Parser :=
  node .methodDefinition
    (opt accessibility ++ opt (modifier none ["static"]) ++ opt overriding ++
      opt (modifier none ["readonly"]) ++ opt (modifier none ["async"]) ++ methodMark ++
      labelled .name (propertyName g) ++ opt (punct "?") ++ callSignature g .signature ++
      functionBody g .type)

def objectMember : Parser :=
  spread g <|>
    node .pair (propertyName g ++ punct ":" ++ labelled .value g.inner) <|>
    methodDefinition g <|>
    node .objectAssignmentPattern
      (shorthandPattern ++ onlyIf (fun c => (strip? ['=', '='] c.rest).isNone) (punct "=") ++
        g.inner) <|>
    nameAs .shorthandProperty []

def objectLiteral : Parser :=
  node .object (between "\x7b" "\x7d" (sepBy (opt (objectMember g)) comma))

def functionExpression (g : Rules) : Parser :=
  let tail := opt (labelled .name anyName) ++ callSignature g .closed ++ functionBody g .expression
  node .generatorFunction (opt (word "async") ++ word "function" ++ punct "*" ++ tail) <|>
    node .functionExpression (opt (word "async") ++ word "function" ++ tail)

def extendsClause (g : Rules) : Parser :=
  node .extendsClause
    (word "extends" ++
      sepBy1 (labelled .value (g.read (.operand .inside)) ++ opt (typeArguments g)) comma)

def implementsClause (g : Rules) : Parser :=
  node .implementsClause (word "implements" ++ sepBy1 (g.type .closed) comma)

def classHeritage (g : Rules) : Parser :=
  node .classHeritage
    ((extendsClause g ++ opt (implementsClause g)) <|> implementsClause g)

/-- What follows the name of a class. -/
def classTail : Parser :=
  opt (typeParameters g) ++ opt (classHeritage g) ++ labelled .body (g.read .classBody)

def className : Parser := labelled .name (nameAs .typeIdentifier ["extends", "implements"])

def classExpression (g : Rules) : Parser :=
  node .classExpression (many (decorator g) ++ word "class" ++ opt className ++ classTail g)

def parenthesized : Parser :=
  node .parenthesizedExpression
    (between "(" ")" (g.sequence .inside ++ opt (colonType g .closed)))

/-- A name that the running function gives a meaning to. -/
def metaProperty : Parser :=
  node .metaProperty
    ((word "new" ++ punct "." ++ word "target") <|> (word "import" ++ punct "." ++ word "meta"))

/-- An expression that starts with a word, other than a function or class. -/
def wordPrimary (text : String) : Parser :=
  match text with
  | "this" => wordAs .thisName "this"
  | "super" => wordAs .superName "super"
  | "true" => wordAs .trueLiteral "true"
  | "false" => wordAs .falseLiteral "false"
  | "null" => wordAs .nullLiteral "null"
  | "import" => metaProperty <|> wordAs .importName "import"
  | _ => identifierOrUndefined

def primary : Parser := choose fun c =>
  match c.peek with
  | '(' => parenthesized g
  | '[' => arrayLiteral g
  | '{' => objectLiteral g
  | '\x22' => quoted
  | '\x27' => quoted
  | '\x60' => g.read .template
  | '/' => regex
  | '#' => privateName
  | '@' => classExpression g
  | '<' => if g.jsx then g.read .jsx else refuse
  | d =>
    if d.isDigit || d = '.' then number
    else
      match c.lexeme with
      | "function" => functionExpression g
      | "async" => functionExpression g <|> identifier
      | "class" => classExpression g
      | text => wordPrimary text

/-- Whether an expression can stop before the next token, so that types in angle brackets belong
to what precedes them. -/
def stopsExpression (ending : Ending) (c : Cursor) : Bool :=
  match c.peek with
  | '\x00' | ')' | ']' | '}' | ',' | ';' | ':' | '.' | '?' | '=' | '|' | '&' => true
  | _ => ending.ends c

variable (context : Context) (items : Items)

/-- A call with types in angle brackets, or an expression with its types filled in. -/
def typedSuffix : Parser := fun c =>
  match typeArguments g c with
  | .fail reached => .fail reached
  | .ok types after =>
    let front := givenAs .function items ++ given types
    if after.peek = '(' then node .callExpression (front ++ arguments g) after
    else if after.peek = '\x60' then
      node .callExpression (front ++ labelled .arguments (g.read .template)) after
    else if stopsExpression context.ending after then
      node .instantiationExpression (given items ++ given types) after
    else refuse c

/-- A member, index or call that is reached only if there is a value. -/
def optionalSuffix : Parser :=
  let mark := onlyIf
    (fun c => match c.rest with
      | '?' :: '.' :: d :: _ => !d.isDigit
      | _ => true)
    (node .optionalChain (punct "?."))
  node .callExpression
      (givenAs .function items ++ mark ++ opt (typeArguments g) ++ arguments g) <|>
    node .subscriptExpression
      (givenAs .object items ++ mark ++ between "[" "]" (g.sequence .inside)) <|>
    node .memberExpression
      (givenAs .object items ++ mark ++ labelled .property (privateName <|> memberWord))

def memberSuffix : Parser :=
  node .memberExpression
    (givenAs .object items ++ punct "." ++ labelled .property (privateName <|> memberWord))

def indexSuffix : Parser :=
  node .subscriptExpression (givenAs .object items ++ between "[" "]" (g.sequence .inside))

/-- The claim that there is a value. -/
def nonNullSuffix : Parser :=
  onlyIf (fun c => (strip? ['!', '='] c.rest).isNone)
    (node .nonNullExpression (given items ++ punct "!"))

def suffix : Parser :=
  continuing context.ending (choose fun c =>
    match c.peek with
    | '.' => memberSuffix items
    | '?' => if (strip? ['?', '.'] c.rest).isSome then optionalSuffix g items else refuse
    | '[' => indexSuffix g items
    | '(' => node .callExpression (givenAs .function items ++ arguments g)
    | '\x60' =>
      node .callExpression
        (givenAs .function items ++ labelled .arguments (g.read .template))
    | '!' => nonNullSuffix items
    | '<' => typedSuffix g context items
    | _ => refuse)

/-- What a new value is made with: a name, a member, or another construction. -/
def newTarget : Parser :=
  onlyIf (atWord "new") (g.read .construction) <|>
    chain (primary g) fun items =>
      memberSuffix items <|> indexSuffix g items <|> nonNullSuffix items

def constructionRule : Parser :=
  node .newExpression
    (word "new" ++ labelled .constructor (newTarget g) ++ opt (typeArguments g) ++
      opt (arguments g))

/-- An expression that a chain of suffixes may follow. -/
def suffixBase : Parser := choose fun c =>
  if atWord "new" c then metaProperty <|> g.read .construction <|> identifier else primary g

def suffixed : Parser :=
  chain (suffixBase g) (suffix g context)

/-- An operand that is counted up or down after use. -/
def updated : Parser := fun c =>
  match suffixed g context c with
  | .fail reached => .fail reached
  | .ok items after =>
    opt (continuing context.ending
      (node .updateExpression (given items ++ (punct "++" <|> punct "--")))) after |> fun
    | .ok [] after => .ok items after
    | reply => reply

/-- What an arrow function takes: one name, or a parameter list. -/
def arrowParameters : Parser := choose fun c =>
  if c.peek = '(' || c.peek = '<' then
    opt (typeParameters g) ++ parameters g ++
      (if context.typedArrow then opt (resultType g .closed) else empty)
  else labelled .parameter identifier

def arrowBody : Parser := choose fun c =>
  labelled .body (if c.peek = '{' then g.block .expression else g.expression context)

def arrowFunction (g : Rules) (context : Context) : Parser :=
  let tail := arrowParameters g context ++ punct "=>" ++ arrowBody g context
  choose fun c =>
    if atWord "async" c then
      node .arrowFunction (word "async" ++ tail) <|> node .arrowFunction tail
    else if c.peek = '(' || c.peek = '<' || (scanName c.rest).isSome then
      node .arrowFunction tail
    else refuse

/-- A sign or word in front of an operand. -/
def signed (sign : Parser) : Parser :=
  node .unaryExpression (sign ++ g.read (.operand context))

/-- An operand that is counted up or down before use. -/
def counted : Parser :=
  node .updateExpression ((punct "++" <|> punct "--") ++ g.read (.operand context))

/-- An operand read under a different type. -/
def typeAssertion (g : Rules) (context : Context) : Parser :=
  node .typeAssertion (typeArguments g ++ g.read (.operand context))

def awaited : Parser :=
  node .awaitExpression (word "await" ++ g.read (.operand context))

def yielded : Parser :=
  node .yieldExpression
    (word "yield" ++
      ((punct "*" ++ g.expression context) <|> opt (continuing context.ending (g.expression context))))

/-- An operand with its signs and suffixes. -/
def operandRule : Parser := choose fun c =>
  match c.peek with
  | '!' => signed g context (punct "!")
  | '~' => signed g context (punct "~")
  | '+' => counted g context <|> signed g context (punct "+")
  | '-' => counted g context <|> signed g context (punct "-")
  | '<' =>
    if g.jsx then arrowFunction g context <|> updated g context
    else arrowFunction g context <|> typeAssertion g context
  | '(' => arrowFunction g context <|> updated g context
  | _ =>
    match c.lexeme with
    | "" => updated g context
    | "typeof" => signed g context (word "typeof")
    | "void" => signed g context (word "void")
    | "delete" => signed g context (word "delete")
    | "await" => awaited g context
    | "yield" => yielded g context
    | _ => arrowFunction g context <|> updated g context

/-- The operators between operands, with how tightly they bind. -/
def binaryOperators : List (String × Nat) :=
  [("??", 1), ("||", 2), ("&&", 3), ("|", 4), ("^", 5), ("&", 6), ("==", 7), ("!=", 7),
    ("===", 7), ("!==", 7), ("<", 8), (">", 8), ("<=", 8), (">=", 8), ("<<", 9), (">>", 9),
    (">>>", 9), ("+", 10), ("-", 10), ("*", 11), ("/", 11), ("%", 11), ("**", 12)]

/-- How tightly relations between operands bind. -/
def relationLevel : Nat := 8

/-- The operators that set a target from its present value. -/
def updateOperators : List String :=
  ["+=", "-=", "*=", "/=", "%=", "^=", "&=", "|=", ">>=", ">>>=", "<<=", "**=", "&&=", "||=", "??="]

/-- All marks among which the longest one counts. -/
def operatorMarks : List String :=
  binaryOperators.map Prod.fst ++ updateOperators ++ ["=", "=>", "++", "--"]

/-- The operator at a cursor with how tightly it binds. -/
def operatorAt? (c : Cursor) : Option (String × Nat) :=
  match longestMark? operatorMarks c with
  | none => none
  | some mark => binaryOperators.find? fun entry => entry.1 = mark

/-- The level that the right side of an operator is read at; powers group to the right. -/
def rightLevel (mark : String) (level : Nat) : Nat := if mark = "**" then level else level + 1

/-- An operator with its right side, or a change of type. -/
def binarySuffix (level : Nat) (items : Items) : Parser :=
  continuing context.ending (choose fun c =>
    match operatorAt? c with
    | some (mark, tightness) =>
      if level ≤ tightness then
        node .binaryExpression
          (givenAs .left items ++ punct mark ++
            labelled .right (g.read (.binary context (rightLevel mark tightness))))
      else refuse
    | none =>
      if relationLevel < level then refuse
      else
        let related := fun (text : String) =>
          node .binaryExpression
            (givenAs .left items ++ word text ++
              labelled .right (g.read (.binary context (relationLevel + 1))))
        match c.lexeme with
        | "in" => related "in"
        | "instanceof" => related "instanceof"
        | "as" =>
          node .asExpression (given items ++ word "as" ++ (word "const" <|> g.type context.ending))
        | "satisfies" =>
          node .satisfiesExpression (given items ++ word "satisfies" ++ g.type context.ending)
        | _ => refuse)

/-- Operands joined by operators of at least a level. -/
def binaryRule (level : Nat) : Parser :=
  chain (g.read (.operand context)) (binarySuffix g context level)

/-- Whether a question mark asks for a choice of two values. -/
def atChoice (c : Cursor) : Bool :=
  match c.rest with
  | '?' :: '.' :: d :: _ => d.isDigit
  | '?' :: rest =>
    match rest with
    | '?' :: _ => false
    | '.' :: _ => false
    | _ => true
  | _ => false

/-- The two values of a choice. -/
def branches (typedArrow : Bool) : Parser :=
  punct "?" ++ g.expression ⟨.closed, typedArrow⟩ ++ punct ":" ++ g.expression context

/-- The targets that an equals sign may set. -/
def isTarget (t : Tree) : Bool :=
  match t.kind with
  | .construct .identifier | .construct .undefinedName | .construct .memberExpression
  | .construct .subscriptExpression | .construct .parenthesizedExpression
  | .construct .nonNullExpression => true
  | _ => false

/-- What may follow joined operands: a choice or an assignment. -/
def expressionSuffix : Parser :=
  continuing context.ending (choose fun c =>
    if atChoice c then
      node .ternaryExpression (given items ++ branches g context true) <|>
        node .ternaryExpression (given items ++ branches g context false)
    else if (items.getLast?.map isTarget).getD false then
      match longestMark? operatorMarks c with
      | some "=" =>
        node .assignmentExpression
          (givenAs .left items ++ punct "=" ++ labelled .right (g.expression context))
      | some mark =>
        if updateOperators.contains mark then
          node .augmentedAssignment
            (givenAs .left items ++ punct mark ++ labelled .right (g.expression context))
        else refuse
      | none => refuse
    else refuse)

/-- Operands with a choice or an assignment. -/
def plainExpression : Parser :=
  extended (g.read (.binary context 0)) (expressionSuffix g context)

def patternEquals : Parser :=
  onlyIf (fun c => (strip? ['=', '='] c.rest).isNone && (strip? ['=', '>'] c.rest).isNone)
    (punct "=")

def patternAssignment : Parser :=
  node .assignmentExpression
    (labelled .left (destructuring g) ++ patternEquals ++ labelled .right (g.expression context))

/-- An expression that begins with a list or an object, or an assignment to the pattern that it
looks like; only an equals sign behind it tells. -/
def literalOrPattern : Parser := fun c =>
  match plainExpression g context c with
  | .fail reached => patternAssignment g context { c with reached := max c.reached reached }
  | .ok items after =>
    match patternEquals after with
    | .fail _ => .ok items after
    | .ok .. =>
      match patternAssignment g context c with
      | .ok whole after => .ok whole after
      | .fail reached => .ok items { after with reached := max after.reached reached }

/-- An assignment to a name that is released at the end of its block. -/
def usingAssignment : Parser :=
  node .assignmentExpression
    (word "using" ++ labelled .left identifier ++ punct "=" ++
      labelled .right (g.expression context))

/-- An expression without commas at its top. -/
def expressionRule : Parser := choose fun c =>
  match c.peek with
  | '{' => literalOrPattern g context
  | '[' => literalOrPattern g context
  | _ =>
    match c.lexeme with
    | "yield" => yielded g context
    | "using" => usingAssignment g context <|> plainExpression g context
    | _ => plainExpression g context

def sequenceRule : Parser :=
  nodeIfMany .sequenceExpression (sepBy1 (g.expression context) comma)

end Ripple.Grammar
