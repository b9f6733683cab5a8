import Ripple.Grammar.Literals

/-!
# Types

The type language: annotations, parameters and arguments of generic types,
and types from unions down to names. Types have no closing mark of their
own, so every rule is told what kind of statement may end after it.
-/

namespace Ripple.Grammar

open Parser

def comma : Parser := punct ","

variable (g : Rules) (ending : Ending)

def colonType : Parser :=
  node .annotatedType (punct ":" ++ g.type ending)

def typeName : Parser := nameAs .typeIdentifier []

def typeArguments (g : Rules) : Parser :=
  node .typeArguments (punct "<" ++ sepBy1 (g.type .closed) comma ++ opt comma ++ punct ">")

def typeParameter (g : Rules) : Parser :=
  let named := labelled .name typeName ++
    opt (node .typeConstraint (word "extends" ++ g.type .closed)) ++
    opt (node .defaultType (punct "=" ++ g.type .closed))
  node .typeParameter ((word "const" ++ named) <|> named)

def typeParameters (g : Rules) : Parser :=
  labelled .typeParameters
    (node .typeParameters (punct "<" ++ sepBy1 (typeParameter g) comma ++ opt comma ++ punct ">"))

def typePredicate (g : Rules) (ending : Ending) : Parser :=
  node .typePredicate
    (labelled .name (wordAs .thisName "this" <|> nameAs .identifier []) ++ word "is" ++ g.type ending)

def assertion : Parser :=
  node .assertsPredicate
    (word "asserts" ++
      (typePredicate g ending <|>
        continuing ending
          (wordAs .thisName "this" <|> nameAs .identifier ["is", "extends"])))

def resultType : Parser :=
  labelled .returnType
    (node .annotatedAssertion (punct ":" ++ assertion g ending) <|>
      node .annotatedPredicate (punct ":" ++ typePredicate g ending) <|>
      colonType g ending)

def parameters (g : Rules) : Parser := labelled .parameters (g.read .parameters)

def callSignature : Parser :=
  opt (typeParameters g) ++ parameters g ++ opt (continuing ending (resultType g ending))

def arrowResult : Parser :=
  labelled .returnType (assertion g ending <|> typePredicate g ending <|> g.type ending)

def functionType (g : Rules) (ending : Ending) : Parser :=
  onlyIf (fun c => c.peek = '(' || c.peek = '<')
    (node .functionType
      (opt (typeParameters g) ++ parameters g ++ punct "=>" ++ arrowResult g ending))

def constructorType (g : Rules) (ending : Ending) : Parser :=
  onlyIf (fun c => c.peek = 'n' || c.peek = 'a')
    (node .constructorType
      (opt (word "abstract") ++ word "new" ++ opt (typeParameters g) ++ parameters g ++
        punct "=>" ++ g.type ending))

/-- A dotted chain after what was read already. -/
def dotted (whole : Construct) (p : Parser) : Parser :=
  chain p fun items => node whole (given items ++ punct "." ++ (privateName <|> memberWord))

def queriedValue : Parser :=
  dotted .memberExpression
    (node .callExpression
        (labelled .function (wordAs .importName "import") ++
          labelled .arguments (node .arguments (between "(" ")" (sepBy g.inner comma)))) <|>
      wordAs .thisName "this" <|> nameAs .identifier ["import"])

def typeQuery (g : Rules) : Parser :=
  node .typeQuery (word "typeof" ++ queriedValue g ++ opt (typeArguments g))

/-- A type reached through a module. -/
def importedType : Parser :=
  onlyIf (atWord "import") (queriedValue g ++ opt (typeArguments g))

/-- A type to be found by matching, with a bound or without. -/
def inferType (g : Rules) (ending : Ending) : Parser :=
  node .inferType (word "infer" ++ typeName ++ opt (word "extends" ++ g.type ending))

def tupleMember : Parser :=
  node .requiredParameter
      (opt (punct "...") ++ nameAs .identifier [] ++ colonType g .closed) <|>
    node .optionalParameter (nameAs .identifier [] ++ punct "?" ++ colonType g .closed) <|>
    node .restType (punct "..." ++ g.type .closed) <|>
    extended (g.type .closed) fun items => node .optionalType (given items ++ punct "?")

def tupleType (g : Rules) : Parser :=
  node .tupleType (between "[" "]" (sepBy (tupleMember g) comma ++ opt comma))

def numberType : Parser :=
  node .literalType (number <|> node .unaryExpression ((punct "-" <|> punct "+") ++ number))

def builtinTypes : List String :=
  ["any", "number", "boolean", "string", "symbol", "void", "unknown", "never", "object"]

def literalTypeWords : List String := ["true", "false", "null", "undefined"]

def namedType : Parser :=
  let path := dotted .nestedTypeIdentifier typeName
  nodeIfMany .genericType (path ++ opt (typeArguments g))

def wordType : Parser := choose fun c =>
  let text := c.lexeme
  if builtinTypes.contains text then
    node .predefinedType (word text) <|> namedType g
  else if literalTypeWords.contains text then node .literalType (word text)
  else
    match text with
    | "typeof" => typeQuery g <|> namedType g
    | "keyof" => node .indexTypeQuery (word "keyof" ++ g.read (.typeOperand ending)) <|> namedType g
    | "readonly" => node .readonlyType (word "readonly" ++ g.type ending) <|> namedType g
    | "infer" => inferType g ending <|> namedType g
    | "unique" => node .predefinedType (word "unique" ++ word "symbol") <|> namedType g
    | "import" => importedType g
    | "this" => wordAs .thisName "this"
    | _ => namedType g

/-- A type without suffixes. -/
def primaryType : Parser := choose fun c =>
  match c.peek with
  | '(' => node .parenthesizedType (between "(" ")" (g.type .closed))
  | '{' => g.read (.objectType .objectType)
  | '[' => tupleType g
  | '\x22' => node .literalType quoted
  | '\x27' => node .literalType quoted
  | '\x60' => g.read .templateType
  | '-' => numberType
  | '+' => numberType
  | '*' => node .existentialType (punct "*")
  | '?' => node .maybeType (punct "?" ++ g.read (.typeOperand ending))
  | d => if d.isDigit || d = '.' then numberType else wordType g ending

/-- A type with its suffixes for arrays and members. -/
def typeOperandRule : Parser :=
  chain (primaryType g ending) fun items =>
    continuing ending
      (node .arrayType (given items ++ punct "[" ++ punct "]") <|>
        node .lookupType (given items ++ between "[" "]" (g.type .closed)))

/-- One member of a union or an intersection. -/
def typeMember : Parser :=
  functionType g ending <|> constructorType g ending <|> g.read (.typeOperand ending)

def intersection : Parser :=
  let amp := onlyIf (fun c => (strip? ['&', '&'] c.rest).isNone) (punct "&")
  nodeIfMany .intersectionType (opt amp ++ sepBy1 (typeMember g ending) (continuing ending amp))

def union : Parser :=
  let bar := onlyIf
    (fun c => (strip? ['|', '|'] c.rest).isNone && (strip? ['|', '\x7d'] c.rest).isNone) (punct "|")
  nodeIfMany .unionType (opt bar ++ sepBy1 (intersection g ending) (continuing ending bar))

def typeBranches : Parser :=
  word "extends" ++ g.type .closed ++ punct "?" ++ g.type .closed ++ punct ":" ++ g.type ending

def typeRule : Parser :=
  nodeIfMany .conditionalType (union g ending ++ opt (continuing ending (typeBranches g ending)))

/-- A keyword in front of a member, where a member still follows on the same line. -/
def modifier (construct : Option Construct) (texts : List String) : Parser := fun c =>
  match texts.find? (atWord · c) with
  | none => refuse c
  | some text =>
    let read := match construct with
      | some k => wordAs k text
      | none => word text
    match read c with
    | .fail reached => .fail reached
    | .ok items after =>
      if (atPropertyName after || after.peek = '*') && !Ending.ends .type after then
        .ok items after
      else refuse c

def accessibility : Parser :=
  modifier (some .accessibilityModifier) ["public", "private", "protected"]

def overriding : Parser := modifier (some .overrideModifier) ["override"]

/-- The sort of a method: a getter, a setter or a generator. -/
def methodMark : Parser := opt (modifier none ["get", "set"] <|> punct "*")

def mappedClause : Parser :=
  node .mappedTypeClause
    (labelled .name typeName ++ word "in" ++ g.type .closed ++ opt (word "as" ++ g.type .closed))

def indexedType : Parser :=
  labelled .type
    (colonType g .type <|>
      node .annotatedMapping
        ((punct "-?:" <|> punct "+?:" <|> punct "?:") ++ g.type .type))

def indexSignature (g : Rules) : Parser :=
  node .indexSignature
    (opt (opt (punct "-" <|> punct "+") ++ word "readonly") ++
      between "[" "]"
        ((nameAs .identifier [] ++ punct ":" ++ g.type .closed) <|> mappedClause g) ++
      indexedType g)

def constructSignature (g : Rules) : Parser :=
  onlyIf (fun c => atWord "new" c || atWord "abstract" c)
    (node .constructSignature
      (opt (word "abstract") ++ word "new" ++ opt (typeParameters g) ++ parameters g ++
        opt (labelled .type (colonType g .type))))

def methodSignature (g : Rules) (ending : Ending) : Parser :=
  node .methodSignature
    (opt accessibility ++ opt (modifier none ["static"]) ++ opt overriding ++
      opt (modifier none ["readonly"]) ++ opt (modifier none ["async"]) ++ methodMark ++
      labelled .name (propertyName g) ++ opt (punct "?") ++ callSignature g ending)

def propertySignature (g : Rules) : Parser :=
  node .propertySignature
    (opt accessibility ++ opt (modifier none ["static"]) ++ opt overriding ++
      opt (modifier none ["readonly"]) ++ labelled .name (propertyName g) ++
      opt (punct "?") ++ opt (continuing .type (labelled .type (colonType g .type))))

def objectTypeMember : Parser := choose fun c =>
  if c.peek = '(' || c.peek = '<' then node .callSignature (callSignature g .type)
  else
    indexSignature g <|> constructSignature g <|> methodSignature g .type <|> propertySignature g

/-- Members in braces, for object types and interfaces. -/
def objectTypeRule (whole : Construct) : Parser :=
  let separator := comma <|> semicolon .type
  node whole
    (punct "\x7b" ++ opt (comma <|> punct ";") ++
      many (objectTypeMember g ++ separator) ++ opt (objectTypeMember g) ++ punct "\x7d")

end Ripple.Grammar
