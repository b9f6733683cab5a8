import Ripple.Source.Position

/-!
# Syntax Trees

The tree of a source file, as far as the outline of the file needs it. Inner
nodes are constructs of the language; leaves are names, literals, comments
and the tokens between them. A child may play a role in its parent, such as
the name of a declaration or the body of a function.

Text that fits no construct stands in an error node, and a token that had to
be supposed stands in a missing node of no width. Every node records whether
either occurs in it, so that a search for faults can pass over clean parts.
-/

namespace Ripple

inductive Construct where
  | program | hashBangLine | comment
  | importStatement | importClause | namespaceImport | namedImports | importSpecifier
  | importRequireClause | importAlias | importAttribute
  | exportStatement | namespaceExport | exportClause | exportSpecifier
  | expressionStatement | variableDeclaration | lexicalDeclaration | variableDeclarator
  | statementBlock | ifStatement | elseClause | switchStatement | switchBody | switchCase
  | switchDefault | forStatement | forInStatement | whileStatement | doStatement | tryStatement
  | catchClause | finallyClause | withStatement | breakStatement | continueStatement
  | returnStatement | throwStatement | debuggerStatement | emptyStatement | labeledStatement
  | functionDeclaration | generatorFunctionDeclaration | functionSignature
  | classDeclaration | abstractClassDeclaration | interfaceDeclaration | enumDeclaration
  | typeAliasDeclaration | internalModule | moduleDeclaration | ambientDeclaration
  | identifier | propertyIdentifier | privatePropertyIdentifier | shorthandProperty
  | shorthandPattern | statementIdentifier | typeIdentifier | nestedIdentifier
  | nestedTypeIdentifier
  | thisName | superName | undefinedName | importName | trueLiteral | falseLiteral | nullLiteral
  | number | string | stringFragment | escapeSequence | templateString | templateSubstitution
  | regex | regexPattern | regexFlags
  | object | pair | spreadElement | array | arguments | parenthesizedExpression
  | functionExpression | generatorFunction | arrowFunction | classExpression
  | callExpression | newExpression | memberExpression | subscriptExpression | optionalChain
  | nonNullExpression | unaryExpression | updateExpression | binaryExpression
  | ternaryExpression | assignmentExpression | augmentedAssignment | sequenceExpression
  | awaitExpression | yieldExpression | asExpression | satisfiesExpression
  | instantiationExpression | typeAssertion | metaProperty
  | objectPattern | arrayPattern | pairPattern | restPattern | assignmentPattern
  | objectAssignmentPattern
  | formalParameters | requiredParameter | optionalParameter | accessibilityModifier
  | overrideModifier | decorator | computedPropertyName
  | classHeritage | extendsClause | implementsClause | extendsTypeClause | classBody
  | methodDefinition | methodSignature | abstractMethodSignature | publicFieldDefinition
  | classStaticBlock | indexSignature
  | interfaceBody | objectType | propertySignature | callSignature | constructSignature
  | enumBody | enumAssignment
  | annotatedType | annotatedMapping | annotatedAssertion | assertsPredicate
  | annotatedPredicate | typePredicate
  | typeParameters | typeParameter | typeConstraint | defaultType | typeArguments
  | predefinedType | genericType | arrayType | tupleType | lookupType | unionType
  | intersectionType | conditionalType | functionType | constructorType | parenthesizedType
  | literalType | templateLiteralType | templateType | typeQuery | indexTypeQuery | readonlyType
  | inferType | optionalType | restType | existentialType | maybeType
  | mappedTypeClause
  | jsxElement | jsxOpening | jsxClosing | jsxSelfClosing | jsxAttribute | jsxExpression
  | jsxText | jsxName
deriving DecidableEq, Repr, Inhabited

inductive Role where
  | name | alias | source | declaration | value | body
  | parameter | parameters | returnType | typeParameters
  | function | arguments | constructor | property | object
  | pattern | type | left | right
deriving DecidableEq, Repr

inductive Kind where
  | construct (c : Construct)
  | token (text : String)
  /-- A token that the text lacks, spelled out. -/
  | missing (text : String)
  | error
deriving DecidableEq, Repr

/-- A node of a syntax tree. -/
structure Tree where
  kind : Kind
  /-- What the node is to its parent, if that matters. -/
  role : Option Role
  start : Position
  stop : Position
  /-- Whether the node or one below it is a fault. -/
  hasError : Bool
  children : List Tree
deriving Repr

/-- A fault in a source file, at a line counted from one. -/
structure Fault where
  message : String
  /-- The line, counted from one; zero if the fault has no place. -/
  line : UInt64
  /-- The byte column within the line. -/
  column : UInt64
deriving DecidableEq, Repr

namespace Tree

variable (t : Tree)

def is (c : Construct) : Bool := t.kind = .construct c

/-- Whether a node is a given keyword or punctuation mark. -/
def isToken (text : String) : Bool := t.kind = .token text

/-- Whether a node is more than a keyword or punctuation mark. -/
def isNamed : Bool :=
  match t.kind with
  | .construct _ | .error => true
  | .token _ | .missing _ => false

/-- The children that are more than keywords and punctuation marks. -/
def named : List Tree := t.children.filter isNamed

def childrenOf (c : Construct) : List Tree := t.children.filter fun child => child.is c

/-- The children that stand for a construct, as far as they are more than tokens. -/
def namedOf (c : Construct) : List Tree := t.named.filter fun child => child.is c

def child? (role : Role) : Option Tree :=
  t.children.find? fun c => c.role = some role

/-- Whether a keyword or punctuation mark is among the children. -/
def hasToken (text : String) : Bool := t.children.any (·.isToken text)

def faultAt (message : String) (p : Position) : Fault :=
  ⟨message, .ofNat (p.row + 1), .ofNat p.column⟩

def fault? : Option Fault :=
  match t.kind with
  | .error => some (faultAt "Syntax error" t.start)
  | .missing text => some (faultAt ("Missing " ++ text) t.start)
  | .construct _ | .token _ => none

mutual

/-- The outermost faults of a tree, passing over parts that are marked clean. -/
def allFaults : Tree → List Fault
  | ⟨kind, role, start, stop, hasError, children⟩ =>
    match fault? ⟨kind, role, start, stop, hasError, children⟩ with
    | some fault => [fault]
    | none => if hasError then allFaultsIn children else []

def allFaultsIn : List Tree → List Fault
  | [] => []
  | t :: rest => t.allFaults ++ allFaultsIn rest

end

/-- The first faults of a tree, up to a limit; a tree marked clean has none. -/
def faults (limit : Nat) : List Fault :=
  if t.hasError then t.allFaults.take limit else []

end Tree

end Ripple
