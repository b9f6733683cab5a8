import Ripple.Outline.Basic
import Ripple.Text.Blank

/-!
# Outlines of Syntax Trees

One walk over the statements of a module collects its outline. Declarations
are taken where they stand, also inside exports, ambient declarations and
namespaces; names listed in an export without a source are matched with the
declarations once all of them are known.

The walk takes any tree, well-formed or not. A part that is not there leaves
no trace.
-/

namespace Ripple

namespace Tree

variable (source : List Char) (t : Tree)

def textIn : List Char := slice source t.start.offset t.stop.offset

def text : String := String.ofList (t.textIn source)

def roleText? (role : Role) : Option String :=
  (t.child? role).map (text source)

mutual

/-- The texts of the leaves of a tree without blank ends, comments left out. -/
def leafTexts (source : List Char) : Tree → List (List Char)
  | ⟨kind, role, start, stop, hasError, children⟩ =>
    if kind = .construct .comment then []
    else if children.isEmpty then
      let text := trim (textIn source ⟨kind, role, start, stop, hasError, children⟩)
      if text.isEmpty then [] else [text]
    else leafTextsIn source children

def leafTextsIn (source : List Char) : List Tree → List (List Char)
  | [] => []
  | t :: rest => t.leafTexts source ++ leafTextsIn source rest

end

/-- The tokens of a node joined by single spaces. -/
def normalizedText : String :=
  String.intercalate " " ((t.leafTexts source).map String.ofList)

/-- The name that a call or a construction calls, if it has one. -/
def callee? : Option String :=
  match t.kind with
  | .construct .callExpression =>
    match t.child? .function with
    | none => none
    | some f =>
      match f.kind with
      | .construct .identifier => some (f.text source)
      | .construct .memberExpression => f.roleText? source .property
      | _ => none
  | .construct .newExpression =>
    match t.child? .constructor with
    | none => none
    | some f => if f.is .identifier then some (f.text source) else none
  | _ => none

mutual

/-- The names that the calls of a tree call, outer calls first. -/
def callees (source : List Char) : Tree → List String
  | ⟨kind, role, start, stop, hasError, children⟩ =>
    (callee? source ⟨kind, role, start, stop, hasError, children⟩).toList ++
      calleesIn source children

/-- The names that the calls of a row of trees call; tokens hold none. -/
def calleesIn (source : List Char) : List Tree → List String
  | [] => []
  | t :: rest => (if t.isNamed then t.callees source else []) ++ calleesIn source rest

end

/-- The names that a body calls, each once, in the order of the text; loading a module is not a
call. -/
def calls (body : Tree) : List String :=
  ((body.callees source).filter (· ≠ "require")).eraseDups

def location : Location :=
  ⟨.ofNat t.start.offset, .ofNat t.stop.offset, .ofNat (t.start.row + 1), .ofNat (t.stop.row + 1)⟩

end Tree

namespace Outline

/-- A text without the colons that introduce it and without blank ends. -/
def afterColon (text : String) : String :=
  String.ofList (trim (text.toList.dropWhile (· = ':')))

/-- A text without quotation marks at its ends. -/
def unquote (text : String) : String :=
  String.ofList (trimWhere (fun c => c = '\x22' || c = '\x27' || c = '\x60') text.toList)

/-- How a declaration is exported where it stands. -/
inductive Mode where
  | named
  | default
deriving DecidableEq, Repr

/-- A name that an export list maps to a declaration of the same module. -/
structure LocalExport where
  name : String
  exported : String
  isTypeOnly : Bool

/-- An outline under construction. -/
structure Draft where
  declarations : List Declaration
  imports : List Import
  exports : List Export
  /-- The export lists to be matched with declarations. -/
  pending : List LocalExport

namespace Draft

def empty : Draft := ⟨[], [], [], []⟩

variable (d : Draft)

def addImport (i : Import) : Draft := { d with imports := d.imports ++ [i] }

def addExport (e : Export) : Draft := { d with exports := d.exports ++ [e] }

/-- Adds a name of an export list. -/
def addPending (e : LocalExport) : Draft := { d with pending := d.pending ++ [e] }

/-- The name and kind under which a declaration is exported where it stands. -/
def exportOf (declaration : Declaration) : Mode → Export
  | .named => ⟨declaration.name, .declared declaration.kind, declaration.kind.isTypeLike⟩
  | .default => ⟨"default", .default, declaration.kind.isTypeLike⟩

/-- Adds a declaration, exported or not. -/
def addDeclaration (declaration : Declaration) (mode : Option Mode) : Draft :=
  match mode with
  | none => { d with declarations := d.declarations ++ [declaration] }
  | some mode =>
    let e := exportOf declaration mode
    { d with
      declarations := d.declarations ++ [declaration.addExport e.name]
      exports := d.exports ++ [e] }

/-- Marks the declarations that one name of an export list stands for, and lists the name. -/
def settle (e : LocalExport) : Draft :=
  let chosen := d.declarations.filter fun x => x.name = e.name
  let kind := match chosen.getLast? with
    | none => .reExport
    | some x => if e.exported = "default" then .default else .declared x.kind
  { d with
    declarations := d.declarations.map fun x => if x.name = e.name then x.addExport e.exported else x
    exports := d.exports ++
      [⟨e.exported, kind, e.isTypeOnly || chosen.any fun x => x.kind.isTypeLike⟩] }

/-- Matches all export lists with the declarations. -/
def settleAll : Draft := { d.pending.foldl settle d with pending := [] }

end Draft

section

variable (source : List Char)

def parameter? (p : Tree) : Option Parameter :=
  let typed (optional : Bool) : Parameter :=
    let value := p.roleText? source .value
    ⟨((p.child? .pattern).map (Tree.normalizedText source)).getD "",
      (p.roleText? source .type).map afterColon, optional || value.isSome, value⟩
  match p.kind with
  | .construct .requiredParameter => some (typed false)
  | .construct .optionalParameter => some (typed true)
  | .construct .identifier => some (.plain (p.text source))
  | .construct .assignmentPattern =>
    some ⟨(p.roleText? source .left).getD "", none, true, p.roleText? source .right⟩
  | .construct .restPattern | .construct .objectPattern | .construct .arrayPattern =>
    some (.plain (p.normalizedText source))
  | _ => none

def parametersOf (f : Tree) : List Parameter :=
  match f.child? .parameter with
  | some single => [.plain (single.text source)]
  | none =>
    match f.child? .parameters with
    | none => []
    | some list => list.named.filterMap (parameter? source)

def renderParameters (ps : List Parameter) : String :=
  "(" ++ String.intercalate ", " (ps.map Parameter.render) ++ ")"

/-- The declaration of a function that stands at a node. -/
def functionAt (f place : Tree) (name : String) : Declaration :=
  let parameters := parametersOf source f
  let result := (f.roleText? source .returnType).map afterColon
  let signature := (if f.hasToken "async" then "async " else "") ++ "function " ++ name ++
    (f.roleText? source .typeParameters).getD "" ++ renderParameters parameters ++
    (match result with
      | some type => ": " ++ type
      | none => "")
  { kind := .function
    name
    signature := some signature
    parameters := some parameters
    returnType := result
    exports := none
    location := place.location
    calls := ((f.child? .body).map (Tree.calls source)).getD [] }

/-- Whether a member is for the class itself or its subclasses only. -/
def isHidden (member : Tree) (name : String) : Bool :=
  (member.children.any fun c =>
      c.is .accessibilityModifier && ["private", "protected"].contains (c.text source)) ||
    (name.toList.head? = some '#')

/-- What a member contributes to the face of its class, unless it is hidden. -/
def renderMember? (member : Tree) : Option String :=
  let isMethod := member.is .methodDefinition || member.is .methodSignature ||
    member.is .abstractMethodSignature
  let isField := member.is .publicFieldDefinition
  if !isMethod && !isField then none
  else
    match member.roleText? source .name with
    | none => none
    | some name =>
      if isHidden source member name then none
      else
        let front := (if member.hasToken "static" then "static " else "") ++ name
        let typed (role : Role) : String :=
          match member.roleText? source role with
          | some type => ": " ++ afterColon type
          | none => ""
        if isField then some (front ++ (if member.hasToken "?" then "?" else "") ++ typed .type)
        else some (front ++ renderParameters (parametersOf source member) ++ typed .returnType)

variable (t : Tree)

def classAt : Declaration :=
  let name := (t.roleText? source .name).getD "default"
  let heritage := (t.namedOf .classHeritage).map fun h =>
    " " ++ h.normalizedText source
  let members := match t.child? .body with
    | some body => body.named.filterMap (renderMember? source)
    | none => []
  let face := if members.isEmpty then ""
    else " \x7b " ++ String.intercalate "; " members ++ " \x7d"
  { Declaration.bare .classType name with
    signature := some ("class " ++ name ++ (t.roleText? source .typeParameters).getD "" ++
      String.join heritage ++ face)
    location := t.location
    calls := ((t.child? .body).map (Tree.calls source)).getD [] }

/-- The declaration of a type, known by its tokens. -/
def typeAt (kind : DeclarationKind) (t : Tree) : Declaration :=
  { Declaration.bare kind ((t.roleText? source .name).getD "default") with
    signature := some (t.normalizedText source)
    location := t.location }

/-- The module that a call loads, if it is such a call. -/
def required? (call : Tree) : Option String :=
  match call.child? .function, call.child? .arguments with
  | some f, some arguments =>
    if f.is .identifier && f.text source = "require" then
      match arguments.named.head? with
      | some first => if first.is .string then some (unquote (first.text source)) else none
      | none => none
    else none
  | _, _ => none

def importedNames : List String :=
  (t.namedOf .importClause).flatMap fun clause =>
    clause.named.flatMap fun part =>
      match part.kind with
      | .construct .identifier => [part.text source]
      | .construct .namespaceImport => ["*"]
      | .construct .namedImports =>
        (part.namedOf .importSpecifier).filterMap fun spec =>
          spec.roleText? source .name
      | _ => []

def addImportStatement (d : Draft) : Draft :=
  let place := match t.child? .source with
    | some s => some s
    | none => (t.namedOf .importRequireClause).head?.bind fun c => c.child? .source
  match place with
  | none => d
  | some s =>
    d.addImport (.of (unquote (s.text source)) (importedNames source t) (t.hasToken "type"))

/-- Whether a node is a function in an expression. -/
def isFunctionValue : Bool :=
  t.is .arrowFunction || t.is .functionExpression || t.is .generatorFunction

def valueAt (keyword name : String) (declarator : Tree) : Declaration :=
  let type := (declarator.roleText? source .type).map afterColon
  { Declaration.bare .value name with
    signature := some (keyword ++ " " ++ name ++
      (match type with
        | some type => ": " ++ type
        | none => ""))
    returnType := type
    location := declarator.location }

def addVariable (keyword : String) (mode : Option Mode) (d : Draft) (declarator : Tree) : Draft :=
  match declarator.child? .name with
  | none => d
  | some nameNode =>
    if !nameNode.is .identifier then d
    else
      let name := nameNode.text source
      let plain := if mode.isSome then d.addDeclaration (valueAt source keyword name declarator) mode
        else d
      match declarator.child? .value with
      | none => plain
      | some value =>
        if isFunctionValue value then
          d.addDeclaration (functionAt source value declarator name) mode
        else if value.is .callExpression then
          match required? source value with
          | some module => d.addImport (.of module [name] false)
          | none => plain
        else plain

def addVariables (mode : Option Mode) (d : Draft) : Draft :=
  let keyword := match t.children.head? with
    | some first =>
      let text := first.text source
      if ["const", "let", "var"].contains text then text else "const"
    | none => "const"
  (t.namedOf .variableDeclarator).foldl (addVariable source keyword mode) d

/-- The names of an export list, each with the name it is offered under. -/
def exportedNames : List (String × String) :=
  (t.childrenOf .exportClause).flatMap fun clause =>
    (clause.namedOf .exportSpecifier).filterMap fun spec =>
      (spec.roleText? source .name).map fun name =>
        (name, (spec.roleText? source .alias).getD name)

/-- The name under which all of a module is offered; a star stands for no name. -/
def starName? : Option String :=
  t.children.foldl
    (fun found child =>
      if child.is .namespaceExport then
        some ((child.named.head?.map (Tree.text source)).getD "*")
      else if child.isToken "*" then some (found.getD "*")
      else found)
    none

def addExportList (d : Draft) : Draft :=
  let isTypeOnly := t.hasToken "type"
  let names := exportedNames source t
  match t.roleText? source .source with
  | none =>
    names.foldl (fun d (name, exported) => d.addPending ⟨name, exported, isTypeOnly⟩) d
  | some from_ =>
    let star := starName? source t
    let taken := names.map Prod.fst ++ (if star.isSome then ["*"] else [])
    let d := d.addImport (.of (unquote from_) taken isTypeOnly)
    let offered := names.map Prod.snd ++ star.toList
    offered.foldl (fun d name => d.addExport ⟨name, .reExport, isTypeOnly⟩) d

/-- What a default export of a value adds, classes apart. -/
def addDefaultValue (d : Draft) : Draft :=
  match t.child? .value with
  | none => d
  | some value =>
    if value.is .identifier then d.addPending ⟨value.text source, "default", false⟩
    else if isFunctionValue value then
      let name := (value.roleText? source .name).getD "default"
      d.addDeclaration (functionAt source value value name) (some .default)
    else if value.is .classExpression then d
    else d.addExport ⟨"default", .default, false⟩

/-- What the calls of an expression statement load. -/
def addRequires (d : Draft) : Draft :=
  (t.namedOf .callExpression).foldl
    (fun d call =>
      match required? source call with
      | some module => d.addImport (.of module [] false)
      | none => d)
    d

mutual

/-- What one statement adds to a draft. -/
def visit (mode : Option Mode) : Tree → Draft → Draft
  | ⟨kind, role, start, stop, hasError, children⟩, d =>
    let t : Tree := ⟨kind, role, start, stop, hasError, children⟩
    match kind with
    | .construct .exportStatement =>
      let isDefault := t.hasToken "default"
      if (t.child? .declaration).isSome then
        visitRole .declaration (some (if isDefault then .default else .named)) children d
      else if isDefault then
        visitClassValue children (addDefaultValue source t d)
      else addExportList source t d
    | .construct .ambientDeclaration => visitNamed mode children d
    | .construct .expressionStatement => visitModules mode children (addRequires source t d)
    | .construct .internalModule => visitBody children d
    | .construct .moduleDeclaration => visitBody children d
    | .construct .importStatement => addImportStatement source t d
    | .construct .functionDeclaration | .construct .generatorFunctionDeclaration
    | .construct .functionSignature =>
      d.addDeclaration (functionAt source t t ((t.roleText? source .name).getD "default")) mode
    | .construct .classDeclaration | .construct .abstractClassDeclaration
    | .construct .classExpression => d.addDeclaration (classAt source t) mode
    | .construct .interfaceDeclaration => d.addDeclaration (typeAt source .interface t) mode
    | .construct .typeAliasDeclaration => d.addDeclaration (typeAt source .typeAlias t) mode
    | .construct .enumDeclaration => d.addDeclaration (typeAt source .enumeration t) mode
    | .construct .lexicalDeclaration | .construct .variableDeclaration =>
      addVariables source t mode d
    | _ => d

def visitRole (role : Role) (mode : Option Mode) : List Tree → Draft → Draft
  | [], d => d
  | t :: rest, d => if t.role = some role then visit mode t d else visitRole role mode rest d

def visitClassValue : List Tree → Draft → Draft
  | [], d => d
  | t :: rest, d =>
    if t.role = some .value then
      if t.is .classExpression then visit (some .default) t d else d
    else visitClassValue rest d

def visitNamed (mode : Option Mode) : List Tree → Draft → Draft
  | [], d => d
  | t :: rest, d => visitNamed mode rest (if t.isNamed then visit mode t d else d)

def visitModules (mode : Option Mode) : List Tree → Draft → Draft
  | [], d => d
  | t :: rest, d =>
    let d := visitModules mode rest d
    if t.is .internalModule || t.is .moduleDeclaration then visit mode t d else d

def visitBody : List Tree → Draft → Draft
  | [], d => d
  | ⟨_, role, _, _, _, children⟩ :: rest, d =>
    if role = some .body then visitNamed none children d else visitBody rest d

end

def draftOf : Draft := (visitNamed source none t.children .empty).settleAll

end

def maxFaults : Nat := 20

def ofTree (path hash : String) (source : List Char) (t : Tree) : Outline :=
  let d := draftOf source t
  ⟨path, hash, d.declarations, d.imports, d.exports, t.faults maxFaults⟩

end Outline

end Ripple
