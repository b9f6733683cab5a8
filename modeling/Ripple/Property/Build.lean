import Ripple.Graph.Basic
import Ripple.Property.Basic

/-!
# Building Property Graphs

The property graph of a project is made from its outlines and its import
graph. A called or mentioned name means a declaration of the same file if
there is one, and otherwise an exported declaration of an imported file.
-/

namespace Ripple

def isCallable (d : Declaration) : Bool :=
  match d.kind with
  | .function | .classType | .value => true
  | _ => false

/-- Whether a declaration can be mentioned as a type. -/
def isMentionable (d : Declaration) : Bool :=
  match d.kind with
  | .interface | .typeAlias | .enumeration | .classType => true
  | _ => false

def startsIdentifier (c : Char) : Bool := c.isAlpha || c = '_' || c = '$'

def continuesIdentifier (c : Char) : Bool := startsIdentifier c || c.isDigit

/-- The identifiers of a text, from left to right; the identifier being read is given with its last
character first, and is empty between identifiers. -/
def scanIdentifiers : List Char → List Char → List String
  | word, [] => if word.isEmpty then [] else [String.ofList word.reverse]
  | word, c :: rest =>
    if word.isEmpty then
      if startsIdentifier c then scanIdentifiers [c] rest else scanIdentifiers [] rest
    else if continuesIdentifier c then scanIdentifiers (c :: word) rest
    else String.ofList word.reverse :: scanIdentifiers [] rest

/-- The names that the types of a declaration mention, ascending. -/
def mentionedNames (d : Declaration) : List String :=
  let types := ((d.parameters.getD []).filterMap (·.type)) ++ d.returnType.toList
  sortedSet (types.flatMap fun type => scanIdentifiers [] type.toList)

/-- The declaration that a name means in a file, as its id. -/
def resolveName? (outlines : Dict String Outline) (path : String) (imported : List String)
    (accepts : Declaration → Bool) (name : String) : Option String :=
  let search (file : String) (suits : Declaration → Bool) : Option String :=
    (outlines.get? file).bind fun o =>
      (o.declarations.find? fun d => d.name = name && suits d && accepts d).map (declarationId file)
  (search path fun _ => true).or (imported.findSome? fun file => search file Declaration.isExported)

/-- The declarations of a file in the order of their places. -/
def Outline.inPlaceOrder (o : Outline) : List Declaration :=
  o.declarations.mergeSort fun a b => a.location.startOffset ≤ b.location.startOffset

/-- The list without items that equal the item right before them. -/
def dropRepeats : List String → List String
  | [] => []
  | [a] => [a]
  | a :: b :: rest => if a = b then dropRepeats (b :: rest) else a :: dropRepeats (b :: rest)

namespace PropertyGraph

variable (path : String)

def fileNode : PropertyNode := ⟨fileId path, .file, path, path, 0, false⟩

def declarationNode (d : Declaration) : PropertyNode :=
  ⟨declarationId path d, .ofDeclaration d.kind, d.name, path, d.location.line, d.isExported⟩

def nodesOf (o : Outline) : List PropertyNode :=
  fileNode path :: o.inPlaceOrder.map (declarationNode path)

/-- What a file contains, exports, and in which order. -/
def structureLinks (o : Outline) : List Link :=
  let declarations := o.inPlaceOrder
  let ids := declarations.map (declarationId path)
  let contained := ids.map fun id => (⟨fileId path, id, .contains⟩ : Link)
  let exported := (declarations.filter Declaration.isExported).map fun d =>
    (⟨fileId path, declarationId path d, .exports⟩ : Link)
  let ordered := ((ids.zip ids.tail).filter fun p => p.1 ≠ p.2).map fun p =>
    (⟨p.1, p.2, .precedes⟩ : Link)
  contained ++ exported ++ ordered

/-- The imports between files with outlines. -/
def importLinks (outlines : Dict String Outline) (graph : ImportGraph) : List Link :=
  graph.nodes.toList.flatMap fun (path, node) =>
    (node.dependencies.filter outlines.contains).map fun other =>
      ⟨fileId path, fileId other, .imports⟩

/-- What a declaration calls and mentions. -/
def useLinks (outlines : Dict String Outline) (imported : List String) (path : String)
    (d : Declaration) : List Link :=
  let source := declarationId path d
  let linksTo (relation : Relation) (accepts : Declaration → Bool) (names : List String) :
      List Link :=
    ((names.filterMap (resolveName? outlines path imported accepts)).filter (· ≠ source)).map
      fun target => ⟨source, target, relation⟩
  linksTo .calls isCallable d.calls ++ linksTo .mentions isMentionable (mentionedNames d)

def build (outlines : Dict String Outline) (graph : ImportGraph) : PropertyGraph where
  nodes := .ofList (outlines.toList.flatMap fun (path, o) => (nodesOf path o).map fun n => (n.id, n))
  links := sortedSet
    (outlines.toList.flatMap (fun (path, o) => structureLinks path o) ++
      importLinks outlines graph ++
      outlines.toList.flatMap fun (path, o) =>
        o.declarations.flatMap (useLinks outlines (graph.dependenciesOf path) path))
  fileIndex := outlines.map fun path o => dropRepeats ((nodesOf path o).map (·.id))

end PropertyGraph

end Ripple
