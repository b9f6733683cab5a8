import Ripple.Outline.Diff
import Ripple.Risk
import Ripple.Text.Blank

/-!
# Change Patterns

The differences of two versions of a file as patterns with points. What is
removed, retyped or made required weighs more than what is added, and a
change to an exported declaration more than one to an internal one. A new
signature is a pattern of its own only if no other pattern explains it.
-/

namespace Ripple

open Json

inductive PatternKind where
  | exportRemoved | declarationRemoved | exportAdded | declarationAdded | returnTypeChanged
  | parameterBreaking | parameterAdditive | parameterRenamed | typeDefinitionChanged
  | signatureChanged
deriving DecidableEq, Repr

namespace PatternKind

def all : List PatternKind :=
  [exportRemoved, declarationRemoved, exportAdded, declarationAdded, returnTypeChanged,
    parameterBreaking, parameterAdditive, parameterRenamed, typeDefinitionChanged,
    signatureChanged]

def text : PatternKind → String
  | exportRemoved => "export_removed"
  | declarationRemoved => "node_removed"
  | exportAdded => "export_added"
  | declarationAdded => "node_added"
  | returnTypeChanged => "return_type_changed"
  | parameterBreaking => "parameter_breaking"
  | parameterAdditive => "parameter_additive"
  | parameterRenamed => "parameter_renamed"
  | typeDefinitionChanged => "type_definition_changed"
  | signatureChanged => "signature_changed"

end PatternKind

structure ChangePattern where
  kind : PatternKind
  symbol : String
  declarationKind : DeclarationKind
  /-- Whether the declaration is exported in one of the versions. -/
  exported : Bool
  risk : Score
  description : String
  before : Option String
  after : Option String

namespace Points

def exportRemoved : Nat := 95

def declarationRemoved : Nat := 40

def exportAdded : Nat := 20

def declarationAdded : Nat := 10

variable (exported : Bool)

/-- The points of another return type with another base. -/
def returnBase : Nat := if exported then 90 else 60

def returnType : Nat := if exported then 45 else 30

def parameterBreaking : Nat := if exported then 85 else 55

def parameterAdditive : Nat := 15

def parameterRenamed : Nat := 10

def typeDefinition : Nat := if exported then 75 else 45

def signature : Nat := if exported then 70 else 45

end Points

/-- The outermost part of a type. -/
def baseType (type : String) : String :=
  trimText (String.ofList (type.toList.takeWhile fun c =>
    !(c = '<' || c = '[' || c = '|' || c = '&' || c = '(')))

/-- Whether two types that are both written have different bases. -/
def baseChanged (before after : Option String) : Bool :=
  match before, after with
  | some a, some b => baseType a ≠ baseType b
  | _, _ => false

def quoted (name : String) : String := "'" ++ name ++ "'"

/-- Whether a declaration is exported, by its marks or by the names that its file exports. -/
def Declaration.exportedAmong (d : Declaration) (names : List String) : Bool :=
  d.isExported || names.contains d.name

namespace ModifiedDeclaration

variable (m : ModifiedDeclaration) (exported : Bool)

def pattern (kind : PatternKind) (points : Nat)
    (description : String) (before after : Option String) : ChangePattern :=
  ⟨kind, m.new.name, m.new.kind, exported, .points points, description, before, after⟩

def exportPatterns : List ChangePattern :=
  let subject := m.new.kind.text ++ " " ++ quoted m.new.name
  m.changes.filterMap fun
    | .exportRemoved name =>
      some (m.pattern exported .exportRemoved Points.exportRemoved
        (subject ++ " is no longer exported as " ++ quoted name) (some name) none)
    | .exportAdded name =>
      some (m.pattern exported .exportAdded Points.exportAdded
        (subject ++ " is now exported as " ++ quoted name) none (some name))
    | _ => none

def returnPatterns : List ChangePattern :=
  match m.changes.findSome? DeclarationChange.returnTypes? with
  | none => []
  | some (before, after) =>
    let label := if m.new.kind = .function then "Return type" else "Declared type"
    let points :=
      if baseChanged before after then Points.returnBase exported else Points.returnType exported
    [m.pattern exported .returnTypeChanged points
      (label ++ " of " ++ quoted m.new.name ++ " changed from " ++ typeText before ++ " to " ++
        typeText after) before after]

def parameterPatterns : List ChangePattern :=
  let tagsOf (test : DeclarationChange → Bool) : List String :=
    (m.changes.filter test).map DeclarationChange.tag
  let entry (kind : PatternKind) (points : Nat) (verb : String) (tags : List String) :
      ChangePattern :=
    m.pattern exported kind points
      ("Parameters of " ++ quoted m.new.name ++ " " ++ verb ++ ": " ++ String.intercalate ", " tags)
      m.old.signature m.new.signature
  let breaking := tagsOf DeclarationChange.breaksParameters
  let additive := tagsOf DeclarationChange.extendsParameters
  let renamed := tagsOf DeclarationChange.renamesParameter
  (if !breaking.isEmpty then
      [entry .parameterBreaking (Points.parameterBreaking exported) "changed incompatibly" breaking]
    else if !additive.isEmpty then
      [entry .parameterAdditive Points.parameterAdditive "extended" additive]
    else []) ++
    if renamed.isEmpty then []
    else [entry .parameterRenamed Points.parameterRenamed "renamed" renamed]

def signaturePattern : ChangePattern :=
  let description := "Definition of " ++ m.new.kind.text ++ " " ++ quoted m.new.name ++ " changed"
  match m.new.kind with
  | .interface | .typeAlias | .enumeration | .classType =>
    m.pattern exported .typeDefinitionChanged (Points.typeDefinition exported) description
      m.old.signature m.new.signature
  | .function | .value =>
    m.pattern exported .signatureChanged (Points.signature exported) description
      m.old.signature m.new.signature

def patterns : List ChangePattern :=
  let explaining := m.returnPatterns exported ++ m.parameterPatterns exported
  m.exportPatterns exported ++ explaining ++
    itemIf (explaining.isEmpty && m.changes.any DeclarationChange.isSignature)
      (m.signaturePattern exported)

end ModifiedDeclaration

def removedPattern (d : Declaration) (exported : Bool) : ChangePattern where
  kind := if exported then .exportRemoved else .declarationRemoved
  symbol := d.name
  declarationKind := d.kind
  exported
  risk := .points (if exported then Points.exportRemoved else Points.declarationRemoved)
  description := (if exported then "Exported " else "Internal ") ++ d.kind.text ++ " " ++
    quoted d.name ++ " was removed"
  before := d.signature
  after := none

def addedPattern (d : Declaration) (exported : Bool) : ChangePattern where
  kind := if exported then .exportAdded else .declarationAdded
  symbol := d.name
  declarationKind := d.kind
  exported
  risk := .points (if exported then Points.exportAdded else Points.declarationAdded)
  description := "Added " ++ d.kind.text ++ " " ++ quoted d.name
  before := none
  after := d.signature

/-- The patterns of a comparison: removed, added and modified declarations in this order. The two
versions tell what is exported. -/
def OutlineDiff.patterns (diff : OutlineDiff) (old new : Outline) : List ChangePattern :=
  let before := old.exportNames
  let after := new.exportNames
  diff.removed.map (fun d => removedPattern d (d.exportedAmong before)) ++
    diff.added.map (fun d => addedPattern d (d.exportedAmong after)) ++
    diff.modified.flatMap fun m =>
      m.patterns (m.old.exportedAmong before || m.new.exportedAmong after)

namespace ChangePattern

def toJson (p : ChangePattern) : Json :=
  .object
    ([("kind", .text p.kind.text), ("symbol", .text p.symbol),
        ("node_kind", p.declarationKind.toJson), ("exported", .bool p.exported),
        ("risk_score", p.risk.toJson), ("description", .text p.description)] ++
      field? "before" .text p.before ++ field? "after" .text p.after)

instance : ToJson ChangePattern := ⟨ChangePattern.toJson⟩

def ofJson? : Json → Option ChangePattern := record? 8 fun r => do
  let kind ← r.required 0 "kind" fun j =>
    j.variant?.bind fun s => PatternKind.all.find? fun k => k.text = s
  let symbol ← r.required 1 "symbol" text?
  let declarationKind ← r.required 2 "node_kind" DeclarationKind.ofJson?
  let exported ← r.required 3 "exported" bool?
  let risk ← r.required 4 "risk_score" Score.ofJson?
  let description ← r.required 5 "description" text?
  let before ← r.optional 6 "before" text?
  let after ← r.optional 7 "after" text?
  return ⟨kind, symbol, declarationKind, exported, risk, description, before, after⟩

instance : OfJson ChangePattern := ⟨ChangePattern.ofJson?⟩

end ChangePattern

end Ripple
