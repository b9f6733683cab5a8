import Ripple.Outline.Codec

/-!
# Changes of Declarations

What may differ between two versions of a declaration: its signature, its
return type, its parameters one by one, and the names under which it is
exported. Parameters are compared by place.
-/

namespace Ripple

open Json

inductive DeclarationChange where
  | signature (old new : Option String)
  | returnType (old new : Option String)
  | parameterAdded (name : String) (optional : Bool)
  | parameterRemoved (name : String)
  | parameterRenamed (old new : String)
  | parameterType (name : String) (old new : Option String)
  | parameterOptionality (name : String) (nowOptional : Bool)
  | exportAdded (name : String)
  | exportRemoved (name : String)
deriving DecidableEq, Repr

def typeText (type : Option String) : String := type.getD "none"

namespace DeclarationChange

def tag : DeclarationChange → String
  | signature _ _ => "signature_changed"
  | returnType old new => "return_type_changed:" ++ typeText old ++ "->" ++ typeText new
  | parameterAdded name optional => "parameter_added:" ++ name ++ (if optional then "?" else "")
  | parameterRemoved name => "parameter_removed:" ++ name
  | parameterRenamed old new => "parameter_renamed:" ++ old ++ "->" ++ new
  | parameterType name old new =>
    "parameter_type_changed:" ++ name ++ ":" ++ typeText old ++ "->" ++ typeText new
  | parameterOptionality name nowOptional =>
    "parameter_optionality_changed:" ++ name ++ ":" ++
      (if nowOptional then "optional" else "required")
  | exportAdded name => "export_added:" ++ name
  | exportRemoved name => "export_removed:" ++ name

/-- Whether callers may break by a difference in the parameters. -/
def breaksParameters : DeclarationChange → Bool
  | parameterRemoved _ | parameterType _ _ _ => true
  | parameterAdded _ optional => !optional
  | parameterOptionality _ nowOptional => !nowOptional
  | _ => false

/-- Whether callers may pass more by a difference in the parameters. -/
def extendsParameters : DeclarationChange → Bool
  | parameterAdded _ optional => optional
  | parameterOptionality _ nowOptional => nowOptional
  | _ => false

/-- Whether a parameter has a new name only. -/
def renamesParameter : DeclarationChange → Bool
  | parameterRenamed _ _ => true
  | _ => false

def isSignature : DeclarationChange → Bool
  | signature _ _ => true
  | _ => false

/-- Both return types, if they are different. -/
def returnTypes? : DeclarationChange → Option (Option String × Option String)
  | returnType old new => some (old, new)
  | _ => none

def toJson : DeclarationChange → Json
  | signature old new => tagged "signature_changed" (pair (ofOption .text) old new)
  | returnType old new => tagged "return_type_changed" (pair (ofOption .text) old new)
  | parameterAdded name optional =>
    tagged "parameter_added" [("name", .text name), ("optional", .bool optional)]
  | parameterRemoved name => tagged "parameter_removed" [("name", .text name)]
  | parameterRenamed old new => tagged "parameter_renamed" (pair .text old new)
  | parameterType name old new =>
    tagged "parameter_type_changed" (("name", .text name) :: pair (ofOption .text) old new)
  | parameterOptionality name nowOptional =>
    tagged "parameter_optionality_changed"
      [("name", .text name), ("now_optional", .bool nowOptional)]
  | exportAdded name => tagged "export_added" [("name", .text name)]
  | exportRemoved name => tagged "export_removed" [("name", .text name)]
where
  /-- The old and the new value of something. -/
  pair {α : Type} (write : α → Json) (old new : α) : List (String × Json) :=
    [("old", write old), ("new", write new)]

instance : ToJson DeclarationChange := ⟨DeclarationChange.toJson⟩

def ofRecord? (kind : String) (j : Json) : Option DeclarationChange :=
  match kind with
  | "signature_changed" => j |> record? 2 fun r => do
    return signature (← r.optional 0 "old" text?) (← r.optional 1 "new" text?)
  | "return_type_changed" => j |> record? 2 fun r => do
    return returnType (← r.optional 0 "old" text?) (← r.optional 1 "new" text?)
  | "parameter_added" => j |> record? 2 fun r => do
    return parameterAdded (← r.required 0 "name" text?) (← r.required 1 "optional" bool?)
  | "parameter_removed" => j |> record? 1 fun r => do
    return parameterRemoved (← r.required 0 "name" text?)
  | "parameter_renamed" => j |> record? 2 fun r => do
    return parameterRenamed (← r.required 0 "old" text?) (← r.required 1 "new" text?)
  | "parameter_type_changed" => j |> record? 3 fun r => do
    return parameterType (← r.required 0 "name" text?) (← r.optional 1 "old" text?)
      (← r.optional 2 "new" text?)
  | "parameter_optionality_changed" => j |> record? 2 fun r => do
    return parameterOptionality (← r.required 0 "name" text?) (← r.required 1 "now_optional" bool?)
  | "export_added" => j |> record? 1 fun r => do
    return exportAdded (← r.required 0 "name" text?)
  | "export_removed" => j |> record? 1 fun r => do
    return exportRemoved (← r.required 0 "name" text?)
  | _ => none

def ofJson? (j : Json) : Option DeclarationChange := j.tagged?.bind fun (kind, j) => ofRecord? kind j

instance : OfJson DeclarationChange := ⟨DeclarationChange.ofJson?⟩

end DeclarationChange

/-- A list with one item if something holds. -/
def itemIf {α : Type} (condition : Bool) (item : α) : List α := if condition then [item] else []

/-- The differences of two parameter lists, place by place. -/
def parameterChanges : List Parameter → List Parameter → List DeclarationChange
  | a :: as, b :: bs =>
    (if a.type ≠ b.type then [.parameterType b.name a.type b.type]
      else itemIf (a.name ≠ b.name) (.parameterRenamed a.name b.name)) ++
      itemIf (a.optional ≠ b.optional) (.parameterOptionality b.name b.optional) ++
      parameterChanges as bs
  | [], b :: bs => .parameterAdded b.name b.optional :: parameterChanges [] bs
  | a :: as, [] => .parameterRemoved a.name :: parameterChanges as []
  | [], [] => []

/-- All differences of two versions of a declaration. -/
def declarationChanges (old new : Declaration) : List DeclarationChange :=
  let oldExports := old.exports.getD []
  let newExports := new.exports.getD []
  itemIf (old.signature ≠ new.signature) (.signature old.signature new.signature) ++
    itemIf (old.returnType ≠ new.returnType) (.returnType old.returnType new.returnType) ++
    parameterChanges (old.parameters.getD []) (new.parameters.getD []) ++
    (oldExports.filter fun name => !newExports.contains name).map .exportRemoved ++
    (newExports.filter fun name => !oldExports.contains name).map .exportAdded

end Ripple
