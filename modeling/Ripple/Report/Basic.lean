import Ripple.Risk

/-!
# Change Reports

What a change of a file means for those who use it: a level, a score, and
the details that led to them.
-/

namespace Ripple

open Json

inductive DetailKind where
  | exportRemoved | signatureChanged | parameterChanged | returnTypeChanged | typeChanged
  | internalChange
deriving DecidableEq, Repr

namespace DetailKind

def all : List DetailKind :=
  [exportRemoved, signatureChanged, parameterChanged, returnTypeChanged, typeChanged,
    internalChange]

def text : DetailKind → String
  | exportRemoved => "export_removed"
  | signatureChanged => "signature_changed"
  | parameterChanged => "parameter_changed"
  | returnTypeChanged => "return_type_changed"
  | typeChanged => "type_changed"
  | internalChange => "internal_change"

end DetailKind

inductive FileChange where
  | added | removed | modified
deriving DecidableEq, Repr

namespace FileChange

def text : FileChange → String
  | added => "added"
  | removed => "removed"
  | modified => "modified"

def ofJson? (j : Json) : Option FileChange :=
  j.variant?.bind fun s => [added, removed, modified].find? fun c => c.text = s

end FileChange

structure ChangeDetail where
  kind : DetailKind
  description : String
  before : Option String
  after : Option String
  affectedSymbols : List String
  risk : Score

structure ChangeReport where
  path : String
  change : FileChange
  level : RiskLevel
  risk : Score
  details : List ChangeDetail

namespace ChangeDetail

def toJson (d : ChangeDetail) : Json :=
  .object
    ([("kind", .text d.kind.text), ("description", .text d.description)] ++
      field? "before" .text d.before ++ field? "after" .text d.after ++
      [("affected_symbols", ofTexts d.affectedSymbols), ("risk_score", d.risk.toJson)])

instance : ToJson ChangeDetail := ⟨ChangeDetail.toJson⟩

def ofJson? : Json → Option ChangeDetail := record? 6 fun r => do
  let kind ← r.required 0 "kind" fun j =>
    j.variant?.bind fun s => DetailKind.all.find? fun k => k.text = s
  let description ← r.required 1 "description" text?
  let before ← r.optional 2 "before" text?
  let after ← r.optional 3 "after" text?
  let affectedSymbols ← r.withDefault 4 "affected_symbols" texts? []
  let risk ← r.required 5 "risk_score" Score.ofJson?
  return ⟨kind, description, before, after, affectedSymbols, risk⟩

instance : OfJson ChangeDetail := ⟨ChangeDetail.ofJson?⟩

end ChangeDetail

namespace ChangeReport

def isBreaking (r : ChangeReport) : Bool := r.level = .breaking

def toJson (r : ChangeReport) : Json :=
  .object
    [("file_path", .text r.path), ("change_type", .text r.change.text),
      ("risk_level", r.level.toJson), ("risk_score", r.risk.toJson),
      ("changes", .list (r.details.map ChangeDetail.toJson))]

instance : ToJson ChangeReport := ⟨ChangeReport.toJson⟩

def ofJson? : Json → Option ChangeReport := record? 5 fun r => do
  let path ← r.required 0 "file_path" text?
  let change ← r.required 1 "change_type" FileChange.ofJson?
  let level ← r.required 2 "risk_level" RiskLevel.ofJson?
  let risk ← r.required 3 "risk_score" Score.ofJson?
  let details ← r.withDefault 4 "changes" (listOf? ChangeDetail.ofJson?) []
  return ⟨path, change, level, risk, details⟩

instance : OfJson ChangeReport := ⟨ChangeReport.ofJson?⟩

end ChangeReport

end Ripple
