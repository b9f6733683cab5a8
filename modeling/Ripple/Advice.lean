import Ripple.Decimal.Shortest
import Ripple.Report.Basic

/-!
# Advice

What to do about a change, said by someone who read its report. Advice never
changes a report. One who cannot say anything leaves the reason instead.
-/

namespace Ripple

open Json

inductive Urgency where
  | low | medium | high | unavailable
deriving DecidableEq, Repr

namespace Urgency

def text : Urgency → String
  | low => "low"
  | medium => "medium"
  | high => "high"
  | unavailable => "unavailable"

def ofLevel : RiskLevel → Urgency
  | .breaking => high
  | .risky => medium
  | .safe => low

def ofJson? (j : Json) : Option Urgency :=
  j.variant?.bind fun s => [low, medium, high, unavailable].find? fun u => u.text = s

end Urgency

structure Advice where
  urgency : Urgency
  summary : String
  recommendations : List String
deriving DecidableEq, Repr

/-- Advice with who gave it and when. -/
structure Advisory where
  path : String
  provider : String
  createdAt : String
  advice : Advice
  error : Option String
deriving DecidableEq, Repr

def DetailKind.recommendation? : DetailKind → Option String
  | .exportRemoved => some "Restore the export or update every importer"
  | .parameterChanged | .signatureChanged => some "Check all call sites against the new signature"
  | .returnTypeChanged => some "Review consumers of the return value"
  | .typeChanged => some "Recompile dependents to surface type errors"
  | .internalChange => none

/-- The advice that follows from a report alone. -/
def ChangeReport.advice (r : ChangeReport) : Advice where
  urgency := .ofLevel r.level
  summary := r.level.text ++ " change with " ++ toString r.details.length ++
    " detail(s), risk score " ++ Decimal.writeFixed 0 r.risk.toFloat
  recommendations := (r.details.filterMap fun d => d.kind.recommendation?).eraseDups

namespace Advisory

def given (path provider createdAt : String) (advice : Advice) : Advisory :=
  ⟨path, provider, createdAt, advice, none⟩

def missing (path provider createdAt reason : String) : Advisory :=
  ⟨path, provider, createdAt, ⟨.unavailable, "Advisory analysis unavailable", []⟩, some reason⟩

def toJson (a : Advisory) : Json :=
  .object
    ([("file_path", .text a.path), ("provider", .text a.provider),
        ("created_at", .text a.createdAt), ("risk", .text a.advice.urgency.text),
        ("summary", .text a.advice.summary),
        ("recommendations", ofTexts a.advice.recommendations)] ++ field? "error" .text a.error)

instance : ToJson Advisory := ⟨Advisory.toJson⟩

def ofJson? : Json → Option Advisory := record? 7 fun r => do
  let path ← r.required 0 "file_path" text?
  let provider ← r.required 1 "provider" text?
  let createdAt ← r.required 2 "created_at" text?
  let urgency ← r.required 3 "risk" Urgency.ofJson?
  let summary ← r.required 4 "summary" text?
  let recommendations ← r.withDefault 5 "recommendations" texts? []
  let error ← r.optional 6 "error" text?
  return ⟨path, provider, createdAt, ⟨urgency, summary, recommendations⟩, error⟩

instance : OfJson Advisory := ⟨Advisory.ofJson?⟩

end Advisory

end Ripple
