import Ripple.Advice
import Ripple.Store.Basic
import Ripple.Store.Keys
import Ripple.Text.Moment

/-!
# The Log of Advice

Advice that was given on reports is kept in a store, the oldest first. An
adviser that fails leaves an entry that says so; reports stay as they are.
-/

namespace Ripple

/-- Someone who gives advice on a report, or a reason why there is none. -/
structure Adviser where
  name : String
  advise : ChangeReport → Except String Advice

namespace Adviser

/-- The adviser who goes by the report alone. -/
def rules : Adviser := ⟨"rules", fun r => .ok r.advice⟩

def onReport (a : Adviser) (now : Int64) (r : ChangeReport) : Advisory :=
  match a.advise r with
  | .ok advice => .given r.path a.name (momentText now) advice
  | .error reason => .missing r.path a.name (momentText now) reason

def onReports (a : Adviser) (now : Int64) (reports : List ChangeReport) : List Advisory :=
  reports.map (a.onReport now)

end Adviser

namespace AdviceLog

variable {σ : Type} [BlobStore σ]

def all (store : σ) : List Advisory :=
  (Store.readJson? (Json.listOf? Advisory.ofJson?) store Keys.advice).getD []

def onFile (store : σ) (path : String) : List Advisory :=
  (all store).filter fun a => a.path = path

def append (entries : List Advisory) : Job σ Unit := do
  unless entries.isEmpty do
    let earlier ← Job.inspect fun s => .ok (all s)
    Store.writeJson Keys.advice (.list ((earlier ++ entries).map Advisory.toJson))

end AdviceLog

end Ripple
