import Ripple.Decimal.Shortest
import Ripple.Outline.Drift
import Ripple.Outline.Pattern
import Ripple.Property.Query
import Ripple.Report.Basic
import Ripple.Snapshot.Basic

/-!
# Reporting Changes

Two versions of a file, or two snapshots of a project, are compared and
every difference is reported. A name that is no longer exported makes a
change breaking; a change to what is not public counts less. The declarations
of a file may drift, but drift alone never makes a change breaking.
-/

namespace Ripple

def DetailKind.ofPattern : PatternKind → DetailKind
  | .exportRemoved => exportRemoved
  | .returnTypeChanged => returnTypeChanged
  | .parameterBreaking | .parameterAdditive | .parameterRenamed => parameterChanged
  | .typeDefinitionChanged => typeChanged
  | .signatureChanged => signatureChanged
  | .declarationRemoved | .exportAdded | .declarationAdded => internalChange

/-- The score of something that is not public. -/
def Score.discount : Score → Score
  | .points n => .discounted n
  | s => .measured (s.toFloat * 0.7)

/-- A score that counts less if it is not public. -/
def Score.adjusted (s : Score) (isPublic : Bool) : Score := if isPublic then s else s.discount

def ChangePattern.detail (p : ChangePattern) (isPublic : Bool) : ChangeDetail :=
  ⟨.ofPattern p.kind, p.description, p.before, p.after, [p.symbol], p.risk.adjusted isPublic⟩

namespace Drift

def names (d : Drift) : List String :=
  sortedSet ((d.deleted ++ d.inserted).map (·.name) ++
    d.substituted.flatMap fun (a, b) => [a.name, b.name])

/-- The points that a drift counts: it is never breaking alone, and only added declarations count
no more than an added export. -/
def cappedPoints (d : Drift) : Nat :=
  let capped := min d.points (RiskLevel.breakingThreshold - 1)
  if d.deleted.isEmpty && d.substituted.isEmpty then min capped Points.exportAdded else capped

def describe (d : Drift) : String :=
  "Declaration structure drift: distance " ++ toString d.distance ++ " (" ++
    toString d.inserted.length ++ " inserted, " ++ toString d.deleted.length ++ " deleted, " ++
    toString d.substituted.length ++ " substituted)"

def detail? (d : Drift) (isPublic : String → Bool) : Option ChangeDetail :=
  if d.distance = 0 then none
  else
    some ⟨.internalChange, d.describe, none, none, d.names,
      (Score.points d.cappedPoints).adjusted (d.names.any isPublic)⟩

end Drift

def removedExportDetail (name : String) : ChangeDetail :=
  ⟨.exportRemoved, "Export " ++ quoted name ++ " was removed", some name, none, [name],
    .points Points.exportRemoved⟩

/-- The detail of a change that no declaration shows. -/
def hiddenDetail : ChangeDetail :=
  ⟨.internalChange, "Implementation changed; declarations are structurally identical", none, none,
    [], .zero⟩

/-- Adds to the description of the first detail. -/
def noteFirst (note : String) : List ChangeDetail → List ChangeDetail
  | [] => []
  | d :: rest => { d with description := d.description ++ note } :: rest

/-- The scores of details, weighed by the number of names that they concern. -/
def detailImpact (details : List ChangeDetail) : Float :=
  (details.map fun d => d.affectedSymbols.length.toFloat * d.risk.toFloat / 100.0).foldl
    (· + ·) 0.0

namespace Outline

variable (old new : Outline)

/-- The names that an old version exports and a new one does not. -/
def lostExports : List String :=
  let after := new.exportNames
  old.exportNames.filter fun name => !after.contains name

/-- The details of a modified file before any note. -/
def details (weight : UInt32) : List ChangeDetail :=
  let before := old.exportNames
  let after := new.exportNames
  let isPublic := fun symbol => before.contains symbol || after.contains symbol
  let patterns := (old.diff new).patterns old new
  let covered := (patterns.filter fun p => p.kind = .exportRemoved).map (·.symbol)
  let found := patterns.map (fun p => p.detail (p.exported || isPublic p.symbol)) ++
    ((old.drift new weight).detail? isPublic).toList ++
    ((old.lostExports new).filter fun name => !covered.contains name).map removedExportDetail
  if found.isEmpty then [hiddenDetail] else found

def touchedNames : List String :=
  let diff := old.diff new
  sortedSet (diff.removed.map (·.name) ++ diff.modified.map (·.key.name))

/-- The note on the impact of a change: its size, and how many declarations of other files call
what it touches. -/
def impactNote (details : List ChangeDetail) (graph : Option PropertyGraph) : String :=
  let callers := match graph with
    | some g => (g.externalCallers new.path (old.touchedNames new)).length
    | none => 0
  " (impact score: " ++ Decimal.writeFixed 2 (detailImpact details) ++
    (if callers = 0 then "" else ", " ++ toString callers ++ " external callers") ++ ")"

/-- The report of a modified file, with the points that each step of drift counts. -/
def report (weight : UInt32) (graph : Option PropertyGraph) : ChangeReport :=
  let details := old.details new weight
  let risk := Score.largest (details.map (·.risk))
  { path := new.path
    change := .modified
    level := if (old.lostExports new).isEmpty then .ofScore risk else .breaking
    risk
    details := noteFirst (old.impactNote new details graph) details }

def removedReport (old : Outline) : ChangeReport :=
  let exports := old.exportNames
  if exports.isEmpty then
    let risk := Score.points RiskLevel.riskyThreshold
    ⟨old.path, .removed, .risky, risk,
      [⟨.internalChange,
        "File removed; it exported nothing but may still be imported for side effects", none, none,
        old.declarations.map (·.name), risk⟩]⟩
  else
    let risk := Score.points Points.exportRemoved
    ⟨old.path, .removed, .breaking, risk,
      [⟨.exportRemoved, "File removed along with " ++ toString exports.length ++ " exports", none,
        none, exports, risk⟩]⟩

def addedReport (new : Outline) : ChangeReport :=
  let risk := Score.points Points.declarationAdded
  ⟨new.path, .added, .safe, risk,
    [⟨.internalChange, "File added", none, none, new.exportNames, risk⟩]⟩

end Outline

namespace Snapshot

/-- The report of one path of two snapshots, if it is different. -/
def pathReport? (old new : Snapshot) (weight : UInt32) (graph : Option PropertyGraph)
    (path : String) : Option ChangeReport :=
  let before := old.outlineOf path
  let after := new.outlineOf path
  if !new.paths.contains path then some before.removedReport
  else if !old.paths.contains path then some after.addedReport
  else if before.hash = after.hash then none
  else some (before.report after weight graph)

def reports (old new : Snapshot) (weight : UInt32) (graph : Option PropertyGraph) :
    List ChangeReport :=
  (sortedSet (old.paths ++ new.paths)).filterMap (old.pathReport? new weight graph)

end Snapshot

end Ripple
