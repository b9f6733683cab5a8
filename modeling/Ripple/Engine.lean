import Ripple.AdviceLog
import Ripple.Event
import Ripple.Graph.Clusters
import Ripple.Graph.Strength
import Ripple.History.Transfer
import Ripple.History.Upkeep
import Ripple.Property.Build
import Ripple.Report.Compare
import Ripple.Snapshot.Delta
import Ripple.Snapshot.Trend
import Ripple.Tracker

/-!
# The Engine

One engine serves one project. Scans, snapshots and analyses change what is
stored; all else answers questions about what is stored, or about the project
as it is, and stores nothing.

Operations take a `Scene`, which is all they see of the outside, and work on
the engine and a store together.
-/

namespace Ripple

open Json

/-- What is kept in memory for a project. -/
structure Engine where
  root : String
  config : Config
  tracker : Tracker
  events : EventBus
  /-- A property graph, with the id of its snapshot. -/
  property : Option (String × PropertyGraph)

structure Health where
  root : String
  trackedFiles : Nat
  snapshotCount : Nat
  latest : Option String

structure Analysis where
  outcome : TrackOutcome
  reports : List ChangeReport

structure FileDetails where
  record : FileRecord
  outline : Option Outline

/-- What it would take to go back to a snapshot. -/
structure RestorePreview where
  snapshotId : String
  /-- Files that are only in the snapshot. -/
  added : List String
  /-- Files that are not in the snapshot. -/
  removed : List String
  /-- Files with other content. -/
  modified : List String
deriving DecidableEq, Repr

def Health.toJson (h : Health) : Json :=
  .object
    ([("status", .text "ok"), ("root", .text h.root), ("tracked_files", ofNat h.trackedFiles),
        ("snapshot_count", ofNat h.snapshotCount)] ++ field? "latest_snapshot" .text h.latest)

instance : ToJson Health := ⟨Health.toJson⟩

def Analysis.toJson (a : Analysis) : Json :=
  .object (a.outcome.fields ++ [("reports", .list (a.reports.map ChangeReport.toJson))])

instance : ToJson Analysis := ⟨Analysis.toJson⟩

def FileDetails.toJson (d : FileDetails) : Json :=
  .object ([("metadata", d.record.toJson)] ++ field? "ast" Outline.toJson d.outline)

instance : ToJson FileDetails := ⟨FileDetails.toJson⟩

def RestorePreview.toJson (p : RestorePreview) : Json :=
  .object
    [("snapshot_id", .text p.snapshotId), ("added", ofTexts p.added),
      ("removed", ofTexts p.removed), ("modified", ofTexts p.modified)]

instance : ToJson RestorePreview := ⟨RestorePreview.toJson⟩

/-- What it would take to go from one set of files back to another. -/
def RestorePreview.between (id : String) (target current : Dict String FileRecord) :
    RestorePreview where
  snapshotId := id
  added := target.keys.filter fun path => !current.contains path
  removed := current.keys.filter fun path => !target.contains path
  modified := target.keys.filter fun path =>
    match target.get? path, current.get? path with
    | some old, some new => old.hash ≠ new.hash
    | _, _ => false

namespace Engine

variable {σ : Type} [BlobStore σ]

def ofStore (scene : Scene) (store : σ) (root : String) (config : Config) : Engine :=
  ⟨root, config, .ofStore scene store root config, .standard, none⟩

/-- A job on what is kept between snapshots. -/
def onTracker {α : Type} (job : Job (Tracker × σ) α) : Job (Engine × σ) α :=
  Job.inside tracker (fun e t => { e with tracker := t }) job

def look {α : Type} (read : σ → Except Error α) : Job (Engine × σ) α :=
  Job.onSecond (Job.inspect read)

def publish (events : List Event) : Job (Engine × σ) Unit :=
  modify fun (e, s) => ({ e with events := e.events.publishAll events }, s)

def health (e : Engine) (store : σ) : Except Error Health := do
  let ids ← History.ids store
  return ⟨e.root, e.tracker.indexer.files.size, ids.length, ids.getLast?⟩

/-! ## Operations that store -/

def scan (scene : Scene) : Job (Engine × σ) Nat := onTracker (Tracker.scan scene)

def createdEvent (s : Snapshot) : Event := .snapshotCreated s.id (.ofNat s.files.size)

def createSnapshot (scene : Scene) : Job (Engine × σ) Snapshot := do
  let s ← onTracker (Tracker.takeSnapshot scene)
  publish [createdEvent s]
  return s

/-- The event of a file that is named as changed. -/
def changedEvent? (scene : Scene) (root path : String) : Option Event :=
  let path := Path.join root path
  (Path.relative? root path).map fun relative =>
    let isThere := match Path.segmentsBelow? root path with
      | some segments => !((splitText '/' path).getLastD "" ∈ ["", "."]) &&
        scene.tree.isFileAt (Path.ofSegments segments)
      | none => false
    .fileChanged relative (if isThere then .modified else .removed)

/-- The event of a report of something that breaks. -/
def breakingEvent? (id : String) (r : ChangeReport) : Option Event :=
  if r.isBreaking then some (.breakingChange r.path r.level r.risk id) else none

/-- What changed in a new snapshot against the one before. -/
def analyzeSnapshot (previousId : String) (current : Snapshot) :
    Job (Engine × σ) (List ChangeReport) := do
  let previous ← look fun s => History.load s previousId
  let graph := PropertyGraph.build current.outlines current.graph
  let reports := previous.reports current (← get).1.config.driftWeight (some graph)
  publish (reports.filterMap (breakingEvent? current.id))
  modify fun (e, s) => ({ e with property := some (current.id, graph) }, s)
  return reports

/-- Looks at some files, and says what changed. -/
def analyze (scene : Scene) (changed : List String) : Job (Engine × σ) Analysis := do
  let e := (← get).1
  publish (changed.filterMap (changedEvent? scene e.root))
  let outcome ← onTracker (Tracker.track scene changed)
  if !outcome.created then return ⟨outcome, []⟩
  else
    let current ← look fun s => History.load s outcome.snapshotId
    publish [createdEvent current]
    match outcome.previousId with
    | none => return ⟨outcome, []⟩
    | some previousId => return ⟨outcome, ← analyzeSnapshot previousId current⟩

def maintain (scene : Scene) : Job (Engine × σ) UpkeepReport := do
  let c := (← get).1.config
  Job.onSecond (History.maintain c.retention c.compressAfterHours scene.now)

/-! ## Questions about the import graph -/

def importGraph : Job (Engine × σ) ImportGraph := do
  let (e, s) ← get
  let cache := GraphCache.current e.tracker.graph s
  set ({ e with tracker := { e.tracker with graph := cache } }, s)
  return cache.getD .empty

def clusters : Job (Engine × σ) (Dict String (List String)) := do
  let g ← importGraph
  return g.clusters (← get).1.config.clusterMinSize.toNat

def impact (changed : List String) (depthFirst : Bool) : Job (Engine × σ) Impact := do
  let g ← importGraph
  let c := (← get).1.config
  return g.impact c.weights c.maxDepth.toNat changed depthFirst true

def fileImpact (path : String) : Job (Engine × σ) FileImpact := do
  let g ← importGraph
  let c := (← get).1.config
  match g.fileImpact? c.weights c.maxDepth.toNat path with
  | some i => return i
  | none => throw (.fileNotFound path)

def fileDetails (e : Engine) (store : σ) (path : String) : Except Error FileDetails :=
  match e.tracker.indexer.files.get? path with
  | none => .error (.fileNotFound path)
  | some record =>
    .ok ⟨record, Store.readJson? Outline.ofJson? store (Keys.outline path)⟩

/-! ## Questions about the history -/

def breakingChanges (e : Engine) (scene : Scene) (store : σ) : Except Error (List ChangeReport) := do
  match ← History.latest store with
  | none => return []
  | some latest =>
    let current := e.tracker.preview scene
    let graph := PropertyGraph.build current.outlines current.graph
    return latest.reports current e.config.driftWeight (some graph)

def compare (e : Engine) (store : σ) (firstId secondId : String) :
    Except Error (List ChangeReport) := do
  let first ← History.load store firstId
  let second ← History.load store secondId
  return first.reports second e.config.driftWeight none

def delta (store : σ) (firstId secondId : String) : Except Error Delta := do
  let first ← History.load store firstId
  let second ← History.load store secondId
  return first.delta second

def trend (store : σ) : Except Error TrendReport :=
  (History.loadAll store).map TrendReport.ofSnapshots

def restorePreview (e : Engine) (scene : Scene) (store : σ) (id : String) :
    Except Error RestorePreview := do
  let target ← History.load store id
  return .between target.id target.files (e.tracker.preview scene).files

/-! ## The property graph -/

/-- The property graph of a snapshot, or the one in memory if it is for the same id. -/
def propertyGraphOf (e : Engine) (s : Snapshot) : PropertyGraph :=
  match e.property with
  | some (id, g) => if id = s.id then g else .build s.outlines s.graph
  | none => .build s.outlines s.graph

def propertyGraph : Job (Engine × σ) PropertyGraph := do
  match ← look fun s => History.latest s with
  | none => throw (.snapshotNotFound "latest")
  | some latest =>
    let (e, s) ← get
    let g := e.propertyGraphOf latest
    set ({ e with property := some (latest.id, g) }, s)
    return g

/-! ## Advice -/

/-- The advice on some reports, which is also added to the log if possible. -/
def annotate (a : Adviser) (now : Int64) (reports : List ChangeReport) :
    Job (Engine × σ) (List Advisory) := do
  let entries := a.onReports now reports
  Job.onSecond (Job.ignoringFailure (AdviceLog.append entries))
  return entries

/-- The advice in the log, on one file if it is named. -/
def advisories (store : σ) (path : Option String) : List Advisory :=
  match path with
  | some path => AdviceLog.onFile store path
  | none => AdviceLog.all store

/-! ## Version control -/

/-- The files of the project that version control reports as changed. -/
def changedFiles (root : String) (git : Git) (base : Option String) :
    Except Error (List ChangedFile) := do
  git.check
  let top ← git.topDirectory
  return (← git.changedFiles base).filterMap fun f =>
    (Path.relative? root (Path.join top f.path)).map fun path => { f with path := path }

def fileDiff (git : Git) (path : String) (base : Option String) : Except Error String := do
  git.check
  git.fileDiff path base

end Engine

end Ripple
