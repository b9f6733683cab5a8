import Ripple.Graph.Blast
import Ripple.Graph.Cache
import Ripple.History.Basic
import Ripple.Index.Indexer
import Ripple.Version

/-!
# Taking Snapshots

A snapshot is taken of all files, or of those that are named as changed: then
their outlines and those of all files that depend on them are made afresh and
the rest is taken from the snapshot before. Every stored snapshot is complete
either way.

The id of a new snapshot comes after those of all others, even if the clock
went back.
-/

namespace Ripple

open Json

/-- What the outside looks like at one time. -/
structure Scene where
  tree : FileTree
  git : Git
  now : Int64
  /-- What tells apart the ids of snapshots of one time. -/
  salt : String

structure Tracker where
  indexer : Indexer
  graph : GraphCache
  maxDepth : Nat
  versioned : Bool

/-- What came of looking at changed files. -/
structure TrackOutcome where
  snapshotId : String
  previousId : Option String
  fullScan : Bool
  created : Bool
  updated : List String
  removed : List String
  /-- Files that depend on those. -/
  impacted : List String
  /-- Files met again on the way to them. -/
  circular : List String
deriving DecidableEq, Repr

def TrackOutcome.fields (o : TrackOutcome) : List (String × Json) :=
  [("snapshot_id", .text o.snapshotId)] ++ field? "previous_id" .text o.previousId ++
    [("full_scan", .bool o.fullScan), ("created", .bool o.created),
      ("updated", ofTexts o.updated), ("removed", ofTexts o.removed),
      ("impacted", ofTexts o.impacted), ("circular", ofTexts o.circular)]

def outlinesOf (tree : FileTree) (files : Dict String FileRecord) : Dict String Outline :=
  files.map fun path record => Outline.ofTreeFile tree path record.hash

def textLineCount (content : ByteArray) : Nat := (textLines (lossyText content)).length

namespace Tracker

variable {σ : Type} [BlobStore σ]

def ofStore (scene : Scene) (store : σ) (root : String) (config : Config) : Tracker where
  indexer := .ofStore store root (.ofTree config.ignoreDirs scene.tree) config.digest
  graph := none
  maxDepth := config.maxDepth.toNat
  versioned := scene.git.isPresent

def onIndexer {α : Type} (job : Job (Indexer × σ) α) : Job (Tracker × σ) α :=
  Job.inside indexer (fun t ix => { t with indexer := ix }) job

def onGraph {α : Type} (job : Job (GraphCache × σ) α) : Job (Tracker × σ) α :=
  Job.inside graph (fun t g => { t with graph := g }) job

def scan (scene : Scene) : Job (Tracker × σ) Nat := do
  onIndexer (Indexer.scan scene.tree scene.now)
  return (← get).1.indexer.files.size

def saveOutlines : List Outline → Job σ Unit
  | [] => return ()
  | o :: rest => do
    Store.writeJson (Keys.outline o.path) o.toJson
    saveOutlines rest

def removeOutlines : List String → Job σ Unit
  | [] => return ()
  | path :: rest => do
    let _ ← Store.delete (Keys.outline path)
    removeOutlines rest

/-- Removes the outlines of files that were in the newest snapshot and are gone. -/
def removeStale (files : Dict String FileRecord) : Job σ Unit := do
  match ← Job.inspect fun s => History.latest s with
  | none => return ()
  | some previous => removeOutlines (previous.outlines.keys.filter fun path => !files.contains path)

/-- The time of a new snapshot: now, but after the time of the newest id. -/
def timeAfter (ids : List String) (now : Int64) : Int64 :=
  let floor := match ids.getLast?.bind Snapshot.idTime? with
    | some time => time + 1
    | none => 0
  if now < floor then floor else now

variable (scene : Scene)

def noteCommit (versioned : Bool) (id : String) : Job σ Unit :=
  match versioned, scene.git.headCommit with
  | true, .ok commit =>
    Job.ignoringFailure (History.saveNotes { SnapshotNotes.none id with commit := some commit })
  | _, _ => return ()

/-- Stores a snapshot of files and outlines with its graph. -/
def finish (files : Dict String FileRecord) (outlines : Dict String Outline) :
    Job (Tracker × σ) Snapshot := do
  let t := (← get).1
  let graph := ImportGraph.build outlines t.maxDepth
  onGraph (GraphCache.save graph)
  Job.onSecond do
    let time := timeAfter (← Job.inspect fun s => History.ids s) scene.now
    let s : Snapshot := ⟨Snapshot.makeId time scene.salt, time, files, outlines, graph⟩
    History.save s
    noteCommit scene t.versioned s.id
    return s

def takeSnapshot : Job (Tracker × σ) Snapshot := do
  onIndexer (Indexer.scan scene.tree scene.now)
  let files := (← get).1.indexer.files
  let outlines := outlinesOf scene.tree files
  Job.onSecond (saveOutlines outlines.values)
  Job.onSecond (removeStale files)
  finish scene files outlines

/-- The files whose outlines are made afresh. -/
def affected (files : Dict String FileRecord) (outcome : IndexOutcome) (impacted : List String) :
    Dict String FileRecord :=
  Dict.ofList ((outcome.updated ++ impacted).filterMap fun path =>
    (files.get? path).map (Prod.mk path))

/-- Takes a snapshot after changes to the one before. -/
def trackFrom (previous : Snapshot) (outcome : IndexOutcome) : Job (Tracker × σ) TrackOutcome := do
  let t := (← get).1
  let impact := impactSet previous.graph outcome.changed t.maxDepth
  let files := t.indexer.files
  Job.onSecond (removeOutlines outcome.removed)
  let fresh := outlinesOf scene.tree (affected files outcome impact.impacted)
  Job.onSecond (saveOutlines fresh.values)
  let outlines := (previous.outlines.insertAll fresh.toList).filter fun path _ =>
    files.contains path
  let s ← finish scene files outlines
  return ⟨s.id, some previous.id, false, true, outcome.updated, outcome.removed,
    impact.impacted, impact.circular⟩

def track (changed : List String) : Job (Tracker × σ) TrackOutcome := do
  match ← Job.onSecond (Job.inspect fun s => History.latest s) with
  | none =>
    let s ← takeSnapshot scene
    return ⟨s.id, none, true, true, s.files.keys, [], [], []⟩
  | some previous =>
    let outcome ← onIndexer (Indexer.pass scene.tree scene.now changed)
    if outcome.isNoop then
      return ⟨previous.id, some previous.id, false, false, [], [], [], []⟩
    else trackFrom scene previous outcome

def previewFiles (ix : Indexer) (scene : Scene) : Dict String FileRecord :=
  Dict.ofList ((scene.tree.walk ix.rules).map fun f =>
    (f.path,
      { fileRecord ix.registry.kind f.path f.content 0 scene.now with
        lineCount := .ofNat (textLineCount f.content) }))

def preview (t : Tracker) (scene : Scene) : Snapshot :=
  let files := previewFiles t.indexer scene
  let outlines := outlinesOf scene.tree files
  ⟨"working-tree", scene.now, files, outlines, ImportGraph.build outlines t.maxDepth⟩

end Tracker

end Ripple
