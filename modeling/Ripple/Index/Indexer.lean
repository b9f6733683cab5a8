import Ripple.FileTree.Walk
import Ripple.Index.Registry
import Ripple.Snapshot.Codec

/-!
# The Index of a Project

What is known of each file, together with the time of its last change. A scan
looks at all files of a project and starts afresh. A pass looks only at the
files that are named: one whose time did not move is taken as unchanged, one
whose content did not change is not counted, and one that is gone is dropped.

The index is stored in three parts: the list of files, then their digests,
then their times. Stored times only save work, so an interruption between two
parts costs no more than looking at some files again.
-/

namespace Ripple

open Json

structure Indexer where
  root : String
  rules : IgnoreRules
  registry : HashRegistry
  files : Dict String FileRecord
  times : Dict String Int64

structure IndexOutcome where
  updated : List String
  removed : List String
  unchanged : List String
deriving DecidableEq, Repr

namespace IndexOutcome

def changed (o : IndexOutcome) : List String := o.updated ++ o.removed

def isNoop (o : IndexOutcome) : Bool := o.updated.isEmpty && o.removed.isEmpty

def toJson (o : IndexOutcome) : Json :=
  .object
    [("updated", ofTexts o.updated), ("removed", ofTexts o.removed),
      ("unchanged", ofTexts o.unchanged)]

instance : ToJson IndexOutcome := ⟨IndexOutcome.toJson⟩

end IndexOutcome

/-- The number of lines of some bytes; a line break at the end begins no further line. -/
def lineCount (bytes : ByteArray) : Nat :=
  let bytes := bytes.data.toList
  match bytes.getLast? with
  | none => 0
  | some last => bytes.count 10 + if last = 10 then 0 else 1

def fileRecord (kind : DigestKind) (path : String) (content : ByteArray) (modified now : Int64) :
    FileRecord where
  path := path
  hash := kind.digest content
  size := .ofNat content.size
  lineCount := .ofNat (lineCount content)
  language := (languageTag? path).getD "unknown"
  lastModified := modified
  indexedAt := now

structure IndexPass where
  indexer : Indexer
  outcome : IndexOutcome
  filesDirty : Bool
  timesDirty : Bool

namespace IndexPass

def start (ix : Indexer) : IndexPass := ⟨ix, ⟨[], [], []⟩, false, false⟩

/-- Notes that a file is as it was. -/
def keep (p : IndexPass) (path : String) : IndexPass :=
  { p with outcome := { p.outcome with unchanged := p.outcome.unchanged ++ [path] } }

def drop (p : IndexPass) (path : String) : IndexPass :=
  let ix := p.indexer
  let timesDirty := p.timesDirty || ix.times.contains path
  let times := ix.times.erase path
  if ix.files.contains path then
    { indexer :=
        { ix with
          files := ix.files.erase path, registry := ix.registry.remove path, times := times }
      outcome := { p.outcome with removed := p.outcome.removed ++ [path] }
      filesDirty := true
      timesDirty := timesDirty }
  else { p with indexer := { ix with times := times }, timesDirty := timesDirty }

/-- Takes in a file with its content and time. -/
def take (p : IndexPass) (path : String) (content : ByteArray) (modified now : Int64) : IndexPass :=
  let ix := p.indexer
  let isKnown := ix.files.contains path
  if isKnown && ix.times.get? path = some modified then p.keep path
  else
    let record := fileRecord ix.registry.kind path content modified now
    let times := ix.times.insert path modified
    if isKnown && !ix.registry.hasChanged path record.hash then
      { p with indexer := { ix with times := times }, timesDirty := true }.keep path
    else
      { indexer :=
          { ix with
            files := ix.files.insert path record
            registry := ix.registry.update path record.hash
            times := times }
        outcome := { p.outcome with updated := p.outcome.updated ++ [path] }
        filesDirty := true
        timesDirty := true }

def visitPath (tree : FileTree) (now : Int64) (p : IndexPass) (path : String) : IndexPass :=
  match tree.file? path with
  | none => p.drop path
  | some (content, modified) =>
    if p.indexer.rules.tracks path then p.take path content modified now else p

/-- Looks at one file; what lies outside the project is passed over. -/
def visit (tree : FileTree) (now : Int64) (p : IndexPass) (candidate : String) : IndexPass :=
  match Path.relative? p.indexer.root candidate with
  | none => p
  | some path => p.visitPath tree now path

end IndexPass

namespace Indexer

variable {σ : Type} [BlobStore σ]

def ofStore (store : σ) (root : String) (rules : IgnoreRules) (kind : DigestKind) : Indexer where
  root := root
  rules := rules
  registry := .ofStore store kind
  files := (Store.readJson? (dictOf? FileRecord.ofJson?) store Keys.files).getD .empty
  times := (Store.readJson? (dictOf? int64?) store Keys.times).getD .empty

def scanned (ix : Indexer) (tree : FileTree) (now : Int64) : Indexer :=
  let records := (tree.walk ix.rules).map fun f =>
    fileRecord ix.registry.kind f.path f.content (FileTree.timeOf f.modified) now
  let files := Dict.ofList (records.map fun r => (r.path, r))
  let registry := records.foldl (fun reg r => reg.update r.path r.hash) ix.registry
  { ix with
    files := files
    times := Dict.ofList (records.map fun r => (r.path, r.lastModified))
    registry := registry.retain files.contains }

def passed (ix : Indexer) (tree : FileTree) (now : Int64) (changed : List String) : IndexPass :=
  changed.foldl (IndexPass.visit tree now) (.start ix)

def storeFiles : Job (Indexer × σ) Unit := do
  let ix := (← get).1
  Job.onSecond (Store.writeJson Keys.files (ofDict FileRecord.toJson ix.files))
  Job.inside registry (fun ix r => { ix with registry := r }) HashRegistry.save

def storeTimes : Job (Indexer × σ) Unit := do
  let ix := (← get).1
  Job.onSecond (Store.writeJson Keys.times (ofDict ofInt64 ix.times))

def scan (tree : FileTree) (now : Int64) : Job (Indexer × σ) Unit := do
  modify fun s => (s.1.scanned tree now, s.2)
  storeFiles
  storeTimes

def pass (tree : FileTree) (now : Int64) (changed : List String) :
    Job (Indexer × σ) IndexOutcome := do
  let p := (← get).1.passed tree now changed
  modify fun s => (p.indexer, s.2)
  if p.filesDirty then storeFiles
  if p.timesDirty then storeTimes
  return p.outcome

/-- Both parts are stored one after the other, and a part that is not marked is left out. -/
theorem pass_eq (tree : FileTree) (now : Int64) (changed : List String) :
    (pass tree now changed : Job (Indexer × σ) IndexOutcome) = do
      let p := (← get).1.passed tree now changed
      modify fun s => (p.indexer, s.2)
      (if p.filesDirty = true then storeFiles else pure ())
      (if p.timesDirty = true then storeTimes else pure ())
      return p.outcome := by
  refine bind_congr fun s => bind_congr fun _ => ?_
  cases (s.1.passed tree now changed).filesDirty <;>
    cases (s.1.passed tree now changed).timesDirty <;> rfl

end Indexer

end Ripple
