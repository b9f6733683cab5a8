import Ripple.Digest.Basic
import Ripple.Graph.Impact
import Ripple.Toml.Document

/-!
# Configuration

The settings of a project. Every setting has a value to fall back on, so a
configuration names only what it changes.
-/

namespace Ripple

open Json

/-- How long snapshots are kept. -/
structure Retention where
  maxCount : Option UInt64
  maxAgeDays : Option Int64
  keepTagged : Bool
deriving DecidableEq, Repr

def Retention.standard : Retention := ⟨some 50, some 30, true⟩

structure Config where
  /-- The directory of the store, below the project unless it is absolute. -/
  storageDir : String
  digest : DigestKind
  ignoreDirs : List String
  weights : Weights
  clusterMinSize : UInt64
  driftWeight : UInt32
  retention : Retention
  compressAfterHours : Int64
  maxDepth : UInt64

namespace Weights

def toJson (w : Weights) : Json :=
  .object
    [("direct", .float w.direct), ("circular", .float w.circular),
      ("transitive", .float w.transitive)]

def ofJson? : Json → Option Weights := record? 3 fun r => do
  let direct ← r.withDefault 0 "direct" float? standard.direct
  let circular ← r.withDefault 1 "circular" float? standard.circular
  let transitive ← r.withDefault 2 "transitive" float? standard.transitive
  return ⟨direct, circular, transitive⟩

instance : OfJson Weights := ⟨Weights.ofJson?⟩

end Weights

namespace Retention

def toJson (r : Retention) : Json :=
  .object
    [("max_count", ofOption ofUInt64 r.maxCount), ("max_age_days", ofOption ofInt64 r.maxAgeDays),
      ("keep_tagged", .bool r.keepTagged)]

def ofJson? : Json → Option Retention := record? 3 fun r => do
  let maxCount ← r.withDefault 0 "max_count" (nullable? uint64?) standard.maxCount
  let maxAgeDays ← r.withDefault 1 "max_age_days" (nullable? int64?) standard.maxAgeDays
  let keepTagged ← r.withDefault 2 "keep_tagged" bool? standard.keepTagged
  return ⟨maxCount, maxAgeDays, keepTagged⟩

instance : OfJson Retention := ⟨Retention.ofJson?⟩

end Retention

namespace Config

def standard : Config where
  storageDir := ".code-impact"
  digest := .sha256
  ignoreDirs := []
  weights := .standard
  clusterMinSize := 2
  driftWeight := 10
  retention := .standard
  compressAfterHours := 24
  maxDepth := 64

def toJson (c : Config) : Json :=
  .object
    [("storage_dir", .text c.storageDir), ("hash_algorithm", .text c.digest.text),
      ("ignore_dirs", ofTexts c.ignoreDirs), ("impact_weights", c.weights.toJson),
      ("cluster_min_size", ofUInt64 c.clusterMinSize),
      ("control_flow_edit_weight", ofNat c.driftWeight.toNat),
      ("retention", c.retention.toJson), ("compress_after_hours", ofInt64 c.compressAfterHours),
      ("max_traversal_depth", ofUInt64 c.maxDepth)]

instance : ToJson Config := ⟨Config.toJson⟩

def ofJson? : Json → Option Config := record? 9 fun r => do
  let storageDir ← r.withDefault 0 "storage_dir" text? standard.storageDir
  let digest ← r.withDefault 1 "hash_algorithm" (fun j => j.variant?.bind DigestKind.ofText?)
    standard.digest
  let ignoreDirs ← r.withDefault 2 "ignore_dirs" texts? standard.ignoreDirs
  let weights ← r.withDefault 3 "impact_weights" Weights.ofJson? standard.weights
  let clusterMinSize ← r.withDefault 4 "cluster_min_size" uint64? standard.clusterMinSize
  let driftWeight ← r.withDefault 5 "control_flow_edit_weight" uint32? standard.driftWeight
  let retention ← r.withDefault 6 "retention" Retention.ofJson? standard.retention
  let compressAfterHours ←
    r.withDefault 7 "compress_after_hours" int64? standard.compressAfterHours
  let maxDepth ← r.withDefault 8 "max_traversal_depth" uint64? standard.maxDepth
  return ⟨storageDir, digest, ignoreDirs, weights, clusterMinSize, driftWeight, retention,
    compressAfterHours, maxDepth⟩

instance : OfJson Config := ⟨Config.ofJson?⟩

def ofToml? (source : String) : Option Config :=
  (Toml.document? source).bind fun t => ofJson? t.toJson

def storagePath (c : Config) (root : String) : String := Path.join root c.storageDir

end Config

end Ripple
