import Ripple.Snapshot.Basic
import Ripple.Json.Basic

/-!
# Trends

How a project develops over a series of snapshots. Each snapshot is measured
by some numbers; a series of numbers rises or falls if the mean of its second
half differs from that of its first half by more than a tenth. A number that
stands out from those right before it is a regression.
-/

namespace Ripple

open Json

inductive Direction where
  | increasing | decreasing | stable
deriving DecidableEq, Repr

def Direction.text : Direction → String
  | increasing => "increasing"
  | decreasing => "decreasing"
  | stable => "stable"

inductive Severity where
  | low | medium | high
deriving DecidableEq, Repr

def Severity.text : Severity → String
  | low => "low"
  | medium => "medium"
  | high => "high"

inductive Measure where
  | complexity | circles | dependencies
deriving DecidableEq, Repr

def Measure.text : Measure → String
  | complexity => "complexity"
  | circles => "risk"
  | dependencies => "dependencies"

structure Metrics where
  snapshotId : String
  timestamp : Int64
  fileCount : Nat
  functionCount : Nat
  totalLines : UInt64
  /-- The number of functions, weighed by the length of the files. -/
  complexity : Float
  dependencyCount : Nat
  circularCount : Nat

structure Regression where
  snapshotId : String
  measure : Measure
  value : Float
  threshold : Float
  severity : Severity

variable (values : List Float)

def floatSum : Float := values.foldl (· + ·) 0.0

def mean : Float :=
  if values.isEmpty then 0.0 else floatSum values / values.length.toFloat

def deviation : Float :=
  if values.length < 2 then 0.0
  else
    let m := mean values
    (floatSum (values.map fun v => (v - m) * (v - m)) / values.length.toFloat).sqrt

/-- The relative change below which a series is stable. -/
def noiseThreshold : Float := 0.1

def direction : Direction :=
  if values.length < 2 then .stable
  else
    let first := mean (values.take (values.length / 2))
    let second := mean (values.drop (values.length / 2))
    if first == 0.0 then
      if second > 0.0 then .increasing else .stable
    else
      let change := (second - first) / first.abs
      if change > noiseThreshold then .increasing
      else if change < -noiseThreshold then .decreasing
      else .stable

/-- How far a number stands out above a threshold. -/
def severityOf (value threshold : Float) : Severity :=
  if threshold ≤ 0.0 then .high
  else
    let excess := (value - threshold) / threshold
    if excess ≤ 0.25 then .low else if excess ≤ 0.5 then .medium else .high

/-- The most numbers that a number is compared with. -/
def maxWindow : Nat := 5

/-- The numbers of a snapshot that stand out from those of the snapshots right before it. -/
def regressionsAt (past : List Metrics) (m : Metrics) : List Regression :=
  let found (measure : Measure) (value threshold : Float) : Regression :=
    ⟨m.snapshotId, measure, value, threshold, severityOf value threshold⟩
  let complexities := past.map (·.complexity)
  let complexLimit := mean complexities + 2.0 * deviation complexities
  let circular := m.circularCount.toFloat
  let circularLimit := mean (past.map (·.circularCount.toFloat)) * 1.5
  let counts := past.map (·.dependencyCount.toFloat)
  let dependencies := m.dependencyCount.toFloat
  let previous := counts.getLast?.getD 0.0
  let allowed := 0.2 * mean counts
  (if m.complexity > complexLimit then [found .complexity m.complexity complexLimit] else []) ++
    (if circular > circularLimit then [found .circles circular circularLimit] else []) ++
    (if dependencies - previous > allowed then
      [found .dependencies dependencies (previous + allowed)]
    else [])

def regressions (metrics : List Metrics) : List Regression :=
  let window := min maxWindow (metrics.length / 2)
  if window = 0 then []
  else
    (metrics.drop window).zipIdx.flatMap fun (m, i) =>
      regressionsAt ((metrics.drop i).take window) m

def Metrics.ofSnapshot (s : Snapshot) : Metrics :=
  let average : Float :=
    if s.files.isEmpty then 0.0 else s.totalLines.toFloat / s.files.size.toFloat
  { snapshotId := s.id
    timestamp := s.timestamp
    fileCount := s.files.size
    functionCount := s.functionCount
    totalLines := s.totalLines
    complexity := s.functionCount.toFloat * (1.0 + average / 100.0)
    dependencyCount := s.graph.edgeCount
    circularCount := s.graph.cycles.length }

def hourMillis : Float := 3600000.0

/-- The number of files that are different in two snapshots. -/
def changesBetween (a b : Snapshot) : Nat :=
  (a.files.keys.filter fun p => !b.files.contains p).length +
    (b.files.toList.filter fun (p, f) =>
      match a.files.get? p with
      | some old => old.hash ≠ f.hash
      | none => true).length

/-- The number of changed files per hour over a series of snapshots. -/
def changeFrequency (ordered : List Snapshot) : Float :=
  match ordered.head?, ordered.getLast? with
  | some first, some last =>
    let hours := (last.timestamp - first.timestamp).toFloat / hourMillis
    if hours ≤ 0.0 then 0.0
    else (total (fun (a, b) => changesBetween a b) (ordered.zip ordered.tail)).toFloat / hours
  | _, _ => 0.0

structure TrendReport where
  metrics : List Metrics
  complexityTrend : Direction
  fileCountTrend : Direction
  dependencyGrowth : Int
  dependencyTrend : Direction
  /-- The number of changed files per hour. -/
  changeFrequency : Float
  circularTrend : Direction
  regressions : List Regression

/-- Whether a snapshot comes before another, by time and then by id. -/
def Snapshot.notAfter (a b : Snapshot) : Bool :=
  a.timestamp < b.timestamp || (a.timestamp = b.timestamp && !(b.id < a.id))

def TrendReport.ofSnapshots (snapshots : List Snapshot) : TrendReport :=
  let ordered := snapshots.mergeSort Snapshot.notAfter
  let metrics := ordered.map Metrics.ofSnapshot
  { metrics
    complexityTrend := direction (metrics.map (·.complexity))
    fileCountTrend := direction (metrics.map (·.fileCount.toFloat))
    dependencyGrowth :=
      match metrics.head?, metrics.getLast? with
      | some first, some last => (last.dependencyCount : Int) - first.dependencyCount
      | _, _ => 0
    dependencyTrend := direction (metrics.map (·.dependencyCount.toFloat))
    changeFrequency := Ripple.changeFrequency ordered
    circularTrend := direction (metrics.map (·.circularCount.toFloat))
    regressions := Ripple.regressions metrics }

def Metrics.toJson (m : Metrics) : Json :=
  .object
    [("snapshot_id", .text m.snapshotId), ("timestamp", ofInt64 m.timestamp),
      ("file_count", ofNat m.fileCount), ("function_count", ofNat m.functionCount),
      ("total_lines", ofUInt64 m.totalLines), ("complexity", .float m.complexity),
      ("dependency_count", ofNat m.dependencyCount), ("circular_count", ofNat m.circularCount)]

def Regression.toJson (r : Regression) : Json :=
  .object
    [("snapshot_id", .text r.snapshotId), ("metric", .text r.measure.text),
      ("value", .float r.value), ("threshold", .float r.threshold),
      ("severity", .text r.severity.text)]

instance : ToJson Regression := ⟨Regression.toJson⟩

def TrendReport.toJson (t : TrendReport) : Json :=
  .object
    [("snapshot_count", ofNat t.metrics.length), ("metrics", .list (t.metrics.map Metrics.toJson)),
      ("complexity_trend", .text t.complexityTrend.text),
      ("file_count_trend", .text t.fileCountTrend.text),
      ("dependency_growth", .int t.dependencyGrowth),
      ("dependency_trend", .text t.dependencyTrend.text),
      ("change_frequency", .float t.changeFrequency),
      ("circular_trend", .text t.circularTrend.text),
      ("regressions", .list (t.regressions.map Regression.toJson))]

instance : ToJson TrendReport := ⟨TrendReport.toJson⟩

end Ripple
