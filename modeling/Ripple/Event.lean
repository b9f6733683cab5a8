import Ripple.Risk

/-!
# Events

What happens during analysis is published on a bus. A subscriber gets what is
published after it subscribed, in that order, as far as it asks for it: it may
ask for certain files only, and what concerns no file goes to everyone.

The bus keeps the last events up to its capacity, which is a power of two. A
subscriber that is too slow misses the oldest events and goes on with the
oldest one that is still kept. What is published while nobody listens is not
kept at all.
-/

namespace Ripple

open Json

inductive FileEvent where
  | modified | removed
deriving DecidableEq, Repr

def FileEvent.text : FileEvent → String
  | modified => "modified"
  | removed => "removed"

inductive Event where
  | fileChanged (path : String) (change : FileEvent)
  | snapshotCreated (id : String) (fileCount : UInt64)
  | breakingChange (path : String) (level : RiskLevel) (risk : Score) (id : String)

namespace Event

def kind : Event → String
  | fileChanged .. => "file_changed"
  | snapshotCreated .. => "snapshot_created"
  | breakingChange .. => "breaking_change_detected"

def path? : Event → Option String
  | fileChanged path _ => some path
  | snapshotCreated .. => none
  | breakingChange path .. => some path

def toJson (e : Event) : Json :=
  tagged e.kind
    (match e with
    | fileChanged path change => [("path", .text path), ("change", .text change.text)]
    | snapshotCreated id fileCount =>
      [("snapshot_id", .text id), ("file_count", ofUInt64 fileCount)]
    | breakingChange path level risk id =>
      [("file_path", .text path), ("risk_level", level.toJson), ("risk_score", risk.toJson),
        ("snapshot_id", .text id)])

instance : ToJson Event := ⟨Event.toJson⟩

def change? (j : Json) : Option FileEvent :=
  j.variant?.bind fun s => [FileEvent.modified, .removed].find? fun c => c.text = s

def ofJson? (j : Json) : Option Event := j.tagged?.bind fun (kind, j) =>
  match kind with
  | "file_changed" => j |> record? 2 fun r => do
    return fileChanged (← r.required 0 "path" text?) (← r.required 1 "change" change?)
  | "snapshot_created" => j |> record? 2 fun r => do
    return snapshotCreated (← r.required 0 "snapshot_id" text?)
      (← r.required 1 "file_count" uint64?)
  | "breaking_change_detected" => j |> record? 4 fun r => do
    return breakingChange (← r.required 0 "file_path" text?)
      (← r.required 1 "risk_level" RiskLevel.ofJson?) (← r.required 2 "risk_score" Score.ofJson?)
      (← r.required 3 "snapshot_id" text?)
  | _ => none

instance : OfJson Event := ⟨Event.ofJson?⟩

end Event

structure EventBus where
  capacity : Nat
  /-- The events that are kept, the oldest first. -/
  kept : List Event
  /-- How many events were published in all. -/
  position : Nat
  listeners : Nat

structure Subscriber where
  /-- How many events were published before the next one for it. -/
  next : Nat
  /-- The files that it asks for; all of them if there is no list. -/
  paths : Option (List String)

namespace EventBus

/-- The smallest power of two from a bound on that is not below a number. -/
def powerAbove (n : Nat) : Nat → Nat → Nat
  | 0, power => power
  | fuel + 1, power => if n ≤ power then power else powerAbove n fuel (2 * power)

/-- A bus that keeps at least a number of events. -/
def ofCapacity (capacity : Nat) : EventBus := ⟨powerAbove (max capacity 1) capacity 1, [], 0, 0⟩

def standard : EventBus := ofCapacity 256

variable (b : EventBus)

/-- How many events were published before the oldest one that is kept. -/
def oldest : Nat := b.position - b.kept.length

/-- Publishes an event, and says how many subscribers it goes to. -/
def publish (e : Event) : Nat × EventBus :=
  if b.listeners = 0 then (0, b)
  else
    let kept := b.kept ++ [e]
    (b.listeners,
      { b with kept := kept.drop (kept.length - b.capacity), position := b.position + 1 })

def publishAll (events : List Event) : EventBus :=
  events.foldl (fun b e => (b.publish e).2) b

def subscribe (paths : Option (List String)) : Subscriber × EventBus :=
  (⟨b.position, paths⟩, { b with listeners := b.listeners + 1 })

def unsubscribe : EventBus := { b with listeners := b.listeners - 1 }

end EventBus

/-- What a subscriber sees when it looks at a bus, and how it goes on. -/
inductive Sight where
  | event (e : Event) (next : Subscriber)
  /-- Events that it did not see are no longer kept. -/
  | gap (next : Subscriber)
  | nothing

namespace Subscriber

def wants (s : Subscriber) (e : Event) : Bool :=
  match s.paths, e.path? with
  | some paths, some path => paths.contains path
  | _, _ => true

/-- Looks at the bus once. A subscriber that missed events goes on with the oldest one that is kept,
but does not get it yet. -/
def look (s : Subscriber) (b : EventBus) : Sight :=
  if s.next < b.oldest then .gap { s with next := b.oldest }
  else
    match b.kept[s.next - b.oldest]? with
    | some e => .event e { s with next := s.next + 1 }
    | none => .nothing

variable {s s' : Subscriber} {b : EventBus}

theorem look_eq_gap (h : s.look b = .gap s') :
    s.next < b.oldest ∧ s' = { s with next := b.oldest } := by
  unfold look at h
  split at h
  · next hlt => exact ⟨hlt, (Sight.gap.inj h).symm⟩
  · split at h <;> cases h

theorem look_eq_event {e : Event}
    (h : s.look b = .event e s') : b.oldest ≤ s.next ∧ b.kept[s.next - b.oldest]? = some e ∧
      s' = { s with next := s.next + 1 } := by
  unfold look at h
  split at h
  · cases h
  · next hle =>
    split at h
    · next found hfound =>
      obtain ⟨rfl, rfl⟩ := Sight.event.inj h
      exact ⟨Nat.le_of_not_lt hle, hfound, rfl⟩
    · cases h

/-- How far a subscriber is from the end of what is kept. -/
def ahead (s : Subscriber) (b : EventBus) : Nat := b.oldest + b.kept.length - s.next

theorem ahead_lt_of_gap (h : s.look b = .gap s') : s'.ahead b < s.ahead b := by
  obtain ⟨hlt, rfl⟩ := look_eq_gap h
  simp only [ahead]
  omega

theorem ahead_lt_of_event {e : Event}
    (h : s.look b = .event e s') : s'.ahead b < s.ahead b := by
  obtain ⟨hle, hfound, rfl⟩ := look_eq_event h
  -- What was found stands at a place of what is kept.
  have hplace := (List.getElem?_eq_some_iff.mp hfound).1
  simp only [ahead]
  omega

/-- The next event for a subscriber: it looks until it sees one that it asks for, or nothing. -/
def receive (s : Subscriber) (b : EventBus) : Option Event × Subscriber :=
  match _h : s.look b with
  | .event e s' => if s.wants e then (some e, s') else s'.receive b
  | .gap s' => s'.receive b
  | .nothing => (none, s)
termination_by s.ahead b
decreasing_by
  · exact ahead_lt_of_event _h
  · exact ahead_lt_of_gap _h

theorem ahead_lt_of_receive {e : Event}
    (h : s.receive b = (some e, s')) : s'.ahead b < s.ahead b := by
  fun_induction receive s b with
  | case1 s found next hlook hwants =>
    obtain ⟨-, rfl⟩ := Prod.mk.inj h
    exact ahead_lt_of_event hlook
  | case2 s found next hlook hwants ih => exact Nat.lt_trans (ih h) (ahead_lt_of_event hlook)
  | case3 s next hlook ih => exact Nat.lt_trans (ih h) (ahead_lt_of_gap hlook)
  | case4 => cases h

/-- All events for a subscriber: it receives until it gets none. -/
def drain (s : Subscriber) (b : EventBus) : List Event × Subscriber :=
  match _h : s.receive b with
  | (some e, s') =>
    let (rest, last) := s'.drain b
    (e :: rest, last)
  | (none, s') => ([], s')
termination_by s.ahead b
decreasing_by exact ahead_lt_of_receive _h

end Subscriber

end Ripple
