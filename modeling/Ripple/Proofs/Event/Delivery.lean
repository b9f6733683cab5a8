import Mathlib.Data.List.Infix
import Ripple.Event

/-!
# The Delivery of Events

What a subscriber gets is told by where it stands in the sequence of all events
that were published. Since it subscribed, there is a part of this sequence that
it passed by with gaps, then a part that it saw without any, and then what is
still ahead of it. A `Course` names these parts. To look at the bus moves one
event from what is ahead to what was seen, or, if the next event is no longer
kept, makes all of it a part with gaps and starts anew at the oldest event that
is kept. So a part with gaps has as many events after it as the bus can keep.

Nothing else moves these parts but an event that is published, which comes last.
Other subscribers come, read and leave without any effect on a subscriber, except
that as long as there is one the bus takes every event.
-/

namespace Ripple

open List

/-- An event is for those who ask for certain files, or for all of them: it names no file, or one
    of these. -/
def Event.concerns (paths : Option (List String)) (e : Event) : Bool :=
  paths.all fun asked => e.path?.all asked.contains

theorem Subscriber.wants_eq (s : Subscriber) (e : Event) : s.wants e = e.concerns s.paths := by
  unfold Subscriber.wants Event.concerns
  cases s.paths with
  | none => rfl
  | some asked => cases e.path? <;> rfl

namespace EventBus

/-- A bus keeps the last events of a sequence, as many as it can. -/
structure Retains (b : EventBus) (log : List Event) : Prop where
  position : b.position = log.length
  /-- What is kept are the last of them. -/
  kept : b.kept = log.drop (log.length - b.capacity)

variable {b : EventBus} {log : List Event}

theorem Retains.oldest (h : b.Retains log) : b.oldest = log.length - b.capacity := by
  rw [EventBus.oldest, h.position, h.kept, length_drop]
  omega

theorem Retains.getElem (h : b.Retains log) {n : Nat} (hn : b.oldest ≤ n) :
    b.kept[n - b.oldest]? = log[n]? := by
  rw [h.kept, getElem?_drop, ← h.oldest, Nat.add_sub_cancel' hn]

theorem Retains.publish (h : b.Retains log) (hlisteners : b.listeners ≠ 0) (e : Event) :
    (b.publish e).2.Retains (log ++ [e]) := by
  have hkept : b.kept ++ [e] = (log ++ [e]).drop (log.length - b.capacity) := by
    rw [h.kept, drop_append_of_le_length (Nat.sub_le _ _)]
  rw [EventBus.publish, if_neg hlisteners]
  constructor
  · simp only [h.position, length_append, length_singleton]
  · -- One more is dropped from the front if there is no room for it.
    simp only [hkept, drop_drop, length_drop, length_append, length_singleton]
    congr 1
    omega

theorem capacity_publish (b : EventBus) (e : Event) : (b.publish e).2.capacity = b.capacity := by
  rw [EventBus.publish]
  split <;> rfl

theorem listeners_publish (b : EventBus) (e : Event) : (b.publish e).2.listeners = b.listeners := by
  rw [EventBus.publish]
  split <;> rfl

theorem le_powerAbove {n fuel power : Nat} (hpower : 0 < power) (h : n ≤ power + fuel) :
    n ≤ powerAbove n fuel power := by
  induction fuel generalizing power with
  | zero => exact h
  | succ fuel ih =>
    rw [powerAbove]
    by_cases hle : n ≤ power
    · rw [if_pos hle]
      exact hle
    · rw [if_neg hle]
      exact ih (by omega) (by omega)

theorem le_capacity_ofCapacity (capacity : Nat) : capacity ≤ (ofCapacity capacity).capacity :=
  Nat.le_trans (Nat.le_max_left _ _) (le_powerAbove Nat.one_pos (by omega))

end EventBus

/-- The events that were published, as one subscriber sees them. -/
structure Course where
  /-- What was published before it came. -/
  before : List Event
  /-- What it passed by with gaps. -/
  patchy : List Event
  /-- What it got of that. -/
  caught : List Event
  /-- What it saw after that without any gap. -/
  seen : List Event
  /-- What it did not see. -/
  ahead : List Event

namespace Course

variable {c c' c'' : Course} {s s' s'' : Subscriber} {b : EventBus} {e : Event}
variable {got more : List Event}

/-- What was published since the subscriber came. -/
def published (c : Course) : List Event := c.patchy ++ c.seen ++ c.ahead

/-- What the subscriber got, if it asks for certain files. -/
def obtained (c : Course) (paths : Option (List String)) : List Event :=
  c.caught ++ c.seen.filter (·.concerns paths)

/-- A subscriber has got as far as a course says. -/
structure Follows (c : Course) (s : Subscriber) (b : EventBus) : Prop where
  /-- The bus keeps the last events. -/
  retains : b.Retains (c.before ++ c.published)
  /-- The subscriber goes on with what is ahead. -/
  next : s.next + c.ahead.length = b.position
  /-- What it got is what it asks for, in order. -/
  caught : c.caught.Sublist (c.patchy.filter (·.concerns s.paths))
  /-- Where there were gaps, there are as many events after them as the bus can keep. -/
  room : c.patchy = [] ∨ b.capacity ≤ c.seen.length + c.ahead.length

/-- There were no gaps so far, and there is none ahead. -/
structure Complete (c : Course) (capacity : Nat) : Prop where
  patchy : c.patchy = []
  ahead : c.ahead.length ≤ capacity

/-- Reading from a bus leads from a course to another one. -/
structure Goes (c : Course) (s : Subscriber) (b : EventBus) (got : List Event) (c' : Course)
    (s' : Subscriber) : Prop where
  follows : c'.Follows s' b
  paths : s'.paths = s.paths
  published : c'.published = c.published
  /-- It got more. -/
  obtained : c'.obtained s.paths = c.obtained s.paths ++ got
  /-- There are no gaps if there were none. -/
  complete : c.Complete b.capacity → c'.Complete b.capacity

theorem Goes.refl (h : c.Follows s b) : c.Goes s b [] c s :=
  ⟨h, rfl, rfl, (append_nil _).symm, id⟩

theorem Goes.trans (h : c.Goes s b got c' s') (h' : c'.Goes s' b more c'' s'') :
    c.Goes s b (got ++ more) c'' s'' where
  follows := h'.follows
  paths := h'.paths.trans h.paths
  published := h'.published.trans h.published
  obtained := by rw [← append_assoc, ← h.obtained, ← h.paths, h'.obtained]
  complete := h'.complete ∘ h.complete

variable (h : c.Follows s b)

include h

theorem Follows.getElem : (c.before ++ c.published)[s.next]? = c.ahead.head? := by
  have hnext := h.next
  rw [h.retains.position, published, ← append_assoc, length_append] at hnext
  rw [published, ← append_assoc, getElem?_append_right (by omega), head?_eq_getElem?]
  congr 1
  omega

theorem Follows.see (hlook : s.look b = .event e s') : ∃ c',
    c.Goes s b (if e.concerns s.paths then [e] else []) c' s' := by
  obtain ⟨hle, hfound, rfl⟩ := Subscriber.look_eq_event hlook
  rw [h.retains.getElem hle, h.getElem, head?_eq_some_iff] at hfound
  rcases hfound with ⟨rest, hahead⟩
  have hpub : c.patchy ++ (c.seen ++ [e]) ++ rest = c.published := by
    rw [published, hahead]
    simp
  have hnext := h.next
  rw [hahead, length_cons] at hnext
  refine ⟨{ c with seen := c.seen ++ [e], ahead := rest }, ⟨?_, ?_, h.caught, ?_⟩, rfl,
    hpub, ?_, fun hc => ⟨hc.patchy, ?_⟩⟩
  · rw [published, hpub]
    exact h.retains
  · simp only
    omega
  · refine h.room.imp_right fun hroom => ?_
    rw [hahead, length_cons] at hroom
    simp only [length_append, length_singleton]
    omega
  · simp only [Course.obtained, filter_append, append_assoc, filter_singleton, cond_eq_ite]
  · have hless := hc.ahead
    rw [hahead] at hless
    exact Nat.le_of_succ_le hless

/-- Events are missed. All that came before the oldest event that is kept is now a part with
    gaps. -/
theorem Follows.miss (hlook : s.look b = .gap s') : ∃ c', c.Goes s b [] c' s' := by
  obtain ⟨hlt, rfl⟩ := Subscriber.look_eq_gap hlook
  have hnext := h.next
  have hpos := h.retains.position
  rw [h.retains.oldest] at hlt
  -- There is more ahead than the bus can keep.
  have hmore : b.capacity < c.ahead.length := by omega
  have hpub : c.patchy ++ c.seen ++ c.ahead.take (c.ahead.length - b.capacity) ++ [] ++
      c.ahead.drop (c.ahead.length - b.capacity) = c.published := by
    rw [published, append_nil, append_assoc (c.patchy ++ c.seen), take_append_drop]
  refine ⟨⟨c.before, c.patchy ++ c.seen ++ c.ahead.take (c.ahead.length - b.capacity),
    c.obtained s.paths, [], c.ahead.drop (c.ahead.length - b.capacity)⟩, ⟨?_, ?_, ?_, ?_⟩, rfl,
    hpub, ?_, fun hc => absurd hc.ahead (Nat.not_le.mpr hmore)⟩
  · rw [published, hpub]
    exact h.retains
  · simp only [length_drop, h.retains.oldest, ← hpos]
    omega
  · rw [filter_append, filter_append]
    exact (h.caught.append (List.Sublist.refl _)).trans (sublist_append_left _ _)
  · simp only [length_drop, length_nil]
    omega
  · simp only [Course.obtained, filter_nil, append_nil]

theorem Follows.ahead_of_nothing (hlook : s.look b = .nothing) : c.ahead = [] := by
  unfold Subscriber.look at hlook
  split at hlook
  · cases hlook
  · next hle =>
    split at hlook
    · cases hlook
    · next hnone =>
      rw [h.retains.getElem (Nat.le_of_not_lt hle), h.getElem, head?_eq_none_iff] at hnone
      exact hnone

/-- Reading one event. A subscriber that gets none has nothing ahead. -/
theorem goes_receive : ∃ c',
    c.Goes s b (s.receive b).1.toList c' (s.receive b).2 ∧
      ((s.receive b).1 = none → c'.ahead = []) := by
  -- The induction is on the looks that the subscriber takes, each of which goes on with the course.
  fun_induction Subscriber.receive s b generalizing c with
  | case1 s e s' hlook hwants =>
    rcases h.see hlook with ⟨c', hgoes⟩
    rw [s.wants_eq] at hwants
    rw [if_pos hwants] at hgoes
    exact ⟨c', hgoes, fun hnone => by cases hnone⟩
  | case2 s e s' hlook hwants ih =>
    rcases h.see hlook with ⟨c', hgoes⟩
    rw [s.wants_eq] at hwants
    rw [if_neg hwants] at hgoes
    rcases ih hgoes.follows with ⟨c'', hmore, hlast⟩
    exact ⟨c'', hgoes.trans hmore, hlast⟩
  | case3 s s' hlook ih =>
    rcases h.miss hlook with ⟨c', hgoes⟩
    rcases ih hgoes.follows with ⟨c'', hmore, hlast⟩
    exact ⟨c'', hgoes.trans hmore, hlast⟩
  | case4 s hlook => exact ⟨c, .refl h, fun _ => h.ahead_of_nothing hlook⟩

theorem goes_drain : ∃ c',
    c.Goes s b (s.drain b).1 c' (s.drain b).2 ∧ c'.ahead = [] := by
  fun_induction Subscriber.drain s b generalizing c with
  | case1 s e s' hreceive rest last hrest ih =>
    rcases goes_receive h with ⟨c', hgoes, -⟩
    rw [hreceive] at hgoes
    rcases ih hgoes.follows with ⟨c'', hmore, hlast⟩
    rw [hrest] at hmore
    exact ⟨c'', hgoes.trans hmore, hlast⟩
  | case2 s s' hreceive =>
    rcases goes_receive h with ⟨c', hgoes, hlast⟩
    rw [hreceive] at hgoes hlast
    exact ⟨c', hgoes, hlast rfl⟩

theorem Follows.publish (hlisteners : b.listeners ≠ 0) (e : Event) :
    { c with ahead := c.ahead ++ [e] }.Follows s (b.publish e).2 := by
  have hretains := h.retains.publish hlisteners e
  have hpos := hretains.position
  rw [length_append, ← h.retains.position, length_singleton] at hpos
  refine ⟨?_, ?_, h.caught, h.room.imp_right fun hroom => ?_⟩
  · simp only [published, ← append_assoc] at hretains ⊢
    exact hretains
  · have hnext := h.next
    simp only [length_append, length_singleton]
    omega
  · simp only [EventBus.capacity_publish, length_append, length_singleton]
    omega

theorem Follows.obtained_sublist :
    (c.obtained s.paths).Sublist (c.published.filter (·.concerns s.paths)) := by
  rw [published, filter_append, filter_append]
  exact (h.caught.append (List.Sublist.refl _)).trans (sublist_append_left _ _)

/-- Without gaps, and with nothing ahead, a subscriber got all that it asks for. -/
theorem Follows.obtained_eq (hpatchy : c.patchy = []) (hahead : c.ahead = []) :
    c.obtained s.paths = c.published.filter (·.concerns s.paths) := by
  have hcaught := h.caught
  rw [hpatchy, filter_nil, sublist_nil] at hcaught
  rw [obtained, published, hpatchy, hahead, hcaught, append_nil, nil_append, nil_append]

/-- With nothing ahead, a subscriber got what it asks for among the last events, as many as the bus
    can keep. -/
theorem Follows.recent_suffix (hahead : c.ahead = []) {recent : List Event}
    (hrecent : recent <:+ c.published) (hlen : recent.length ≤ b.capacity) :
    recent.filter (·.concerns s.paths) <:+ c.obtained s.paths := by
  rcases h.room with hpatchy | hroom
  · rw [h.obtained_eq hpatchy hahead]
    exact hrecent.filter _
  · -- What is so near the end comes after all gaps.
    rw [published, hahead, append_nil] at hrecent
    rw [hahead, length_nil] at hroom
    have hseen : recent <:+ c.seen := suffix_of_suffix_length_le hrecent
      (suffix_append _ _) (Nat.le_trans hlen hroom)
    exact (hseen.filter _).trans (suffix_append _ _)

end Course

namespace EventBus

/-- What is done on a bus. Subscribers are told apart by when they came. -/
inductive Action where
  /-- An event is published. -/
  | publish (e : Event)
  /-- Someone subscribes. -/
  | subscribe (paths : Option (List String))
  /-- A subscriber leaves. -/
  | leave (i : Nat)
  /-- A subscriber reads its next event. -/
  | receive (i : Nat)

/-- The events that are published. -/
def Action.published : Action → List Event
  | publish e => [e]
  | subscribe _ | leave _ | receive _ => []

/-- A bus with everyone who ever subscribed to it. -/
structure Audience where
  bus : EventBus
  /-- The subscribers in the order in which they came. Those who left leave their places empty. -/
  members : List (Option Subscriber)

namespace Audience

variable {a : Audience} {i : Nat}

/-- A new bus. -/
def opened (capacity : Nat) : Audience := ⟨ofCapacity capacity, []⟩

/-- The subscriber that came at some time, if it is still there. -/
def member? (a : Audience) (i : Nat) : Option Subscriber := a.members[i]?.join

/-- What an action hands out, and what comes after it. -/
def step (a : Audience) : Action → Option Event × Audience
  | .publish e => (none, { a with bus := (a.bus.publish e).2 })
  | .subscribe paths =>
    let (s, bus) := a.bus.subscribe paths
    (none, ⟨bus, a.members ++ [some s]⟩)
  | .leave i =>
    match a.member? i with
    | some _ => (none, ⟨a.bus.unsubscribe, a.members.set i none⟩)
    | none => (none, a)
  | .receive i =>
    match a.member? i with
    | some s =>
      let (e, s) := s.receive a.bus
      (e, { a with members := a.members.set i (some s) })
    | none => (none, a)

/-- What comes after some actions. -/
def after (a : Audience) (actions : List Action) : Audience :=
  actions.foldl (fun a action => (a.step action).2) a

/-- What an action hands out to a subscriber. -/
def handed (a : Audience) (i : Nat) : Action → List Event
  | .receive j => if j = i then (a.step (.receive j)).1.toList else []
  | .publish _ | .subscribe _ | .leave _ => []

/-- What some actions hand out to a subscriber. -/
def obtained (a : Audience) (i : Nat) : List Action → List Event
  | [] => []
  | action :: rest => a.handed i action ++ (a.step action).2.obtained i rest

/-- How many events a subscriber has not consumed. -/
def backlog (a : Audience) (i : Nat) : Nat :=
  match a.member? i with
  | some s => a.bus.position - s.next
  | none => 0

/-- During some actions a subscriber never has more events before it than the bus can keep. -/
def KeepsUp (a : Audience) (i : Nat) (actions : List Action) : Prop :=
  ∀ front, front <+: actions → (a.after front).backlog i ≤ (a.after front).bus.capacity

theorem KeepsUp.cons {action : Action} {rest : List Action} (h : a.KeepsUp i (action :: rest)) :
    a.backlog i ≤ a.bus.capacity ∧ (a.step action).2.KeepsUp i rest := by
  constructor
  · exact h [] nil_prefix
  · intro front hfront
    exact h (action :: front) (List.cons_prefix_cons.mpr ⟨rfl, hfront⟩)

theorem lt_length_of_member {s : Subscriber} (h : a.member? i = some s) :
    i < a.members.length ∧ a.members[i]? = some (some s) := by
  rw [member?, Option.join_eq_some_iff] at h
  exact ⟨(List.getElem?_eq_some_iff.mp h).1, h⟩

theorem member_set (bus : EventBus) {j : Nat} (hj : j < a.members.length) (m : Option Subscriber) :
    member? ⟨bus, a.members.set j m⟩ i = if j = i then m else a.member? i := by
  rw [member?, getElem?_set]
  by_cases hji : j = i
  · rw [if_pos hji, if_pos hji, if_pos (hji ▸ hj)]
    rfl
  · rw [if_neg hji, if_neg hji]
    rfl

theorem member_append (bus : EventBus) (s : Subscriber) (hi : i < a.members.length) :
    member? ⟨bus, a.members ++ [some s]⟩ i = a.member? i := by
  rw [member?, getElem?_append_left hi]
  rfl

theorem backlog_eq {s : Subscriber} {c : Course} (hmember : a.member? i = some s)
    (h : c.Follows s a.bus) : a.backlog i = c.ahead.length := by
  simp only [backlog, hmember, ← h.next, Nat.add_sub_cancel_left]

/-- A bus keeps the last of all events, and counts its subscribers. -/
structure Sound (a : Audience) : Prop where
  retains : ∃ log, a.bus.Retains log
  /-- As many listen as are there. -/
  listeners : a.bus.listeners = a.members.countP (·.isSome)

theorem sound_opened (capacity : Nat) : (opened capacity).Sound :=
  ⟨⟨[], rfl, List.drop_nil.symm⟩, rfl⟩

theorem Sound.listeners_ne_zero (h : a.Sound) {s : Subscriber} (hmember : a.member? i = some s) :
    a.bus.listeners ≠ 0 := by
  rw [h.listeners, Nat.ne_zero_iff_zero_lt, countP_pos_iff]
  exact ⟨some s, mem_of_getElem? (lt_length_of_member hmember).2, rfl⟩

theorem Sound.step (h : a.Sound) (action : Action) : (a.step action).2.Sound := by
  rcases h.retains with ⟨log, hlog⟩
  cases action with
  | publish e =>
    refine ⟨?_, (listeners_publish _ _).trans h.listeners⟩
    -- What is published to nobody leaves no trace.
    by_cases hnone : a.bus.listeners = 0
    · refine ⟨log, ?_⟩
      rw [Audience.step, publish, if_pos hnone]
      exact hlog
    · exact ⟨_, hlog.publish hnone e⟩
  | subscribe paths =>
    refine ⟨⟨log, hlog.position, hlog.kept⟩, ?_⟩
    simp only [Audience.step, subscribe, countP_append, h.listeners]
    rfl
  | leave j =>
    rw [Audience.step]
    split
    · next s hmember =>
      obtain ⟨hj, hget⟩ := lt_length_of_member hmember
      refine ⟨⟨log, hlog.position, hlog.kept⟩, ?_⟩
      have hat : a.members[j] = some s := (List.getElem?_eq_some_iff.mp hget).2
      simp only [unsubscribe, countP_set hj, h.listeners, hat, Option.isSome_some,
        Option.isSome_none, if_true, Bool.false_eq_true, if_false, Nat.add_zero]
    · exact h
  | receive j =>
    rw [Audience.step]
    split
    · next s hmember =>
      obtain ⟨hj, hget⟩ := lt_length_of_member hmember
      refine ⟨⟨log, hlog⟩, ?_⟩
      have hat : a.members[j] = some s := (List.getElem?_eq_some_iff.mp hget).2
      have hpos : 0 < a.members.countP (·.isSome) :=
        countP_pos_iff.mpr ⟨some s, mem_of_getElem? hget, rfl⟩
      simp only [countP_set hj, h.listeners, hat, Option.isSome_some, if_true]
      omega
    · exact h

theorem Sound.after (h : a.Sound) (actions : List Action) : (a.after actions).Sound := by
  induction actions generalizing a with
  | nil => exact h
  | cons action rest ih => exact ih (h.step action)

theorem capacity_step (a : Audience) (action : Action) :
    (a.step action).2.bus.capacity = a.bus.capacity := by
  cases action with
  | publish e => exact capacity_publish _ _
  | subscribe paths => rfl
  | leave j | receive j =>
    rw [step]
    split <;> rfl

theorem capacity_after (a : Audience) (actions : List Action) :
    (a.after actions).bus.capacity = a.bus.capacity := by
  induction actions generalizing a with
  | nil => rfl
  | cons action rest ih => exact (ih _).trans (capacity_step a action)

end Audience

open Audience

/-- What a subscriber was given of what was published since it came, and whether it was all of
    it. -/
structure Served (paths : Option (List String)) (i : Nat) (a : Audience)
    (published obtained : List Event) (whole : Prop) : Prop where
  /-- The subscriber has its place. -/
  place : i < a.members.length
  /-- It was given what it asks for, in order. -/
  sublist : obtained.Sublist (published.filter (·.concerns paths))
  /-- If it is still there, then it has its course. -/
  course : ∀ s, a.member? i = some s → s.paths = paths ∧ ∃ c : Course, c.Follows s a.bus ∧
    c.published = published ∧ c.obtained paths = obtained ∧ (whole → c.patchy = [])

namespace Served

variable {paths : Option (List String)} {i : Nat} {a a' : Audience}
variable {published obtained : List Event} {whole whole' : Prop}

variable (h : Served paths i a published obtained whole)

include h

theorem gone (hplace : i < a'.members.length) (hnone : a'.member? i = none) (events : List Event) :
    Served paths i a' (published ++ events) obtained whole' where
  place := hplace
  sublist := by
    rw [filter_append]
    exact h.sublist.trans (sublist_append_left _ _)
  course s hs := by
    rw [hnone] at hs
    cases hs

/-- What others do does not matter. -/
theorem same (hplace : i < a'.members.length) (hmember : a'.member? i = a.member? i)
    (hretains : ∀ log, a.bus.Retains log → a'.bus.Retains log)
    (hcapacity : a'.bus.capacity = a.bus.capacity) (hwhole : whole' → whole) :
    Served paths i a' published obtained whole' where
  place := hplace
  sublist := h.sublist
  course s hs := by
    rw [hmember] at hs
    rcases h.course s hs with ⟨hpaths, c, hc, hpub, hobtained, hpatchy⟩
    have hpos := (hretains _ hc.retains).position.trans hc.retains.position.symm
    refine ⟨hpaths, c, ⟨hretains _ hc.retains, ?_, hc.caught, ?_⟩, hpub, hobtained,
      hpatchy ∘ hwhole⟩
    · rw [hpos]
      exact hc.next
    · rw [hcapacity]
      exact hc.room

theorem mono (hwhole : whole' → whole) : Served paths i a published obtained whole' :=
  h.same h.place rfl (fun _ => id) rfl hwhole

theorem publish (hsound : a.Sound) (e : Event) :
    Served paths i (a.step (.publish e)).2 (published ++ [e]) obtained whole := by
  cases hmember : a.member? i with
  | none =>
    refine h.gone ?_ ?_ [e]
    · exact h.place
    · exact hmember
  | some s =>
    refine ⟨h.place, ?_, fun t ht => ?_⟩
    · rw [filter_append]
      exact h.sublist.trans (sublist_append_left _ _)
    · obtain rfl : s = t := Option.some.inj (hmember.symm.trans ht)
      rcases h.course s hmember with ⟨hpaths, c, hc, hpub, hobtained, hpatchy⟩
      refine ⟨hpaths, _, hc.publish (hsound.listeners_ne_zero hmember) e, ?_, hobtained, hpatchy⟩
      rw [← hpub, Course.published, Course.published, append_assoc _ c.ahead]

theorem receive {s : Subscriber}
    (hmember : a.member? i = some s) : Served paths i (a.step (.receive i)).2 published
      (obtained ++ (s.receive a.bus).1.toList) (whole ∧ a.backlog i ≤ a.bus.capacity) := by
  rcases h.course s hmember with ⟨hpaths, c, hc, hpub, hobtained, hpatchy⟩
  rcases Course.goes_receive hc with ⟨c', hgoes, -⟩
  have hobtained' : c'.obtained paths = obtained ++ (s.receive a.bus).1.toList := by
    rw [← hobtained, ← hpaths]
    exact hgoes.obtained
  have hstep : (a.step (.receive i)).2 =
      { a with members := a.members.set i (some (s.receive a.bus).2) } := by
    rw [Audience.step, hmember]
  rw [hstep]
  refine ⟨?_, ?_, fun t ht => ?_⟩
  · rw [length_set]
    exact h.place
  · have hsub := hgoes.follows.obtained_sublist
    rw [hgoes.paths, hpaths, hobtained', hgoes.published, hpub] at hsub
    exact hsub
  · rw [member_set _ h.place, if_pos rfl] at ht
    obtain rfl := Option.some.inj ht
    refine ⟨hgoes.paths.trans hpaths, c', hgoes.follows, hgoes.published.trans hpub,
      hobtained', fun hwhole => (hgoes.complete ⟨hpatchy hwhole.1, ?_⟩).patchy⟩
    rw [← backlog_eq hmember hc]
    exact hwhole.2

/-- Every action serves a subscriber. -/
theorem step (hsound : a.Sound)
    (action : Action) : Served paths i (a.step action).2 (published ++ action.published)
      (obtained ++ a.handed i action) (whole ∧ a.backlog i ≤ a.bus.capacity) := by
  cases action with
  | publish e =>
    rw [handed, append_nil]
    exact (h.publish hsound e).mono And.left
  | subscribe newPaths =>
    rw [handed, append_nil, Action.published, append_nil]
    refine h.same ?_ (member_append _ _ h.place) (fun _ hlog => ⟨hlog.position, hlog.kept⟩) rfl
      And.left
    rw [Audience.step, length_append]
    exact Nat.lt_add_right _ h.place
  | leave j =>
    rw [handed, append_nil, Action.published, append_nil, Audience.step]
    cases hleaves : a.member? j with
    | none => exact h.mono And.left
    | some s =>
      have hmember := member_set (i := i) a.bus.unsubscribe (lt_length_of_member hleaves).1 none
      have hplace : i < (a.members.set j none).length := by
        rw [length_set]
        exact h.place
      by_cases hji : j = i
      · rw [if_pos hji] at hmember
        rw [← append_nil published]
        exact h.gone hplace hmember []
      · rw [if_neg hji] at hmember
        exact h.same hplace hmember (fun _ hlog => ⟨hlog.position, hlog.kept⟩) rfl And.left
  | receive j =>
    rw [handed, Action.published, append_nil]
    cases hreads : a.member? j with
    | none =>
      rw [Audience.step, hreads, Option.toList_none, ite_self, append_nil]
      exact h.mono And.left
    | some s =>
      by_cases hji : j = i
      · subst hji
        rw [if_pos rfl, Audience.step, hreads]
        have hreceive := h.receive hreads
        rw [Audience.step, hreads] at hreceive
        exact hreceive
      · rw [if_neg hji, append_nil, Audience.step, hreads]
        have hmember := member_set (i := i) a.bus (lt_length_of_member hreads).1
          (some (s.receive a.bus).2)
        rw [if_neg hji] at hmember
        refine h.same ?_ hmember (fun _ => id) rfl And.left
        rw [length_set]
        exact h.place

/-- Any number of actions serves a subscriber. -/
theorem after (hsound : a.Sound) (actions : List Action) :
    Served paths i (a.after actions) (published ++ actions.flatMap Action.published)
      (obtained ++ a.obtained i actions) (whole ∧ a.KeepsUp i actions) := by
  induction actions generalizing a published obtained whole with
  | nil =>
    rw [flatMap_nil, Audience.obtained, append_nil, append_nil]
    exact h.mono And.left
  | cons action rest ih =>
    have hrest := ih (h.step hsound action) (hsound.step action)
    rw [append_assoc, append_assoc] at hrest
    exact hrest.mono fun hwhole => ⟨⟨hwhole.1, hwhole.2.cons.1⟩, hwhole.2.cons.2⟩

end Served

theorem served_subscribe {a : Audience} (h : a.Sound) (paths : Option (List String)) :
    Served paths a.members.length (a.step (.subscribe paths)).2 [] [] True := by
  rcases h.retains with ⟨log, hlog⟩
  refine ⟨?_, List.Sublist.refl _, fun s hs => ?_⟩
  · rw [Audience.step, length_append]
    exact Nat.lt_succ_self _
  · have hnew : (a.step (.subscribe paths)).2.member? a.members.length =
        some ⟨a.bus.position, paths⟩ := by
      rw [Audience.step, member?, getElem?_concat_length]
      rfl
    obtain rfl := Option.some.inj (hnew.symm.trans hs)
    refine ⟨rfl, ⟨log, [], [], [], []⟩, ⟨?_, rfl, List.Sublist.refl _, .inl rfl⟩, rfl, rfl,
      fun _ => rfl⟩
    rw [Course.published, append_nil, append_nil, append_nil]
    exact ⟨hlog.position, hlog.kept⟩

/-- Let someone subscribe to a bus at any time. What it is given from then on is a part, in order
    and without repetition, of those events published since that concern it. As long as it is there,
    reading until there is no more gives it the following. If there never were more events before
    it than the bus can keep, then it has been given all events that concern it. In any case it has
    been given all those among the last events, as many as the bus can keep, which are at least as
    many as was asked for when the bus was made. -/
theorem delivery_is_ordered_and_complete (capacity : Nat) (past future : List Action)
    (paths : Option (List String)) :
    let before := (opened capacity).after past
    let joined := (before.step (.subscribe paths)).2
    let i := before.members.length
    let last := joined.after future
    let published := future.flatMap Action.published
    (joined.obtained i future).Sublist (published.filter (·.concerns paths)) ∧
      ∀ s, last.member? i = some s →
        let given := joined.obtained i future ++ (s.drain last.bus).1
        given.Sublist (published.filter (·.concerns paths)) ∧
          (joined.KeepsUp i future → given = published.filter (·.concerns paths)) ∧
          capacity ≤ last.bus.capacity ∧
          ∀ recent, recent <:+ published → recent.length ≤ last.bus.capacity →
            recent.filter (·.concerns paths) <:+ given := by
  intro before joined i last published
  have hbefore : before.Sound := (sound_opened capacity).after past
  have hserved := (served_subscribe hbefore paths).after (hbefore.step _) future
  rw [nil_append, nil_append] at hserved
  refine ⟨hserved.sublist, fun s hs => ?_⟩
  rcases hserved.course s hs with ⟨hpaths, c, hc, hpublished, hobtained, hpatchy⟩
  rcases Course.goes_drain hc with ⟨c', hgoes, hahead⟩
  intro given
  have hgiven : c'.obtained paths = given := by
    rw [← hpaths, hgoes.obtained, hpaths, hobtained]
  have hfollows := hgoes.follows
  have hsame : c'.published = published := hgoes.published.trans hpublished
  have hasked := hgoes.paths.trans hpaths
  rw [← hgiven, ← hsame, ← hasked]
  refine ⟨hfollows.obtained_sublist, fun hkeeps => ?_, ?_, fun recent => ?_⟩
  · -- What is left in the end is kept as well.
    refine hfollows.obtained_eq (hgoes.complete ⟨hpatchy ⟨trivial, hkeeps⟩, ?_⟩).patchy hahead
    rw [← backlog_eq hs hc]
    exact hkeeps future (prefix_refl _)
  · rw [capacity_after, capacity_step, capacity_after]
    exact le_capacity_ofCapacity capacity
  · exact hfollows.recent_suffix hahead

/-- A file changes. -/
def changed (path : String) : Event := .fileChanged path .modified

/-- A bus for some events, on which one was published before someone subscribes. -/
def joining (capacity : Nat) (paths : Option (List String)) : Audience :=
  (((opened capacity).after [.publish (changed "b")]).step (.subscribe paths)).2

/-- The second of three events is read before the third one comes. -/
def reading : List Action :=
  [.publish (changed "a"), .publish (changed "b"), .receive 0, .publish (.snapshotCreated "s" 2)]

/-- Two events are published and not read. -/
def crowding : List Action := [.publish (changed "a"), .publish (changed "b")]

/-- On a bus for two events a subscriber that asks for one file is given what concerns this file or
    none. On a bus for one event another one misses the first of two events and is given the
    second. -/
theorem delivery_is_ordered_and_complete_crowding :
    (∃ s, ((joining 2 (some ["b"])).after reading).member? 0 = some s ∧
      (joining 2 (some ["b"])).KeepsUp 0 reading ∧
      (joining 2 (some ["b"])).obtained 0 reading ++
          (s.drain ((joining 2 (some ["b"])).after reading).bus).1 =
        [changed "b", .snapshotCreated "s" 2]) ∧
    ∃ s, ((joining 1 none).after crowding).member? 0 = some s ∧
      ¬ (joining 1 none).KeepsUp 0 crowding ∧
      [changed "b"] <:+ (joining 1 none).obtained 0 crowding ++
        (s.drain ((joining 1 none).after crowding).bus).1 := by
  have hread : (((joining 2 (some ["b"])).after reading).member? 0).isSome = true := by
    decide +kernel
  have hcrowd : (((joining 1 none).after crowding).member? 0).isSome = true := by decide +kernel
  have hkeeps : ∀ front ∈ reading.inits, ((joining 2 (some ["b"])).after front).backlog 0 ≤
      ((joining 2 (some ["b"])).after front).bus.capacity := by decide +kernel
  have hbehind : ¬ ((joining 1 none).after crowding).backlog 0 ≤
      ((joining 1 none).after crowding).bus.capacity := by decide +kernel
  rcases Option.isSome_iff_exists.mp hread with ⟨s, hs⟩
  rcases Option.isSome_iff_exists.mp hcrowd with ⟨t, ht⟩
  have hup : (joining 2 (some ["b"])).KeepsUp 0 reading :=
    fun front hfront => hkeeps front ((mem_inits _ _).mpr hfront)
  refine ⟨⟨s, hs, hup, ?_⟩, t, ht, fun hkeeps => hbehind (hkeeps _ (prefix_refl _)), ?_⟩
  · exact ((delivery_is_ordered_and_complete 2 [.publish (changed "b")] reading (some ["b"])).2
      s hs).2.1 hup
  · exact ((delivery_is_ordered_and_complete 1 [.publish (changed "b")] crowding none).2
      t ht).2.2.2 [changed "b"] (suffix_cons _ _) (by decide +kernel)

end EventBus

end Ripple
