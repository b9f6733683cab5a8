import Ripple.Proofs.Store.Atomic

/-!
# Stores With a Record

A job says what it answers and what it leaves behind, but not what the store
was like on the way. For what holds at every point of a job, also if the
machine stops there, one has to look at each state between two writes.

So a record is kept beside a store: every write and every removal puts the
state before it on the record. Jobs are written for all stores, so the same job
runs on a store with a record, and the record tells what it went through. The
record is only looked at from outside. A job does on a store with a record what
it does on the store alone, and this is what `Mirrors` says.

## Theorems

* `Job.mirrors_bind`, `Job.mirrors_put`, `Job.mirrors_delete`: A record makes no
  difference.
-/

namespace Ripple

open Store

/-- A store with the states that it went through. -/
structure Recorded (σ : Type) where
  /-- The store as it is. -/
  current : σ
  /-- How it was before each write and each removal, the last one first. -/
  past : List σ

namespace Recorded

variable {σ : Type}

/-- A store whose record begins. -/
def start (store : σ) : Recorded σ := ⟨store, []⟩

/-- All states that the record tells of, the last one first. -/
def states (r : Recorded σ) : List σ := r.current :: r.past

/-- The store after a write, with the state before it on the record. -/
def moved (r : Recorded σ) (after : σ) : Recorded σ := ⟨after, r.current :: r.past⟩

/-- Something holds of all states that a store went through. -/
def Always (P : σ → Prop) (r : Recorded σ) : Prop := ∀ s ∈ r.states, P s

theorem always_start {P : σ → Prop} {store : σ} (h : P store) : (start store).Always P :=
  fun _ hs => List.mem_singleton.mp hs ▸ h

theorem Always.current {P : σ → Prop} {r : Recorded σ} (h : r.Always P) : P r.current :=
  h _ List.mem_cons_self

theorem Always.moved {P : σ → Prop} {r : Recorded σ} (h : r.Always P) {after : σ}
    (hafter : P after) : (r.moved after).Always P :=
  List.forall_mem_cons.mpr ⟨hafter, h⟩

end Recorded

/-- A store with a record does what the store does. -/
instance {σ : Type} [BlobStore σ] : BlobStore (Recorded σ) where
  get r key := BlobStore.get r.current key
  put r key bytes :=
    let (result, after) := BlobStore.put r.current key bytes
    (result, r.moved after)
  list r front := BlobStore.list r.current front
  delete r key :=
    let (result, after) := BlobStore.delete r.current key
    (result, r.moved after)

namespace Job

variable {σ α β : Type}

/-- A job does the same with a record as without. -/
def Mirrors (recorded : Job (Recorded σ) α) (job : Job σ α) : Prop :=
  ∀ r, (recorded.on r).1 = (job.on r.current).1 ∧ (recorded.on r).2.current = (job.on r.current).2

theorem mirrors_pure (a : α) : Mirrors (pure a) (pure a : Job σ α) := fun _ => ⟨rfl, rfl⟩

/-- A record makes no difference for jobs in sequence. -/
theorem mirrors_bind {recorded : Job (Recorded σ) α} {job : Job σ α}
    {recordedNext : α → Job (Recorded σ) β} {next : α → Job σ β} (h : Mirrors recorded job)
    (hnext : ∀ a, Mirrors (recordedNext a) (next a)) :
    Mirrors (recorded >>= recordedNext) (job >>= next) := by
  intro r
  obtain ⟨hres, hcur⟩ := h r
  change ((ExceptT.bindCont recordedNext (recorded.on r).1) (recorded.on r).2).1 =
      ((ExceptT.bindCont next (job.on r.current).1) (job.on r.current).2).1 ∧
    ((ExceptT.bindCont recordedNext (recorded.on r).1) (recorded.on r).2).2.current =
      ((ExceptT.bindCont next (job.on r.current).1) (job.on r.current).2).2
  rw [← hres, ← hcur]
  cases (recorded.on r).1 with
  | ok a => exact hnext a (recorded.on r).2
  | error e => exact ⟨rfl, rfl⟩

theorem mirrors_inspect {look : Recorded σ → Except Error α} {look' : σ → Except Error α}
    (h : ∀ r, look r = look' r.current) : Mirrors (inspect look) (inspect look') :=
  fun r => ⟨h r, rfl⟩

variable [BlobStore σ]

theorem mirrors_get (key : String) : Mirrors (Store.get key) (Store.get key : Job σ _) :=
  mirrors_inspect fun _ => rfl

theorem mirrors_put (key : String) (bytes : ByteArray) :
    Mirrors (Store.put key bytes) (Store.put key bytes : Job σ Unit) := fun _ => ⟨rfl, rfl⟩

theorem mirrors_delete (key : String) :
    Mirrors (Store.delete key) (Store.delete key : Job σ Bool) := fun _ => ⟨rfl, rfl⟩

section Ends

variable [AtomicStore σ] {r : Recorded σ} {key : String}

/-- A write on the record went through or changed nothing. -/
theorem ends_recorded_put {bytes : ByteArray} {P : Except Error Unit → Recorded σ → Prop}
    (hdone : ∀ after, (∀ other, blob? after other =
      if other = key then some bytes else blob? r.current other) → P (.ok ()) (r.moved after))
    (hfailed : ∀ e after, (∀ other, blob? after other = blob? r.current other) →
      P (.error e) (r.moved after)) : (Store.put key bytes).Ends r P := by
  change P (BlobStore.put r.current key bytes).1 (r.moved (BlobStore.put r.current key bytes).2)
  obtain ⟨after, ⟨hput, hblob⟩ | ⟨e, hput, hblob⟩⟩ := AtomicStore.put_cases r.current key bytes
  · rw [hput]
    exact hdone after hblob
  · rw [hput]
    exact hfailed e after hblob

/-- A removal on the record went through or changed nothing. -/
theorem ends_recorded_delete {P : Except Error Bool → Recorded σ → Prop}
    (hdone : ∀ found after, (∀ other, blob? after other =
      if other = key then none else blob? r.current other) → P (.ok found) (r.moved after))
    (hfailed : ∀ e after, (∀ other, blob? after other = blob? r.current other) →
      P (.error e) (r.moved after)) : (Store.delete key).Ends r P := by
  change P (BlobStore.delete r.current key).1 (r.moved (BlobStore.delete r.current key).2)
  obtain ⟨after, ⟨found, hdel, hblob⟩ | ⟨e, hdel, hblob⟩⟩ :=
    AtomicStore.delete_cases r.current key
  · rw [hdel]
    exact hdone found after hblob
  · rw [hdel]
    exact hfailed e after hblob

end Ends

end Job

end Ripple
