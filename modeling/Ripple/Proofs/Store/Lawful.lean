import Ripple.Proofs.Dict
import Ripple.Store.Keys
import Ripple.Store.Memory

/-!
# Stores That Keep What They Are Given

A store can fail, and a job on a store that fails leaves its changes so far.
For what the library computes one would like to leave failures aside: a
lawful store takes every key, gives back what was put last, and lists exactly
the keys that it holds. The store in memory is one.

A job on such a store is described by where it leads. `Runs` says that a job
goes through, with its answer and the state after it; runs of jobs in
sequence are put together by `runs_bind`, so that a statement about a long
job is put together from statements about its parts. That a job goes through
from every state does not depend on what it does, and is told apart from it.

## Theorems

* `Job.sure_bind`, `Job.sure_writeJson`, `Job.sure_delete`: Jobs that go through.
-/

namespace Ripple

namespace Store

variable {σ : Type} [BlobStore σ]

/-- The bytes under a key; none if they cannot be had. -/
def blob? (store : σ) (key : String) : Option ByteArray :=
  match BlobStore.get store key with
  | .ok bytes => bytes
  | .error _ => none

theorem get_of_blob {store : σ} {key : String} {bytes : ByteArray}
    (h : blob? store key = some bytes) : BlobStore.get store key = .ok (some bytes) := by
  unfold blob? at h
  split at h
  next hget => rw [hget, h]
  next => cases h

theorem blob_of_holds {store : σ} {key : String} (h : holds store key = .ok false) :
    blob? store key = none := by
  cases hblob : blob? store key with
  | none => rfl
  | some bytes =>
    rw [holds, get_of_blob hblob] at h
    cases h

theorem readJson_eq_blob {α : Type} (read : Json → Option α) (store : σ) (key : String) :
    readJson? read store key =
      (blob? store key).bind fun bytes => ((unpacked? key bytes).bind jsonOfBytes?).bind read := by
  unfold readJson? blob?
  cases BlobStore.get store key with
  | error e => rfl
  | ok found =>
    cases found with
    | none => rfl
    | some bytes => rfl

/-- Two stores have the same bytes under all keys that begin with a text. -/
def AgreeBelow (front : String) (before after : σ) : Prop :=
  ∀ key, beginsWith key front = true → blob? after key = blob? before key

theorem agreeBelow_refl (front : String) (store : σ) : AgreeBelow front store store :=
  fun _ _ => rfl

theorem AgreeBelow.trans {front : String} {first second third : σ}
    (h : AgreeBelow front first second) (h' : AgreeBelow front second third) :
    AgreeBelow front first third :=
  fun key hkey => (h' key hkey).trans (h key hkey)

end Store

open Store

/-- A store that does not fail and keeps what it is given. -/
class LawfulStore (σ : Type) [BlobStore σ] : Prop where
  get_eq : ∀ (store : σ) (key : String), BlobStore.get store key = .ok (blob? store key)
  /-- Bytes are put under one key and nothing else changes. -/
  put_eq : ∀ (store : σ) (key : String) (bytes : ByteArray), ∃ after,
    BlobStore.put store key bytes = (.ok (), after) ∧
      ∀ other, blob? after other = if other = key then some bytes else blob? store other
  /-- The keys that begin with a text are listed. -/
  list_eq : ∀ (store : σ) (front : String), ∃ keys, BlobStore.list store front = .ok keys ∧
    ∀ key, key ∈ keys ↔ (blob? store key).isSome ∧ beginsWith key front = true
  /-- One key is removed and nothing else changes. -/
  delete_eq : ∀ (store : σ) (key : String), ∃ found after,
    BlobStore.delete store key = (.ok found, after) ∧
      ∀ other, blob? after other = if other = key then none else blob? store other

/-- The store in memory is lawful. -/
instance : LawfulStore MemoryStore where
  get_eq _ _ := rfl
  put_eq store key bytes :=
    ⟨⟨store.blobs.insert key bytes⟩, rfl, fun other => Dict.get_insert store.blobs key other bytes⟩
  list_eq store front := by
    refine ⟨store.blobs.keys.filter fun key => beginsWith key front, rfl, fun key => ?_⟩
    rw [List.mem_filter, Dict.mem_keys_iff]
    exact Iff.rfl
  delete_eq store key := by
    refine ⟨store.blobs.contains key, ⟨store.blobs.erase key⟩, rfl, fun other => ?_⟩
    exact Dict.get_erase store.blobs key other

namespace Job

section Runs

variable {ρ π σ α β : Type}

variable {job : Job σ α} {a : α} {next : α → Job σ β}

/-- A job goes through from a state, with an answer and a state after it. -/
def Runs (job : Job σ α) (before : σ) (answer : α) (after : σ) : Prop :=
  job before = (.ok answer, after)

theorem runs_pure (answer : α) (s : σ) : Runs (pure answer) s answer s := rfl

theorem runs_on {s : σ} (h : (job.on s).1 = .ok a) : job.Runs s a (job.on s).2 :=
  Prod.ext h rfl

/-- Jobs in sequence: the second one goes on with the answer and the state of the first. -/
theorem runs_bind {first second third : σ} {b : β} (h : job.Runs first a second)
    (hnext : (next a).Runs second b third) :
    (job >>= next).Runs first b third := by
  have hjob : job first = (.ok a, second) := h
  change (ExceptT.bindCont next (job first).1) (job first).2 = (.ok b, third)
  rw [hjob]
  exact hnext

theorem on_bind_of_runs {s s' : σ} (h : job.Runs s a s') :
    (job >>= next).on s = (next a).on s' := by
  change (ExceptT.bindCont next (job s).1) (job s).2 = _
  rw [show job s = (.ok a, s') from h]
  rfl

theorem on_bind_of_error {s s' : σ} {fault : Error} (h : job.on s = (.error fault, s')) :
    (job >>= next).on s = (.error fault, s') := by
  change (ExceptT.bindCont next (job s).1) (job s).2 = _
  rw [show job s = (.error fault, s') from h]
  rfl

theorem runs_get (s : σ) : Runs (get : Job σ σ) s s s := rfl

theorem runs_modify (change : σ → σ) (s : σ) :
    Runs (modify change : Job σ PUnit) s PUnit.unit (change s) := rfl

theorem runs_inspect {look : σ → Except Error α} {s : σ} (h : look s = .ok a) :
    (inspect look).Runs s a s := by
  rw [Runs, inspect, h]

theorem on_inspect_of_error {look : σ → Except Error α} {s : σ} {fault : Error}
    (h : look s = .error fault) : (inspect look).on s = (.error fault, s) := by
  rw [on, inspect, h]

theorem runs_onSecond {before after : σ} (h : job.Runs before a after) (r : ρ) :
    (onSecond job).Runs (r, before) a (r, after) := by
  have hjob : job before = (.ok a, after) := h
  simp only [Runs, onSecond, hjob]

theorem runs_inside {part : ρ → π} {put : ρ → π → ρ} {job : Job (π × σ) α} {r : ρ} {p : π}
    {before after : σ} (h : job.Runs (part r, before) a (p, after)) :
    (inside part put job).Runs (r, before) a (put r p, after) := by
  have hjob : job (part r, before) = (.ok a, (p, after)) := h
  simp only [Runs, inside, hjob]

end Runs

section Keeps

variable {σ π α β : Type} {part : σ → π}

/-- A job leaves a part of the state alone, whether it goes through or not. -/
def Keeps (part : σ → π) (job : Job σ α) : Prop := ∀ s, part (job.on s).2 = part s

variable (part) in
/-- What comes after a job does not matter for a part of the state that it leaves alone. -/
theorem part_on_bind (job : Job σ α) {next : α → Job σ β} (h : ∀ a, Keeps part (next a)) (s : σ) :
    part ((job >>= next).on s).2 = part (job.on s).2 := by
  change part ((ExceptT.bindCont next (job.on s).1) (job.on s).2).2 = _
  cases (job.on s).1 with
  | ok a => exact h a _
  | error e => rfl

theorem keeps_pure (a : α) : Keeps part (pure a : Job σ α) := fun _ => rfl

theorem keeps_get : Keeps part (get : Job σ σ) := fun _ => rfl

theorem keeps_modify {change : σ → σ} (h : ∀ s, part (change s) = part s) :
    Keeps part (modify change : Job σ PUnit) := h

theorem keeps_bind {job : Job σ α} {next : α → Job σ β} (h : Keeps part job)
    (hnext : ∀ a, Keeps part (next a)) : Keeps part (job >>= next) :=
  fun s => (part_on_bind part job hnext s).trans (h s)

end Keeps

section Sure

variable {ρ π σ α β : Type}

/-- A job goes through from every state. -/
def Sure (job : Job σ α) : Prop := ∀ s, ∃ answer after, job.Runs s answer after

theorem sure_pure (a : α) : Sure (pure a : Job σ α) := fun s => ⟨a, s, runs_pure a s⟩

theorem sure_get : Sure (get : Job σ σ) := fun s => ⟨s, s, runs_get s⟩

theorem sure_modify (change : σ → σ) : Sure (modify change : Job σ PUnit) :=
  fun s => ⟨_, _, runs_modify change s⟩

theorem sure_bind {job : Job σ α} {next : α → Job σ β} (h : Sure job)
    (hnext : ∀ a, Sure (next a)) : Sure (job >>= next) := by
  intro s
  obtain ⟨a, middle, hjob⟩ := h s
  obtain ⟨b, after, hafter⟩ := hnext a middle
  exact ⟨b, after, runs_bind hjob hafter⟩

/-- A job that is left out under a condition, with what comes after it. -/
theorem sure_when (condition : Bool) {job : Job σ Unit} {next : Unit → Job σ α} (h : Sure job)
    (hnext : Sure (next ())) : Sure (if condition = true then job >>= next else next ()) := by
  cases condition with
  | true => exact sure_bind h fun _ => hnext
  | false => exact hnext

theorem sure_inspect {look : σ → Except Error α} (h : ∀ s, ∃ a, look s = .ok a) :
    Sure (inspect look) := by
  intro s
  obtain ⟨a, ha⟩ := h s
  exact ⟨a, s, runs_inspect ha⟩

theorem sure_onSecond {job : Job σ α} (h : Sure job) : Sure (onSecond job : Job (ρ × σ) α) := by
  rintro ⟨r, s⟩
  obtain ⟨a, after, hjob⟩ := h s
  exact ⟨a, (r, after), runs_onSecond hjob r⟩

theorem sure_inside {part : ρ → π} {put : ρ → π → ρ} {job : Job (π × σ) α} (h : Sure job) :
    Sure (inside part put job) := by
  rintro ⟨r, s⟩
  obtain ⟨a, ⟨p, after⟩, hjob⟩ := h (part r, s)
  exact ⟨a, (put r p, after), runs_inside hjob⟩

variable [BlobStore σ] [LawfulStore σ]

theorem sure_writeJson (key : String) (j : Json) : Sure (Store.writeJson key j : Job σ Unit) := by
  intro store
  obtain ⟨after, hput, -⟩ := LawfulStore.put_eq store key (packed key (bytesOfJson j))
  exact ⟨(), after, hput⟩

theorem sure_delete (key : String) : Sure (Store.delete key : Job σ Bool) := by
  intro store
  obtain ⟨found, after, hdel, -⟩ := LawfulStore.delete_eq store key
  exact ⟨found, after, hdel⟩

end Sure

end Job

end Ripple
