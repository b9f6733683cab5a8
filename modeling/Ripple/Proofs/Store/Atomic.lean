import Ripple.Proofs.Store.Lawful

/-!
# Stores Whose Writes May Fail

A store in a directory can run out of space or lose its rights, so a write
can fail. What can be hoped for is that it does not fail by half: a write that
fails leaves everything as it was, and one that goes through does what it
should. Reading does not fail here. Every lawful store is atomic.

A job of several writes can still stop half way, and what it wrote until then
stays. So a job on such a store is described by how it ends: `Ends` says what
holds of its answer or error and of the state that it leaves, which composes
in sequence as `Runs` does. Most jobs write under certain keys only, and leave
all other keys alone wherever they stop.

## Theorems

* `Job.runs_bind_iff`: Jobs in sequence go through iff each of them does.
* `Job.avoids_bind`, `Job.avoids_put`, `Job.avoids_delete`: Jobs that leave keys alone.
-/

namespace Ripple

open Store

/-- A store whose reads do not fail, and whose writes go through or change nothing. -/
class AtomicStore (σ : Type) [BlobStore σ] : Prop where
  get_eq : ∀ (store : σ) (key : String), BlobStore.get store key = .ok (blob? store key)
  /-- Bytes are put under one key and nothing else changes, or nothing changes at all. -/
  put_cases : ∀ (store : σ) (key : String) (bytes : ByteArray), ∃ after,
    (BlobStore.put store key bytes = (.ok (), after) ∧
        ∀ other, blob? after other = if other = key then some bytes else blob? store other) ∨
      ∃ e, BlobStore.put store key bytes = (.error e, after) ∧
        ∀ other, blob? after other = blob? store other
  /-- The keys that begin with a text are listed. -/
  list_eq : ∀ (store : σ) (front : String), ∃ keys, BlobStore.list store front = .ok keys ∧
    ∀ key, key ∈ keys ↔ (blob? store key).isSome ∧ beginsWith key front = true
  /-- One key is removed and nothing else changes, or nothing changes at all. -/
  delete_cases : ∀ (store : σ) (key : String), ∃ after,
    (∃ found, BlobStore.delete store key = (.ok found, after) ∧
        ∀ other, blob? after other = if other = key then none else blob? store other) ∨
      ∃ e, BlobStore.delete store key = (.error e, after) ∧
        ∀ other, blob? after other = blob? store other

/-- A store whose writes never fail is atomic. -/
instance {σ : Type} [BlobStore σ] [LawfulStore σ] : AtomicStore σ where
  get_eq := LawfulStore.get_eq
  put_cases store key bytes := by
    obtain ⟨after, hput, hblob⟩ := LawfulStore.put_eq store key bytes
    exact ⟨after, .inl ⟨hput, hblob⟩⟩
  list_eq := LawfulStore.list_eq
  delete_cases store key := by
    obtain ⟨found, after, hdel, hblob⟩ := LawfulStore.delete_eq store key
    exact ⟨after, .inl ⟨found, hdel, hblob⟩⟩

namespace Job

section Ends

variable {ρ π σ α β : Type} {job : Job σ α} {next : α → Job σ β} {s s' : σ}

variable {P : Except Error α → σ → Prop} {a : α}

/-- Something holds of the answer or the error of a job and of the state that it leaves. -/
def Ends (job : Job σ α) (s : σ) (P : Except Error α → σ → Prop) : Prop :=
  P (job.on s).1 (job.on s).2

theorem Ends.of_runs (h : job.Ends s P) (hrun : job.Runs s a s') : P (.ok a) s' := by
  rw [Ends, show job.on s = (.ok a, s') from hrun] at h
  exact h

theorem Ends.exists_runs (h : job.Ends s P) (hsure : Sure job) :
    ∃ a s', job.Runs s a s' ∧ P (.ok a) s' := by
  obtain ⟨a, s', hrun⟩ := hsure s
  exact ⟨a, s', hrun, h.of_runs hrun⟩

theorem Ends.imp {Q : Except Error α → σ → Prop} (h : job.Ends s P)
    (himp : ∀ result after, P result after → Q result after) : job.Ends s Q :=
  himp _ _ h

/-- Jobs in sequence: an error of the first one is the end, and an answer is handed on. -/
theorem ends_bind {Q : Except Error β → σ → Prop} (h : job.Ends s P)
    (herror : ∀ e s', P (.error e) s' → Q (.error e) s')
    (hnext : ∀ a s', P (.ok a) s' → (next a).Ends s' Q) :
    (job >>= next).Ends s Q := by
  rw [Ends] at h
  change Q ((ExceptT.bindCont next (job.on s).1) (job.on s).2).1
    ((ExceptT.bindCont next (job.on s).1) (job.on s).2).2
  generalize job.on s = ended at h ⊢
  obtain ⟨result, after⟩ := ended
  cases result with
  | ok a => exact hnext a after h
  | error e => exact herror e after h

theorem Ends.then_pure {P : σ → Prop} (h : job.Ends s fun _ after => P after) (answer : α → β) :
    (job >>= fun a => pure (answer a)).Ends s fun _ after => P after :=
  ends_bind h (fun _ _ hafter => hafter) fun _ _ hafter => hafter

theorem ends_bind_of_runs {P : Except Error β → σ → Prop} (h : job.Runs s a s')
    (hnext : (next a).Ends s' P) : (job >>= next).Ends s P := by
  rw [Ends, on_bind_of_runs h]
  exact hnext

theorem ends_inspect_bind {look : σ → Except Error α} {P : Except Error β → σ → Prop}
    (herror : ∀ e, look s = .error e → P (.error e) s)
    (hnext : ∀ a, look s = .ok a → (next a).Ends s P) : (inspect look >>= next).Ends s P := by
  cases hlook : look s with
  | error e =>
    rw [Ends, on_bind_of_error (on_inspect_of_error hlook)]
    exact herror e hlook
  | ok a => exact ends_bind_of_runs (runs_inspect hlook) (hnext a hlook)

theorem ends_onSecond {r : ρ} {P : Except Error α → ρ × σ → Prop}
    (h : job.Ends s fun result after => P result (r, after)) :
    (onSecond job).Ends (r, s) P := h

theorem ends_inside {part : ρ → π} {put : ρ → π → ρ} {job : Job (π × σ) α} {r : ρ}
    {P : Except Error α → ρ × σ → Prop}
    (h : job.Ends (part r, s) fun result after => P result (put r after.1, after.2)) :
    (inside part put job).Ends (r, s) P := h

theorem runs_bind_iff {b : β} {third : σ} : (job >>= next).Runs s b third ↔
    ∃ a second, job.Runs s a second ∧ (next a).Runs second b third := by
  constructor
  · intro h
    change (ExceptT.bindCont next (job.on s).1) (job.on s).2 = (.ok b, third) at h
    cases hres : (job.on s).1 with
    | ok a =>
      rw [hres] at h
      exact ⟨a, (job.on s).2, Prod.ext hres rfl, h⟩
    | error e =>
      rw [hres] at h
      cases (Prod.mk.inj h).1
  · rintro ⟨a, second, hjob, hnext⟩
    exact runs_bind hjob hnext

theorem runs_bind_of_runs {second third : σ} {b : β} (h : job.Runs s a second) :
    (job >>= next).Runs s b third ↔ (next a).Runs second b third :=
  Eq.congr_left (on_bind_of_runs h)

theorem exists_runs_bind {second : σ} (h : job.Runs s a second)
    (hnext : ∃ b third, (next a).Runs second b third) :
    ∃ b third, (job >>= next).Runs s b third := by
  obtain ⟨b, third, hthird⟩ := hnext
  exact ⟨b, third, runs_bind h hthird⟩

theorem Keeps.of_runs {part : σ → π} (h : Keeps part job) (hrun : job.Runs s a s') :
    part s' = part s := by
  rw [← h s, show job.on s = (.ok a, s') from hrun]

theorem runs_get_iff {a : σ} : (get : Job σ σ).Runs s a s' ↔ s = a ∧ s = s' := by
  constructor
  · intro h
    obtain ⟨hans, hstate⟩ := Prod.mk.inj h
    exact ⟨Except.ok.inj hans, hstate⟩
  · rintro ⟨rfl, rfl⟩
    exact runs_get s

theorem runs_pure_iff {b : α} : (pure a : Job σ α).Runs s b s' ↔ a = b ∧ s = s' := by
  constructor
  · intro h
    obtain ⟨hans, hstate⟩ := Prod.mk.inj h
    exact ⟨Except.ok.inj hans, hstate⟩
  · rintro ⟨rfl, rfl⟩
    exact runs_pure a s

end Ends

section Writes

variable {σ : Type} [BlobStore σ] [AtomicStore σ] {store after : σ} {key : String}

theorem runs_get_blob (store : σ) (key : String) :
    (Store.get key).Runs store (blob? store key) store :=
  runs_inspect (AtomicStore.get_eq store key)

/-- What a store holds after a write that went through. -/
theorem blob_of_put {bytes : ByteArray} {answer : Unit}
    (h : (Store.put key bytes).Runs store answer after) (other : String) :
    blob? after other = if other = key then some bytes else blob? store other := by
  rw [Runs, Store.put] at h
  obtain ⟨after', ⟨hput, hblob⟩ | ⟨e, hput, -⟩⟩ := AtomicStore.put_cases store key bytes
  · rw [hput] at h
    obtain rfl := (Prod.mk.inj h).2
    exact hblob other
  · rw [hput] at h
    cases (Prod.mk.inj h).1

/-- What a store holds after a removal that went through. -/
theorem blob_of_delete {found : Bool} (h : (Store.delete key).Runs store found after)
    (other : String) : blob? after other = if other = key then none else blob? store other := by
  rw [Runs, Store.delete] at h
  obtain ⟨after', ⟨found', hdel, hblob⟩ | ⟨e, hdel, -⟩⟩ := AtomicStore.delete_cases store key
  · rw [hdel] at h
    obtain rfl := (Prod.mk.inj h).2
    exact hblob other
  · rw [hdel] at h
    cases (Prod.mk.inj h).1

end Writes

section Avoids

variable {σ α β : Type} [BlobStore σ] {front : String}

variable {key : String}

/-- A job leaves the keys that begin with a text alone, whether it goes through or not. -/
def Avoids (front : String) (job : Job σ α) : Prop :=
  ∀ store, job.Ends store fun _ after => AgreeBelow front store after

theorem Avoids.onSecond {ρ : Type} {job : Job σ α} (h : Avoids front job) (r : ρ) (store : σ) :
    (Job.onSecond job).Ends (r, store) fun _ after =>
      after.1 = r ∧ AgreeBelow front store after.2 :=
  ends_onSecond ⟨rfl, h store⟩

theorem avoids_pure (a : α) : Avoids front (pure a : Job σ α) :=
  fun store => agreeBelow_refl front store

theorem avoids_bind {job : Job σ α} {next : α → Job σ β} (h : Avoids front job)
    (hnext : ∀ a, Avoids front (next a)) : Avoids front (job >>= next) := by
  intro store
  refine ends_bind (h store) (fun _ _ hagree => hagree) fun a middle hagree => ?_
  exact (hnext a middle).imp fun _ _ hafter => hagree.trans hafter

theorem avoids_inspect (look : σ → Except Error α) : Avoids front (inspect look) :=
  fun store => agreeBelow_refl front store

theorem avoids_ignoringFailure {job : Job σ Unit} (h : Avoids front job) :
    Avoids front (ignoringFailure job) := h

theorem ne_of_beginsWith {other : String} (h : beginsWith key front = false)
    (hother : beginsWith other front = true) : other ≠ key := by
  rintro rfl
  exact nomatch h.symm.trans hother

variable [AtomicStore σ]

theorem avoids_put (h : beginsWith key front = false) (bytes : ByteArray) :
    Avoids front (Store.put key bytes : Job σ Unit) := by
  intro store other hother
  obtain ⟨after, ⟨hput, hblob⟩ | ⟨e, hput, hblob⟩⟩ := AtomicStore.put_cases store key bytes
  · rw [show (Store.put key bytes : Job σ Unit).on store = _ from hput, hblob,
      if_neg (ne_of_beginsWith h hother)]
  · rw [show (Store.put key bytes : Job σ Unit).on store = _ from hput, hblob]

theorem avoids_writeJson (h : beginsWith key front = false) (j : Json) :
    Avoids front (Store.writeJson key j : Job σ Unit) :=
  avoids_put h _

theorem avoids_delete (h : beginsWith key front = false) :
    Avoids front (Store.delete key : Job σ Bool) := by
  intro store other hother
  obtain ⟨after, ⟨found, hdel, hblob⟩ | ⟨e, hdel, hblob⟩⟩ :=
    AtomicStore.delete_cases store key
  · rw [show (Store.delete key : Job σ Bool).on store = _ from hdel, hblob,
      if_neg (ne_of_beginsWith h hother)]
  · rw [show (Store.delete key : Job σ Bool).on store = _ from hdel, hblob]

end Avoids

end Job

end Ripple
