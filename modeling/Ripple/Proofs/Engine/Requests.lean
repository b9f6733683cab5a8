import Ripple.Proofs.Engine.Operations
import Ripple.Proofs.History.Onward

/-!
# What Is Asked of an Engine

An engine is asked for operations and for the property graph of the newest
snapshot. What a request does to the engine and to the store can be said without
the content of files: taking in a file is the same as storing the snapshot in
it, upkeep is left to the history, and a question for the property graph changes
the graph in memory only.

There are courses of requests after which the graph in memory is that of another
snapshot. For this a snapshot has to become the newest one again, with other
content, and so the newer ones have to become unreadable.

## Theorems

* `Engine.after_sending`, `Engine.after_maintain`, `Engine.after_propertyGraph`: What requests do.
-/

namespace Ripple

open List Store Job History

namespace Engine

variable {store : EitherStore}

/-- The property graph of a snapshot. -/
def graphOf (s : Snapshot) : PropertyGraph := .build s.outlines s.graph

/-- What is asked of an engine and its store. -/
inductive Request where
  | perform (op : Operation)
  | propertyGraph

namespace Request

/-- The engine and the store after a request, whether it went through or not. -/
def after {σ : Type} [BlobStore σ] (state : Engine × σ) : Request → Engine × σ
  | perform op => op.after state
  | propertyGraph => (Engine.propertyGraph.on state).2

/-- New snapshots get suffixes that show, from a clock that does not stand at the last time there
    is, and what is taken in has an id that is no path. -/
def Proper (store : EitherStore) : Request → Prop
  | perform (.call c) => store.Shows c.scene.salt ∧ c.scene.now ≠ Int64.maxValue
  | perform (.take path content) =>
    ∀ e, readExported path content = .ok e → store.Flat e.snapshot.id
  | _ => True

/-- What is proper depends on which ids show and which are no paths. -/
theorem Proper.congr {after : EitherStore} {r : Request} (h : r.Proper store)
    (hshows : after.Shows = store.Shows) (hflat : after.Flat = store.Flat) : r.Proper after := by
  cases r with
  | propertyGraph => exact trivial
  | perform op =>
    cases op with
    | call c => exact ⟨hshows ▸ h.1, h.2⟩
    | take path content => exact fun e hread => hflat ▸ h e hread
    | tag id tags description => exact trivial
    | maintain scene => exact trivial
    | reopen scene root config => exact trivial

end Request

/-- The engine and the store after some requests. -/
def serve {σ : Type} [BlobStore σ] (requests : List Request) (state : Engine × σ) : Engine × σ :=
  requests.foldl Request.after state

section Files

variable {path id : String} {content : ByteArray} {e : ExportedSnapshot} {after : EitherStore}

/-- What taking in a file does once it was read. -/
def bring (e : ExportedSnapshot) : Job EitherStore String := do
  if ← Job.inspect fun store => contains store e.snapshot.id then
    throw (.snapshotExists e.snapshot.id)
  else
    save e.snapshot
    saveNotes { e.notes with snapshotId := e.snapshot.id }
    return e.snapshot.id

theorem on_importFrom (hread : readExported path content = .ok e) (store : EitherStore) :
    (importFrom path content).on store = (bring e).on store :=
  on_bind_of_runs (runs_inspect hread)

/-- Storing a value leaves others alone, whether it goes through or not. -/
theorem ends_writeJson_apart (hs : store.Serves) {key : String} (hends : Path.EndsInName key)
    (j : Json) : (writeJson key j).Ends store fun _ last => last.Serves ∧
      ∀ other, store.Apart key other → blob? last other = blob? store other :=
  EitherStore.serves_put hs hends _

/-- A snapshot that is brought in leaves others alone, whether it is stored or not. -/
theorem ends_bring_apart (hs : store.Serves)
    (hapart : store.Apart (Keys.snapshot e.snapshot.id false) (Keys.snapshot id false)) :
    (bring e).Ends store fun _ last =>
      blob? last (Keys.snapshot id false) = blob? store (Keys.snapshot id false) := by
  refine ends_inspect_bind (fun _ _ => rfl) fun there _ => ?_
  cases there with
  | true => rfl
  | false =>
    refine ends_bind (ends_writeJson_apart hs (Keys.endsInName_snapshot _ _) _)
      (fun _ _ h => h.2 _ hapart) fun _ middle hmid => ?_
    refine Ends.then_pure ((ends_writeJson_apart hmid.1
      (Keys.orderly_notes _).endsInName _).imp fun _ _ h => ?_) _
    exact (h.2 _ (Keys.apart_notes_snapshot _ _ _)).trans (hmid.2 _ hapart)

theorem blob_of_bring (hs : store.Serves) (hread : readExported path content = .ok e)
    (h : (bring e).Runs store id after) :
    blob? after (Keys.snapshot e.snapshot.id false) = some (bytesOfJson e.snapshot.toJson) := by
  have hrun : (importFrom path content).Runs store id after := (on_importFrom hread store).trans h
  rcases runs_importFrom_iff.mp hrun with ⟨e', middle, hread', -, hsave, hnotes, -⟩
  cases hread.symm.trans hread'
  have hmid := (ends_writeJson_apart hs (Keys.endsInName_snapshot _ _) _).of_runs hsave
  have hafter := (ends_writeJson_apart hmid.1 (Keys.orderly_notes _).endsInName _).of_runs hnotes
  rw [hafter.2 _ (Keys.apart_notes_snapshot _ _ _), RetentiveStore.blob_of_put hsave, packed,
    isPacked_snapshot, if_neg Bool.false_ne_true]

theorem after_take (hread : readExported path content = .ok e) (state : Engine × EitherStore) :
    (Operation.take path content).after state = (state.1, ((bring e).on state.2).2) := by
  have hends : (Job.onSecond (importFrom path content)).Ends state
      fun _ last => last = (state.1, ((bring e).on state.2).2) := by
    rw [← on_importFrom hread]
    rfl
  exact hends.then_pure fun _ => ()

/-- A store after upkeep. -/
def upkept (config : Config) (scene : Scene) (store : EitherStore) : EitherStore :=
  ((History.maintain config.retention config.compressAfterHours scene.now).on store).2

theorem after_maintain (scene : Scene) (state : Engine × EitherStore) :
    (Operation.maintain scene).after state = (state.1, upkept state.1.config scene state.2) := by
  have hends : (Engine.maintain scene).Ends state
      fun _ last => last = (state.1, upkept state.1.config scene state.2) :=
    ends_bind_of_runs (runs_get state) rfl
  exact hends.then_pure fun _ => ()

section Asked

variable {engine : Engine} {s : Snapshot} (hlatest : History.latest store = .ok (some s))
include hlatest

theorem runs_propertyGraph : propertyGraph.Runs (engine, store) (engine.propertyGraphOf s)
    ({ engine with property := some (s.id, engine.propertyGraphOf s) }, store) := by
  have hlook : (look fun store => History.latest store : Job (Engine × EitherStore) _).Runs
      (engine, store) (some s) (engine, store) := runs_inspect hlatest
  exact runs_bind hlook rfl

/-- The first graph that is asked for is built and kept. -/
theorem after_propertyGraph (hempty : engine.property = none) :
    Request.propertyGraph.after (engine, store) =
      ({ engine with property := some (s.id, graphOf s) }, store) := by
  have hgraph : engine.propertyGraphOf s = graphOf s := by
    rw [propertyGraphOf, hempty]
    rfl
  rw [← hgraph]
  exact congrArg Prod.snd (runs_propertyGraph hlatest)

/-- A graph that is found in memory for the newest snapshot is used, whatever it is. -/
theorem propertyGraph_of_kept {g : PropertyGraph} (hkept : engine.property = some (s.id, g)) :
    (propertyGraph.on (engine, store)).1 = .ok g := by
  have hgraph : engine.propertyGraphOf s = g := by
    rw [propertyGraphOf, hkept]
    exact if_pos rfl
  rw [← hgraph]
  exact congrArg Prod.fst (runs_propertyGraph hlatest)

end Asked

/-- What the file of a snapshot without notes holds. -/
def sent (s : Snapshot) : ExportedSnapshot := ⟨exportVersion, "", s, .none s.id⟩

/-- The file of a snapshot is taken in. -/
def sending (s : Snapshot) : Request := .perform (.take "s.json" (bytesOfJson (sent s).toJson))

/-- The store afterwards, whether it went through or not. -/
def brought (s : Snapshot) (store : EitherStore) : EitherStore := ((bring (sent s)).on store).2

theorem readExported_sent (s : Snapshot) :
    readExported "s.json" (bytesOfJson (sent s).toJson) = .ok (sent s) := by
  have hplain : isPackedFile "s.json" = false := by decide +kernel
  have hread := readExported_file "s.json" (e := sent s) (UInt32.lt_irrefl exportVersion)
  rwa [hplain] at hread

theorem proper_sending {s : Snapshot} (h : store.Flat s.id) : (sending s).Proper store := by
  intro e hread
  rw [readExported_sent] at hread
  cases hread
  exact h

theorem after_sending (s : Snapshot) (state : Engine × EitherStore) :
    (sending s).after state = (state.1, brought s state.2) :=
  after_take (readExported_sent s) state

theorem onward_brought {s : Snapshot} (hs : Sound store) (hflat : store.Flat s.id) :
    Onward store (brought s store) := by
  have hends := ends_importFrom_onward hs (proper_sending hflat)
  rwa [Ends, on_importFrom (readExported_sent s)] at hends

theorem blob_brought {s : Snapshot} (hs : store.Serves)
    (h : ((bring (sent s)).on store).1 = .ok id) :
    blob? (brought s store) (Keys.snapshot s.id false) = some (bytesOfJson s.toJson) := by
  have hblob := blob_of_bring hs (readExported_sent s) (runs_on h)
  exact hblob

end Files

/-- What happens before a property graph is stale. -/
structure Course where
  /-- A snapshot that is taken in first. Its property graph is asked for. -/
  first : Snapshot
  /-- A snapshot that is newer, so that the first one is removed. -/
  second : Snapshot
  /-- A snapshot that takes the place of the first one. -/
  changed : Snapshot
  /-- It has the id of the first one. -/
  same : changed.id = first.id
  /-- A snapshot that gets in the way of the second one. -/
  blocking : Snapshot
  config : Config
  scene : Scene

namespace Course

variable {c : Course} {store : EitherStore}

/-- The requests up to the return of the first id. -/
def requests (c : Course) : List Request :=
  [sending c.first, .propertyGraph, sending c.second, .perform (.maintain c.scene),
    sending c.changed]

/-- The store with the first snapshot. -/
def withFirst (c : Course) (store : EitherStore) : EitherStore := brought c.first store

/-- The store with the second snapshot, after upkeep. -/
def withSecond (c : Course) (store : EitherStore) : EitherStore :=
  upkept c.config c.scene (brought c.second (c.withFirst store))

/-- The store with the first id again. -/
def withChanged (c : Course) (store : EitherStore) : EitherStore :=
  brought c.changed (c.withSecond store)

/-- The store with something in the way of the second snapshot. -/
def blocked (c : Course) (store : EitherStore) : EitherStore :=
  brought c.blocking (c.withChanged store)

/-- What is listed on the way, and that the second snapshot cannot be read at the end. The contents
    of the files do not matter for this. -/
def Blocks (c : Course) (store : EitherStore) : Prop :=
  (((bring (sent c.first)).on store).1 = .ok c.first.id ∧
      ids (c.withFirst store) = .ok [c.first.id]) ∧
    (((bring (sent c.changed)).on (c.withSecond store)).1 = .ok c.first.id ∧
      ids (c.withChanged store) = .ok [c.first.id, c.second.id]) ∧
    ids (c.blocked store) = .ok [c.first.id, c.second.id] ∧
      (load? (c.blocked store) c.second.id).isNone

instance : Decidable (c.Blocks store) := by
  unfold Blocks
  infer_instance

theorem proper_requests (hfirst : store.Flat c.first.id) (hsecond : store.Flat c.second.id) :
    ∀ r ∈ c.requests, r.Proper store := by
  simp only [requests, forall_mem_cons]
  refine ⟨proper_sending hfirst, trivial, proper_sending hsecond, trivial, ?_, ?_⟩
  · exact proper_sending (c.same ▸ hfirst)
  · exact fun _ hnone => absurd hnone not_mem_nil

section Sound

variable (hs : Sound store) (hfirst : store.Flat c.first.id) (hsecond : store.Flat c.second.id)
include hs hfirst hsecond

theorem onward_withSecond : Onward store (c.withSecond store) := by
  have hon := onward_brought hs hfirst
  have hon' := hon.trans (onward_brought hon.sound (hon.flat ▸ hsecond))
  exact hon'.trans (advances_maintain _ _ _ _ hon'.sound)

theorem onward_withChanged : Onward store (c.withChanged store) := by
  have hon := onward_withSecond hs hfirst hsecond
  exact hon.trans (onward_brought hon.sound (hon.flat ▸ c.same ▸ hfirst))

end Sound

theorem latest_withFirst (hs : store.Serves) (h : c.Blocks store) :
    History.latest (c.withFirst store) = .ok (some c.first) := by
  rcases h with ⟨⟨htaken, hids⟩, -⟩
  have hids' : ids (c.withFirst store) = .ok ([] ++ c.first.id :: []) := hids
  exact latest_of_load hids' (load_of_form (blob_brought hs htaken)) fun _ hnone =>
    absurd hnone not_mem_nil

/-- When the second snapshot is blocked, the newest one has the first id. -/
theorem latest_blocked (hs : Sound store) (hfirst : store.Flat c.first.id)
    (hsecond : store.Flat c.second.id) (h : c.Blocks store)
    (hapart : ∀ other : EitherStore, other.Apart (Keys.snapshot c.blocking.id false)
      (Keys.snapshot c.first.id false)) :
    History.latest (c.blocked store) = .ok (some c.changed) := by
  rcases h with ⟨-, ⟨htaken, -⟩, hids, hnone⟩
  have hstored := blob_brought (onward_withSecond hs hfirst hsecond).sound.ready.serves htaken
  have hserves := (onward_withChanged hs hfirst hsecond).sound.ready.serves
  have hkept : blob? (c.blocked store) (Keys.snapshot c.first.id false) =
      blob? (c.withChanged store) (Keys.snapshot c.first.id false) :=
    ends_bring_apart (e := sent c.blocking) hserves (hapart _)
  rw [c.same] at hstored
  have hids' : ids (c.blocked store) = .ok ([] ++ c.first.id :: [c.second.id]) := hids
  refine latest_of_load hids' (load_of_form (hkept.trans hstored)) fun other hother => ?_
  rw [mem_singleton.mp hother]
  exact Option.isNone_iff_eq_none.mp hnone

section Served

variable {engine : Engine} (hconfig : engine.config = c.config) (hempty : engine.property = none)
include hconfig hempty

theorem serve_requests (hlatest : History.latest (c.withFirst store) = .ok (some c.first)) :
    serve c.requests (engine, store) =
      ({ engine with property := some (c.first.id, graphOf c.first) }, c.withChanged store) := by
  have hfirst : (sending c.first).after (engine, store) = (engine, c.withFirst store) :=
    after_sending c.first _
  have hquery : Request.propertyGraph.after (engine, c.withFirst store) =
      ({ engine with property := some (c.first.id, graphOf c.first) }, c.withFirst store) :=
    after_propertyGraph hlatest hempty
  have hupkeep : ∀ state : Engine × EitherStore, (Request.perform (.maintain c.scene)).after state =
      (state.1, upkept state.1.config c.scene state.2) := after_maintain c.scene
  unfold serve requests
  rw [foldl_cons, hfirst, foldl_cons, hquery, foldl_cons, after_sending,
    foldl_cons, hupkeep, foldl_cons, after_sending, hconfig]
  rfl

variable (hs : Sound store) (hfirst : store.Flat c.first.id) (hsecond : store.Flat c.second.id)
  (h : c.Blocks store)
include hs hfirst hsecond h

/-- The newest snapshot is the second one as long as it is not blocked. -/
theorem latest_requests : ∃ s, History.latest (serve c.requests (engine, store)).2 = .ok (some s) ∧
      s.id = c.second.id := by
  rw [serve_requests hconfig hempty (latest_withFirst hs.ready.serves h)]
  rcases h with ⟨-, ⟨-, hids⟩, -⟩
  have hids' : ids (c.withChanged store) = .ok ([c.first.id] ++ [c.second.id]) := hids
  have hsound := (onward_withChanged hs hfirst hsecond).sound
  rcases hsound.latest_of_ids hids' with ⟨s, hlatest, -, hid⟩
  exact ⟨s, hlatest, hid⟩

/-- Then the newest snapshot is the changed one, and the property graph is that of the first one. -/
theorem stale_of_blocks
    (hapart : ∀ other : EitherStore, other.Apart (Keys.snapshot c.blocking.id false)
      (Keys.snapshot c.first.id false)) :
    History.latest (serve (c.requests ++ [sending c.blocking]) (engine, store)).2 =
        .ok (some c.changed) ∧
      (propertyGraph.on (serve (c.requests ++ [sending c.blocking]) (engine, store))).1 =
        .ok (graphOf c.first) := by
  have hserve : serve (c.requests ++ [sending c.blocking]) (engine, store) =
      ({ engine with property := some (c.first.id, graphOf c.first) }, c.blocked store) := by
    rw [serve, foldl_concat, ← serve,
      serve_requests hconfig hempty (latest_withFirst hs.ready.serves h)]
    exact after_sending c.blocking _
  have hlatest := latest_blocked hs hfirst hsecond h hapart
  rw [hserve]
  refine ⟨hlatest, propertyGraph_of_kept hlatest ?_⟩
  rw [c.same]

end Served

end Course

/-- The second snapshot of this course is blocked by one whose id is a path through its name. -/
def sampleCourse : Course where
  first := bare "4"
  second := bare "5"
  changed := { bare "4" with outlines := Dict.empty.insert "a" (.empty "a" "") }
  same := rfl
  blocking := bare "5.json/y"
  config := { Config.standard with retention := ⟨none, some 0, false⟩, compressAfterHours := 0 }
  scene := Tracker.bare 10

theorem blocks_sampleCourse : sampleCourse.Blocks (directoryWith []) := by decide +kernel

theorem flat_sampleCourse : (directoryWith []).Flat sampleCourse.first.id ∧
    (directoryWith []).Flat sampleCourse.second.id :=
  ⟨show '/' ∉ "4".toList by decide, show '/' ∉ "5".toList by decide⟩

/-- An engine with the settings of this course that was opened on an empty directory. -/
def opened : Engine := ofStore (Tracker.bare 1) (directoryWith []) "/p" sampleCourse.config

theorem config_opened : opened.config = sampleCourse.config := rfl

theorem property_opened : opened.property = none := rfl

end Engine

end Ripple
