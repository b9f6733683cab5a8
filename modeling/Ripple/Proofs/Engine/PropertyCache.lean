import Ripple.Proofs.Engine.Requests
import Ripple.Proofs.Tracker.Onward

/-!
# The Property Graph in Memory

An engine keeps the property graph that it built last, with the id of its
snapshot, and uses it again when it is asked about a snapshot with this id. The
graph is never dropped: not when the snapshot is removed, and not when another
one with its id is taken in. So it is the right one only if no snapshot becomes
the newest one again with other content.

This is so because a history goes onward. Of the graph in memory one can always
say that its snapshot is still there and is read as it was, or that there is a
newer one. In the second case it will never be asked for again.

It can fail in a directory if an id that is taken in is a path: what is stored
for it may then be in the way of the newest snapshot, so that an older one takes
its place.

## Theorems

* `Engine.renewed_after`, `Engine.renewed_serve`: Requests keep the graph in memory usable.
* `Engine.propertyGraph_eq_build`: The property graph is always that of the newest snapshot.
* `Engine.propertyGraph_ne_build`: Not so if an id is a path.
-/

namespace Ripple

open Store Job History

namespace Engine

/-- A property graph for an id can be used again: it is that of the snapshot that is read under this
    id, or there is a newer snapshot. -/
def Fresh (store : EitherStore) (id : String) (g : PropertyGraph) : Prop :=
  (∃ newer, Listed store newer ∧ Ord.compare id newer = .lt) ∨
    ∃ s, Listed store id ∧ reading store id = .ok s ∧ g = graphOf s

/-- The property graph in memory can be used again. -/
def Current (state : Engine × EitherStore) : Prop :=
  ∀ id g, state.1.property = some (id, g) → Fresh state.2 id g

variable {store : EitherStore} {state : Engine × EitherStore}

theorem Fresh.onward {after : EitherStore} {id : String} {g : PropertyGraph} (h : Fresh store id g)
    (hon : Onward store after) : Fresh after id g := by
  rcases h with ⟨newer, hnewer, hlt⟩ | ⟨s, hid, hread, hg⟩
  · rcases hon.later newer hnewer with ⟨newer', hnewer', hle⟩
    refine .inl ⟨newer', hnewer', ?_⟩
    rcases hle with rfl | hle
    · exact hlt
    · exact Std.TransCmp.lt_trans hlt hle
  · by_cases hpass : ∃ newer, Listed after newer ∧ Ord.compare id newer = .lt
    · exact .inl hpass
    · -- Nothing is newer, so it is still the newest one and is read as before.
      right
      rcases hon.later id hid with ⟨id', hid', hle⟩
      have hsame : id = id' := hle.resolve_right fun hlt => hpass ⟨id', hid', hlt⟩
      subst hsame
      have hmax : ∀ other, Listed after other → other = id ∨ Ord.compare other id = .lt := by
        intro other hother
        cases hcmp : Ord.compare other id with
        | lt => exact .inr rfl
        | eq => exact .inl (Std.LawfulEqOrd.eq_of_compare hcmp)
        | gt => exact absurd ⟨other, hother, Std.OrientedCmp.gt_iff_lt.mp hcmp⟩ hpass
      rcases hon.newest id hid' hmax with ⟨-, hsame⟩ | hall
      · exact ⟨s, hid', hsame.trans hread, hg⟩
      · exact absurd (hall id hid) (compare_self_ne_lt id)

theorem Current.onward {last : Engine × EitherStore} (h : Current state)
    (hon : Onward state.2 last.2) (hsame : last.1.property = state.1.property) :
    Current last :=
  fun id g hprop => (h id g (hsame ▸ hprop)).onward hon

theorem fresh_graphOf {s : Snapshot} (hid : Listed store s.id)
    (hread : reading store s.id = .ok s) : Fresh store s.id (graphOf s) :=
  .inr ⟨s, hid, hread, rfl⟩

/-- What is found in memory for the newest snapshot is its graph. -/
theorem propertyGraphOf_eq (hs : Sound state.2) (h : Current state) {s : Snapshot}
    (hlatest : History.latest state.2 = .ok (some s)) : state.1.propertyGraphOf s = graphOf s := by
  rcases hs.latest_spec hlatest with ⟨hid, hread, hmax⟩
  unfold propertyGraphOf
  split
  next id g hprop =>
    by_cases hsame : id = s.id
    · rw [if_pos hsame]
      subst hsame
      rcases h s.id g hprop with ⟨newer, hnewer, hlt⟩ | ⟨s', -, hread', hg⟩
      · exact absurd hlt (not_lt_of_eq_or_lt (hmax newer hnewer))
      · rw [hg, Except.ok.inj (hread.symm.trans hread')]
    · rw [if_neg hsame]
      rfl
  · rfl

/-- A look at the store, with what comes after it. -/
theorem ends_look_bind {σ α β : Type} {read : σ → Except Error α} {next : α → Job (Engine × σ) β}
    {state : Engine × σ} {P : Except Error β → Engine × σ → Prop}
    (herror : ∀ e, read state.2 = .error e → P (.error e) state)
    (hnext : ∀ a, read state.2 = .ok a → (next a).Ends state P) :
    (look read >>= next).Ends state P := by
  have hlook : (look read : Job (Engine × σ) α) = inspect fun state => read state.2 := rfl
  exact ends_inspect_bind herror hnext

/-- A question for the property graph is answered with that of the newest snapshot, and leaves one
    in memory that can be used again. -/
theorem ends_propertyGraph (hs : Sound state.2) (h : Current state) :
    (propertyGraph : Job (Engine × EitherStore) PropertyGraph).Ends state fun result last =>
      (Onward state.2 last.2 ∧ Current last) ∧
        ∀ s, History.latest state.2 = .ok (some s) → result = .ok (graphOf s) := by
  refine ends_look_bind (fun e herror => ⟨⟨.refl hs, h⟩, fun s hlatest => ?_⟩)
    fun newest hnew => ?_
  · rw [herror] at hlatest
    cases hlatest
  · cases newest with
    | none =>
      refine ⟨⟨.refl hs, h⟩, fun s hlatest => ?_⟩
      rw [hnew] at hlatest
      cases hlatest
    | some s =>
      rcases hs.latest_spec hnew with ⟨hid, hread, -⟩
      have hgraph := propertyGraphOf_eq hs h hnew
      refine ⟨⟨.refl hs, fun id g hprop => ?_⟩, fun s' hlatest => ?_⟩
      · rcases Prod.mk.inj (Option.some.inj hprop) with ⟨rfl, rfl⟩
        rw [hgraph]
        exact fresh_graphOf hid hread
      · rw [hnew] at hlatest
        cases hlatest
        exact congrArg Except.ok hgraph

theorem fresh_of_load (hs : Sound store) {id : String} (hshows : store.Shows id) {s : Snapshot}
    (hload : load store id = .ok s) : Fresh store s.id (graphOf s) := by
  have hid := listed_of_load hshows hload
  rcases hs.reading_of_listed hid with ⟨s', hread, hsame⟩
  rw [hs.load_eq_reading hid, hread] at hload
  cases hload
  subst hsame
  exact fresh_graphOf hid hread

section Calls

variable {α : Type} {shown : String → Prop} {scene : Scene}

/-- The history went onward, and the graph in memory can be used again. -/
def Renewed (state last : Engine × EitherStore) : Prop := Onward state.2 last.2 ∧ Current last

theorem Renewed.refl (hs : Sound state.2) (h : Current state) : Renewed state state :=
  ⟨.refl hs, h⟩

/-- A job of the tracker does not touch the graph in memory. -/
theorem ends_onTracker {job : Job (Tracker × EitherStore) α} {kind : α → Prop}
    (hjob : Yields shown Prod.snd job kind) (hs : Sound state.2) (hshown : state.2.Shows = shown)
    (h : Current state) : (onTracker job).Ends state fun result last =>
      Renewed state last ∧ ∀ a, result = .ok a → kind a := by
  rcases hjob (state.1.tracker, state.2) hs hshown with ⟨hon, hkind⟩
  exact ⟨⟨hon, h.onward hon rfl⟩, hkind⟩

/-- A job on the store does not touch the graph in memory either. -/
theorem ends_onSecond_renewed {job : Job EitherStore α}
    (hjob : job.Ends state.2 fun _ last => Onward state.2 last) (h : Current state) :
    (Job.onSecond job).Ends state fun _ last => Renewed state last :=
  ⟨hjob, h.onward hjob rfl⟩

theorem ends_analyzeSnapshot (hs : Sound state.2) (h : Current state) (previousId : String)
    {current : Snapshot} (hcur : Fresh state.2 current.id (graphOf current)) :
    (analyzeSnapshot previousId current).Ends state fun _ last => Renewed state last := by
  refine ends_look_bind (fun _ _ => .refl hs h) fun previous _ => ?_
  refine ⟨.refl hs, fun id g hprop => ?_⟩
  rcases Prod.mk.inj (Option.some.inj hprop) with ⟨rfl, rfl⟩
  exact hcur

theorem ends_analyze (hsalt : shown scene.salt) (hnow : scene.now ≠ Int64.maxValue)
    (changed : List String) (hs : Sound state.2) (hshown : state.2.Shows = shown)
    (h : Current state) : (analyze scene changed).Ends state fun _ last => Renewed state last := by
  refine ends_bind_of_runs (runs_get state) (ends_bind_of_runs (runs_publish _ state) ?_)
  refine ends_bind (ends_onTracker (Tracker.yields_track hsalt hnow changed) hs hshown h)
    (fun _ _ hlast => hlast.1) ?_
  rintro outcome middle ⟨⟨hon, hmid⟩, hid⟩
  by_cases hcreated : outcome.created = true
  · simp only [hcreated, Bool.not_true, Bool.false_eq_true, if_false]
    refine ends_look_bind (fun _ _ => ⟨hon, hmid⟩) fun current hload => ?_
    refine ends_bind_of_runs (runs_publish _ middle) ?_
    cases outcome.previousId with
    | none => exact ⟨hon, hmid⟩
    | some previousId =>
      have hshows : middle.2.Shows outcome.snapshotId := by
        rw [hon.shows, hshown]
        exact hid outcome rfl hcreated
      have hcur := fresh_of_load hon.sound hshows hload
      refine Ends.then_pure ((ends_analyzeSnapshot ?_ ?_ previousId ?_).imp ?_) _
      · exact hon.sound
      · exact hmid
      · exact hcur
      · exact fun _ _ hlast => ⟨hon.trans hlast.1, hlast.2⟩
  · simp only [hcreated, Bool.not_false, if_true]
    exact ⟨hon, hmid⟩

theorem ends_call (c : Call) (hsalt : shown c.scene.salt) (hnow : c.scene.now ≠ Int64.maxValue)
    (hs : Sound state.2) (hshown : state.2.Shows = shown) (h : Current state) :
    c.perform.Ends state fun _ last => Renewed state last := by
  cases c with
  | scan scene =>
    have hscan := ends_onTracker (yields_of_advances (Tracker.advances_scan scene)) hs hshown h
    exact Ends.then_pure (hscan.imp fun _ _ hlast => hlast.1) _
  | snapshot scene =>
    refine Ends.then_pure ?_ _
    refine ends_bind (ends_onTracker (Tracker.yields_takeSnapshot hsalt hnow) hs hshown h)
      (fun _ _ hlast => hlast.1) ?_
    exact fun _ _ hlast => hlast.1
  | analyze scene changed =>
    exact Ends.then_pure (ends_analyze hsalt hnow changed hs hshown h) _

end Calls

/-- A request keeps the graph in memory usable. -/
theorem renewed_after (hs : Sound state.2) (h : Current state) {r : Request}
    (hprop : r.Proper state.2) : Renewed state (r.after state) := by
  cases r with
  | propertyGraph => exact (ends_propertyGraph hs h).1
  | perform op =>
    cases op with
    | call c => exact ends_call c hprop.1 hprop.2 hs rfl h
    | tag id tags description =>
      exact Ends.then_pure
        (ends_onSecond_renewed (advances_tag id tags description state.2 hs) h) fun _ => ()
    | maintain scene =>
      have hends : (Engine.maintain scene).Ends state fun _ last => Renewed state last :=
        ends_bind_of_runs (runs_get state)
          (ends_onSecond_renewed (advances_maintain _ _ _ state.2 hs) h)
      exact hends.then_pure fun _ => ()
    | take path content =>
      exact Ends.then_pure (ends_onSecond_renewed (ends_importFrom_onward hs hprop) h)
        fun _ => ()
    | reopen scene root config => exact ⟨.refl hs, fun _ _ hnone => absurd hnone nofun⟩

theorem renewed_serve (hs : Sound state.2) (h : Current state) {requests : List Request}
    (hprop : ∀ r ∈ requests, r.Proper state.2) : Renewed state (serve requests state) := by
  induction requests generalizing state with
  | nil => exact .refl hs h
  | cons r rest ih =>
    rcases List.forall_mem_cons.mp hprop with ⟨hr, hrest⟩
    have hfst := renewed_after hs h hr
    have hrest' : ∀ r' ∈ rest, r'.Proper (r.after state).2 := fun r' hr' =>
      (hrest r' hr').congr hfst.1.shows hfst.1.flat
    have hall := ih hfst.1.sound hfst.2 hrest'
    exact ⟨hfst.1.trans hall.1, hall.2⟩

/-- Let an engine be opened on a store of which all snapshots can be read, such as a new one, and
    let anything be asked of it, whether it goes through or not. If the store is in a directory then
    ids that are taken in shall be no paths, and the suffixes of new ids shall show; and the clock
    shall not stand at the last time there is. Whenever there is a newest snapshot then, a question
    for the property graph is answered with the one that is built from it. -/
theorem propertyGraph_eq_build {store : EitherStore} (hs : Sound store) (scene : Scene)
    (root : String) (config : Config) {requests : List Request}
    (hproper : ∀ r ∈ requests, r.Proper store) {s : Snapshot}
    (hlatest : History.latest (serve requests (ofStore scene store root config, store)).2 =
      .ok (some s)) :
    (propertyGraph.on (serve requests (ofStore scene store root config, store))).1 =
      .ok (.build s.outlines s.graph) := by
  have hstart : Current (ofStore scene store root config, store) :=
    fun _ _ hnone => absurd hnone nofun
  have hserved : Renewed (ofStore scene store root config, store) _ :=
    renewed_serve hs hstart hproper
  exact (ends_propertyGraph hserved.1.sound hserved.2).2 s hlatest

/-- The first snapshot comes back with other content, but the newest one is the second one. -/
theorem propertyGraph_eq_build_sampleCourse : Sound (directoryWith []) ∧
    (∀ r ∈ sampleCourse.requests, r.Proper (directoryWith [])) ∧
    ∃ s, History.latest (serve sampleCourse.requests (opened, directoryWith [])).2 = .ok (some s) ∧
      s.id = sampleCourse.second.id ∧
      (propertyGraph.on (serve sampleCourse.requests (opened, directoryWith []))).1 =
        .ok (.build s.outlines s.graph) := by
  rcases flat_sampleCourse with ⟨hfirst, hsecond⟩
  have hproper := Course.proper_requests hfirst hsecond
  rcases Course.latest_requests config_opened property_opened sound_directoryWith hfirst hsecond
    blocks_sampleCourse with ⟨s, hlatest, hid⟩
  exact ⟨sound_directoryWith, hproper, s, hlatest, hid,
    propertyGraph_eq_build sound_directoryWith (Tracker.bare 1) "/p" _ hproper hlatest⟩

/-- The second snapshot is blocked by one whose id is a path, so that the changed one is the newest
    one, and the property graph in memory is not its own. -/
theorem propertyGraph_ne_build : ∃ s,
    History.latest (serve (sampleCourse.requests ++ [sending sampleCourse.blocking])
        (opened, directoryWith [])).2 = .ok (some s) ∧
      (propertyGraph.on (serve (sampleCourse.requests ++ [sending sampleCourse.blocking])
        (opened, directoryWith []))).1 ≠ .ok (.build s.outlines s.graph) := by
  rcases flat_sampleCourse with ⟨hfirst, hsecond⟩
  have hapart : ∀ other : EitherStore, other.Apart
      (Keys.snapshot sampleCourse.blocking.id false) (Keys.snapshot sampleCourse.first.id false) :=
    fun other => EitherStore.apart_of_not_isPrefix (by decide +kernel) (by decide +kernel)
  rcases Course.stale_of_blocks config_opened property_opened sound_directoryWith hfirst hsecond
    blocks_sampleCourse hapart with ⟨hlatest, hstale⟩
  have hne : graphOf sampleCourse.first ≠ graphOf sampleCourse.changed := by decide +kernel
  refine ⟨_, hlatest, ?_⟩
  rw [hstale]
  exact fun hsame => hne (Except.ok.inj hsame)

end Engine

end Ripple
