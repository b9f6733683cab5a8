import Ripple.Proofs.History.Kept
import Ripple.Proofs.History.Onward

/-!
# New Snapshots Go Onward

A new snapshot gets an id that is not the last one, since its time is put after
the time of the last one. Only if that is the last time there is does the time
come from the clock alone, so the clock must not stand there as well. Then
nothing that is done about changed files makes a history go back, wherever it
stops.

## Theorems

* `EitherStore.shows_makeId`: A new id shows if its suffix does.
-/

namespace Ripple

open List Store Job

section Ids

theorem mem_paddedTime {time : Int64} {c : Char} (h : c ∈ (paddedTime time).toList) :
    c = '-' ∨ c.isDigit = true := by
  unfold paddedTime at h
  split at h
  · exact .inr (isDigit_of_mem_paddedDigits c h)
  · rw [String.toList_append, mem_append] at h
    rcases h with hsign | hdigit
    · exact .inl (mem_singleton.mp hsign)
    · exact .inr (isDigit_of_mem_paddedDigits c hdigit)

/-- A new id is not the last one, unless the clock stands at the last time there is. -/
theorem Tracker.makeId_timeAfter_ne_last {front : List String} {last : String} {now : Int64}
    (h : now ≠ Int64.maxValue) (salt : String) :
    Snapshot.makeId (timeAfter (front ++ [last]) now) salt ≠ last := by
  by_cases hlast : Snapshot.idTime? last = some Int64.maxValue
  · -- There is no time after that of the last id, and the new id has the time on the clock.
    have htime : timeAfter (front ++ [last]) now = now := by
      have hclock : ¬ now < Int64.maxValue + 1 := by
        rw [Int64.lt_iff_toInt_lt, Int.not_lt]
        exact Int64.minValue_le_toInt now
      simp only [timeAfter, getLast?_concat, Option.bind_some, hlast, if_neg hclock]
    rw [htime]
    intro heq
    rw [← heq] at hlast
    by_cases hneg : now.toInt < 0
    · rw [Snapshot.idTime_makeId_of_neg hneg] at hlast
      cases hlast
    · rw [Snapshot.idTime_makeId (Int.not_lt.mp hneg)] at hlast
      exact h (Option.some.inj hlast)
  · exact History.makeId_timeAfter_ne getLast?_concat hlast now salt

/-- What is put before a name does not hide it, if there is no dot in it. -/
theorem DirectoryStore.isHidden_of_append {front name : String} (h : '.' ∉ front.toList)
    (hhidden : IsHidden (front ++ name)) : IsHidden name := by
  rw [IsHidden, String.toList_append] at hhidden
  rcases hhidden with ⟨before, rest, hsplit⟩
  rw [append_assoc] at hsplit
  rcases List.append_eq_append_iff.mp hsplit with ⟨middle, hfront, hmark⟩ | ⟨middle, -, hname⟩
  · cases middle with
    | nil => exact ⟨[], rest, hmark⟩
    | cons c middle =>
      -- The dot of the mark would be in front.
      have hdot : '.' = c := (List.cons.inj hmark).1
      refine absurd ?_ h
      rw [hfront, hdot]
      exact mem_append_right _ mem_cons_self
  · exact ⟨middle, rest, by rw [hname, append_assoc]⟩

theorem EitherStore.shows_makeId {store : EitherStore} {salt : String} (h : store.Shows salt)
    (time : Int64) : store.Shows (Snapshot.makeId time salt) := by
  have hfront : ∀ c ∈ (paddedTime time ++ "-").toList, c = '-' ∨ c.isDigit = true := by
    intro c hc
    rw [String.toList_append, mem_append] at hc
    rcases hc with htime | hdash
    · exact mem_paddedTime htime
    · exact .inl (mem_singleton.mp hdash)
  cases store with
  | memory s => exact trivial
  | directory s =>
    refine ⟨?_, fun hhidden => h.2 (DirectoryStore.isHidden_of_append ?_ hhidden)⟩
    · rw [Snapshot.makeId, String.toList_append, mem_append]
      refine not_or.mpr ⟨fun hslash => ?_, h.1⟩
      exact absurd (hfront '/' hslash) (by decide)
    · exact fun hdot => absurd (hfront '.' hdot) (by decide)

end Ids

namespace Job

open History

variable {τ α β : Type} {shown : String → Prop} {part : τ → EitherStore}

/-- On stores that show certain ids a job goes onward, wherever it stops, and its answers are of a
    certain kind. -/
def Yields (shown : String → Prop) (part : τ → EitherStore) (job : Job τ α) (kind : α → Prop) :
    Prop :=
  ∀ s, Sound (part s) → (part s).Shows = shown → job.Ends s fun result after =>
    Onward (part s) (part after) ∧ ∀ a, result = .ok a → kind a

theorem yields_of_advances {job : Job τ α} (h : Advances part job) :
    Yields shown part job fun _ => True :=
  fun s hs _ => ⟨h s hs, fun _ _ => trivial⟩

theorem yields_pure {kind : α → Prop} {a : α} (h : kind a) :
    Yields shown part (pure a : Job τ α) kind :=
  fun _ hs _ => ⟨.refl hs, fun _ hans => Except.ok.inj hans ▸ h⟩

/-- Jobs in sequence: the second one goes on with an answer of the first. -/
theorem yields_bind {job : Job τ α} {next : α → Job τ β} {kind : α → Prop} {kind' : β → Prop}
    (h : Yields shown part job kind) (hnext : ∀ a, kind a → Yields shown part (next a) kind') :
    Yields shown part (job >>= next) kind' := by
  intro s hs hshown
  refine ends_bind (h s hs hshown) (fun _ _ hafter => ⟨hafter.1, nofun⟩) ?_
  rintro a middle ⟨hon, hkind⟩
  refine (hnext a (hkind a rfl) middle hon.sound (hon.shows.trans hshown)).imp ?_
  exact fun _ _ hafter => ⟨hon.trans hafter.1, hafter.2⟩

theorem yields_after {job : Job τ α} {next : α → Job τ β} {kind : β → Prop}
    (h : Advances part job) (hnext : ∀ a, Yields shown part (next a) kind) :
    Yields shown part (job >>= next) kind :=
  yields_bind (yields_of_advances h) fun a _ => hnext a

end Job

namespace Keys

theorem orderly_hashes : Orderly hashes :=
  orderly_of_not_prefix ⟨by decide, by decide⟩ (by decide)

theorem orderly_files : Orderly files :=
  orderly_of_not_prefix ⟨by decide, by decide⟩ (by decide)

theorem orderly_times : Orderly times :=
  orderly_of_not_prefix ⟨by decide, by decide⟩ (by decide)

theorem orderly_graph : Orderly graph :=
  orderly_of_not_prefix ⟨by decide, by decide⟩ (by decide)

end Keys

namespace Indexer

theorem advances_saveRegistry :
    Advances Prod.snd (HashRegistry.save : Job (HashRegistry × EitherStore) Unit) := by
  refine advances_bind (advances_of_keeps keeps_get) fun state => ?_
  by_cases hdirty : state.1.dirty = true
  · simp only [if_pos hdirty]
    exact advances_bind
      (advances_onSecond (advances_writeJson Keys.orderly_hashes Keys.beginsWith_hashes _))
      fun _ => advances_of_keeps (keeps_modify fun _ => rfl)
  · simp only [if_neg hdirty]
    exact advances_of_keeps (keeps_pure _)

theorem advances_storeFiles : Advances Prod.snd (storeFiles : Job (Indexer × EitherStore) Unit) :=
  advances_bind (advances_of_keeps keeps_get) fun _ =>
    advances_bind
      (advances_onSecond (advances_writeJson Keys.orderly_files Keys.beginsWith_files _))
      fun _ => advances_inside advances_saveRegistry

theorem advances_storeTimes : Advances Prod.snd (storeTimes : Job (Indexer × EitherStore) Unit) :=
  advances_bind (advances_of_keeps keeps_get) fun _ =>
    advances_onSecond (advances_writeJson Keys.orderly_times Keys.beginsWith_times _)

theorem advances_scan (tree : FileTree) (now : Int64) :
    Advances Prod.snd (scan tree now : Job (Indexer × EitherStore) Unit) :=
  advances_bind (advances_of_keeps (keeps_modify fun _ => rfl)) fun _ =>
    advances_bind advances_storeFiles fun _ => advances_storeTimes

theorem advances_ite (condition : Bool) {job : Job (Indexer × EitherStore) Unit}
    (h : Advances Prod.snd job) :
    Advances Prod.snd (if condition = true then job else pure ()) := by
  cases condition with
  | true => exact h
  | false => exact advances_of_keeps (keeps_pure _)

theorem advances_pass (tree : FileTree) (now : Int64) (changed : List String) :
    Advances Prod.snd (pass tree now changed : Job (Indexer × EitherStore) IndexOutcome) := by
  rw [pass_eq]
  exact advances_bind (advances_of_keeps keeps_get) fun _ =>
    advances_bind (advances_of_keeps (keeps_modify fun _ => rfl)) fun _ =>
      advances_bind (advances_ite _ advances_storeFiles) fun _ =>
        advances_bind (advances_ite _ advances_storeTimes) fun _ => advances_of_keeps (keeps_pure _)

end Indexer

namespace Tracker

open History

theorem advances_scan (scene : Scene) :
    Advances Prod.snd (scan scene : Job (Tracker × EitherStore) Nat) :=
  advances_bind (advances_inside (Indexer.advances_scan scene.tree scene.now)) fun _ =>
    advances_bind (advances_of_keeps keeps_get) fun _ => advances_of_keeps (keeps_pure _)

theorem advances_saveOutlines (outlines : List Outline) :
    Advances id (saveOutlines outlines : Job EitherStore Unit) := by
  induction outlines with
  | nil => exact advances_of_keeps (keeps_pure _)
  | cons o rest ih =>
    exact advances_bind (advances_writeJson (Keys.orderly_outline o.path)
      (Keys.beginsWith_outline o.path) _) fun _ => ih

theorem advances_removeOutlines (paths : List String) :
    Advances id (removeOutlines paths : Job EitherStore Unit) := by
  induction paths with
  | nil => exact advances_of_keeps (keeps_pure _)
  | cons path rest ih =>
    exact advances_bind (advances_delete (Keys.orderly_outline path)
      (Keys.beginsWith_outline path)) fun _ => ih

theorem advances_removeStale (files : Dict String FileRecord) :
    Advances id (removeStale files : Job EitherStore Unit) := by
  refine advances_bind (advances_of_keeps fun _ => rfl) fun newest => ?_
  cases newest with
  | none => exact advances_of_keeps (keeps_pure _)
  | some previous => exact advances_removeOutlines _

theorem advances_noteCommit (scene : Scene) (versioned : Bool) (name : String) :
    Advances id (noteCommit scene versioned name : Job EitherStore Unit) := by
  unfold noteCommit
  split
  · exact advances_ignoringFailure (advances_saveNotes _)
  · exact advances_of_keeps (keeps_pure _)

theorem advances_saveGraph (g : ImportGraph) :
    Advances Prod.snd (onGraph (GraphCache.save g) : Job (Tracker × EitherStore) Unit) :=
  advances_inside (advances_bind
    (advances_onSecond (advances_writeJson Keys.orderly_graph Keys.beginsWith_graph _))
    fun _ => advances_of_keeps (keeps_modify fun _ => rfl))

variable {shown : String → Prop} {scene : Scene}

/-- Saving a snapshot with a new id goes onward, since this id is not the last one. -/
theorem ends_saveNew_onward {store : EitherStore} (hs : Sound store)
    (hsalt : store.Shows scene.salt) (hnow : scene.now ≠ Int64.maxValue) {found : List String}
    (hfound : ids store = .ok found) {s : Snapshot}
    (hid : s.id = Snapshot.makeId (timeAfter found scene.now) scene.salt) :
    (save s).Ends store fun _ after => Onward store after := by
  have hshows : store.Shows s.id := by
    rw [hid]
    exact EitherStore.shows_makeId hsalt _
  refine ends_save_onward hs hshows.flat fun hlist => ?_
  have hmem : ∀ id, id ∈ found ↔ Listed store id :=
    fun id => mem_ids_iff_of_serves hs.ready.serves hfound
  rcases eq_nil_or_concat' found with rfl | ⟨front, last, rfl⟩
  · exact absurd ((hmem _).mpr hlist) not_mem_nil
  · refine ⟨last, (hmem last).mp (mem_append_right _ mem_cons_self), ?_⟩
    refine ((increasing_ids hfound).eq_or_lt_last ((hmem _).mpr hlist)).resolve_left ?_
    rw [hid]
    exact makeId_timeAfter_ne_last hnow scene.salt

/-- Storing a snapshot goes onward, and its id shows. -/
theorem yields_finish (hsalt : shown scene.salt) (hnow : scene.now ≠ Int64.maxValue)
    (files : Dict String FileRecord) (outlines : Dict String Outline) :
    Yields shown Prod.snd (finish scene files outlines : Job (Tracker × EitherStore) Snapshot)
      fun s => shown s.id := by
  refine yields_after (advances_of_keeps keeps_get) fun state => ?_
  refine yields_after (advances_saveGraph _) fun _ => ?_
  rintro ⟨t, store⟩ hs hshown
  subst hshown
  refine ends_onSecond (ends_inspect_bind (fun _ _ => ⟨.refl hs, nofun⟩) fun found hfound => ?_)
  refine ends_bind (ends_saveNew_onward hs hsalt hnow hfound rfl) (fun _ _ h => ⟨h, nofun⟩) ?_
  intro _ middle h
  refine ends_bind (advances_noteCommit scene _ _ middle h.sound)
    (fun _ _ h' => ⟨h.trans h', nofun⟩) fun _ last h' => ⟨h.trans h', fun s hans => ?_⟩
  rw [← Except.ok.inj hans]
  exact EitherStore.shows_makeId hsalt _

/-- A snapshot of all files goes onward, and its id shows. -/
theorem yields_takeSnapshot (hsalt : shown scene.salt) (hnow : scene.now ≠ Int64.maxValue) :
    Yields shown Prod.snd (takeSnapshot scene : Job (Tracker × EitherStore) Snapshot)
      fun s => shown s.id :=
  yields_after (advances_inside (Indexer.advances_scan scene.tree scene.now)) fun _ =>
    yields_after (advances_of_keeps keeps_get) fun _ =>
      yields_after (advances_onSecond (advances_saveOutlines _)) fun _ =>
        yields_after (advances_onSecond (advances_removeStale _)) fun _ =>
          yields_finish hsalt hnow _ _

/-- A snapshot after changes goes onward, and its id shows. -/
theorem yields_trackFrom (hsalt : shown scene.salt) (hnow : scene.now ≠ Int64.maxValue)
    (previous : Snapshot) (outcome : IndexOutcome) :
    Yields shown Prod.snd
      (trackFrom scene previous outcome : Job (Tracker × EitherStore) TrackOutcome)
      fun o => o.created = true → shown o.snapshotId :=
  yields_after (advances_of_keeps keeps_get) fun _ =>
    yields_after (advances_onSecond (advances_removeOutlines _)) fun _ =>
      yields_after (advances_onSecond (advances_saveOutlines _)) fun _ =>
        yields_bind (yields_finish hsalt hnow _ _) fun _ hid => yields_pure fun _ => hid

/-- A look at changed files goes onward, and the id of a new snapshot shows. -/
theorem yields_track (hsalt : shown scene.salt) (hnow : scene.now ≠ Int64.maxValue)
    (changed : List String) :
    Yields shown Prod.snd (track scene changed : Job (Tracker × EitherStore) TrackOutcome)
      fun o => o.created = true → shown o.snapshotId := by
  refine yields_after (advances_onSecond (advances_of_keeps fun _ => rfl)) fun newest => ?_
  cases newest with
  | none =>
    exact yields_bind (yields_takeSnapshot hsalt hnow) fun _ hid => yields_pure fun _ => hid
  | some previous =>
    refine yields_after (advances_inside (Indexer.advances_pass _ _ _)) fun outcome => ?_
    by_cases hnoop : outcome.isNoop = true
    · simp only [if_pos hnoop]
      exact yields_pure nofun
    · simp only [if_neg hnoop]
      exact yields_trackFrom hsalt hnow previous outcome

end Tracker

end Ripple
