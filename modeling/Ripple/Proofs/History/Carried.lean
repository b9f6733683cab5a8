import Ripple.Proofs.History.Transfer
import Ripple.Proofs.History.Visible

/-!
# Taking a Snapshot to Another Store

A snapshot that is exported and taken in elsewhere should be the same there,
with its notes. What is exported is what is found under an id, and what is taken
in goes by the id in the file. In a directory these may differ, because a dot or
an empty segment in an id does not change the place that it means: a snapshot
whose id has a slash in it may be found under a shorter id that has none, and so
may notes. Everything else is carried over as it is.

A file that cannot be read, is of a newer form, or has a snapshot that is there
already, changes nothing.

## Theorems

* `History.Built.inPlace`: Snapshots and notes lie at the places of their ids.
* `History.carried_iff`: A snapshot is carried over iff it and its notes have the id they are
  found under.
* `History.carried_over_iff_shows`: A snapshot is carried over iff the ids in it show.
-/

namespace Ripple

open Path Store Job

namespace EitherStore

variable {store after : EitherStore} {key : String} {ι α : Type} {keys : ι → String}
  {own : α → String} {write : α → Json}

/-- The values under some keys are written forms, and lie where their own keys lead. -/
def Filed (store : EitherStore) (keys : ι → String) (own : α → String) (write : α → Json) : Prop :=
  ∀ i bytes, blob? store (keys i) = some bytes →
    ∃ a, store.SamePlace (own a) (keys i) ∧ bytes = bytesOfJson (write a)

theorem Filed.of_own (h : store.Filed keys own write) (hs : store.WellFormed) {a : α}
    (hplain : isPacked (own a) = false) (hrun : (writeJson (own a) (write a)).Runs store () after) :
    after.Filed keys own write := by
  have hput := stored_of_put hs hrun
  intro i bytes hblob
  rw [hput.samePlace]
  rcases hput.eq_of_blob hblob with ⟨hplace, hbytes⟩ | ⟨-, hpre⟩
  · rw [packed, hplain] at hbytes
    exact ⟨a, hplace, hbytes⟩
  · exact h i bytes hpre

theorem Filed.of_apart (h : store.Filed keys own write) (hs : store.WellFormed) {j : Json}
    (hapart : ∀ i, store.Apart key (keys i)) (hrun : (writeJson key j).Runs store () after) :
    after.Filed keys own write := by
  have hput := stored_of_put hs hrun
  intro i bytes hblob
  rw [hput.blob_of_apart (hapart i)] at hblob
  rw [hput.samePlace]
  exact h i bytes hblob

end EitherStore

namespace Keys

variable {store : EitherStore} {id id' : String} {packed : Bool}

theorem isPacked_notes (id : String) : isPacked (notes id) = false := by
  have hends : finishesWith ("history/metadata/" ++ id ++ ".json") ".gz" = false :=
    finishesWith_append_eq_false _ rfl rfl (by decide)
  exact hends

theorem apart_snapshot_notes (id id' : String) (packed : Bool) :
    store.Apart (snapshot id packed) (notes id') := by
  rw [notes_eq_below, snapshot_eq_below]
  exact EitherStore.apart_below (by decide) (by decide) (segments_formName_ne_nil id packed)

theorem eq_false_of_samePlace (h : store.SamePlace (snapshot id' false) (snapshot id packed)) :
    packed = false := by
  cases store with
  | memory s => exact (snapshot_inj.mp h).2
  | directory s =>
    cases packed with
    | false => rfl
    | true =>
      have hplace : segments (formName id true) = segments (formName id' false) := by
        have hsegs : segments (snapshot id true) = segments (snapshot id' false) := h
        rw [snapshot_eq_below, snapshot_eq_below, segments_slash, segments_slash] at hsegs
        exact List.append_cancel_left hsegs
      obtain ⟨hslash, -, hlen⟩ := formEnding_plain true
      obtain ⟨front, last, hparts⟩ := segments_append_tail id hslash hlen
      obtain ⟨hslash', -, hlen'⟩ := formEnding_plain false
      obtain ⟨front', last', hparts'⟩ := segments_append_tail id' hslash' hlen'
      rw [formName, formName, hparts, hparts'] at hplace
      have hlast : last ++ formEnding true = last' ++ formEnding false :=
        (List.cons.inj (List.append_inj' hplace rfl).2).1
      have hends : finishesWith (last ++ formEnding true) (formEnding false) = false :=
        finishesWith_append_eq_false last rfl rfl (by decide)
      rw [hlast, finishesWith, String.toList_append, Bool.eq_false_iff] at hends
      exact absurd (List.isSuffixOf_iff_suffix.mpr (List.suffix_append _ _)) hends

theorem isName_formName (h : '/' ∉ id.toList) (packed : Bool) : IsName (formName id packed) := by
  obtain ⟨hslash, -, hlen⟩ := formEnding_plain packed
  refine isName_of_length ?_ ?_
  · rw [formName, String.length_append]
    omega
  · rw [formName, String.toList_append, List.mem_append]
    exact not_or.mpr ⟨h, hslash⟩

theorem segments_formName (h : '/' ∉ id.toList) :
    segments (formName id packed) = [formName id packed] :=
  segments_of_isName (isName_formName h packed)

/-- Of the ids that mean the place of an id that shows, only this id shows itself. -/
theorem eq_iff_shows {directory : String}
    (h : store.SamePlace (directory ++ "/" ++ formName id' packed)
      (directory ++ "/" ++ formName id packed)) (hid : store.Shows id) :
    id' = id ↔ store.Shows id' := by
  refine ⟨fun heq => heq ▸ hid, fun hid' => ?_⟩
  have hname : formName id packed = formName id' packed := by
    cases store with
    | memory s => exact (String.append_right_inj _).mp h
    | directory s =>
      have hplace : segments (directory ++ "/" ++ formName id packed) =
          segments (directory ++ "/" ++ formName id' packed) := h
      rw [segments_slash, segments_slash, segments_formName hid.1,
        segments_formName hid'.1] at hplace
      exact (List.cons.inj (List.append_cancel_left hplace)).1
  exact ((String.append_left_inj _).mp hname).symm

end Keys

namespace History

/-- The stores that saving, tagging and taking in lead to, if nothing fails. -/
inductive Built : EitherStore → Prop
  | empty {store : EitherStore} (wellFormed : store.WellFormed)
      (nothing : ∀ key, blob? store key = none) : Built store
  | saved {store after : EitherStore} {s : Snapshot} :
      Built store → (save s).Runs store () after → Built after
  | tagged {store after : EitherStore} {id : String} {tags : List String}
      {description : Option String} {n : SnapshotNotes} :
      Built store → (tag id tags description).Runs store n after → Built after
  | imported {store after : EitherStore} {path : String} {content : ByteArray} {id : String} :
      Built store → (importFrom path content).Runs store id after → Built after

/-- Snapshots and notes lie at the places of their ids. -/
structure InPlace (store : EitherStore) : Prop where
  wellFormed : store.WellFormed
  /-- What lies among the snapshots is a plain snapshot. -/
  snapshotsFiled : store.Filed (fun form : String × Bool => Keys.snapshot form.1 form.2)
    (fun s : Snapshot => Keys.snapshot s.id false) Snapshot.toJson
  /-- What lies among the notes are notes. -/
  notesFiled : store.Filed Keys.notes (fun n : SnapshotNotes => Keys.notes n.snapshotId)
    SnapshotNotes.toJson

section Built

variable {store after : EitherStore} {id : String}

theorem InPlace.of_save (h : InPlace store) {s : Snapshot} (hrun : (save s).Runs store () after) :
    InPlace after where
  wellFormed := (EitherStore.stored_of_put h.wellFormed hrun).wellFormed
  snapshotsFiled := h.snapshotsFiled.of_own h.wellFormed (isPacked_snapshot s.id) hrun
  notesFiled := h.notesFiled.of_apart h.wellFormed
    (fun id => Keys.apart_snapshot_notes s.id id false) hrun

theorem InPlace.of_saveNotes (h : InPlace store) {n : SnapshotNotes}
    (hrun : (saveNotes n).Runs store () after) : InPlace after where
  wellFormed := (EitherStore.stored_of_put h.wellFormed hrun).wellFormed
  snapshotsFiled := h.snapshotsFiled.of_apart h.wellFormed
    (fun form => Keys.apart_notes_snapshot n.snapshotId form.1 form.2) hrun
  notesFiled := h.notesFiled.of_own h.wellFormed (Keys.isPacked_notes n.snapshotId) hrun

theorem runs_saveNotes_of_tag {tags : List String} {description : Option String} {n : SnapshotNotes}
    (h : (tag id tags description).Runs store n after) : (saveNotes n).Runs store () after := by
  obtain ⟨there, first, hlook, h⟩ := runs_bind_iff.mp h
  obtain ⟨-, rfl⟩ := Prod.mk.inj hlook
  cases there with
  | false => cases h
  | true =>
    obtain ⟨n', first, hread, h⟩ := runs_bind_iff.mp h
    obtain ⟨-, rfl⟩ := Prod.mk.inj hread
    obtain ⟨⟨⟩, last, hsave, h⟩ := runs_bind_iff.mp h
    obtain ⟨rfl, rfl⟩ := runs_pure_iff.mp h
    exact hsave

theorem Built.inPlace (h : Built store) : InPlace store := by
  induction h with
  | empty wellFormed nothing =>
    refine ⟨wellFormed, fun form bytes hblob => ?_, fun id bytes hblob => ?_⟩
    · rw [nothing] at hblob
      cases hblob
    · rw [nothing] at hblob
      cases hblob
  | saved _ hrun ih => exact ih.of_save hrun
  | tagged _ hrun ih => exact ih.of_saveNotes (runs_saveNotes_of_tag hrun)
  | imported _ hrun ih =>
    obtain ⟨e, middle, -, -, hsave, hnotes, -⟩ := runs_importFrom_iff.mp hrun
    exact (ih.of_save hsave).of_saveNotes hnotes

end Built

section Reading

variable {store : EitherStore} {id : String} {found : List String}

/-- What is read of a written form under a key that is not packed. -/
theorem readJson_of_form {α : Type} {read : Json → Option α} {key : String} {j : Json}
    (hplain : isPacked key = false) (hstored : Json.Stored Json.maxDepth j)
    (h : blob? store key = some (bytesOfJson j)) : readJson? read store key = read j := by
  rw [readJson_eq_blob, h, Option.bind_some, unpacked?, hplain, if_neg Bool.false_ne_true,
    Option.bind_some, jsonOfBytes_bytesOfJson hstored, Option.bind_some]

theorem load_of_form {s : Snapshot}
    (h : blob? store (Keys.snapshot id false) = some (bytesOfJson s.toJson)) :
    load store id = .ok s := by
  have hholds : Store.holds store (Keys.snapshot id false) = .ok true := by
    rw [holds, get_of_blob h]
    rfl
  have hread : readJson? Snapshot.ofJson? store (Keys.snapshot id false) = some s := by
    rw [readJson_of_form (isPacked_snapshot id) s.stored_toJson h, Snapshot.ofJson_toJson]
  simp only [load, hholds, bind, Except.bind, if_true, loadForm, hread]

theorem InPlace.load_of_mem (h : InPlace store) (hfound : ids store = .ok found)
    (hid : id ∈ found) : ∃ s, load store id = .ok s ∧ (s.id = id ↔ store.Shows s.id) := by
  obtain ⟨hshows, packed, hsome⟩ := (mem_ids_iff_shows h.wellFormed hfound).mp hid
  obtain ⟨bytes, hblob⟩ := Option.isSome_iff_exists.mp hsome
  obtain ⟨s, hplace, rfl⟩ := h.snapshotsFiled (id, packed) bytes hblob
  obtain rfl : packed = false := Keys.eq_false_of_samePlace hplace
  refine ⟨s, load_of_form hblob, ?_⟩
  simp only [Keys.snapshot_eq_below] at hplace
  exact Keys.eq_iff_shows hplace hshows

theorem InPlace.snapshotId_notes_iff (h : InPlace store) (hshows : store.Shows id) :
    (notes store id).snapshotId = id ↔ store.Shows (notes store id).snapshotId := by
  cases hblob : blob? store (Keys.notes id) with
  | none =>
    have hnone : notes store id = .none id := by
      rw [History.notes, readJson_eq_blob, hblob]
      rfl
    rw [hnone]
    exact iff_of_true rfl hshows
  | some bytes =>
    obtain ⟨n, hplace, rfl⟩ := h.notesFiled id bytes hblob
    have hread : notes store id = n := by
      rw [History.notes, readJson_of_form (Keys.isPacked_notes id) n.stored_toJson hblob,
        SnapshotNotes.ofJson_toJson]
      rfl
    rw [hread]
    simp only [Keys.notes_eq_below] at hplace
    exact Keys.eq_iff_shows hplace hshows

end Reading

section Carrying

variable {source target after : EitherStore} {id path : String} {now : Int64} {content : ByteArray}

/-- A store that takes values under the keys of a snapshot and of its notes. -/
def Accepts (target : EitherStore) (id : String) : Prop :=
  ∀ bytes bytes', ∃ middle after, (Store.put (Keys.snapshot id false) bytes).Runs target () middle ∧
    (Store.put (Keys.notes id) bytes').Runs middle () after

/-- A snapshot was taken from one store to another, by way of a file. -/
structure Carried (source target : EitherStore) (id path : String) (now : Int64)
    (content : ByteArray) (after : EitherStore) : Prop where
  isExported : exported source id path now = .ok content
  isImported : (importFrom path content).Runs target id after
  load_eq : load after id = load source id
  notes_eq : notes after id = notes source id
  /-- Nothing else is changed. -/
  blob_eq : ∀ key, target.Apart (Keys.snapshot id false) key → target.Apart (Keys.notes id) key →
    blob? after key = blob? target key

theorem readExported_of_exported {s : Snapshot} (hload : load source id = .ok s)
    (h : exported source id path now = .ok content) :
    readExported path content = .ok ⟨exportVersion, momentText now, s, notes source id⟩ := by
  simp only [exported, hload, bind, Except.bind, pure, Except.pure] at h
  rw [← Except.ok.inj h]
  exact readExported_file path (show ¬ exportVersion < exportVersion by decide)

theorem exists_exported {s : Snapshot} (hload : load source id = .ok s) (path : String)
    (now : Int64) : ∃ content, exported source id path now = .ok content := by
  simp only [exported, hload, bind, Except.bind, pure, Except.pure]
  exact ⟨_, rfl⟩

theorem notes_of_saveNotes {n : SnapshotNotes} {store after : EitherStore}
    (h : (saveNotes n).Runs store () after) : notes after n.snapshotId = n := by
  rw [notes, readJson_of_writeJson n.stored_toJson h, SnapshotNotes.ofJson_toJson]
  rfl

theorem carried_iff {s : Snapshot} (hload : load source id = .ok s) (htgt : target.WellFormed)
    (haccepts : Accepts target id)
    (hnew : ∀ packed, BlobStore.get target (Keys.snapshot id packed) = .ok none) :
    (∃ content after, Carried source target id path now content after) ↔
      s.id = id ∧ (notes source id).snapshotId = id := by
  constructor
  · rintro ⟨content, after, h⟩
    obtain ⟨e, middle, hread, -, -, hnotes, hid⟩ := runs_importFrom_iff.mp h.isImported
    obtain rfl := Except.ok.inj (hread.symm.trans (readExported_of_exported hload h.isExported))
    obtain rfl : s.id = id := hid
    refine ⟨rfl, ?_⟩
    rw [← h.notes_eq]
    exact congrArg SnapshotNotes.snapshotId (notes_of_saveNotes hnotes)
  · rintro ⟨rfl, hnotesId⟩
    obtain ⟨content, hcont⟩ := exists_exported hload path now
    have hread := readExported_of_exported hload hcont
    generalize hnotes : notes source s.id = n at hnotesId hread
    have hthere : contains target s.id = .ok false := by
      simp only [contains, Store.holds, hnew, Except.map, bind, Except.bind, Option.isSome_none,
        Bool.false_eq_true, if_false]
    obtain ⟨middle, after, hsave, hput⟩ :=
      haccepts (packed (Keys.snapshot s.id false) (bytesOfJson s.toJson))
        (packed (Keys.notes s.id) (bytesOfJson n.toJson))
    have hsaveNotes : (saveNotes n).Runs middle () after := by
      rw [saveNotes, hnotesId]
      exact hput
    have hsame : { n with snapshotId := s.id } = n := by
      rw [← hnotesId]
    have hfst := EitherStore.stored_of_put htgt hsave
    have hsnd := EitherStore.stored_of_put hfst.wellFormed hput
    refine ⟨content, after, hcont, ?_, ?_, ?_, ?_⟩
    · exact runs_importFrom_iff.mpr ⟨_, middle, hread, hthere, hsave, hsame.symm ▸ hsaveNotes, rfl⟩
    · have hblob := hfst.found
      rw [← hsnd.blob_of_apart (Keys.apart_notes_snapshot _ _ _), packed, isPacked_snapshot]
        at hblob
      rw [hload, load_of_form hblob]
    · rw [hnotes, ← hnotesId]
      exact notes_of_saveNotes hsaveNotes
    · intro key hsnapshot hnotesKey
      rw [hsnd.blob_of_apart (hfst.apart ▸ hnotesKey), hfst.blob_of_apart hsnapshot]

end Carrying

section Refusing

variable {σ : Type} [BlobStore σ] {store : σ} {path id : String} {content : ByteArray}

/-- What a file holds, of whatever version. -/
def fileOf? (path : String) (content : ByteArray) : Option ExportedSnapshot :=
  ((if isPackedFile path then Packing.gunzip? content else some content).bind jsonOfBytes?).bind
    ExportedSnapshot.ofJson?

/-- A file that a store does not take in. -/
def Unfit (store : σ) (path : String) (content : ByteArray) : Prop :=
  fileOf? path content = none ∨ ∃ e, fileOf? path content = some e ∧
    (exportVersion < e.version ∨
      ∃ packed, (blob? store (Keys.snapshot e.snapshot.id packed)).isSome)

theorem file_of_readExported_plain {e : ExportedSnapshot} (hplain : isPackedFile path = false)
    (h : readExported path content = .ok e) :
    (jsonOfBytes? content).bind ExportedSnapshot.ofJson? = some e ∧
      ¬ exportVersion < e.version := by
  simp only [readExported, hplain, Bool.false_eq_true, if_false, bind, Except.bind] at h
  split at h
  next => cases h
  next e' hfile =>
    split at h
    next => cases h
    next hversion =>
      obtain rfl := Except.ok.inj h
      exact ⟨hfile, hversion⟩

theorem fileOf_of_readExported {e : ExportedSnapshot} (h : readExported path content = .ok e) :
    fileOf? path content = some e ∧ ¬ exportVersion < e.version := by
  cases hpack : isPackedFile path with
  | false =>
    rw [fileOf?, hpack, if_neg Bool.false_ne_true]
    exact file_of_readExported_plain hpack h
  | true =>
    cases hbytes : Packing.gunzip? content with
    | none =>
      simp only [readExported, hpack, if_true, hbytes, bind, Except.bind] at h
      cases h
    | some bytes =>
      -- A packed file is read like a plain one with what is packed in it.
      have hsame : readExported path content = readExported "" bytes := by
        simp only [readExported, hpack, if_true, hbytes, bind, Except.bind]
        rfl
      rw [fileOf?, hpack, if_pos rfl, hbytes]
      exact file_of_readExported_plain (by decide) (hsame ▸ h)

theorem blob_of_contains (h : contains store id = .ok false) (packed : Bool) :
    blob? store (Keys.snapshot id packed) = none := by
  simp only [contains, bind, Except.bind] at h
  cases hplain : Store.holds store (Keys.snapshot id false) with
  | error fault =>
    rw [hplain] at h
    cases h
  | ok there =>
    rw [hplain] at h
    cases there with
    | true => cases h
    | false =>
      cases packed with
      | false => exact blob_of_holds hplain
      | true => exact blob_of_holds h

theorem on_importFrom_of_unfit (h : Unfit store path content) :
    ∃ fault, (importFrom path content).on store = (.error fault, store) := by
  cases hread : readExported path content with
  | error fault =>
    exact ⟨fault, on_bind_of_error (on_inspect_of_error hread)⟩
  | ok e =>
    obtain ⟨hsome, hversion⟩ := fileOf_of_readExported hread
    have hthere : ∃ packed, (blob? store (Keys.snapshot e.snapshot.id packed)).isSome := by
      rcases h with hnone | ⟨e', hsome', hnew | hthere⟩
      · rw [hsome] at hnone
        cases hnone
      · obtain rfl := Option.some.inj (hsome.symm.trans hsome')
        exact absurd hnew hversion
      · obtain rfl := Option.some.inj (hsome.symm.trans hsome')
        exact hthere
    have hfile : (inspect fun _ => readExported path content).Runs store e store :=
      runs_inspect hread
    rw [importFrom, on_bind_of_runs hfile]
    cases hhas : contains store e.snapshot.id with
    | error fault => exact ⟨fault, on_bind_of_error (on_inspect_of_error hhas)⟩
    | ok there =>
      cases there with
      | false =>
        obtain ⟨packed, hsome⟩ := hthere
        rw [blob_of_contains hhas] at hsome
        cases hsome
      | true =>
        have hlook : (inspect fun s => contains s e.snapshot.id).Runs store true store :=
          runs_inspect hhas
        rw [on_bind_of_runs hlook]
        exact ⟨_, rfl⟩

end Refusing

/-- A snapshot that is listed in a store, and is new to another store that takes it, is carried
    over with its notes, and nothing else is changed, iff its own id and that in its notes show: in
    memory always, and in a directory if there is no slash in them. A file that cannot be read, is
    of a newer version or has a snapshot that is there changes nothing. -/
theorem carried_over_iff_shows {source target : EitherStore} {id : String} {found : List String}
    (hsource : Built source) (hfound : ids source = .ok found) (hid : id ∈ found)
    (htarget : target.WellFormed) (haccepts : Accepts target id)
    (hnew : ∀ packed, BlobStore.get target (Keys.snapshot id packed) = .ok none) (path : String)
    (now : Int64) :
    (∃ s, load source id = .ok s ∧
      ((∃ content after, Carried source target id path now content after) ↔
        source.Shows s.id ∧ source.Shows (notes source id).snapshotId)) ∧
    ∀ (other : EitherStore) (path : String) (content : ByteArray), Unfit other path content →
      ∃ fault, (importFrom path content).on other = (.error fault, other) := by
  refine ⟨?_, fun other path content h => on_importFrom_of_unfit h⟩
  obtain ⟨s, hload, hsame⟩ := hsource.inPlace.load_of_mem hfound hid
  have hshows : source.Shows id := ((mem_ids_iff_shows hsource.inPlace.wellFormed hfound).mp hid).1
  refine ⟨s, hload, ?_⟩
  rw [carried_iff hload htarget haccepts hnew, hsame, hsource.inPlace.snapshotId_notes_iff hshows]

section Samples

/-- A history in memory with one snapshot, which has notes. -/
def sampleSource : EitherStore :=
  ((tag "v1" ["release"] (some "first")).on ((save (bare "v1")).on (.memory .empty)).2).2

theorem built_sampleSource : Built sampleSource := by
  have hempty : Built (.memory .empty) := .empty trivial fun _ => rfl
  have hsave : (save (bare "v1")).Runs (EitherStore.memory .empty) () _ := runs_on rfl
  have hans : ((tag "v1" ["release"] (some "first")).on
      ((save (bare "v1")).on (EitherStore.memory .empty)).2).1 =
        .ok ⟨"v1", ["release"], some "first", none⟩ := rfl
  exact .tagged (.saved hempty hsave) (runs_on hans)

/-- A history in memory with another snapshot. -/
def sampleTarget : EitherStore := ((save (bare "v0")).on (.memory .empty)).2

theorem accepts_memory (s : MemoryStore) (id : String) : Accepts (.memory s) id :=
  fun _ _ => ⟨_, _, rfl, rfl⟩

/-- A snapshot with notes is carried over to a store with another snapshot, by way of a packed
    file. -/
theorem carried_over_iff_shows_sampleSource : Built sampleSource ∧ ids sampleSource = .ok ["v1"] ∧
    ids sampleTarget = .ok ["v0"] ∧ Accepts sampleTarget "v1" ∧
    ∃ content after, Carried sampleSource sampleTarget "v1" "v1.gz" 5 content after := by
  have hfound : ids sampleSource = .ok ["v1"] := rfl
  have haccepts : Accepts sampleTarget "v1" := accepts_memory _ _
  have hnew : ∀ packed, BlobStore.get sampleTarget (Keys.snapshot "v1" packed) = .ok none := by
    intro packed
    cases packed with
    | false => rfl
    | true => rfl
  have htarget : sampleTarget.WellFormed := trivial
  obtain ⟨⟨s, -, hcarried⟩, -⟩ := carried_over_iff_shows built_sampleSource hfound
    List.mem_cons_self htarget haccepts hnew "v1.gz" 5
  exact ⟨built_sampleSource, hfound, rfl, haccepts, hcarried.mpr ⟨trivial, trivial⟩⟩

/-- The directory after a snapshot with the id `./x` was stored in it. -/
def holdingDotted : EitherStore := ((save (bare "./x")).on (directoryWith [])).2

theorem blob_directoryWith_nil (key : String) : blob? (directoryWith []) key = none := by
  cases hblob : blob? (directoryWith []) key with
  | none => rfl
  | some bytes =>
    obtain ⟨-, modified, hnode⟩ :=
      (DirectoryStore.WellFormed.serves wellFormed_directoryWith).blob_eq_some_iff.mp hblob
    cases hsegs : segments key with
    | nil =>
      rw [hsegs] at hnode
      cases hnode
    | cons name names =>
      rw [hsegs] at hnode
      cases hnode

theorem runs_holdingDotted : (save (bare "./x")).Runs (directoryWith []) () holdingDotted :=
  runs_on (by decide +kernel)

theorem load_holdingDotted : load holdingDotted "x" = .ok (bare "./x") := by
  have hput := EitherStore.stored_of_put wellFormed_directoryWith runs_holdingDotted
  have hsome : (blob? holdingDotted (Keys.snapshot "x" false)).isSome = true := by decide +kernel
  obtain ⟨content, hblob⟩ := Option.isSome_iff_exists.mp hsome
  -- The two ids mean one place, so this is what was written.
  have hplace : segments (Keys.snapshot "x" false) = segments (Keys.snapshot "./x" false) := by
    decide +kernel
  rcases hput.eq_of_blob hblob with ⟨-, rfl⟩ | ⟨hne, -⟩
  · exact load_of_form hblob
  · exact absurd hplace hne

/-- A snapshot that was stored in a directory with a dot in its id is listed under a shorter id, and
    is not carried over under it. -/
theorem not_carried_dotted : Built holdingDotted ∧ ids holdingDotted = .ok ["x"] ∧
    Accepts (.memory .empty) "x" ∧
    (∀ packed, BlobStore.get (EitherStore.memory .empty) (Keys.snapshot "x" packed) = .ok none) ∧
    ∀ path now, ¬ ∃ content after,
      Carried holdingDotted (.memory .empty) "x" path now content after := by
  have hempty : Built (directoryWith []) := .empty wellFormed_directoryWith blob_directoryWith_nil
  have haccepts : Accepts (.memory .empty) "x" := accepts_memory _ _
  have htarget : (EitherStore.memory .empty).WellFormed := trivial
  have hnew : ∀ packed, BlobStore.get (EitherStore.memory .empty) (Keys.snapshot "x" packed) =
      .ok none := fun _ => rfl
  refine ⟨.saved hempty runs_holdingDotted, by decide +kernel, haccepts, hnew,
    fun path now hcarried => ?_⟩
  have hid := ((carried_iff load_holdingDotted htarget haccepts hnew).mp hcarried).1
  exact absurd hid (by decide)

end Samples

end History

end Ripple
