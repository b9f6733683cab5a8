import Ripple.Outline.Diff
import Ripple.Proofs.Snapshot.RoundTrip
import Ripple.Proofs.Store.Retentive
import Ripple.Snapshot.Delta

/-!
# No Value Is Changed by Storing It

Besides snapshots, a store holds notes, deltas and comparisons. Their records
have fields of every sort: required, left out when there is nothing to say,
null when there is nothing to say, and with a fallback; and a difference of two
declarations is a record of one of nine kinds. For each of them the reader has
to undo exactly what the writer did.

If the records of a type come back and nest only so deep, it does not matter
in which store or under which key a value is kept, nor whether it is packed.

## Theorems

* `SnapshotNotes.ofJson_toJson`, `Delta.ofJson_toJson`,
  `OutlineDiff.ofJson_toJson`: Written records come back.
* `storing_is_lossless`: Everything that is stored comes back.
-/

namespace Ripple

open List Json

namespace Json

variable {α : Type} {depth : Nat} {name kind : String}

/-- A value that may be null comes back, if no value is written as null. -/
theorem nullable_ofOption {write : α → Json} {read : Json → Option α} (hnull : ∀ a, write a ≠ null)
    (hread : ∀ a, read (write a) = some a) (value : Option α) :
    nullable? read (ofOption write value) = some value := by
  cases value with
  | none => rfl
  | some a =>
    unfold nullable? ofOption
    split
    next heq => exact absurd heq (hnull a)
    next => rw [hread, Option.map_some]

@[simp] theorem nullable_text (value : Option String) :
    nullable? text? (ofOption text value) = some value :=
  nullable_ofOption (fun _ => Json.noConfusion) text_text value

/-- The kind of a record and its fields come back, if no field is named like the kind. -/
theorem tagged_tagged {fields : List (String × Json)} (h : ∀ f ∈ fields, f.1 ≠ "type") :
    (tagged kind fields).tagged? = some (kind, object fields) := by
  have hnone : (fields.filter fun f => f.1 = "type") = [] :=
    filter_eq_nil_iff.mpr fun f hf => by simpa using h f hf
  have hall : (fields.filter fun f => f.1 ≠ "type") = fields :=
    List.filter_eq_self.mpr fun f hf => decide_eq_true (h f hf)
  simp only [tagged, tagged?, filter_cons, decide_true, if_true, hnone, hall, ne_eq,
    not_true_eq_false, decide_false, Bool.false_eq_true, if_false]

theorem stored_ofOption {write : α → Json} (h : ∀ a, Stored depth (write a)) (value : Option α) :
    Stored depth (ofOption write value) := by
  cases value with
  | none => exact .null
  | some a => exact h a

end Json

section Records

theorem Commit.ofJson_toJson (c : Commit) : Commit.ofJson? c.toJson = some c := by
  simp [Commit.ofJson?, Commit.toJson, record?]

theorem SnapshotNotes.ofJson_toJson (n : SnapshotNotes) :
    SnapshotNotes.ofJson? n.toJson = some n := by
  have hcommit : ∀ c : Commit, c.toJson ≠ null := fun _ => Json.noConfusion
  simp [SnapshotNotes.ofJson?, SnapshotNotes.toJson, record?,
    defaultIn_field hcommit Commit.ofJson_toJson]

theorem FileEntry.ofJson_toJson (e : FileEntry) : FileEntry.ofJson? e.toJson = some e := by
  have hrec : ∀ r : FileRecord, r.toJson ≠ null := fun _ => Json.noConfusion
  have houtline : ∀ o : Outline, o.toJson ≠ null := fun _ => Json.noConfusion
  simp [FileEntry.ofJson?, FileEntry.toJson, record?,
    defaultIn_field hrec FileRecord.ofJson_toJson,
    defaultIn_field houtline Outline.ofJson_toJson]

theorem Delta.ofJson_toJson (d : Delta) : Delta.ofJson? d.toJson = some d := by
  have hgraph : ∀ g : ImportGraph, g.toJson ≠ null := fun _ => Json.noConfusion
  simp [Delta.ofJson?, Delta.toJson, record?, dictOf_ofDict FileEntry.ofJson_toJson,
    defaultIn_field hgraph ImportGraph.ofJson_toJson]

theorem DeclarationKey.ofJson_toJson (k : DeclarationKey) :
    DeclarationKey.ofJson? k.toJson = some k := by
  simp [DeclarationKey.ofJson?, DeclarationKey.toJson, record?, DeclarationKind.ofJson_toJson]

theorem DeclarationChange.ofJson_tagged {kind : String} {fields : List (String × Json)}
    (h : ∀ f ∈ fields, f.1 ≠ "type") :
    DeclarationChange.ofJson? (tagged kind fields) =
      DeclarationChange.ofRecord? kind (object fields) := by
  rw [DeclarationChange.ofJson?, tagged_tagged h, Option.bind_some]

theorem DeclarationChange.ofJson_toJson (c : DeclarationChange) :
    DeclarationChange.ofJson? c.toJson = some c := by
  -- For each kind the tag is peeled off, and the word chooses the reader of the fields.
  cases c
  all_goals
    rw [DeclarationChange.toJson, DeclarationChange.ofJson_tagged
      (by simp [DeclarationChange.toJson.pair])]
    simp only [DeclarationChange.ofRecord?, DeclarationChange.toJson.pair, record?]
    simp

theorem ModifiedDeclaration.ofJson_toJson (m : ModifiedDeclaration) :
    ModifiedDeclaration.ofJson? m.toJson = some m := by
  simp [ModifiedDeclaration.ofJson?, ModifiedDeclaration.toJson, record?,
    DeclarationKey.ofJson_toJson, Declaration.ofJson_toJson,
    listOf_map DeclarationChange.ofJson_toJson]

theorem OutlineDiff.ofJson_toJson (d : OutlineDiff) : OutlineDiff.ofJson? d.toJson = some d := by
  simp [OutlineDiff.ofJson?, OutlineDiff.toJson, record?, listOf_map Declaration.ofJson_toJson,
    listOf_map ModifiedDeclaration.ofJson_toJson, listOf_map DeclarationKey.ofJson_toJson]

end Records

section Depth

variable {depth : Nat}

theorem Commit.stored_toJson (c : Commit) : Stored (depth + 1) c.toJson := by
  refine Stored.object ?_
  simp only [forall_mem_cons]
  exact ⟨.text _, .text _, .text _, stored_ofInt64 _, nofun⟩

theorem SnapshotNotes.stored_toJson (n : SnapshotNotes) : Stored (depth + 2) n.toJson := by
  refine Stored.object ?_
  simp only [forall_mem_append, forall_mem_cons]
  exact ⟨⟨⟨.text _, stored_ofTexts _, nofun⟩, stored_field .text _⟩,
    stored_field Commit.stored_toJson _⟩

theorem FileEntry.stored_toJson (e : FileEntry) : Stored (depth + 6) e.toJson := by
  refine Stored.object ?_
  simp only [forall_mem_append]
  exact ⟨stored_field FileRecord.stored_toJson _, stored_field Outline.stored_toJson _⟩

theorem Delta.stored_toJson (d : Delta) : Stored (depth + 8) d.toJson := by
  refine Stored.object ?_
  simp only [forall_mem_append, forall_mem_cons]
  exact ⟨⟨.text _, .text _, stored_ofInt64 _, stored_ofDict FileEntry.stored_toJson _,
    stored_ofDict FileEntry.stored_toJson _, stored_ofTexts _, nofun⟩,
    stored_field ImportGraph.stored_toJson _⟩

theorem DeclarationKey.stored_toJson (k : DeclarationKey) : Stored (depth + 1) k.toJson := by
  refine Stored.object ?_
  simp only [forall_mem_cons]
  exact ⟨.text _, .text _, nofun⟩

theorem DeclarationChange.stored_toJson (c : DeclarationChange) : Stored (depth + 1) c.toJson := by
  have htype : ∀ type : Option String, Stored depth (ofOption text type) := stored_ofOption .text
  cases c
  all_goals
    refine Stored.object ?_
    simp only [DeclarationChange.toJson.pair, forall_mem_cons, Stored.text, Stored.bool, htype,
      true_and]
    nofun

theorem ModifiedDeclaration.stored_toJson (m : ModifiedDeclaration) :
    Stored (depth + 4) m.toJson := by
  refine Stored.object ?_
  simp only [forall_mem_cons]
  exact ⟨m.key.stored_toJson, m.old.stored_toJson, m.new.stored_toJson,
    stored_list_map DeclarationChange.stored_toJson _, nofun⟩

theorem OutlineDiff.stored_toJson (d : OutlineDiff) : Stored (depth + 6) d.toJson := by
  refine Stored.object ?_
  simp only [forall_mem_cons]
  exact ⟨.text _, stored_list_map Declaration.stored_toJson _,
    stored_list_map Declaration.stored_toJson _,
    stored_list_map ModifiedDeclaration.stored_toJson _,
    stored_list_map DeclarationKey.stored_toJson _, nofun⟩

end Depth

/-- Values come back from their written form, and from every store in memory or in a directory
    after they were written there under any key. -/
structure ComesBack {α : Type} (write : α → Json) (read : Json → Option α) : Prop where
  /-- A written value is read. -/
  read_write : ∀ x, read (write x) = some x
  /-- A value that was written to a store is read from it. -/
  read_stored : ∀ (x : α) (store after : EitherStore) (key : String),
    (Store.writeJson key (write x)).Runs store () after → Store.readJson? read after key = some x

/-- Values come back from stores if their records come back and nest only so deep. -/
theorem comesBack_of_stored {α : Type} {write : α → Json} {read : Json → Option α}
    (hread : ∀ x, read (write x) = some x) (hstored : ∀ x, Stored maxDepth (write x)) :
    ComesBack write read where
  read_write := hread
  read_stored x store after key h := by rw [Store.readJson_of_writeJson (hstored x) h, hread]

/-- Snapshots, notes, deltas and comparisons come back as they were stored, and so do all the
    records that they are made of. -/
theorem storing_is_lossless : (ComesBack Snapshot.toJson Snapshot.ofJson? ∧
      ComesBack SnapshotNotes.toJson SnapshotNotes.ofJson? ∧
      ComesBack Delta.toJson Delta.ofJson? ∧ ComesBack OutlineDiff.toJson OutlineDiff.ofJson?) ∧
    ComesBack FileRecord.toJson FileRecord.ofJson? ∧ ComesBack Outline.toJson Outline.ofJson? ∧
      ComesBack Declaration.toJson Declaration.ofJson? ∧
      ComesBack Parameter.toJson Parameter.ofJson? ∧ ComesBack Import.toJson Import.ofJson? ∧
      ComesBack Export.toJson Export.ofJson? ∧ ComesBack Fault.toJson Fault.ofJson? ∧
      ComesBack ImportGraph.toJson ImportGraph.ofJson? := by
  refine ⟨⟨?_, ?_, ?_, ?_⟩, ?_, ?_, ?_, ?_, ?_, ?_, ?_, ?_⟩
  · exact comesBack_of_stored Snapshot.ofJson_toJson Snapshot.stored_toJson
  · exact comesBack_of_stored SnapshotNotes.ofJson_toJson SnapshotNotes.stored_toJson
  · exact comesBack_of_stored Delta.ofJson_toJson Delta.stored_toJson
  · exact comesBack_of_stored OutlineDiff.ofJson_toJson OutlineDiff.stored_toJson
  · exact comesBack_of_stored FileRecord.ofJson_toJson FileRecord.stored_toJson
  · exact comesBack_of_stored Outline.ofJson_toJson Outline.stored_toJson
  · exact comesBack_of_stored Declaration.ofJson_toJson Declaration.stored_toJson
  · exact comesBack_of_stored Parameter.ofJson_toJson Parameter.stored_toJson
  · exact comesBack_of_stored Import.ofJson_toJson Import.stored_toJson
  · exact comesBack_of_stored Export.ofJson_toJson Export.stored_toJson
  · exact comesBack_of_stored Fault.ofJson_toJson Fault.stored_toJson
  · exact comesBack_of_stored ImportGraph.ofJson_toJson ImportGraph.stored_toJson

/-- A store in a directory of a disk that has this directory only, with some files in it. -/
def directoryWith (files : List (String × FileTree)) : EitherStore :=
  .directory ⟨.directory [("d", .directory files)], "/d", "1", 0⟩

theorem put_directoryWith (bytes : ByteArray) : BlobStore.put (directoryWith []) "n.gz" bytes =
    (.ok (), directoryWith [("n.gz", .file bytes 0)]) := rfl

/-- Notes with an empty list, an empty text and an absent record. -/
def sparseNotes : SnapshotNotes := ⟨"1", [], some "", none⟩

/-- Packed notes come back from a store in a directory. -/
theorem storing_is_lossless_packed : Store.isPacked "n.gz" = true ∧ ∃ after,
    (Store.writeJson "n.gz" sparseNotes.toJson).Runs (directoryWith []) () after ∧
      Store.readJson? SnapshotNotes.ofJson? after "n.gz" = some sparseNotes := by
  have hrun : (Store.writeJson "n.gz" sparseNotes.toJson).Runs (directoryWith []) () _ :=
    put_directoryWith _
  exact ⟨by decide, _, hrun, storing_is_lossless.1.2.1.read_stored _ _ _ _ hrun⟩

end Ripple
