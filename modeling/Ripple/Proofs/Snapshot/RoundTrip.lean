import Ripple.Proofs.Json.Records
import Ripple.Proofs.Json.RoundTrip
import Ripple.Snapshot.Codec

/-!
# Stored Snapshots Come Back

A snapshot is stored as JSON, and reading what was stored gives the snapshot.
There are two halves to it. The record halves say that reading the fields of
a written record gives the record; they are about values, and text does not
enter. The other half is that the values nest only so deep, so that the
reader of text takes them.

How deep a value nests depends on what is in it, but the bound does not: each
kind of record has a fixed number of levels below it. A statement about a
kind holds at every depth that leaves room for these levels, so that records
of different kinds can stand side by side.

## Theorems

* `Outline.ofJson_toJson`, `ImportGraph.ofJson_toJson`,
  `Snapshot.ofJson_toJson`: Written records come back.
* `Snapshot.parse_pretty_toJson`: The text of a snapshot comes back.
-/

namespace Ripple

open List Json

namespace Json

variable {α : Type} {depth : Nat}

variable {write : α → Json}

theorem stored_ofUInt64 (n : UInt64) : Stored depth (ofUInt64 n) := by
  refine Stored.int (Int.le_trans ?_ (Int.natCast_nonneg _)) (Int.ofNat_lt.mpr n.toNat_lt_size)
  decide

theorem stored_ofInt64 (n : Int64) : Stored depth (ofInt64 n) := by
  refine Stored.int n.minValue_le_toInt (Int.lt_of_le_of_lt n.toInt_le ?_)
  decide

theorem stored_list_map (h : ∀ a, Stored depth (write a)) (items : List α) :
    Stored (depth + 1) (list (items.map write)) :=
  Stored.list (List.forall_mem_map.mpr fun a _ => h a)

theorem stored_ofTexts (items : List String) : Stored (depth + 1) (ofTexts items) :=
  stored_list_map Stored.text items

theorem stored_ofDict (h : ∀ a, Stored depth (write a)) (d : Dict String α) :
    Stored (depth + 1) (ofDict write d) :=
  Stored.object (List.forall_mem_map.mpr fun entry _ => h entry.2)

theorem stored_field {name : String} (h : ∀ a, Stored depth (write a)) (value : Option α) :
    ∀ f ∈ field? name write value, Stored depth f.2 := by
  cases value with
  | none => exact forall_mem_nil _
  | some a => exact forall_mem_singleton.mpr (h a)

theorem stored_fieldUnlessEmpty {name : String} (h : ∀ a, Stored depth (write a)) (items : List α) :
    ∀ f ∈ fieldUnlessEmpty name write items, Stored (depth + 1) f.2 := by
  cases items with
  | nil => exact forall_mem_nil _
  | cons a items => exact forall_mem_singleton.mpr (stored_list_map h (a :: items))

end Json

section Records

theorem DeclarationKind.ofJson_toJson (k : DeclarationKind) :
    DeclarationKind.ofJson? k.toJson = some k := by
  cases k <;> rfl

theorem ExportKind.ofJson_text (k : ExportKind) : ExportKind.ofJson? (.text k.text) = some k := by
  cases k with
  | declared kind => cases kind <;> rfl
  | default => rfl
  | reExport => rfl

theorem Parameter.ofJson_toJson (p : Parameter) : Parameter.ofJson? p.toJson = some p := by
  simp [Parameter.ofJson?, Parameter.toJson, record?]

theorem Location.ofJson_toJson (l : Location) : Location.ofJson? l.toJson = some l := by
  simp [Location.ofJson?, Location.toJson, record?]

theorem Declaration.ofJson_toJson (d : Declaration) : Declaration.ofJson? d.toJson = some d := by
  have hnull : ∀ ps : List Parameter, list (ps.map Parameter.toJson) ≠ null :=
    fun _ => Json.noConfusion
  have hpars : ∀ name, defaultIn (nullable? (listOf? Parameter.ofJson?)) none
      (field? name (fun ps => list (ps.map Parameter.toJson)) d.parameters) = some d.parameters :=
    fun _ => defaultIn_field hnull (listOf_map Parameter.ofJson_toJson) d.parameters
  simp [Declaration.ofJson?, Declaration.toJson, record?, DeclarationKind.ofJson_toJson,
    Location.ofJson_toJson, hpars]

theorem Import.ofJson_toJson (i : Import) : Import.ofJson? i.toJson = some i := by
  simp [Import.ofJson?, Import.toJson, record?]

theorem Export.ofJson_toJson (e : Export) : Export.ofJson? e.toJson = some e := by
  simp [Export.ofJson?, Export.toJson, record?, ExportKind.ofJson_text]

theorem Fault.ofJson_toJson (f : Fault) : Fault.ofJson? f.toJson = some f := by
  simp [Fault.ofJson?, Fault.toJson, record?]

theorem Outline.ofJson_toJson (o : Outline) : Outline.ofJson? o.toJson = some o := by
  simp [Outline.ofJson?, Outline.toJson, record?, listOf_map Declaration.ofJson_toJson,
    listOf_map Import.ofJson_toJson, listOf_map Export.ofJson_toJson,
    defaultIn_fieldUnlessEmpty Fault.ofJson_toJson]

theorem FileRecord.ofJson_toJson (f : FileRecord) : FileRecord.ofJson? f.toJson = some f := by
  simp [FileRecord.ofJson?, FileRecord.toJson, record?]

theorem ImportNode.ofJson_toJson (n : ImportNode) : ImportNode.ofJson? n.toJson = some n := by
  simp [ImportNode.ofJson?, ImportNode.toJson, record?]

theorem ImportGraph.ofJson_toJson (g : ImportGraph) : ImportGraph.ofJson? g.toJson = some g := by
  simp [ImportGraph.ofJson?, ImportGraph.toJson, record?, dictOf_ofDict ImportNode.ofJson_toJson,
    listOf_map texts_ofTexts, dictOf_ofDict texts_ofTexts]

theorem Snapshot.ofJson_toJson (s : Snapshot) : Snapshot.ofJson? s.toJson = some s := by
  simp [Snapshot.ofJson?, Snapshot.toJson, record?, dictOf_ofDict FileRecord.ofJson_toJson,
    dictOf_ofDict Outline.ofJson_toJson, ImportGraph.ofJson_toJson]

end Records

section Depth

variable {depth : Nat}

theorem Parameter.stored_toJson (p : Parameter) : Stored (depth + 1) p.toJson := by
  refine Stored.object ?_
  simp only [forall_mem_append, forall_mem_singleton]
  exact ⟨⟨⟨.text _, stored_field .text _⟩, .bool _⟩, stored_field .text _⟩

theorem Location.stored_toJson (l : Location) : Stored (depth + 1) l.toJson := by
  refine Stored.object ?_
  simp only [forall_mem_cons]
  exact ⟨stored_ofUInt64 _, stored_ofUInt64 _, stored_ofUInt64 _, stored_ofUInt64 _, nofun⟩

theorem Declaration.stored_toJson (d : Declaration) : Stored (depth + 3) d.toJson := by
  have hpars : ∀ ps : List Parameter, Stored (depth + 2) (list (ps.map Parameter.toJson)) :=
    stored_list_map Parameter.stored_toJson
  refine Stored.object ?_
  simp only [forall_mem_append, forall_mem_cons]
  exact ⟨⟨⟨⟨⟨⟨⟨.text _, .text _, nofun⟩, stored_field .text _⟩, stored_field hpars _⟩,
    stored_field .text _⟩, stored_field stored_ofTexts _⟩, d.location.stored_toJson, nofun⟩,
    stored_fieldUnlessEmpty .text _⟩

theorem Import.stored_toJson (i : Import) : Stored (depth + 2) i.toJson := by
  refine Stored.object ?_
  simp only [forall_mem_cons]
  exact ⟨.text _, stored_ofTexts _, .bool _, .bool _, nofun⟩

theorem Export.stored_toJson (e : Export) : Stored (depth + 1) e.toJson := by
  refine Stored.object ?_
  simp only [forall_mem_cons]
  exact ⟨.text _, .text _, .bool _, nofun⟩

theorem Fault.stored_toJson (f : Fault) : Stored (depth + 1) f.toJson := by
  refine Stored.object ?_
  simp only [forall_mem_cons]
  exact ⟨.text _, stored_ofUInt64 _, stored_ofUInt64 _, nofun⟩

theorem Outline.stored_toJson (o : Outline) : Stored (depth + 5) o.toJson := by
  refine Stored.object ?_
  simp only [forall_mem_append, forall_mem_cons]
  exact ⟨⟨.text _, .text _, stored_list_map Declaration.stored_toJson _,
    stored_list_map Import.stored_toJson _, stored_list_map Export.stored_toJson _, nofun⟩,
    stored_fieldUnlessEmpty Fault.stored_toJson _⟩

theorem FileRecord.stored_toJson (f : FileRecord) : Stored (depth + 1) f.toJson := by
  refine Stored.object ?_
  simp only [forall_mem_cons]
  exact ⟨.text _, .text _, stored_ofUInt64 _, stored_ofUInt64 _, .text _, stored_ofInt64 _,
    stored_ofInt64 _, nofun⟩

theorem ImportNode.stored_toJson (n : ImportNode) : Stored (depth + 2) n.toJson := by
  refine Stored.object ?_
  simp only [forall_mem_cons]
  exact ⟨.text _, stored_ofTexts _, stored_ofTexts _, .bool _, nofun⟩

theorem ImportGraph.stored_toJson (g : ImportGraph) : Stored (depth + 4) g.toJson := by
  refine Stored.object ?_
  simp only [forall_mem_cons]
  exact ⟨stored_ofDict ImportNode.stored_toJson _, stored_list_map stored_ofTexts _,
    stored_ofDict stored_ofTexts _, nofun⟩

/-- A snapshot has seven levels: itself, the map of outlines, an outline, its declarations, a
    declaration, its parameters and a parameter. -/
theorem Snapshot.stored_toJson (s : Snapshot) : Stored (depth + 7) s.toJson := by
  refine Stored.object ?_
  simp only [forall_mem_cons]
  exact ⟨.text _, stored_ofInt64 _, stored_ofDict FileRecord.stored_toJson _,
    stored_ofDict Outline.stored_toJson _, s.graph.stored_toJson, nofun⟩

end Depth

theorem Snapshot.parse_pretty_toJson (s : Snapshot) :
    (parse? s.toJson.pretty).bind Snapshot.ofJson? = some s := by
  have hstored : Stored maxDepth s.toJson := s.stored_toJson
  rw [parse_pretty hstored, Option.bind_some, s.ofJson_toJson]

end Ripple
