import Ripple.Proofs.Outline.Drift
import Ripple.Proofs.Report.Level
import Ripple.Proofs.Store.Keys

/-!
# The Drift in a Report

The details of a report are told apart by their descriptions. That of a drift
begins with words of its own, and every other description goes another way
before it could have said them all. This is also so after a note, since notes
are added at the end.

So one can say when a report speaks of a drift: if and only if a declaration
appeared or vanished. A comparison that finds nothing but modified declarations
never does.
-/

namespace Ripple

open List

/-- The words that the description of a drift begins with. -/
def driftHeading : String := "Declaration structure drift: distance "

theorem beginsWith_describe (d : Drift) : beginsWith d.describe driftHeading = true := by
  unfold Drift.describe
  simp only [String.append_assoc]
  exact beginsWith_append driftHeading _

/-- A text goes another way than a heading: neither of them begins with the other. -/
structure Departs (text heading : String) : Prop where
  /-- The text does not begin with the heading. -/
  differs : beginsWith text heading = false
  /-- It is not only too short for that. -/
  notShort : beginsWith heading text = false

instance (text heading : String) : Decidable (Departs text heading) :=
  decidable_of_iff (beginsWith text heading = false ∧ beginsWith heading text = false)
    ⟨fun h => ⟨h.1, h.2⟩, fun h => ⟨h.1, h.2⟩⟩

theorem beginsWith_eq_false_iff {text front : String} :
    beginsWith text front = false ↔ ¬ front.toList <+: text.toList := by
  rw [← Bool.not_eq_true, beginsWith, isPrefixOf_iff_prefix]

theorem Departs.append {text heading : String} (h : Departs text heading) (rest : String) :
    Departs (text ++ rest) heading := by
  have htext := beginsWith_eq_false_iff.mp h.differs
  have hheading := beginsWith_eq_false_iff.mp h.notShort
  constructor
  · rw [beginsWith_eq_false_iff, String.toList_append]
    intro hfront
    rcases prefix_or_prefix_of_prefix hfront (prefix_append _ _) with hle | hle
    · exact htext hle
    · exact hheading hle
  · rw [beginsWith_eq_false_iff, String.toList_append]
    exact fun hfront => hheading ((prefix_append _ _).trans hfront)

theorem departs_kind (kind : DeclarationKind) : Departs kind.text driftHeading := by
  cases kind <;> decide +kernel

namespace ModifiedDeclaration

variable {m : ModifiedDeclaration} {exported : Bool} {p : ChangePattern}

theorem departs_of_mem_exportPatterns (h : p ∈ m.exportPatterns exported) :
    Departs p.description driftHeading := by
  obtain ⟨c, hc, hp⟩ := mem_filterMap.mp h
  have hsubject := ((departs_kind m.new.kind).append " ").append (quoted m.new.name)
  cases c with
  | exportRemoved name | exportAdded name =>
    rw [← Option.some.inj hp]
    exact (hsubject.append _).append _
  | _ => cases hp

theorem departs_of_mem_returnPatterns (h : p ∈ m.returnPatterns exported) :
    Departs p.description driftHeading := by
  unfold returnPatterns at h
  split at h
  · cases h
  · rw [mem_singleton.mp h]
    have hlabel : Departs (if m.new.kind = .function then "Return type" else "Declared type")
        driftHeading := by
      by_cases hfunction : m.new.kind = .function
      · rw [if_pos hfunction]
        decide +kernel
      · rw [if_neg hfunction]
        decide +kernel
    exact (((((hlabel.append _).append _).append _).append _).append _).append _

theorem departs_of_mem_parameterPatterns (h : p ∈ m.parameterPatterns exported) :
    Departs p.description driftHeading := by
  have hfront : Departs "Parameters of " driftHeading := by decide +kernel
  have hentry : ∀ verb tags : String, Departs ("Parameters of " ++ quoted m.new.name ++ " " ++
      verb ++ ": " ++ tags) driftHeading :=
    fun _ _ => ((((hfront.append _).append _).append _).append _).append _
  rcases mem_append.mp h with h | h
  · split at h
    · rw [mem_singleton.mp h]
      exact hentry _ _
    · split at h
      · rw [mem_singleton.mp h]
        exact hentry _ _
      · cases h
  · split at h
    · cases h
    · rw [mem_singleton.mp h]
      exact hentry _ _

theorem departs_signaturePattern (m : ModifiedDeclaration) (exported : Bool) :
    Departs (m.signaturePattern exported).description driftHeading := by
  have hfront : Departs "Definition of " driftHeading := by decide +kernel
  have hall := (((hfront.append m.new.kind.text).append " ").append (quoted m.new.name)).append
    " changed"
  unfold signaturePattern
  cases hkind : m.new.kind <;> rw [hkind] at hall <;> exact hall

/-- The description of a pattern of a modified declaration is not that of a drift. -/
theorem departs_of_mem_patterns (h : p ∈ m.patterns exported) :
    Departs p.description driftHeading := by
  rcases mem_append.mp h with h | h
  · rcases mem_append.mp h with h | h
    · exact departs_of_mem_exportPatterns h
    · rcases mem_append.mp h with h | h
      · exact departs_of_mem_returnPatterns h
      · exact departs_of_mem_parameterPatterns h
  · unfold itemIf at h
    split at h
    · rw [mem_singleton.mp h]
      exact departs_signaturePattern m exported
    · cases h

end ModifiedDeclaration

theorem departs_removedPattern (d : Declaration) (exported : Bool) :
    Departs (removedPattern d exported).description driftHeading := by
  have hfront : Departs (if exported then "Exported " else "Internal ") driftHeading := by
    cases exported <;> decide +kernel
  exact (((hfront.append _).append _).append _).append _

theorem departs_addedPattern (d : Declaration) (exported : Bool) :
    Departs (addedPattern d exported).description driftHeading := by
  have hfront : Departs "Added " driftHeading := by decide +kernel
  exact ((hfront.append _).append _).append _

/-- A note leaves it open to whom it is added, but not what a description begins with. -/
theorem exists_drift_noteFirst_iff (note : String) {details : List ChangeDetail}
    (h : ∀ detail ∈ details, beginsWith detail.description driftHeading = true ∨
      Departs detail.description driftHeading) :
    (∃ detail ∈ noteFirst note details, beginsWith detail.description driftHeading = true) ↔
      ∃ detail ∈ details, beginsWith detail.description driftHeading = true := by
  cases details with
  | nil => rfl
  | cons detail rest =>
    have hfst : beginsWith (detail.description ++ note) driftHeading = true ↔
        beginsWith detail.description driftHeading = true := by
      rcases h detail mem_cons_self with hbeg | hdeparts
      · refine iff_of_true ?_ hbeg
        rw [beginsWith, isPrefixOf_iff_prefix] at hbeg ⊢
        rw [String.toList_append]
        exact hbeg.trans (prefix_append _ _)
      · rw [(hdeparts.append note).differs, hdeparts.differs]
    simp only [noteFirst, exists_mem_cons_iff, hfst]

namespace Outline

variable {old new : Outline} {weight : UInt32}

theorem departs_of_mem_patterns {p : ChangePattern} (h : p ∈ (old.diff new).patterns old new) :
    Departs p.description driftHeading := by
  rcases mem_patterns_iff.mp h with ⟨d, -, rfl⟩ | ⟨d, -, rfl⟩ | ⟨m, -, hp⟩
  · exact departs_removedPattern d _
  · exact departs_addedPattern d _
  · exact ModifiedDeclaration.departs_of_mem_patterns hp

/-- A detail that speaks of a drift is that of the drift, and all others go another way. -/
theorem drift_or_departs {detail : ChangeDetail} (h : detail ∈ old.details new weight) :
    (old.drift new weight).detail? (old.isPublic new) = some detail ∨
      Departs detail.description driftHeading := by
  rcases found_of_mem_details h with hfound | rfl
  · rcases mem_foundDetails_iff.mp hfound with ⟨p, hp, rfl⟩ | hdrift | ⟨name, -, -, rfl⟩
    · exact .inr (departs_of_mem_patterns hp)
    · exact .inl hdrift
    · have hfront : Departs "Export " driftHeading := by decide +kernel
      exact .inr ((hfront.append _).append _)
  · exact .inr (by decide +kernel)

theorem drift_detail_eq_some_iff (drift : Drift) (isPublic : String → Bool) :
    (∃ detail, drift.detail? isPublic = some detail ∧
      beginsWith detail.description driftHeading = true) ↔ drift.distance ≠ 0 := by
  by_cases hzero : drift.distance = 0
  · simp [Drift.detail?, hzero]
  · simp [Drift.detail?, hzero, beginsWith_describe]

theorem exists_drift_detail_iff (graph : Option PropertyGraph) :
    (∃ detail ∈ (old.report new weight graph).details,
      beginsWith detail.description driftHeading = true) ↔ (old.drift new weight).distance ≠ 0 := by
  have hkinds : ∀ detail ∈ old.details new weight,
      beginsWith detail.description driftHeading = true ∨
        Departs detail.description driftHeading := by
    intro detail hdetail
    refine (drift_or_departs hdetail).imp_left fun hdrift => ?_
    unfold Drift.detail? at hdrift
    split at hdrift
    · cases hdrift
    · rw [← Option.some.inj hdrift]
      exact beginsWith_describe _
  rw [← drift_detail_eq_some_iff _ (old.isPublic new)]
  refine (exists_drift_noteFirst_iff _ hkinds).trans ⟨?_, ?_⟩
  · rintro ⟨detail, hdetail, hbeg⟩
    rcases drift_or_departs hdetail with hdrift | hdeparts
    · exact ⟨detail, hdrift, hbeg⟩
    · rw [hdeparts.differs] at hbeg
      cases hbeg
  · rintro ⟨detail, hdrift, hbeg⟩
    exact ⟨detail, mem_details_of_found (mem_foundDetails_iff.mpr (.inr (.inl hdrift))), hbeg⟩

/-- Let two versions of a file be different. The distance of their drift is at least the number of
    declarations that were added, and the number of those that were removed, and at most both
    numbers together. It is zero iff there are none, and so the report speaks of a drift iff
    something was added or removed. -/
theorem drift_agrees_with_diff (hhash : old.hash ≠ new.hash) (weight : UInt32)
    (graph : Option PropertyGraph) :
    max (old.diff new).added.length (old.diff new).removed.length ≤
        (old.drift new weight).distance ∧
      (old.drift new weight).distance ≤
        (old.diff new).added.length + (old.diff new).removed.length ∧
      ((old.drift new weight).distance = 0 ↔
        (old.diff new).added = [] ∧ (old.diff new).removed = []) ∧
      ((∃ detail ∈ (old.report new weight graph).details,
          beginsWith detail.description driftHeading = true) ↔
        (old.diff new).added ≠ [] ∨ (old.diff new).removed ≠ []) := by
  have hlower := max_le_distance hhash weight
  have hupper := distance_le_add hhash weight
  have hzero : (old.drift new weight).distance = 0 ↔
      (old.diff new).added = [] ∧ (old.diff new).removed = [] := by
    rw [← length_eq_zero_iff, ← length_eq_zero_iff]
    omega
  refine ⟨hlower, hupper, hzero, ?_⟩
  rw [exists_drift_detail_iff, ne_eq, hzero]
  exact not_and_or

/-- A file with two functions that are not exported. -/
def paired : Outline :=
  { empty "a.ts" "1" with declarations := [.bare .function "f", .bare .function "g"] }

/-- The file where one of the functions has a return type. -/
def typed : Outline :=
  { empty "a.ts" "2" with
    declarations :=
      [.bare .function "f", { Declaration.bare .function "g" with returnType := some "void" }] }

/-- The file where one of the functions is replaced by two others. -/
def replaced : Outline :=
  { empty "a.ts" "3" with
    declarations := [.bare .function "g", .bare .function "h", .bare .function "k"] }

/-- A report speaks of a drift where functions are replaced, and not where one is only modified. -/
theorem drift_agrees_with_diff_paired :
    (paired.hash ≠ replaced.hash ∧ (paired.diff replaced).added.length = 2 ∧
      (paired.diff replaced).removed.length = 1 ∧ (paired.drift replaced 10).distance = 3 ∧
      ∃ detail ∈ (paired.report replaced 10 none).details,
        beginsWith detail.description driftHeading = true) ∧
    paired.hash ≠ typed.hash ∧ (paired.diff typed).modified ≠ [] ∧
      (paired.drift typed 10).distance = 0 ∧
      ¬ ∃ detail ∈ (paired.report typed 10 none).details,
        beginsWith detail.description driftHeading = true := by
  have hreplaced : paired.hash ≠ replaced.hash := by decide
  have htyped : paired.hash ≠ typed.hash := by decide
  have hadded : (paired.diff replaced).added.length = 2 := by decide +kernel
  have hremoved : (paired.diff replaced).removed.length = 1 := by decide +kernel
  have hnone : (paired.diff typed).added = [] ∧ (paired.diff typed).removed = [] := by
    decide +kernel
  obtain ⟨-, -, -, hsome⟩ := drift_agrees_with_diff hreplaced 10 none
  obtain ⟨-, -, hzero, hsilent⟩ := drift_agrees_with_diff htyped 10 none
  have hmodified : (paired.diff typed).modified ≠ [] := by
    have hkey : ⟨.function, "g"⟩ ∈ (paired.diff typed).modified.map ModifiedDeclaration.key :=
      (mem_keys_modified_diff htyped).mpr
        ⟨_, _, rfl, rfl, fun halike => absurd halike.returnType (by decide)⟩
    intro hempty
    rw [hempty] at hkey
    cases hkey
  refine ⟨⟨hreplaced, hadded, hremoved, by decide +kernel, hsome.mpr (.inl ?_)⟩, htyped,
    hmodified, hzero.mpr hnone, ?_⟩
  · intro hempty
    rw [hempty] at hadded
    cases hadded
  · rw [hsilent, hnone.1, hnone.2]
    exact fun hor => hor.elim (· rfl) (· rfl)

end Outline

end Ripple
