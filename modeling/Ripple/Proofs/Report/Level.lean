import Ripple.Proofs.Outline.Pattern
import Ripple.Proofs.Risk

/-!
# The Level of a Report

The report of a modified file has details from three sources: the patterns of
its declarations, the drift of its declarations as a whole, and the export
lists of the two versions. Its score is the largest one of its details, and
its level goes with the score, unless an exported name is lost: then the
level is breaking in any case.

The two rules never disagree. A lost name always leads to a detail with all
the points of a removed export: if the export lists do not give it, then a
pattern for a declaration of that name does, and since the name was exported
its points are not discounted. So the level is the one of the score
throughout.

Drift has fewer points than it takes to be breaking, and so has what is not
public. What remains are the patterns that are grave, and so the level is
breaking exactly if there is something that may break those who use the file.
-/

namespace Ripple

open List

section Notes

/-- A note changes nothing about details but a description. -/
theorem exists_mem_noteFirst_iff {P : DetailKind → List String → Score → Prop} (note : String)
    (details : List ChangeDetail) :
    (∃ d ∈ noteFirst note details, P d.kind d.affectedSymbols d.risk) ↔
      ∃ d ∈ details, P d.kind d.affectedSymbols d.risk := by
  cases details with
  | nil => rfl
  | cons d rest => simp only [noteFirst, exists_mem_cons_iff]

end Notes

namespace Outline

variable {old new : Outline}

/-- A name is exported by one of two versions. -/
def isPublic (old new : Outline) (symbol : String) : Bool :=
  old.exportNames.contains symbol || new.exportNames.contains symbol

theorem mem_lostExports_iff {name : String} :
    name ∈ old.lostExports new ↔ name ∈ old.exportNames ∧ name ∉ new.exportNames := by
  simp [lostExports]

/-- The details of a modified file, before the one that stands for none. -/
def foundDetails (old new : Outline) (weight : UInt32) : List ChangeDetail :=
  ((old.diff new).patterns old new).map
      (fun p => p.detail (p.exported || old.isPublic new p.symbol)) ++
    ((old.drift new weight).detail? (old.isPublic new)).toList ++
    ((old.lostExports new).filter fun name => !((((old.diff new).patterns old new).filter
      fun p => p.kind = .exportRemoved).map (·.symbol)).contains name).map removedExportDetail

variable {weight : UInt32} {d : ChangeDetail}

theorem details_eq (old new : Outline) (weight : UInt32) : old.details new weight =
    if (old.foundDetails new weight).isEmpty then [hiddenDetail]
    else old.foundDetails new weight := rfl

theorem mem_details_of_found (h : d ∈ old.foundDetails new weight) :
    d ∈ old.details new weight := by
  have hsome : (old.foundDetails new weight).isEmpty = false :=
    isEmpty_eq_false_iff_exists_mem.mpr ⟨d, h⟩
  rw [details_eq, hsome]
  exact h

theorem found_of_mem_details (h : d ∈ old.details new weight) :
    d ∈ old.foundDetails new weight ∨ d = hiddenDetail := by
  rw [details_eq] at h
  split at h
  · exact .inr (mem_singleton.mp h)
  · exact .inl h

/-- Where the details of a modified file come from. -/
theorem mem_foundDetails_iff : d ∈ old.foundDetails new weight ↔
    (∃ p ∈ (old.diff new).patterns old new,
      p.detail (p.exported || old.isPublic new p.symbol) = d) ∨
    (old.drift new weight).detail? (old.isPublic new) = some d ∨
    ∃ name ∈ old.lostExports new, (∀ p ∈ (old.diff new).patterns old new,
      p.kind = .exportRemoved → p.symbol ≠ name) ∧ removedExportDetail name = d := by
  simp only [foundDetails, mem_append, mem_map, Option.mem_toList, mem_filter,
    Bool.not_eq_true', or_assoc]
  refine or_congr_right (or_congr_right (exists_congr fun name => ?_))
  rw [and_assoc]
  rw [← Bool.not_eq_true, contains_iff_mem, mem_map]
  simp

/-- The detail of a drift is about no kind of its own, and not breaking. -/
theorem drift_detail {drift : Drift} {isPublic : String → Bool}
    (h : drift.detail? isPublic = some d) : d.kind = .internalChange ∧ d.risk.IsExact ∧
      d.risk.reaches RiskLevel.breakingThreshold = false := by
  unfold Drift.detail? at h
  split at h
  · cases h
  · obtain rfl := Option.some.inj h
    have hcapped : drift.cappedPoints < RiskLevel.breakingThreshold := by
      have hbound : min drift.points (RiskLevel.breakingThreshold - 1) <
          RiskLevel.breakingThreshold := Nat.lt_of_le_of_lt (Nat.min_le_right _ _) (by decide)
      unfold Drift.cappedPoints
      split
      · exact Nat.lt_of_le_of_lt (Nat.min_le_left _ _) hbound
      · exact hbound
    refine ⟨rfl, Score.isExact_adjusted _ _, ?_⟩
    rw [Bool.eq_false_iff, ne_eq,
      Score.reaches_adjusted_iff (Nat.le_of_lt (Nat.lt_trans hcapped (by decide)))]
    exact fun hgrave => absurd hgrave.2 (Nat.not_le.mpr hcapped)

/-- What a detail says if it is breaking. -/
structure Grave (old new : Outline) (d : ChangeDetail) : Prop where
  /-- It is of one of three kinds. -/
  kind : d.kind ∈ [.exportRemoved, .returnTypeChanged, .parameterChanged]
  /-- There is something that may break those who use the file. -/
  breaks : old.Breaks new

/-- The score of a detail is exact, and if it is breaking then there is a reason. -/
theorem grave_of_mem_details (h : d ∈ old.details new weight) : d.risk.IsExact ∧
    (d.risk.reaches RiskLevel.breakingThreshold = true → old.Grave new d) := by
  rcases found_of_mem_details h with hfound | rfl
  · rcases mem_foundDetails_iff.mp hfound with ⟨p, hp, rfl⟩ | hdrift | ⟨name, hname, -, rfl⟩
    · obtain ⟨n, hweighs⟩ := weighs_of_mem_patterns hp
      simp only [ChangePattern.detail, hweighs.risk]
      refine ⟨Score.isExact_adjusted _ _, fun hgrave => ?_⟩
      obtain ⟨-, hgrave⟩ := (Score.reaches_adjusted_iff hweighs.le _).mp hgrave
      refine ⟨?_, hweighs.breaks hgrave⟩
      have hkind := hweighs.kind hgrave
      simp only [mem_cons, not_mem_nil, or_false] at hkind
      rcases hkind with hkind | hkind | hkind
      · simp [hkind, DetailKind.ofPattern]
      · simp [hkind, DetailKind.ofPattern]
      · simp [hkind, DetailKind.ofPattern]
    · obtain ⟨-, hexact, hless⟩ := drift_detail hdrift
      exact ⟨hexact, fun hgrave => nomatch hless.symm.trans hgrave⟩
    · obtain ⟨hpre, hafter⟩ := mem_lostExports_iff.mp hname
      exact ⟨trivial, fun _ => ⟨mem_cons_self, .exportLost hpre hafter⟩⟩
  · exact ⟨trivial, fun hgrave => nomatch hgrave⟩

/-- A name that is lost has a detail with all the points of a removed export. -/
theorem lost_export_mem_details {name : String} (hpre : name ∈ old.exportNames)
    (hafter : name ∉ new.exportNames) (weight : UInt32) :
    ∃ d ∈ old.details new weight, d.kind = .exportRemoved ∧ d.affectedSymbols = [name] ∧
      d.risk = .points Points.exportRemoved := by
  have hlost := mem_lostExports_iff.mpr ⟨hpre, hafter⟩
  by_cases hcovered : ∃ p ∈ (old.diff new).patterns old new,
      p.kind = .exportRemoved ∧ p.symbol = name
  · -- The export list is not asked, but the pattern has the same name, and the name was public.
    obtain ⟨p, hp, hkind, rfl⟩ := hcovered
    have hpublic : (p.exported || old.isPublic new p.symbol) = true := by
      rw [isPublic, contains_iff_mem.mpr hpre, Bool.true_or, Bool.or_true]
    refine ⟨_, mem_details_of_found (mem_foundDetails_iff.mpr (.inl ⟨p, hp, rfl⟩)), ?_, rfl, ?_⟩
    · simp only [ChangePattern.detail, hkind, DetailKind.ofPattern]
    · rw [hpublic]
      exact risk_of_exportRemoved hp hkind
  · refine ⟨removedExportDetail name, mem_details_of_found (mem_foundDetails_iff.mpr (.inr (.inr
      ⟨name, hlost, fun p hp hkind hsymbol => ?_, rfl⟩))), rfl, rfl, rfl⟩
    exact hcovered ⟨p, hp, hkind, hsymbol⟩

variable (weight) (graph : Option PropertyGraph)

theorem reaches_risk_report_iff :
    (old.report new weight graph).risk.reaches RiskLevel.breakingThreshold = true ↔
      ∃ d ∈ old.details new weight, d.risk.reaches RiskLevel.breakingThreshold = true := by
  have hexact : ∀ s ∈ (old.details new weight).map (·.risk), s.IsExact := by
    intro s hs
    obtain ⟨d, hd, rfl⟩ := mem_map.mp hs
    exact (grave_of_mem_details hd).1
  refine (Score.reaches_largest_iff hexact (by decide)).trans ?_
  simp

/-- The level of a report goes with its score, also if a name is lost. -/
theorem level_report_eq : (old.report new weight graph).level =
    .ofScore (old.report new weight graph).risk := by
  change (if (old.lostExports new).isEmpty then RiskLevel.ofScore _ else .breaking) = _
  split
  · rfl
  · next hlost =>
    rw [List.isEmpty_iff] at hlost
    obtain ⟨name, hname⟩ := exists_mem_of_ne_nil _ hlost
    obtain ⟨hpre, hafter⟩ := mem_lostExports_iff.mp hname
    obtain ⟨d, hd, -, -, hrisk⟩ := lost_export_mem_details hpre hafter weight
    refine (RiskLevel.ofScore_eq_breaking_iff.mpr ?_).symm
    refine (reaches_risk_report_iff weight graph).mpr ⟨d, hd, ?_⟩
    rw [hrisk]
    rfl

/-- A file with a function that is exported, one that is not, and one more name that is exported. -/
def offering : Outline :=
  { empty "a.ts" "1" with
    exports := [⟨"h", .reExport, false⟩]
    declarations := [{ Declaration.bare .function "f" with exports := some ["f"] },
      .bare .function "g"] }

/-- The file without anything in it. -/
def emptied : Outline := empty "a.ts" "2"

/-- Every name that is lost is reported with all the points of a removed export, and so the level of
    every report goes with its score. -/
theorem report_covers_lost_exports (old new : Outline) :
    (∀ name ∈ old.exportNames, name ∉ new.exportNames →
      ∃ d ∈ (old.report new weight graph).details, d.kind = .exportRemoved ∧
        d.affectedSymbols = [name] ∧ d.risk = .points Points.exportRemoved) ∧
      (old.report new weight graph).level = .ofScore (old.report new weight graph).risk ∧
      old.removedReport.level = .ofScore old.removedReport.risk ∧
      new.addedReport.level = .ofScore new.addedReport.risk := by
  refine ⟨fun name hbefore hafter => ?_, level_report_eq weight graph, ?_, rfl⟩
  · exact (exists_mem_noteFirst_iff (P := fun kind symbols risk => kind = .exportRemoved ∧
      symbols = [name] ∧ risk = .points Points.exportRemoved) _ _).mpr
        (lost_export_mem_details hbefore hafter weight)
  · rw [removedReport]
    by_cases hempty : old.exportNames.isEmpty = true
    · rw [if_pos hempty]
      rfl
    · rw [if_neg hempty]
      rfl

/-- A name is reported that belongs to a declaration, and so is one that only an export list has. -/
theorem report_covers_lost_exports_emptied :
    (("f" ∈ offering.exportNames ∧ "f" ∉ emptied.exportNames) ∧
      ∃ d ∈ (offering.report emptied 10 none).details, d.kind = .exportRemoved ∧
        d.affectedSymbols = ["f"] ∧ d.risk = .points Points.exportRemoved) ∧
    (("h" ∈ offering.exportNames ∧ "h" ∉ emptied.exportNames) ∧
      ∃ d ∈ (offering.report emptied 10 none).details, d.kind = .exportRemoved ∧
        d.affectedSymbols = ["h"] ∧ d.risk = .points Points.exportRemoved) := by
  have hdeclared : "f" ∈ offering.exportNames ∧ "f" ∉ emptied.exportNames := by decide +kernel
  have hlisted : "h" ∈ offering.exportNames ∧ "h" ∉ emptied.exportNames := by decide +kernel
  have hcovers := (report_covers_lost_exports 10 none offering emptied).1
  exact ⟨⟨hdeclared, hcovers "f" hdeclared.1 hdeclared.2⟩, hlisted, hcovers "h" hlisted.1 hlisted.2⟩

end Outline

end Ripple
