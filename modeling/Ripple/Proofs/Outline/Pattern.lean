import Ripple.Outline.Pattern
import Ripple.Proofs.Outline.Diff

/-!
# The Points of Patterns

Each pattern of a comparison has whole points, at most a hundred of them. How
many they are depends on the kind of the pattern and on whether the
declaration is exported. What matters most is which patterns have as many
points as it takes to be breaking: a removed export, another base of an
exported return type, and parameters of an exported declaration that break
callers.

`ModifiedDeclaration.Rates` says once what patterns a modified declaration
has, with their points and with the differences that they come from. Read one
way it tells what is behind a pattern with many points; the other way, each of
the differences that count gives a pattern. A new signature counts only as
long as it is unexplained.
-/

namespace Ripple

open List

section Changes

variable {a b : Declaration}

/-- Differences of parameters are neither of return types nor of exports. -/
theorem not_mem_parameterChanges (as bs : List Parameter) :
    (∀ before after, .returnType before after ∉ parameterChanges as bs) ∧
      ∀ name, .exportRemoved name ∉ parameterChanges as bs := by
  induction as, bs using parameterChanges.induct with
  | case1 a as b bs ih =>
    simp only [parameterChanges, mem_append, itemIf]
    grind
  | case2 b bs ih => simp [parameterChanges, ih]
  | case3 a as ih => simp [parameterChanges, ih]
  | case4 => simp [parameterChanges]

/-- A declaration that is no longer exported under a name was exported. -/
theorem isExported_of_exportRemoved {name : String}
    (h : .exportRemoved name ∈ declarationChanges a b) : a.isExported = true := by
  have hpars := (not_mem_parameterChanges (a.parameters.getD []) (b.parameters.getD [])).2
  simp only [declarationChanges, mem_append, mem_map, reduceCtorEq, and_false,
    exists_false, or_false, hpars, itemIf, DeclarationChange.exportRemoved.injEq,
    exists_eq_right, mem_filter] at h
  rcases h with (h | h) | h
  · split at h <;> simp at h
  · split at h <;> simp at h
  · rw [Declaration.isExported, Bool.not_eq_true', isEmpty_eq_false_iff]
    exact ne_nil_of_mem h.1

end Changes

/-- Whether a kind of declaration defines a type. -/
def DeclarationKind.isType : DeclarationKind → Bool
  | .interface | .typeAlias | .enumeration | .classType => true
  | .function | .value => false

/-- Whether a difference explains that the signature is another one. -/
def DeclarationChange.explains (c : DeclarationChange) : Bool :=
  c.returnTypes?.isSome || c.breaksParameters || c.extendsParameters || c.renamesParameter

namespace ModifiedDeclaration

variable {m : ModifiedDeclaration} {exported : Bool} {p : ChangePattern}

variable {kind : PatternKind} {before after : Option String}

/-- The signature is another one, and no other difference explains it. -/
structure Unexplained (m : ModifiedDeclaration) : Prop where
  /-- There is a difference of signatures. -/
  signature : ∃ c ∈ m.changes, c.isSignature = true
  /-- No difference explains it. -/
  bare : ∀ c ∈ m.changes, c.explains = false

/-- The kinds of patterns that a modified declaration has, with their points. -/
inductive Rates (m : ModifiedDeclaration) (exported : Bool) : PatternKind → Nat → Prop
  /-- It is no longer exported under a name. -/
  | exportRemoved {name : String} (change : .exportRemoved name ∈ m.changes) :
      Rates m exported .exportRemoved Points.exportRemoved
  /-- It is newly exported under a name. -/
  | exportAdded {name : String} (change : .exportAdded name ∈ m.changes) :
      Rates m exported .exportAdded Points.exportAdded
  /-- Its return type has another base. -/
  | returnBase {before after : String}
      (found : m.changes.findSome? DeclarationChange.returnTypes? = some (some before, some after))
      (differ : baseType before ≠ baseType after) :
      Rates m exported .returnTypeChanged (Points.returnBase exported)
  /-- Its return type is another one, with the same base or with none. -/
  | returnType {before after : Option String}
      (found : m.changes.findSome? DeclarationChange.returnTypes? = some (before, after))
      (same : baseChanged before after = false) :
      Rates m exported .returnTypeChanged (Points.returnType exported)
  /-- Its parameters break callers. -/
  | parameterBreaking {c : DeclarationChange} (change : c ∈ m.changes)
      (breaks : c.breaksParameters = true) :
      Rates m exported .parameterBreaking (Points.parameterBreaking exported)
  /-- It has parameters that callers may leave out, and none that break them. -/
  | parameterAdditive {c : DeclarationChange} (change : c ∈ m.changes)
      (extra : c.extendsParameters = true)
      (harmless : ∀ d ∈ m.changes, d.breaksParameters = false) :
      Rates m exported .parameterAdditive Points.parameterAdditive
  /-- Its parameters have other names. -/
  | parameterRenamed {c : DeclarationChange} (change : c ∈ m.changes)
      (renames : c.renamesParameter = true) :
      Rates m exported .parameterRenamed Points.parameterRenamed
  /-- It is another type, and nothing else tells why. -/
  | typeDefinition (definition : m.Unexplained) (kind : m.new.kind.isType = true) :
      Rates m exported .typeDefinitionChanged (Points.typeDefinition exported)
  /-- It has another signature, and nothing else tells why. -/
  | signature (definition : m.Unexplained) (kind : m.new.kind.isType = false) :
      Rates m exported .signatureChanged (Points.signature exported)

/-- A pattern of a modified declaration with the points of its kind. -/
structure Rated (m : ModifiedDeclaration) (exported : Bool) (p : ChangePattern) : Prop where
  /-- The kind and the points go together. -/
  rates : ∃ n, m.Rates exported p.kind n ∧ p.risk = .points n
  /-- The pattern is of an exported declaration if the declaration is exported. -/
  exported : p.exported = exported
  /-- The pattern has the name and the kind of the declaration. -/
  subject : p.symbol = m.new.name ∧ p.declarationKind = m.new.kind

theorem rated_pattern {n : Nat} (h : m.Rates exported kind n) (description : String)
    (before after : Option String) :
    m.Rated exported (m.pattern exported kind n description before after) :=
  ⟨⟨n, h, rfl⟩, rfl, rfl, rfl⟩

theorem mem_of_findSome_returnTypes
    (h : m.changes.findSome? DeclarationChange.returnTypes? = some (before, after)) :
    .returnType before after ∈ m.changes := by
  obtain ⟨c, hc, hret⟩ := exists_of_findSome?_eq_some h
  cases c with
  | returnType old new =>
    obtain ⟨rfl, rfl⟩ := Prod.mk.inj (Option.some.inj hret)
    exact hc
  | _ => cases hret

theorem baseChanged_eq_true_iff : baseChanged before after = true ↔
    ∃ x y, before = some x ∧ after = some y ∧ baseType x ≠ baseType y := by
  cases before <;> cases after <;> simp [baseChanged]

/-- Some words for differences are listed iff a difference passes the test for them. -/
theorem isEmpty_tags_eq_false_iff {test : DeclarationChange → Bool} :
    ((m.changes.filter test).map DeclarationChange.tag).isEmpty = false ↔
      ∃ c ∈ m.changes, test c = true := by
  rw [isEmpty_map, isEmpty_eq_false_iff_exists_mem]
  simp

theorem isEmpty_tags_eq_true_iff {test : DeclarationChange → Bool} :
    ((m.changes.filter test).map DeclarationChange.tag).isEmpty = true ↔
      ∀ c ∈ m.changes, test c = false := by
  rw [isEmpty_map, List.isEmpty_iff, filter_eq_nil_iff]
  simp

theorem rated_of_mem_exportPatterns (h : p ∈ m.exportPatterns exported) : m.Rated exported p := by
  obtain ⟨c, hc, hp⟩ := mem_filterMap.mp h
  cases c with
  | exportRemoved name =>
    rw [← Option.some.inj hp]
    exact rated_pattern (.exportRemoved hc) _ _ _
  | exportAdded name =>
    rw [← Option.some.inj hp]
    exact rated_pattern (.exportAdded hc) _ _ _
  | _ => cases hp

theorem rated_of_mem_returnPatterns (h : p ∈ m.returnPatterns exported) : m.Rated exported p := by
  unfold returnPatterns at h
  split at h
  · cases h
  · next before after hfound =>
    rw [mem_singleton.mp h]
    split
    · next hbase =>
      -- The base is another one only if both types are written.
      obtain ⟨x, y, rfl, rfl, hne⟩ := baseChanged_eq_true_iff.mp hbase
      exact rated_pattern (.returnBase hfound hne) _ _ _
    · next hbase =>
      exact rated_pattern (.returnType hfound (Bool.not_eq_true _ ▸ hbase)) _ _ _

theorem rated_of_mem_parameterPatterns (h : p ∈ m.parameterPatterns exported) :
    m.Rated exported p := by
  rcases mem_append.mp h with h | h
  · split at h
    · next hbreak =>
      obtain ⟨c, hc, hbreaks⟩ := isEmpty_tags_eq_false_iff.mp (Bool.not_eq_true' _ ▸ hbreak)
      rw [mem_singleton.mp h]
      exact rated_pattern (.parameterBreaking hc hbreaks) _ _ _
    · next hharmless =>
      split at h
      · next hadditive =>
        obtain ⟨c, hc, hextends⟩ := isEmpty_tags_eq_false_iff.mp (Bool.not_eq_true' _ ▸ hadditive)
        rw [Bool.not_eq_true', Bool.not_eq_false, isEmpty_tags_eq_true_iff] at hharmless
        rw [mem_singleton.mp h]
        exact rated_pattern (.parameterAdditive hc hextends hharmless) _ _ _
      · cases h
  · split at h
    · cases h
    · next hrenamed =>
      obtain ⟨c, hc, hrenames⟩ := isEmpty_tags_eq_false_iff.mp (Bool.not_eq_true _ ▸ hrenamed)
      rw [mem_singleton.mp h]
      exact rated_pattern (.parameterRenamed hc hrenames) _ _ _

theorem signaturePattern_eq (m : ModifiedDeclaration) (exported : Bool) :
    ∃ description before after, m.signaturePattern exported =
      if m.new.kind.isType then m.pattern exported .typeDefinitionChanged
        (Points.typeDefinition exported) description before after
      else m.pattern exported .signatureChanged (Points.signature exported) description before
        after := by
  unfold signaturePattern
  cases m.new.kind <;> exact ⟨_, _, _, rfl⟩

theorem rated_signaturePattern (h : m.Unexplained) (exported : Bool) :
    m.Rated exported (m.signaturePattern exported) := by
  obtain ⟨description, before, after, heq⟩ := m.signaturePattern_eq exported
  rw [heq]
  split
  · next hkind => exact rated_pattern (.typeDefinition h hkind) _ _ _
  · next hkind => exact rated_pattern (.signature h (Bool.not_eq_true _ ▸ hkind)) _ _ _

theorem returnPatterns_eq_nil_iff : m.returnPatterns exported = [] ↔
    ∀ c ∈ m.changes, c.returnTypes? = none := by
  rw [returnPatterns, ← findSome?_eq_none_iff]
  cases m.changes.findSome? DeclarationChange.returnTypes? <;> simp

theorem parameterPatterns_eq_nil_iff : m.parameterPatterns exported = [] ↔
    ∀ c ∈ m.changes, c.breaksParameters = false ∧ c.extendsParameters = false ∧
      c.renamesParameter = false := by
  rw [parameterPatterns, append_eq_nil_iff, forall₂_and, forall₂_and,
    ← isEmpty_tags_eq_true_iff, ← isEmpty_tags_eq_true_iff, ← isEmpty_tags_eq_true_iff]
  grind

/-- A new signature is a pattern of its own iff nothing else explains it. -/
theorem unexplained_iff : ((m.returnPatterns exported ++ m.parameterPatterns exported).isEmpty &&
    m.changes.any DeclarationChange.isSignature) = true ↔ m.Unexplained := by
  rw [Bool.and_eq_true, List.isEmpty_iff, append_eq_nil_iff, returnPatterns_eq_nil_iff,
    parameterPatterns_eq_nil_iff, any_eq_true, ← forall₂_and]
  have hexpl : ∀ c : DeclarationChange, c.explains = false ↔ c.returnTypes? = none ∧
      c.breaksParameters = false ∧ c.extendsParameters = false ∧ c.renamesParameter = false := by
    intro c
    simp only [DeclarationChange.explains, Bool.or_eq_false_iff, Option.isSome_eq_false_iff,
      Option.isNone_iff_eq_none, and_assoc]
  simp only [← hexpl]
  exact ⟨fun h => ⟨h.2, h.1⟩, fun h => ⟨h.bare, h.signature⟩⟩

theorem mem_patterns : p ∈ m.patterns exported ↔ p ∈ m.exportPatterns exported ∨
    p ∈ m.returnPatterns exported ∨ p ∈ m.parameterPatterns exported ∨
      m.Unexplained ∧ p = m.signaturePattern exported := by
  rw [← @unexplained_iff m exported]
  simp only [patterns, mem_append, itemIf, or_assoc]
  split
  · next h => simp only [mem_singleton, h, true_and]
  · next h => simp only [not_mem_nil, h, Bool.false_eq_true, false_and]

theorem rated_of_mem_patterns (h : p ∈ m.patterns exported) : m.Rated exported p := by
  rcases mem_patterns.mp h with h | h | h | ⟨hunexplained, rfl⟩
  · exact rated_of_mem_exportPatterns h
  · exact rated_of_mem_returnPatterns h
  · exact rated_of_mem_parameterPatterns h
  · exact rated_signaturePattern hunexplained exported

theorem exists_mem_patterns_of_rates {n : Nat} (h : m.Rates exported kind n) :
    ∃ p ∈ m.patterns exported, p.kind = kind ∧ p.risk = .points n := by
  simp only [mem_patterns]
  -- It is enough to find the pattern in one of the lists that the patterns are made of.
  have hamong : ∀ {part : List ChangePattern} {P : ChangePattern → Prop}, (∀ p ∈ part, P p) →
      (∃ p ∈ part, p.kind = kind ∧ p.risk = .points n) →
      ∃ p, P p ∧ p.kind = kind ∧ p.risk = .points n :=
    fun hpart ⟨p, hp, hrest⟩ => ⟨p, hpart p hp, hrest⟩
  cases h with
  | exportRemoved change =>
    exact ⟨_, .inl (mem_filterMap.mpr ⟨_, change, rfl⟩), rfl, rfl⟩
  | exportAdded change =>
    exact ⟨_, .inl (mem_filterMap.mpr ⟨_, change, rfl⟩), rfl, rfl⟩
  | returnBase found differ =>
    have hbase := baseChanged_eq_true_iff.mpr ⟨_, _, rfl, rfl, differ⟩
    refine hamong (fun p hp => .inr (.inl hp)) ?_
    simp only [returnPatterns, found, hbase, if_true]
    exact ⟨_, mem_singleton_self _, rfl, rfl⟩
  | returnType found same =>
    refine hamong (fun p hp => .inr (.inl hp)) ?_
    simp only [returnPatterns, found, same, Bool.false_eq_true, if_false]
    exact ⟨_, mem_singleton_self _, rfl, rfl⟩
  | parameterBreaking change breaks =>
    have hsome := isEmpty_tags_eq_false_iff.mpr ⟨_, change, breaks⟩
    refine hamong (fun p hp => .inr (.inr (.inl hp))) ?_
    simp only [parameterPatterns, hsome, Bool.not_false, if_true]
    exact ⟨_, mem_append_left _ (mem_singleton_self _), rfl, rfl⟩
  | parameterAdditive change extra harmless =>
    have hnone := isEmpty_tags_eq_true_iff.mpr harmless
    have hsome := isEmpty_tags_eq_false_iff.mpr ⟨_, change, extra⟩
    refine hamong (fun p hp => .inr (.inr (.inl hp))) ?_
    simp only [parameterPatterns, hnone, hsome, Bool.not_true, Bool.not_false,
      Bool.false_eq_true, if_false, if_true]
    exact ⟨_, mem_append_left _ (mem_singleton_self _), rfl, rfl⟩
  | parameterRenamed change renames =>
    have hsome := isEmpty_tags_eq_false_iff.mpr ⟨_, change, renames⟩
    refine hamong (fun p hp => .inr (.inr (.inl hp))) ?_
    simp only [parameterPatterns, hsome, Bool.false_eq_true, if_false]
    exact ⟨_, mem_append_right _ (mem_singleton_self _), rfl, rfl⟩
  | typeDefinition definition kind | signature definition kind =>
    obtain ⟨description, before, after, heq⟩ := m.signaturePattern_eq exported
    rw [kind] at heq
    exact ⟨_, .inr (.inr (.inr ⟨definition, rfl⟩)), by rw [heq]; exact ⟨rfl, rfl⟩⟩

theorem Rates.le {n : Nat} (h : m.Rates exported kind n) : n ≤ 100 := by
  cases h <;> cases exported <;> decide

/-- What a kind of pattern comes from that has enough points to be breaking. -/
theorem Rates.cause {n : Nat} (h : m.Rates exported kind n)
    (hgrave : RiskLevel.breakingThreshold ≤ n) :
    (kind = .exportRemoved ∧ ∃ name, .exportRemoved name ∈ m.changes) ∨
    (kind = .returnTypeChanged ∧ exported = true ∧ ∃ before after : String,
      .returnType (some before) (some after) ∈ m.changes ∧ baseType before ≠ baseType after) ∨
    (kind = .parameterBreaking ∧ exported = true ∧ ∃ c ∈ m.changes, c.breaksParameters = true) := by
  -- An internal declaration never has enough points, and neither has a kind that is not named.
  have hexp : ∀ points : Bool → Nat, points false < RiskLevel.breakingThreshold →
      RiskLevel.breakingThreshold ≤ points exported → exported = true := by
    intro points hless hle
    cases exported with
    | true => rfl
    | false => exact absurd hle (Nat.not_le.mpr hless)
  cases h with
  | exportRemoved change => exact .inl ⟨rfl, _, change⟩
  | returnBase found differ =>
    exact .inr (.inl ⟨rfl, hexp Points.returnBase (by decide) hgrave, _, _,
      mem_of_findSome_returnTypes found, differ⟩)
  | parameterBreaking change breaks =>
    exact .inr (.inr ⟨rfl, hexp Points.parameterBreaking (by decide) hgrave, _, change,
      breaks⟩)
  | exportAdded => exact absurd hgrave (by decide)
  | parameterAdditive => exact absurd hgrave (by decide)
  | parameterRenamed => exact absurd hgrave (by decide)
  | returnType => exact absurd hgrave (by cases exported <;> decide)
  | typeDefinition => exact absurd hgrave (by cases exported <;> decide)
  | signature => exact absurd hgrave (by cases exported <;> decide)

end ModifiedDeclaration

/-- A declaration of a file is exported, by its marks or by the names that the file exports. -/
def Declaration.ExportedBy (d : Declaration) (o : Outline) : Prop :=
  d.isExported = true ∨ d.name ∈ o.exportNames

theorem Declaration.exportedAmong_eq_true_iff {d : Declaration} {o : Outline} :
    d.exportedAmong o.exportNames = true ↔ d.ExportedBy o := by
  rw [exportedAmong, Bool.or_eq_true, contains_iff_mem, ExportedBy]

/-- A modified declaration is exported in one of the versions. -/
def ModifiedDeclaration.ExportedByEither (m : ModifiedDeclaration) (old new : Outline) : Prop :=
  m.old.ExportedBy old ∨ m.new.ExportedBy new

/-- What may break those who use a file, when an old version of it is replaced by a new one. -/
inductive Outline.Breaks (old new : Outline) : Prop
  /-- A name is no longer exported. -/
  | exportLost {name : String} (before : name ∈ old.exportNames) (after : name ∉ new.exportNames)
  /-- An exported declaration is removed. -/
  | declarationRemoved {d : Declaration} (removed : d ∈ (old.diff new).removed)
      (exported : d.ExportedBy old)
  /-- A declaration is no longer exported under a name. -/
  | exportRemoved {m : ModifiedDeclaration} (modified : m ∈ (old.diff new).modified)
      {name : String} (change : .exportRemoved name ∈ m.changes)
  /-- The return type of an exported declaration was written and is written, and has another
      base. -/
  | returnBase {m : ModifiedDeclaration} (modified : m ∈ (old.diff new).modified)
      (exported : m.ExportedByEither old new) {before after : String}
      (change : .returnType (some before) (some after) ∈ m.changes)
      (differ : baseType before ≠ baseType after)
  /-- A parameter of an exported declaration is removed, has another type, or is required and was
      not there or was optional. -/
  | parameters {m : ModifiedDeclaration} (modified : m ∈ (old.diff new).modified)
      (exported : m.ExportedByEither old new) {c : DeclarationChange} (change : c ∈ m.changes)
      (breaks : c.breaksParameters = true)

/-- The points of a pattern, and what follows if they are enough to be breaking. -/
structure ChangePattern.Weighs (old new : Outline) (p : ChangePattern) (n : Nat) : Prop where
  risk : p.risk = .points n
  le : n ≤ 100
  exported : RiskLevel.breakingThreshold ≤ n → p.exported = true
  /-- The pattern is of one of three kinds. -/
  kind : RiskLevel.breakingThreshold ≤ n →
    p.kind ∈ [.exportRemoved, .returnTypeChanged, .parameterBreaking]
  /-- There is something that may break those who use the file. -/
  breaks : RiskLevel.breakingThreshold ≤ n → old.Breaks new

namespace Outline

variable {old new : Outline} {p : ChangePattern}

variable {m : ModifiedDeclaration}

theorem changes_of_mem_modified (h : m ∈ (old.diff new).modified) :
    m.changes = declarationChanges m.old m.new := by
  by_cases hhash : old.hash = new.hash
  · rw [diff, if_pos hhash] at h
    cases h
  · exact ((mem_modified_diff_iff hhash).mp h).2.2.2

/-- A pattern is of a removed, an added or a modified declaration. -/
theorem mem_patterns_iff : p ∈ (old.diff new).patterns old new ↔
    (∃ d ∈ (old.diff new).removed, removedPattern d (d.exportedAmong old.exportNames) = p) ∨
    (∃ d ∈ (old.diff new).added, addedPattern d (d.exportedAmong new.exportNames) = p) ∨
    ∃ m ∈ (old.diff new).modified, p ∈ m.patterns
      (m.old.exportedAmong old.exportNames || m.new.exportedAmong new.exportNames) := by
  simp only [OutlineDiff.patterns, mem_append, mem_map, mem_flatMap, or_assoc]

theorem exported_eq_true_iff :
    (m.old.exportedAmong old.exportNames || m.new.exportedAmong new.exportNames) = true ↔
      m.ExportedByEither old new := by
  rw [Bool.or_eq_true, Declaration.exportedAmong_eq_true_iff,
    Declaration.exportedAmong_eq_true_iff, ModifiedDeclaration.ExportedByEither]

theorem weighs_removedPattern {d : Declaration} (h : d ∈ (old.diff new).removed) :
    ∃ n, (removedPattern d (d.exportedAmong old.exportNames)).Weighs old new n := by
  cases hexp : d.exportedAmong old.exportNames with
  | true =>
    exact ⟨Points.exportRemoved, rfl, by decide, fun _ => rfl, fun _ => mem_cons_self,
      fun _ => .declarationRemoved h (Declaration.exportedAmong_eq_true_iff.mp hexp)⟩
  | false =>
    have hless : ¬ RiskLevel.breakingThreshold ≤ Points.declarationRemoved := by decide
    exact ⟨Points.declarationRemoved, rfl, by decide, fun h => absurd h hless,
      fun h => absurd h hless, fun h => absurd h hless⟩

theorem weighs_addedPattern (d : Declaration) (exported : Bool) :
    ∃ n, (addedPattern d exported).Weighs old new n := by
  have hless : ¬ RiskLevel.breakingThreshold ≤
      (if exported = true then Points.exportAdded else Points.declarationAdded) := by
    cases exported <;> decide
  refine ⟨_, rfl, ?_, fun h => absurd h hless, fun h => absurd h hless, fun h => absurd h hless⟩
  cases exported <;> decide

theorem weighs_of_mem_patterns_modified (hm : m ∈ (old.diff new).modified)
    (hp : p ∈ m.patterns
      (m.old.exportedAmong old.exportNames || m.new.exportedAmong new.exportNames)) :
    ∃ n, p.Weighs old new n := by
  obtain ⟨⟨n, hrates, hrisk⟩, hexp, -⟩ := m.rated_of_mem_patterns hp
  have hcause : RiskLevel.breakingThreshold ≤ n → p.exported = true ∧
      p.kind ∈ [.exportRemoved, .returnTypeChanged, .parameterBreaking] ∧ old.Breaks new := by
    intro hgrave
    rcases hrates.cause hgrave with ⟨hkind, name, hname⟩ |
      ⟨hkind, h, _, _, hchange, hne⟩ | ⟨hkind, h, c, hchange, hbreaks⟩
    · refine ⟨?_, by simp [hkind], .exportRemoved hm hname⟩
      -- What was exported under a name is marked as exported in the old version.
      rw [changes_of_mem_modified hm] at hname
      rw [hexp, exported_eq_true_iff]
      exact .inl (.inl (isExported_of_exportRemoved hname))
    · exact ⟨hexp.trans h, by simp [hkind],
        .returnBase hm (exported_eq_true_iff.mp h) hchange hne⟩
    · exact ⟨hexp.trans h, by simp [hkind],
        .parameters hm (exported_eq_true_iff.mp h) hchange hbreaks⟩
  exact ⟨n, hrisk, hrates.le, fun h => (hcause h).1, fun h => (hcause h).2.1,
    fun h => (hcause h).2.2⟩

/-- Every pattern of a comparison has points, and causes if they are enough to be breaking. -/
theorem weighs_of_mem_patterns (h : p ∈ (old.diff new).patterns old new) :
    ∃ n, p.Weighs old new n := by
  rcases mem_patterns_iff.mp h with ⟨d, hd, rfl⟩ | ⟨d, -, rfl⟩ | ⟨m, hm, hp⟩
  · exact weighs_removedPattern hd
  · exact weighs_addedPattern d _
  · exact weighs_of_mem_patterns_modified hm hp

/-- The pattern of an export that was removed has all the points that there are for it. -/
theorem risk_of_exportRemoved (h : p ∈ (old.diff new).patterns old new)
    (hkind : p.kind = .exportRemoved) : p.risk = .points Points.exportRemoved := by
  rcases mem_patterns_iff.mp h with ⟨d, -, rfl⟩ | ⟨d, -, rfl⟩ | ⟨m, -, hp⟩
  · cases hexp : d.exportedAmong old.exportNames with
    | true => rfl
    | false =>
      rw [hexp] at hkind
      cases hkind
  · cases hexp : d.exportedAmong new.exportNames
    all_goals
      rw [hexp] at hkind
      cases hkind
  · obtain ⟨n, hrates, hrisk⟩ := (m.rated_of_mem_patterns hp).rates
    rw [hkind] at hrates
    cases hrates
    exact hrisk

end Outline

end Ripple
