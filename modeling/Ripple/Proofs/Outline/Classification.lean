import Ripple.Proofs.Outline.Pattern
import Ripple.Proofs.Risk

/-!
# From Differences to Patterns

A modified declaration has a list of differences, and the patterns are what
the list looks like from outside. Two things could go wrong on the way.

A difference could leave no pattern at all. It never does. Most kinds of
differences have a kind of pattern of their own. Parameters that callers may
leave out give way to parameters that break them, and a new signature gives
way to anything that explains it, but then the other pattern is there. So a
comparison has no pattern only if it has found no difference.

The other thing is that a pattern gives way to one with fewer points. Between
the parameters this does not happen. But a signature that is explained is no
longer a pattern, and the explanation may be a harmless one: a name of a
parameter, a parameter that may be left out, a return type with the same base.
A further difference of such a kind then makes a declaration look less risky
than it did before. `Softens` says exactly when.
-/

namespace Ripple

open List

/-- The kinds of patterns that tell of a difference. -/
def DeclarationChange.patternKinds : DeclarationChange → List PatternKind
  | exportRemoved _ => [.exportRemoved]
  | exportAdded _ => [.exportAdded]
  | returnType _ _ => [.returnTypeChanged]
  | parameterRemoved _ | parameterType _ _ _ => [.parameterBreaking]
  | parameterAdded _ optional | parameterOptionality _ optional =>
    .parameterBreaking :: itemIf optional .parameterAdditive
  | parameterRenamed _ _ => [.parameterRenamed]
  | signature _ _ =>
    [.typeDefinitionChanged, .signatureChanged, .returnTypeChanged, .parameterBreaking,
      .parameterAdditive, .parameterRenamed]

/-- A pattern has the name and the kind of a declaration. -/
def ChangePattern.IsOf (p : ChangePattern) (d : Declaration) : Prop :=
  p.symbol = d.name ∧ p.declarationKind = d.kind

namespace ModifiedDeclaration

variable {m : ModifiedDeclaration} {exported : Bool} {c : DeclarationChange}

section Told

/-- A return type that is another one is a pattern, with the points of the one that is found. -/
theorem exists_rates_of_returnTypes (hc : c ∈ m.changes) (h : c.returnTypes?.isSome = true) :
    ∃ n, m.Rates exported .returnTypeChanged n := by
  cases hfound : m.changes.findSome? DeclarationChange.returnTypes? with
  | none =>
    rw [findSome?_eq_none_iff.mp hfound c hc] at h
    cases h
  | some types =>
    obtain ⟨before, after⟩ := types
    cases hbase : baseChanged before after with
    | false => exact ⟨_, .returnType hfound hbase⟩
    | true =>
      obtain ⟨x, y, rfl, rfl, hne⟩ := baseChanged_eq_true_iff.mp hbase
      exact ⟨_, .returnBase hfound hne⟩

/-- Parameters that callers may leave out are a pattern, or some other parameter breaks them. -/
theorem exists_rates_of_extends (hc : c ∈ m.changes) (h : c.extendsParameters = true) :
    ∃ kind ∈ [PatternKind.parameterBreaking, .parameterAdditive], ∃ n, m.Rates exported kind n := by
  by_cases hbreaks : ∃ d ∈ m.changes, d.breaksParameters = true
  · obtain ⟨d, hd, hbreaks⟩ := hbreaks
    exact ⟨_, by simp, _, .parameterBreaking hd hbreaks⟩
  · have hharmless : ∀ d ∈ m.changes, d.breaksParameters = false := fun d hd =>
      Bool.eq_false_iff.mpr fun hd' => hbreaks ⟨d, hd, hd'⟩
    exact ⟨_, by simp, _, .parameterAdditive hc h hharmless⟩

theorem exists_rates_of_explains (hc : c ∈ m.changes) (h : c.explains = true) :
    ∃ kind ∈ [PatternKind.returnTypeChanged, .parameterBreaking, .parameterAdditive,
      .parameterRenamed], ∃ n, m.Rates exported kind n := by
  simp only [DeclarationChange.explains, Bool.or_eq_true] at h
  rcases h with ((hret | hbreaks) | hextends) | hrenames
  · exact ⟨_, by simp, exists_rates_of_returnTypes hc hret⟩
  · exact ⟨_, by simp, _, .parameterBreaking hc hbreaks⟩
  · obtain ⟨kind, hkind, hrates⟩ := exists_rates_of_extends hc hextends
    exact ⟨kind, mem_cons_of_mem _ (mem_append_left [_] hkind), hrates⟩
  · exact ⟨_, by simp, _, .parameterRenamed hc hrenames⟩

/-- Another signature is a pattern, or what explains it is one. -/
theorem exists_rates_of_signature (hc : c ∈ m.changes) (h : c.isSignature = true) :
    ∃ kind ∈ [PatternKind.typeDefinitionChanged, .signatureChanged, .returnTypeChanged,
      .parameterBreaking, .parameterAdditive, .parameterRenamed], ∃ n,
      m.Rates exported kind n := by
  -- Either the signature counts itself, or a difference that explains it does.
  by_cases hexplained : ∃ d ∈ m.changes, d.explains = true
  · obtain ⟨d, hd, hexpl⟩ := hexplained
    obtain ⟨kind, hkind, hrates⟩ := exists_rates_of_explains hd hexpl
    exact ⟨kind, mem_append_right [_, _] hkind, hrates⟩
  · have hbare : m.Unexplained := ⟨⟨c, hc, h⟩, fun d hd =>
      Bool.eq_false_iff.mpr fun hd' => hexplained ⟨d, hd, hd'⟩⟩
    cases hkind : m.new.kind.isType with
    | true => exact ⟨_, by simp, _, .typeDefinition hbare hkind⟩
    | false => exact ⟨_, by simp, _, .signature hbare hkind⟩

/-- Every difference leaves a pattern of a kind that tells of it. -/
theorem exists_rates_of_mem (hc : c ∈ m.changes) (exported : Bool) :
    ∃ kind ∈ c.patternKinds, ∃ n, m.Rates exported kind n := by
  cases c with
  | exportRemoved name => exact ⟨_, mem_cons_self, _, .exportRemoved hc⟩
  | exportAdded name => exact ⟨_, mem_cons_self, _, .exportAdded hc⟩
  | returnType before after =>
    exact ⟨_, mem_cons_self, exists_rates_of_returnTypes hc rfl⟩
  | parameterRemoved name => exact ⟨_, mem_cons_self, _, .parameterBreaking hc rfl⟩
  | parameterType name before after =>
    exact ⟨_, mem_cons_self, _, .parameterBreaking hc rfl⟩
  | parameterRenamed before after => exact ⟨_, mem_cons_self, _, .parameterRenamed hc rfl⟩
  | signature before after => exact exists_rates_of_signature hc rfl
  | parameterAdded name optional =>
    cases optional with
    | false => exact ⟨_, mem_cons_self, _, .parameterBreaking hc rfl⟩
    | true => exact exists_rates_of_extends hc rfl
  | parameterOptionality name optional =>
    cases optional with
    | false => exact ⟨_, mem_cons_self, _, .parameterBreaking hc rfl⟩
    | true => exact exists_rates_of_extends hc rfl

end Told

end ModifiedDeclaration

namespace Outline

variable {old new : Outline}

/-- A modified declaration has one key in both versions, and there is a difference. -/
theorem key_of_mem_modified {m : ModifiedDeclaration} (h : m ∈ (old.diff new).modified) :
    m.old.key = m.key ∧ m.new.key = m.key ∧ m.changes ≠ [] := by
  by_cases hhash : old.hash = new.hash
  · rw [diff, if_pos hhash] at h
    cases h
  · obtain ⟨hold, hnew, hdiffer, hchanges⟩ := (mem_modified_diff_iff hhash).mp h
    rw [hchanges, ne_eq, declarationChanges_eq_nil_iff]
    exact ⟨key_of_find hold, key_of_find hnew, hdiffer⟩

/-- The patterns of a modified declaration are among those of the comparison. -/
theorem exists_pattern_of_modified {m : ModifiedDeclaration} (h : m ∈ (old.diff new).modified)
    {c : DeclarationChange} (hc : c ∈ m.changes) :
    ∃ p ∈ (old.diff new).patterns old new, p.IsOf m.new ∧ p.kind ∈ c.patternKinds := by
  obtain ⟨kind, hkind, n, hrates⟩ := m.exists_rates_of_mem hc
    (m.old.exportedAmong old.exportNames || m.new.exportedAmong new.exportNames)
  obtain ⟨p, hp, rfl, -⟩ := ModifiedDeclaration.exists_mem_patterns_of_rates hrates
  exact ⟨p, mem_patterns_iff.mpr (.inr (.inr ⟨m, h, hp⟩)), (m.rated_of_mem_patterns hp).subject,
    hkind⟩

/-- No difference that a comparison has found is left out of its patterns, and there are no other
    patterns. Each removed, added or modified declaration has a pattern with its name and its kind,
    a modified one even for each of its differences, of a kind that tells of it. Each pattern has
    the name and the kind of such a declaration. So there is no pattern iff there is no
    difference. -/
theorem patterns_tell_every_difference (old new : Outline) : let diff := old.diff new
    let patterns := diff.patterns old new
    (∀ d ∈ diff.removed, ∃ p ∈ patterns, p.IsOf d) ∧
      (∀ d ∈ diff.added, ∃ p ∈ patterns, p.IsOf d) ∧
      (∀ m ∈ diff.modified, m.old.key = m.key ∧ m.new.key = m.key ∧
        (∃ p ∈ patterns, p.IsOf m.new) ∧
        ∀ c ∈ m.changes, ∃ p ∈ patterns, p.IsOf m.new ∧ p.kind ∈ c.patternKinds) ∧
      (∀ p ∈ patterns, (∃ d ∈ diff.removed, p.IsOf d) ∨ (∃ d ∈ diff.added, p.IsOf d) ∨
        ∃ m ∈ diff.modified, p.IsOf m.new) ∧
      (patterns = [] ↔ diff.isEmpty = true) := by
  have hremoved : ∀ d ∈ (old.diff new).removed, ∃ p ∈ (old.diff new).patterns old new, p.IsOf d :=
    fun d hd => ⟨_, mem_patterns_iff.mpr (.inl ⟨d, hd, rfl⟩), rfl, rfl⟩
  have hadded : ∀ d ∈ (old.diff new).added, ∃ p ∈ (old.diff new).patterns old new, p.IsOf d :=
    fun d hd => ⟨_, mem_patterns_iff.mpr (.inr (.inl ⟨d, hd, rfl⟩)), rfl, rfl⟩
  have hmodified : ∀ m ∈ (old.diff new).modified,
      ∃ p ∈ (old.diff new).patterns old new, p.IsOf m.new := by
    intro m hm
    obtain ⟨c, hc⟩ := exists_mem_of_ne_nil _ (key_of_mem_modified hm).2.2
    obtain ⟨p, hp, hof, -⟩ := exists_pattern_of_modified hm hc
    exact ⟨p, hp, hof⟩
  have hpatterns : ∀ p ∈ (old.diff new).patterns old new,
      (∃ d ∈ (old.diff new).removed, p.IsOf d) ∨ (∃ d ∈ (old.diff new).added, p.IsOf d) ∨
        ∃ m ∈ (old.diff new).modified, p.IsOf m.new := by
    intro p hp
    rcases mem_patterns_iff.mp hp with ⟨d, hd, rfl⟩ | ⟨d, hd, rfl⟩ | ⟨m, hm, hp⟩
    · exact .inl ⟨d, hd, rfl, rfl⟩
    · exact .inr (.inl ⟨d, hd, rfl, rfl⟩)
    · exact .inr (.inr ⟨m, hm, (m.rated_of_mem_patterns hp).subject⟩)
  refine ⟨hremoved, hadded, fun m hm => ?_, hpatterns, ?_⟩
  · obtain ⟨hold, hnew, -⟩ := key_of_mem_modified hm
    exact ⟨hold, hnew, hmodified m hm, fun c => exists_pattern_of_modified hm⟩
  · simp only [OutlineDiff.isEmpty, Bool.and_eq_true, List.isEmpty_iff,
      eq_nil_iff_forall_not_mem, and_assoc]
    -- A member of one of the three lists has a pattern, and a pattern is of such a member.
    constructor
    · intro hnone
      refine ⟨fun d hd => ?_, fun d hd => ?_, fun m hm => ?_⟩
      · obtain ⟨p, hp, -⟩ := hadded d hd
        exact hnone p hp
      · obtain ⟨p, hp, -⟩ := hremoved d hd
        exact hnone p hp
      · obtain ⟨p, hp, -⟩ := hmodified m hm
        exact hnone p hp
    · rintro ⟨hnoneAdded, hnoneRemoved, hnoneModified⟩ p hp
      rcases hpatterns p hp with ⟨d, hd, -⟩ | ⟨d, hd, -⟩ | ⟨m, hm, -⟩
      · exact hnoneRemoved d hd
      · exact hnoneAdded d hd
      · exact hnoneModified m hm

end Outline

/-- A difference that explains a signature and is not known to break anyone. -/
def DeclarationChange.isMild : DeclarationChange → Bool
  | returnType before after => !baseChanged before after
  | c => c.extendsParameters || c.renamesParameter

theorem DeclarationChange.isMild_eq_true_iff {c : DeclarationChange} : c.isMild = true ↔
    c.explains = true ∧ c.breaksParameters = false ∧
      ∀ before after, c = returnType before after → baseChanged before after = false := by
  cases c <;> simp [isMild, explains, returnTypes?, breaksParameters, extendsParameters,
    renamesParameter]

namespace ModifiedDeclaration

variable {m : ModifiedDeclaration} {exported : Bool} {c : DeclarationChange}
  {kind : PatternKind} {n : Nat}

/-- A modified declaration with a further difference. -/
def adding (m : ModifiedDeclaration) (c : DeclarationChange) : ModifiedDeclaration :=
  { m with changes := m.changes ++ [c] }

/-- The largest risk among the patterns of a modified declaration. -/
def risk (m : ModifiedDeclaration) (exported : Bool) : Score :=
  .largest ((m.patterns exported).map ChangePattern.risk)

/-- The points of a definition that is another one. -/
def definitionPoints (m : ModifiedDeclaration) (exported : Bool) : Nat :=
  if m.new.kind.isType then Points.typeDefinition exported else Points.signature exported

/-- A further difference makes a declaration look less risky: it explains a signature that nothing
    explained before and is mild itself, and no export was removed. -/
structure Softens (m : ModifiedDeclaration) (c : DeclarationChange) : Prop where
  /-- Nothing explained the signature. -/
  definition : m.Unexplained
  /-- No export was removed. -/
  kept : ∀ name, .exportRemoved name ∉ m.changes
  /-- The further difference explains it and is mild. -/
  mild : c.isMild = true

theorem mem_adding_iff {d : DeclarationChange} :
    d ∈ (m.adding c).changes ↔ d ∈ m.changes ∨ d = c := by
  rw [adding, mem_append, mem_singleton]

theorem findSome_adding_of_some {types : Option String × Option String}
    (h : m.changes.findSome? DeclarationChange.returnTypes? = some types) :
    (m.adding c).changes.findSome? DeclarationChange.returnTypes? = some types := by
  rw [adding, findSome?_append, h, Option.some_or]

/-- If nothing explains the signature then only a further difference can be of return types. -/
theorem Unexplained.findSome_adding (h : m.Unexplained) :
    (m.adding c).changes.findSome? DeclarationChange.returnTypes? = c.returnTypes? := by
  have hnone : m.changes.findSome? DeclarationChange.returnTypes? = none := by
    refine findSome?_eq_none_iff.mpr fun d hd => ?_
    have hbare := h.bare d hd
    simp only [DeclarationChange.explains, Bool.or_eq_false_iff, Option.isSome_eq_false_iff,
      Option.isNone_iff_eq_none] at hbare
    exact hbare.1.1.1
  rw [adding, findSome?_append, hnone, Option.none_or, findSome?_singleton]

theorem Unexplained.adding (h : m.Unexplained) (hc : c.explains = false) :
    (m.adding c).Unexplained where
  signature := by
    obtain ⟨d, hd, hsignature⟩ := h.signature
    exact ⟨d, mem_adding_iff.mpr (.inl hd), hsignature⟩
  bare d hd := by
    rcases mem_adding_iff.mp hd with hd | rfl
    · exact h.bare d hd
    · exact hc

theorem Unexplained.exists_rates (h : m.Unexplained) (exported : Bool) :
    ∃ kind, m.Rates exported kind (m.definitionPoints exported) := by
  cases hkind : m.new.kind.isType with
  | true => exact ⟨_, by rw [definitionPoints, hkind]; exact .typeDefinition h hkind⟩
  | false => exact ⟨_, by rw [definitionPoints, hkind]; exact .signature h hkind⟩

/-- The definition of a declaration that is another one is not breaking, but has more points than
    any mild difference. -/
theorem definitionPoints_bounds (m : ModifiedDeclaration) (exported : Bool) :
    Points.returnType exported < m.definitionPoints exported ∧
      m.definitionPoints exported < RiskLevel.breakingThreshold ∧
      m.definitionPoints exported ≤ Points.parameterBreaking exported ∧
      m.definitionPoints exported ≤ Points.returnBase exported := by
  rw [definitionPoints]
  cases m.new.kind.isType <;> cases exported <;> decide

/-- What a further difference leaves of a pattern: one with as many points at least, unless the
    pattern was of a signature that is explained now. -/
theorem Rates.adding (h : m.Rates exported kind n) (c : DeclarationChange) :
    (∃ kind' n', n ≤ n' ∧ (m.adding c).Rates exported kind' n') ∨
      m.Unexplained ∧ c.explains = true ∧ n = m.definitionPoints exported := by
  have hmem : ∀ {d}, d ∈ m.changes → d ∈ (m.adding c).changes :=
    fun hd => mem_adding_iff.mpr (.inl hd)
  -- Differences stay, so only patterns that depend on what is missing can be lost.
  cases h with
  | exportRemoved change => exact .inl ⟨_, _, Nat.le_refl _, .exportRemoved (hmem change)⟩
  | exportAdded change => exact .inl ⟨_, _, Nat.le_refl _, .exportAdded (hmem change)⟩
  | returnBase found differ =>
    exact .inl ⟨_, _, Nat.le_refl _, .returnBase (findSome_adding_of_some found) differ⟩
  | returnType found same =>
    exact .inl ⟨_, _, Nat.le_refl _, .returnType (findSome_adding_of_some found) same⟩
  | parameterBreaking change breaks =>
    exact .inl ⟨_, _, Nat.le_refl _, .parameterBreaking (hmem change) breaks⟩
  | parameterRenamed change renames =>
    exact .inl ⟨_, _, Nat.le_refl _, .parameterRenamed (hmem change) renames⟩
  | parameterAdditive change extra harmless =>
    -- It gives way to parameters that break callers, which have more points.
    cases hbreaks : c.breaksParameters with
    | true =>
      have hle : Points.parameterAdditive ≤ Points.parameterBreaking exported := by
        cases exported <;> decide
      exact .inl ⟨_, _, hle, .parameterBreaking (mem_adding_iff.mpr (.inr rfl)) hbreaks⟩
    | false =>
      refine .inl ⟨_, _, Nat.le_refl _, .parameterAdditive (hmem change) extra fun d hd => ?_⟩
      rcases mem_adding_iff.mp hd with hd | rfl
      · exact harmless d hd
      · exact hbreaks
  | typeDefinition definition kind =>
    cases hexpl : c.explains with
    | true => exact .inr ⟨definition, rfl, by rw [definitionPoints, if_pos kind]⟩
    | false =>
      exact .inl ⟨_, _, Nat.le_refl _, .typeDefinition (definition.adding hexpl) kind⟩
  | signature definition kind =>
    cases hexpl : c.explains with
    | true => exact .inr ⟨definition, rfl, by rw [definitionPoints, kind]; rfl⟩
    | false =>
      exact .inl ⟨_, _, Nat.le_refl _, .signature (definition.adding hexpl) kind⟩

/-- A declaration with a further difference that softens it has only patterns with fewer points than
    its definition had, and none of them is risky. -/
theorem Softens.lt (h : m.Softens c) (hrates : (m.adding c).Rates exported kind n) :
    n < m.definitionPoints exported ∧ n < RiskLevel.riskyThreshold := by
  obtain ⟨hexpl, hharmless, hbase⟩ := DeclarationChange.isMild_eq_true_iff.mp h.mild
  -- All other mild points are below those of a return type.
  have hmild : ∀ k, k ≤ Points.returnType exported →
      k < m.definitionPoints exported ∧ k < RiskLevel.riskyThreshold := by
    intro k hk
    have hrisky : Points.returnType exported < RiskLevel.riskyThreshold := by
      cases exported <;> decide
    exact ⟨Nat.lt_of_le_of_lt hk (definitionPoints_bounds m exported).1,
      Nat.lt_of_le_of_lt hk hrisky⟩
  have hbreaks : ∀ d ∈ (m.adding c).changes, d.breaksParameters = false := by
    intro d hd
    rcases mem_adding_iff.mp hd with hd | rfl
    · have hbare := h.definition.bare d hd
      simp only [DeclarationChange.explains, Bool.or_eq_false_iff] at hbare
      exact hbare.1.1.2
    · exact hharmless
  have hexplained : ¬ (m.adding c).Unexplained := fun hbare =>
    Bool.false_ne_true ((hbare.bare c (mem_adding_iff.mpr (.inr rfl))).symm.trans hexpl)
  cases hrates with
  | exportRemoved change =>
    rcases mem_adding_iff.mp change with hmem | rfl
    · exact absurd hmem (h.kept _)
    · cases hexpl
  | exportAdded => exact hmild _ (by cases exported <;> decide)
  | returnBase found differ =>
    -- The return type would be that of the further difference, which has the same base.
    rw [h.definition.findSome_adding] at found
    cases c with
    | returnType before after =>
      obtain ⟨rfl, rfl⟩ := Prod.mk.inj (Option.some.inj found)
      have hchange := baseChanged_eq_true_iff.mpr ⟨_, _, rfl, rfl, differ⟩
      exact absurd ((hbase _ _ rfl).symm.trans hchange) Bool.false_ne_true
    | _ => cases found
  | returnType => exact hmild _ (Nat.le_refl _)
  | parameterBreaking change breaks =>
    exact absurd ((hbreaks _ change).symm.trans breaks) Bool.false_ne_true
  | parameterAdditive => exact hmild _ (by cases exported <;> decide)
  | parameterRenamed => exact hmild _ (by cases exported <;> decide)
  | typeDefinition definition => exact absurd definition hexplained
  | signature definition => exact absurd definition hexplained

/-- A signature that is explained now leaves a pattern with as many points at least, unless the
    further difference softens the declaration. -/
theorem Unexplained.exists_rates_adding (h : m.Unexplained) (hc : c.explains = true)
    (hsoft : ¬ m.Softens c) (exported : Bool) :
    ∃ kind n, m.definitionPoints exported ≤ n ∧ (m.adding c).Rates exported kind n := by
  obtain ⟨-, hgrave, hbreak, hbase⟩ := definitionPoints_bounds m exported
  by_cases hrem : ∃ name, .exportRemoved name ∈ m.changes
  · obtain ⟨name, hname⟩ := hrem
    have hle : RiskLevel.breakingThreshold ≤ Points.exportRemoved := by decide
    exact ⟨_, _, Nat.le_trans (Nat.le_of_lt hgrave) hle,
      .exportRemoved (mem_adding_iff.mpr (.inl hname))⟩
  have hmild : ¬ c.isMild = true := fun hmild =>
    hsoft ⟨h, fun name hname => hrem ⟨name, hname⟩, hmild⟩
  rw [DeclarationChange.isMild_eq_true_iff, not_and, not_and] at hmild
  cases hbreaks : c.breaksParameters with
  | true =>
    exact ⟨_, _, hbreak, .parameterBreaking (mem_adding_iff.mpr (.inr rfl)) hbreaks⟩
  | false =>
    -- Nothing is left but a return type with another base.
    have hret := hmild hc hbreaks
    push Not at hret
    obtain ⟨before, after, rfl, hchange⟩ := hret
    obtain ⟨x, y, rfl, rfl, hne⟩ := baseChanged_eq_true_iff.mp (Bool.ne_false_iff.mp hchange)
    exact ⟨_, _, hbase, .returnBase h.findSome_adding hne⟩

/-- If a pattern has more points than all patterns with a further difference, then the further
    difference softens the declaration. -/
theorem Rates.softens (h : m.Rates exported kind n)
    (hless : ∀ kind' n', (m.adding c).Rates exported kind' n' → n' < n) : m.Softens c := by
  rcases h.adding c with ⟨kind', n', hle, hrates⟩ | ⟨hbare, hexpl, rfl⟩
  · exact absurd (hless kind' n' hrates) (Nat.not_lt.mpr hle)
  · by_contra hsoft
    obtain ⟨kind', n', hle, hrates⟩ := hbare.exists_rates_adding hexpl hsoft exported
    exact absurd (hless kind' n' hrates) (Nat.not_lt.mpr hle)

section Risk

theorem isExact_risk {s : Score} (h : s ∈ (m.patterns exported).map ChangePattern.risk) :
    s.IsExact := by
  obtain ⟨p, hp, rfl⟩ := mem_map.mp h
  obtain ⟨n, -, hrisk⟩ := (m.rated_of_mem_patterns hp).rates
  rw [hrisk]
  trivial

theorem mem_risks_iff {s : Score} : s ∈ (m.patterns exported).map ChangePattern.risk ↔
    ∃ kind n, m.Rates exported kind n ∧ s = .points n := by
  rw [mem_map]
  constructor
  · rintro ⟨p, hp, rfl⟩
    obtain ⟨n, hrates, hrisk⟩ := (m.rated_of_mem_patterns hp).rates
    exact ⟨_, n, hrates, hrisk⟩
  · rintro ⟨kind, n, hrates, rfl⟩
    obtain ⟨p, hp, -, hrisk⟩ := exists_mem_patterns_of_rates hrates
    exact ⟨p, hp, hrisk⟩

theorem risk_reaches_iff {threshold : Nat} (h : 0 < threshold) :
    (m.risk exported).reaches threshold = true ↔
      ∃ kind n, m.Rates exported kind n ∧ threshold ≤ n := by
  rw [risk, Score.reaches_largest_iff (fun _ => isExact_risk) h]
  simp only [mem_risks_iff]
  constructor
  · rintro ⟨_, ⟨kind, n, hrates, rfl⟩, hreaches⟩
    exact ⟨kind, n, hrates, of_decide_eq_true hreaches⟩
  · rintro ⟨kind, n, hrates, hle⟩
    exact ⟨_, ⟨kind, n, hrates, rfl⟩, decide_eq_true hle⟩

theorem risk_below_iff {m' : ModifiedDeclaration} :
    (m'.risk exported).below (m.risk exported) = true ↔ ∃ kind n, m.Rates exported kind n ∧ 0 < n ∧
      ∀ kind' n', m'.Rates exported kind' n' → n' < n := by
  rw [risk, risk, Score.below_largest_iff (fun _ => isExact_risk) fun _ => isExact_risk]
  simp only [mem_risks_iff]
  constructor
  · rintro ⟨_, ⟨kind, n, hrates, rfl⟩, hpos, hless⟩
    refine ⟨kind, n, hrates, Nat.pos_of_mul_pos_left hpos, fun kind' n' hrates' => ?_⟩
    exact Nat.lt_of_mul_lt_mul_left (hless _ ⟨kind', n', hrates', rfl⟩)
  · rintro ⟨kind, n, hrates, hpos, hless⟩
    refine ⟨_, ⟨kind, n, hrates, rfl⟩, Nat.mul_pos (by decide) hpos, ?_⟩
    rintro _ ⟨kind', n', hrates', rfl⟩
    exact Nat.mul_lt_mul_of_pos_left (hless kind' n' hrates') (by decide)

end Risk

/-- A further difference lowers the largest risk of a modified declaration iff it softens it. It
    never makes a breaking declaration less than breaking, and it makes a risky one safe iff it
    softens it. -/
theorem largest_risk_falls_iff (m : ModifiedDeclaration) (c : DeclarationChange) (exported : Bool) :
    let before := m.risk exported
    let after := (m.adding c).risk exported
    (after.below before = true ↔ m.Softens c) ∧
      (RiskLevel.ofScore before = .breaking → RiskLevel.ofScore after = .breaking) ∧
      (RiskLevel.ofScore before = .risky → (RiskLevel.ofScore after = .safe ↔ m.Softens c)) := by
  have hbreaking : ∀ d : ModifiedDeclaration,
      (d.risk exported).reaches RiskLevel.breakingThreshold = true ↔
        ∃ kind n, d.Rates exported kind n ∧ RiskLevel.breakingThreshold ≤ n :=
    fun d => risk_reaches_iff (by decide)
  have hrisky : ∀ d : ModifiedDeclaration,
      (d.risk exported).reaches RiskLevel.riskyThreshold = true ↔
        ∃ kind n, d.Rates exported kind n ∧ RiskLevel.riskyThreshold ≤ n :=
    fun d => risk_reaches_iff (by decide)
  refine ⟨?_, ?_, ?_⟩
  · rw [risk_below_iff]
    constructor
    · rintro ⟨kind, n, hrates, -, hless⟩
      exact hrates.softens hless
    · intro hsoftens
      -- The definition had more points than all that is left now that it is explained.
      obtain ⟨kind, hrates⟩ := hsoftens.definition.exists_rates exported
      exact ⟨kind, _, hrates, Nat.zero_lt_of_lt (definitionPoints_bounds m exported).1,
        fun kind' n' hrates' => (hsoftens.lt hrates').1⟩
  · rw [RiskLevel.ofScore_eq_breaking_iff, RiskLevel.ofScore_eq_breaking_iff, hbreaking, hbreaking]
    rintro ⟨kind, n, hrates, hgrave⟩
    rcases hrates.adding c with ⟨kind', n', hle, hrates'⟩ | ⟨-, -, rfl⟩
    · exact ⟨kind', n', hrates', Nat.le_trans hgrave hle⟩
    · -- A definition is never breaking.
      exact absurd (definitionPoints_bounds m exported).2.1 (Nat.not_lt.mpr hgrave)
  · rw [RiskLevel.ofScore_eq_risky_iff, RiskLevel.ofScore_eq_safe_iff, hbreaking, hbreaking,
      hrisky, hrisky]
    rintro ⟨-, kind, n, hrates, hle⟩
    constructor
    · rintro ⟨-, hsafe⟩
      refine hrates.softens fun kind' n' hrates' => Nat.lt_of_lt_of_le ?_ hle
      exact Nat.not_le.mp fun hle' => hsafe ⟨kind', n', hrates', hle'⟩
    · intro hsoftens
      have hless : ∀ kind' n', (m.adding c).Rates exported kind' n' →
          n' < RiskLevel.riskyThreshold := fun kind' n' hrates' => (hsoftens.lt hrates').2
      have hthresholds : RiskLevel.riskyThreshold ≤ RiskLevel.breakingThreshold := by decide
      refine ⟨?_, ?_⟩
      · rintro ⟨kind', n', hrates', hgrave⟩
        exact absurd (hless kind' n' hrates') (Nat.not_lt.mpr (Nat.le_trans hthresholds hgrave))
      · rintro ⟨kind', n', hrates', hle'⟩
        exact absurd (hless kind' n' hrates') (Nat.not_lt.mpr hle')

/-- A function whose type parameters are others, and nothing else. -/
def retyped : ModifiedDeclaration where
  key := ⟨.function, "g"⟩
  old := { Declaration.bare .function "g" with signature := some "g<T>(a: T)" }
  new := { Declaration.bare .function "g" with signature := some "g<T extends object>(x: T)" }
  changes := [.signature (some "g<T>(a: T)") (some "g<T extends object>(x: T)")]

/-- A parameter with another name makes a risky function safe. -/
theorem risk_falls_retyped : RiskLevel.ofScore (retyped.risk true) = .risky ∧
      ((retyped.adding (.parameterRenamed "a" "x")).risk true).below (retyped.risk true) = true ∧
      RiskLevel.ofScore ((retyped.adding (.parameterRenamed "a" "x")).risk true) = .safe := by
  decide

end ModifiedDeclaration

end Ripple
