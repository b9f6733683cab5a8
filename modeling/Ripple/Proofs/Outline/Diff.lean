import Mathlib.Data.List.Permutation
import Ripple.Outline.Diff
import Ripple.Proofs.Dict

/-!
# What a Comparison Finds

Two versions of a file are compared key by key. A file may have several
declarations with one key, but only the first one counts, so a version is
what `find?` says about each key. Everything that a comparison finds can be
said in these terms: a key of one version only is removed or added, a key of
both is unchanged or modified, and which of the two depends on whether the
two first declarations are alike.

Being alike is the same in both directions. The differences between two
declarations are not, since what one way is an added parameter is a removed
one the other way; but there are none one way iff there are none the other
way. So a comparison the other way round finds the same keys.

## Theorems

* `declarationChanges_eq_nil_iff`: There is no difference iff two declarations are alike.
* `Outline.mem_removed_diff_iff`, `Outline.mem_added_diff_iff`, `Outline.mem_modified_diff_iff`,
  `Outline.mem_unchanged_diff_iff`: What a comparison finds.
* `Outline.diff_exact_and_reverses`: A comparison is exact, and turns around with its arguments.
-/

namespace Ripple

open List Dict Declaration

section Changes

/-- Two parameters agree in all that is compared. -/
structure Parameter.Agrees (a b : Parameter) : Prop where
  name : a.name = b.name
  type : a.type = b.type
  /-- Both or none may be left out. -/
  optional : a.optional = b.optional

/-- Two declarations agree in all that is compared. What is absent counts as empty, and the order
    of exported names does not matter. -/
structure Declaration.Alike (a b : Declaration) : Prop where
  signature : a.signature = b.signature
  returnType : a.returnType = b.returnType
  /-- They have as many parameters, which agree place by place. -/
  parameters : List.Forall₂ Parameter.Agrees (a.parameters.getD []) (b.parameters.getD [])
  /-- They are exported under the same names. -/
  exports : ∀ name, name ∈ a.exports.getD [] ↔ name ∈ b.exports.getD []

theorem itemIf_eq_nil_iff {α : Type} {condition : Bool} {item : α} :
    itemIf condition item = [] ↔ condition = false := by
  cases condition <;> simp [itemIf]

theorem Parameter.agrees_iff {a b : Parameter} :
    a.Agrees b ↔ (a.type = b.type ∧ a.name = b.name) ∧ a.optional = b.optional :=
  ⟨fun h => ⟨⟨h.type, h.name⟩, h.optional⟩, fun h => ⟨h.1.2, h.1.1, h.2⟩⟩

/-- Two parameter lists have no differences iff they agree place by place. -/
theorem parameterChanges_eq_nil_iff (as bs : List Parameter) :
    parameterChanges as bs = [] ↔ List.Forall₂ Parameter.Agrees as bs := by
  induction as generalizing bs with
  | nil =>
    cases bs with
    | nil => simp [parameterChanges]
    | cons b bs => simp [parameterChanges]
  | cons a as ih =>
    cases bs with
    | nil => simp [parameterChanges]
    | cons b bs =>
      -- Another name is passed over if the type is another one, but then there is a difference.
      have hhead : (if a.type ≠ b.type then
            [DeclarationChange.parameterType b.name a.type b.type]
          else itemIf (a.name ≠ b.name) (.parameterRenamed a.name b.name)) = [] ↔
            a.type = b.type ∧ a.name = b.name := by
        by_cases htype : a.type = b.type
        · simp [htype, itemIf_eq_nil_iff]
        · simp [htype]
      rw [parameterChanges, append_eq_nil_iff, append_eq_nil_iff, hhead,
        itemIf_eq_nil_iff, ih, forall₂_cons, Parameter.agrees_iff, decide_eq_false_iff_not,
        not_not]

theorem filter_not_contains_eq_nil_iff {xs ys : List String} :
    (xs.filter fun name => !ys.contains name) = [] ↔ ∀ name ∈ xs, name ∈ ys := by
  simp [filter_eq_nil_iff]

theorem declarationChanges_eq_nil_iff {a b : Declaration} :
    declarationChanges a b = [] ↔ a.Alike b := by
  simp only [declarationChanges, append_eq_nil_iff, itemIf_eq_nil_iff, map_eq_nil_iff,
    parameterChanges_eq_nil_iff, filter_not_contains_eq_nil_iff, decide_eq_false_iff_not, not_not]
  constructor
  · rintro ⟨⟨⟨⟨hsignature, hret⟩, hpars⟩, hlost⟩, hgained⟩
    exact ⟨hsignature, hret, hpars, fun name => ⟨hlost name, hgained name⟩⟩
  · intro h
    exact ⟨⟨⟨⟨h.signature, h.returnType⟩, h.parameters⟩, fun name => (h.exports name).mp⟩,
      fun name => (h.exports name).mpr⟩

theorem Declaration.Alike.symm {a b : Declaration} (h : a.Alike b) : b.Alike a where
  signature := h.signature.symm
  returnType := h.returnType.symm
  parameters := by
    refine List.Forall₂.imp (fun x y hxy => ?_) h.parameters.flip
    exact ⟨hxy.name.symm, hxy.type.symm, hxy.optional.symm⟩
  exports name := (h.exports name).symm

end Changes

section Lists

variable {α κ : Type}

/-- Lists have the members of another list between them, each member in one list only. -/
structure Divides (parts : List (List α)) (whole : List α) : Prop where
  /-- The members are those of the lists together. -/
  covers : ∀ a, a ∈ whole ↔ ∃ part ∈ parts, a ∈ part
  /-- No two of the lists have a member in common. -/
  disjoint : parts.Pairwise List.Disjoint

end Lists

/-- A comparison of two versions finds what there is to find. -/
structure OutlineDiff.Exact (old new : Outline) (d : OutlineDiff) : Prop where
  /-- The keys of the old version are removed, modified or unchanged, and only one of these. -/
  oldKeys : Divides
    [d.removed.map key, d.modified.map ModifiedDeclaration.key, d.unchanged]
    (old.declarations.map key)
  /-- The keys of the new version are added, modified or unchanged, and only one of these. -/
  newKeys : Divides
    [d.added.map key, d.modified.map ModifiedDeclaration.key, d.unchanged]
    (new.declarations.map key)
  /-- What is removed is the first declaration of a key that the new version does not have. -/
  removed : ∀ a, a ∈ d.removed ↔ old.find? a.key = some a ∧ new.find? a.key = none
  /-- What is added is the first declaration of a key that the old version does not have. -/
  added : ∀ b, b ∈ d.added ↔ new.find? b.key = some b ∧ old.find? b.key = none
  /-- What is modified are the first declarations of a key in both versions. -/
  modified : ∀ m ∈ d.modified, old.find? m.key = some m.old ∧ new.find? m.key = some m.new
  /-- A key of both versions is unchanged iff the first declarations are alike. -/
  unchanged : ∀ key a b, old.find? key = some a → new.find? key = some b →
    (key ∈ d.unchanged ↔ a.Alike b)
  /-- All that is found comes in the order of keys. -/
  ascending : Increasing (d.removed.map key) ∧
    Increasing (d.added.map key) ∧
    Increasing (d.modified.map ModifiedDeclaration.key) ∧ Increasing d.unchanged

/-- A comparison is another one the other way round. -/
structure OutlineDiff.Reverses (d e : OutlineDiff) : Prop where
  added : d.added = e.removed
  removed : d.removed = e.added
  /-- The same keys are modified, with old and new exchanged. -/
  modified : d.modified.map (fun m => (m.key, m.old, m.new)) =
    e.modified.map fun m => (m.key, m.new, m.old)
  unchanged : d.unchanged = e.unchanged

namespace Outline

variable {old new : Outline}

/-- The first declaration of a key is the one that counts. -/
theorem get_index (o : Outline) (key : DeclarationKey) : o.index.get? key = o.find? key := by
  have hlist : ∀ declarations : List Declaration,
      (ofList (declarations.reverse.map fun d => (d.key, d))).get? key =
        declarations.find? fun d => d.key = key := by
    intro declarations
    induction declarations with
    | nil => rfl
    | cons d rest ih =>
      -- The list is put in from the back, so that the first declaration comes last.
      rw [ofList, insertAll, reverse_cons, map_append, foldl_append]
      change (Dict.insert (ofList _) d.key d).get? key = _
      rw [get_insert, ih]
      by_cases hkey : key = d.key
      · rw [if_pos hkey, find?_cons_of_pos (by simp [hkey])]
      · rw [if_neg hkey, find?_cons_of_neg (by simpa using Ne.symm hkey)]
  exact hlist o.declarations

theorem key_of_find {o : Outline} {key : DeclarationKey} {d : Declaration}
    (h : o.find? key = some d) : d.key = key := by
  simpa using find?_some h

/-- A file has a declaration with a key iff there is a first one. -/
theorem mem_keys_iff_find {o : Outline} {key : DeclarationKey} :
    key ∈ o.declarations.map Declaration.key ↔ ∃ d, o.find? key = some d := by
  rw [← Option.isSome_iff_exists, find?]
  simp

theorem increasing_map_values {d : Dict DeclarationKey Declaration}
    (h : ∀ key a, d.get? key = some a → a.key = key) :
    Increasing (d.values.map key) := by
  have hkeys : d.values.map key = d.keys := by
    rw [values, map_map]
    exact map_congr_left fun entry hentry => h entry.1 entry.2 (mem_toList_iff.mp hentry)
  rw [hkeys]
  exact d.increasing_keys

/-- The declarations of one version that the other one has no first declaration for. -/
theorem mem_only_iff {this other : Outline} {d : Declaration} :
    d ∈ (this.index.filter fun key _ => !other.index.contains key).values ↔
      this.find? d.key = some d ∧ other.find? d.key = none := by
  rw [values, mem_map]
  have hget : ∀ key a, (key, a) ∈ (this.index.filter fun key _ =>
      !other.index.contains key).toList ↔ this.find? key = some a ∧ other.find? key = none := by
    intro key a
    rw [mem_toList_iff, get_filter, get_index, Option.filter_eq_some_iff,
      Bool.not_eq_true', contains_eq_false_iff, get_index]
  constructor
  · rintro ⟨⟨key, a⟩, hmem, rfl⟩
    obtain ⟨hthis, hother⟩ := (hget key a).mp hmem
    obtain rfl := key_of_find hthis
    exact ⟨hthis, hother⟩
  · intro h
    exact ⟨(d.key, d), (hget d.key d).mpr h, rfl⟩

theorem increasing_only (this other : Outline) : Increasing
    ((this.index.filter fun key _ => !other.index.contains key).values.map key) := by
  refine increasing_map_values fun key a h => ?_
  rw [get_filter, get_index] at h
  exact key_of_find (Option.filter_eq_some_iff.mp h).1

/-- What is found for entries comes in the order of the entries, if it has their keys. -/
theorem increasing_filterMap {entries : List (DeclarationKey × Declaration)}
    {find : DeclarationKey × Declaration → Option ModifiedDeclaration}
    (hkey : ∀ entry m, find entry = some m → m.key = entry.1) (h : Ascending entries) :
    Increasing ((entries.filterMap find).map ModifiedDeclaration.key) := by
  rw [Increasing, pairwise_map]
  refine List.Pairwise.filterMap _ (fun first second hlt m hm m' hm' => ?_) h
  rw [hkey first m hm, hkey second m' hm']
  exact hlt

section Parts

variable (hhash : old.hash ≠ new.hash)

include hhash

theorem mem_removed_diff_iff {d : Declaration} :
    d ∈ (old.diff new).removed ↔ old.find? d.key = some d ∧ new.find? d.key = none := by
  rw [diff, if_neg hhash]
  exact mem_only_iff

theorem mem_added_diff_iff {d : Declaration} :
    d ∈ (old.diff new).added ↔ new.find? d.key = some d ∧ old.find? d.key = none := by
  rw [diff, if_neg hhash]
  exact mem_only_iff

theorem mem_modified_diff_iff {m : ModifiedDeclaration} :
    m ∈ (old.diff new).modified ↔ old.find? m.key = some m.old ∧ new.find? m.key = some m.new ∧
      ¬ m.old.Alike m.new ∧ m.changes = declarationChanges m.old m.new := by
  rw [diff, if_neg hhash]
  simp only [mem_filterMap, Prod.exists, mem_toList_iff, get_index,
    Option.bind_eq_some_iff, ← declarationChanges_eq_nil_iff]
  constructor
  · rintro ⟨key, a, hold, b, hnew, hm⟩
    split at hm
    · cases hm
    · next hne =>
      obtain rfl := Option.some.inj hm
      exact ⟨hold, hnew, hne, rfl⟩
  · rintro ⟨hold, hnew, hne, hchanges⟩
    refine ⟨m.key, m.old, hold, m.new, hnew, ?_⟩
    split
    · next hnil => exact absurd hnil hne
    · rw [← hchanges]

theorem mem_unchanged_diff_iff {key : DeclarationKey} : key ∈ (old.diff new).unchanged ↔
      ∃ a b, old.find? key = some a ∧ new.find? key = some b ∧ a.Alike b := by
  rw [diff, if_neg hhash]
  simp only [mem_keys_iff, get_filter, get_index, Option.isSome_iff_exists,
    Option.filter_eq_some_iff, ← declarationChanges_eq_nil_iff]
  cases new.find? key with
  | none => simp
  | some b => simp

theorem increasing_removed_diff : Increasing ((old.diff new).removed.map key) := by
  rw [diff, if_neg hhash]
  exact increasing_only old new

theorem increasing_added_diff : Increasing ((old.diff new).added.map key) := by
  rw [diff, if_neg hhash]
  exact increasing_only new old

theorem increasing_modified_diff :
    Increasing ((old.diff new).modified.map ModifiedDeclaration.key) := by
  rw [diff, if_neg hhash]
  refine increasing_filterMap (fun entry m hm => ?_) old.index.ascending
  obtain ⟨b, -, hm⟩ := Option.bind_eq_some_iff.mp hm
  split at hm
  · cases hm
  · rw [← Option.some.inj hm]

theorem increasing_unchanged_diff : Increasing (old.diff new).unchanged := by
  rw [diff, if_neg hhash]
  exact increasing_keys _

theorem mem_keys_removed_diff {key : DeclarationKey} :
    key ∈ (old.diff new).removed.map Declaration.key ↔
      ∃ a, old.find? key = some a ∧ new.find? key = none := by
  simp only [mem_map, mem_removed_diff_iff hhash]
  constructor
  · rintro ⟨a, h, rfl⟩
    exact ⟨a, h⟩
  · rintro ⟨a, hold, hnew⟩
    obtain rfl := key_of_find hold
    exact ⟨a, ⟨hold, hnew⟩, rfl⟩

/-- What can be told of modified declarations by their keys and versions. -/
theorem mem_map_modified_diff {β : Type} (tell : DeclarationKey → Declaration → Declaration → β)
    {x : β} : (x ∈ (old.diff new).modified.map fun m => tell m.key m.old m.new) ↔
      ∃ key a b, (old.find? key = some a ∧ new.find? key = some b ∧ ¬ a.Alike b) ∧
        tell key a b = x := by
  simp only [mem_map, mem_modified_diff_iff hhash]
  constructor
  · rintro ⟨m, ⟨hold, hnew, hne, -⟩, rfl⟩
    exact ⟨m.key, m.old, m.new, ⟨hold, hnew, hne⟩, rfl⟩
  · rintro ⟨key, a, b, ⟨hold, hnew, hne⟩, rfl⟩
    exact ⟨⟨key, a, b, declarationChanges a b⟩, ⟨hold, hnew, hne, rfl⟩, rfl⟩

theorem mem_keys_modified_diff {key : DeclarationKey} :
    key ∈ (old.diff new).modified.map ModifiedDeclaration.key ↔
      ∃ a b, old.find? key = some a ∧ new.find? key = some b ∧ ¬ a.Alike b := by
  refine (mem_map_modified_diff hhash fun key _ _ => key).trans ?_
  constructor
  · rintro ⟨_, a, b, h, rfl⟩
    exact ⟨a, b, h⟩
  · rintro ⟨a, b, h⟩
    exact ⟨key, a, b, h, rfl⟩

theorem divides_old_diff : Divides [(old.diff new).removed.map key,
      (old.diff new).modified.map ModifiedDeclaration.key, (old.diff new).unchanged]
      (old.declarations.map key) where
  covers key := by
    simp only [mem_cons, not_mem_nil, or_false, exists_eq_or_imp, exists_eq_left,
      mem_keys_iff_find, mem_keys_removed_diff hhash, mem_keys_modified_diff hhash,
      mem_unchanged_diff_iff hhash]
    constructor
    · rintro ⟨a, hold⟩
      cases hnew : new.find? key with
      | none => exact .inl ⟨a, hold, rfl⟩
      | some b =>
        by_cases halike : a.Alike b
        · exact .inr (.inr ⟨a, b, hold, rfl, halike⟩)
        · exact .inr (.inl ⟨a, b, hold, rfl, halike⟩)
    · rintro (⟨a, hold, -⟩ | ⟨a, b, hold, -⟩ | ⟨a, b, hold, -⟩) <;> exact ⟨a, hold⟩
  disjoint := by
    simp only [pairwise_cons, mem_cons, not_mem_nil, or_false, forall_eq_or_imp,
      forall_eq, List.Pairwise.nil, and_true, IsEmpty.forall_iff, implies_true]
    refine ⟨⟨fun key hrem hmod => ?_, fun key hrem hunchanged => ?_⟩,
      fun key hmod hunchanged => ?_⟩
    · obtain ⟨_, -, hnone⟩ := (mem_keys_removed_diff hhash).mp hrem
      obtain ⟨_, _, -, hsome, -⟩ := (mem_keys_modified_diff hhash).mp hmod
      exact nomatch hnone.symm.trans hsome
    · obtain ⟨_, -, hnone⟩ := (mem_keys_removed_diff hhash).mp hrem
      obtain ⟨_, _, -, hsome, -⟩ := (mem_unchanged_diff_iff hhash).mp hunchanged
      exact nomatch hnone.symm.trans hsome
    · obtain ⟨a, b, hold, hnew, hne⟩ := (mem_keys_modified_diff hhash).mp hmod
      obtain ⟨a', b', hold', hnew', halike⟩ := (mem_unchanged_diff_iff hhash).mp hunchanged
      obtain rfl := Option.some.inj (hold.symm.trans hold')
      obtain rfl := Option.some.inj (hnew.symm.trans hnew')
      exact hne halike

theorem reverses_diff : (new.diff old).Reverses (old.diff new) where
  added := by
    rw [diff, if_neg hhash.symm, diff, if_neg hhash]
  removed := by
    rw [diff, if_neg hhash.symm, diff, if_neg hhash]
  modified := by
    refine eq_of_pairwise_compare Prod.fst ?_ ?_ ?_
    · exact pairwise_map.mpr (pairwise_map.mp (increasing_modified_diff hhash.symm))
    · exact pairwise_map.mpr (pairwise_map.mp (increasing_modified_diff hhash))
    · intro entry
      refine (mem_map_modified_diff hhash.symm fun key b a => (key, b, a)).trans
        (Iff.trans ?_ (mem_map_modified_diff hhash fun key a b => (key, b, a)).symm)
      constructor
      · rintro ⟨key, b, a, ⟨hnew, hold, hne⟩, rfl⟩
        exact ⟨key, a, b, ⟨hold, hnew, fun halike => hne halike.symm⟩, rfl⟩
      · rintro ⟨key, a, b, ⟨hold, hnew, hne⟩, rfl⟩
        exact ⟨key, b, a, ⟨hnew, hold, fun halike => hne halike.symm⟩, rfl⟩
  unchanged := by
    refine (increasing_unchanged_diff hhash.symm).eq_of_mem_iff (increasing_unchanged_diff hhash) ?_
    intro key
    rw [mem_unchanged_diff_iff hhash, mem_unchanged_diff_iff hhash.symm]
    constructor
    · rintro ⟨b, a, hnew, hold, halike⟩
      exact ⟨a, b, hold, hnew, halike.symm⟩
    · rintro ⟨a, b, hold, hnew, halike⟩
      exact ⟨b, a, hnew, hold, halike.symm⟩

/-- The keys of the new version are divided, since they are old ones the other way round. -/
theorem divides_new_diff : Divides [(old.diff new).added.map key,
      (old.diff new).modified.map ModifiedDeclaration.key, (old.diff new).unchanged]
      (new.declarations.map key) := by
  have hreverses := reverses_diff hhash
  have hmod := congrArg (List.map Prod.fst) hreverses.modified
  rw [map_map, map_map] at hmod
  have hdivides := divides_old_diff hhash.symm
  rw [hreverses.removed, hreverses.unchanged] at hdivides
  exact hmod ▸ hdivides

end Parts

/-- A comparison of two versions with different hashes is exact, and the comparison the other way
    round is its reverse. -/
theorem diff_exact_and_reverses (hhash : old.hash ≠ new.hash) :
    (old.diff new).Exact old new ∧ (new.diff old).Reverses (old.diff new) := by
  refine ⟨?_, reverses_diff hhash⟩
  refine
    { oldKeys := divides_old_diff hhash
      newKeys := divides_new_diff hhash
      removed := fun _ => mem_removed_diff_iff hhash
      added := fun _ => mem_added_diff_iff hhash
      modified := fun m hm => ?_
      unchanged := fun key a b hold hnew => ?_
      ascending := ⟨increasing_removed_diff hhash, increasing_added_diff hhash,
        increasing_modified_diff hhash, increasing_unchanged_diff hhash⟩ }
  · obtain ⟨hold, hnew, -⟩ := (mem_modified_diff_iff hhash).mp hm
    exact ⟨hold, hnew⟩
  · rw [mem_unchanged_diff_iff hhash]
    constructor
    · rintro ⟨a', b', hold', hnew', halike⟩
      rw [Option.some.inj (hold.symm.trans hold'), Option.some.inj (hnew.symm.trans hnew')]
      exact halike
    · intro halike
      exact ⟨a, b, hold, hnew, halike⟩

section Overloads

/-- A function with some parameters. -/
def functionWith (name : String) (parameters : List String) : Declaration :=
  { bare .function name with parameters := some (parameters.map .plain) }

/-- A file with an overloaded function and two others. -/
def overloaded : Outline :=
  { empty "a.ts" "1" with
    declarations := [functionWith "f" ["x"], functionWith "f" [], functionWith "g" [],
      functionWith "h" []] }

/-- The file with the overloads in the other order, and one of the others replaced. -/
def reordered : Outline :=
  { empty "a.ts" "2" with
    declarations := [functionWith "f" [], functionWith "f" ["x"], functionWith "g" [],
      functionWith "k" []] }

/-- Overloads in another order are a modification, since the first one counts. -/
theorem diff_exact_and_reverses_overloads : (overloaded.hash ≠ reordered.hash ∧
      (overloaded.diff reordered).modified.map (·.key) = [⟨.function, "f"⟩]) ∧
      (overloaded.diff reordered).Exact overloaded reordered ∧
      (reordered.diff overloaded).Reverses (overloaded.diff reordered) :=
  ⟨⟨by decide, by cbv⟩, diff_exact_and_reverses (by decide)⟩

end Overloads

end Outline

end Ripple
