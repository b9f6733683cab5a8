import Mathlib.Data.List.FinRange
import Ripple.Graph.Clusters
import Ripple.Proofs.Graph.Circular
import Ripple.Proofs.Graph.Forest

/-!
# Clusters Are Connected by Mutual Imports

The clusters of a graph come out of a forest of numbers, but what they are
does not depend on it. Two files are in one group iff a chain of mutual imports
connects them: the pairs that were joined are the mutual imports, and a forest
makes equivalent what its pairs make equivalent.

A mutual import leads from each file to the other one, so files of one cluster
reach each other and lie in one component. Components are larger in general,
since there may be a way back without any mutual import.
-/

namespace Ripple

open List

/-- A map whose keys are made from the numbers of its values answers with the value of a number. -/
theorem Dict.get_ofList_numbered {α : Type} {name : Nat → String} (hname : name.Injective)
    (values : List α) (key : String) (value : α) :
    (Dict.ofList (values.zipIdx.map fun (value, i) => (name i, value))).get? key = some value ↔
      ∃ i, values[i]? = some value ∧ key = name i := by
  have hmem : ∀ other, (key, other) ∈ values.zipIdx.map (fun (value, i) => (name i, value)) ↔
      ∃ i, values[i]? = some other ∧ key = name i := by
    intro other
    simp only [mem_map, Prod.exists, mem_zipIdx_iff_getElem?, Prod.mk.injEq]
    constructor
    · rintro ⟨_, i, hi, rfl, rfl⟩
      exact ⟨i, hi, rfl⟩
    · rintro ⟨i, hi, rfl⟩
      exact ⟨other, i, hi, rfl, rfl⟩
  rw [← hmem]
  constructor
  · intro h
    rcases Dict.mem_of_get_insertAll h with h | h
    · exact h
    · cases h
  · refine fun h => Dict.get_insertAll_of_mem h fun other hother => ?_
    obtain ⟨i, hi, rfl⟩ := (hmem value).mp h
    obtain ⟨j, hj, heq⟩ := (hmem other).mp hother
    rw [hname heq, hj] at hi
    exact Option.some.inj hi

theorem injective_numbered (label : String) :
    (fun i : Nat => label ++ toString (i + 1)).Injective := by
  intro i j h
  have hdig : Nat.toDigits 10 (i + 1) = Nat.toDigits 10 (j + 1) := by
    rw [← Nat.toList_repr, ← Nat.toList_repr]
    exact congrArg String.toList ((String.append_right_inj _).mp h)
  have hvalue := congrArg (Nat.ofDigitChars 10 · 0) hdig
  simp only [Nat.ofDigitChars_ten_toDigits] at hvalue
  exact Nat.succ_injective hvalue

/-- Lists without a common member that are in order have their first members in order. -/
theorem compare_head_of_disjoint {xs ys : List String} (hlt : compare xs ys = .lt)
    (hdisj : xs.Disjoint ys) : ∀ a ∈ xs.head?, ∀ b ∈ ys.head?, compare a b = .lt := by
  intro a ha b hb
  obtain ⟨xs, rfl⟩ := head?_eq_some_iff.mp ha
  obtain ⟨ys, rfl⟩ := head?_eq_some_iff.mp hb
  change List.compareLex compare (a :: xs) (b :: ys) = .lt at hlt
  rw [List.compareLex_cons_cons, Ordering.then_eq_lt] at hlt
  rcases hlt with hlt | ⟨heq, -⟩
  · exact hlt
  · rw [Std.LawfulEqOrd.eq_of_compare heq] at hdisj
    exact absurd mem_cons_self (hdisj mem_cons_self)

namespace ImportGraph

variable {g : ImportGraph} {a b : String}

/-- Two different files import each other. -/
def Mutual (g : ImportGraph) (a b : String) : Prop := a ≠ b ∧ g.Imports a b ∧ g.Imports b a

/-- Files are connected by mutual imports. -/
def Connected (g : ImportGraph) : String → String → Prop := Relation.EqvGen g.Mutual

theorem nodup_keys (g : ImportGraph) : g.nodes.keys.Nodup := g.nodes.increasing_keys.nodup

theorem finIdxOf_keys_eq_some_iff {i : Fin g.nodes.keys.length} :
    g.nodes.keys.finIdxOf? a = some i ↔ g.nodes.keys.get i = a := by
  rw [finIdxOf?_eq_some_iff]
  refine ⟨And.left, fun h => ⟨h, fun j hj heq => ?_⟩⟩
  exact hj.ne (List.nodup_iff_injective_get.mp g.nodup_keys (heq.trans h.symm))

/-- The pairs that are joined are the mutual imports, each in one direction. -/
theorem mem_mutualPairs_iff {i j : Fin g.nodes.keys.length} : (i, j) ∈ g.mutualPairs g.nodes.keys ↔
      compare (g.nodes.keys.get i) (g.nodes.keys.get j) = .lt ∧
        g.Imports (g.nodes.keys.get i) (g.nodes.keys.get j) ∧
        g.Imports (g.nodes.keys.get j) (g.nodes.keys.get i) := by
  have hnode : ∀ {a b node}, g.nodes.get? a = some node →
      (g.Imports a b ↔ b ∈ node.dependencies) := by
    intro a b node h
    rw [Imports, dependenciesOf, h]
  simp only [mutualPairs, mem_flatMap, mem_filterMap, Prod.exists, Dict.mem_toList_iff]
  constructor
  · rintro ⟨a, node, ha, b, hb, hpair⟩
    split at hpair
    · next htest =>
      rw [Bool.and_eq_true, decide_eq_true_eq, hasEdge, contains_iff_mem] at htest
      obtain ⟨i', hi, hpair⟩ := Option.bind_eq_some_iff.mp hpair
      obtain ⟨j', hj, hpair⟩ := Option.map_eq_some_iff.mp hpair
      obtain ⟨rfl, rfl⟩ := Prod.mk.inj hpair
      rw [finIdxOf_keys_eq_some_iff.mp hi, finIdxOf_keys_eq_some_iff.mp hj]
      exact ⟨htest.1, (hnode ha).mpr hb, htest.2⟩
    · cases hpair
  · rintro ⟨hlt, hforth, hback⟩
    obtain ⟨node, ha⟩ := Option.isSome_iff_exists.mp (Dict.mem_keys_iff.mp hforth.mem_keys)
    refine ⟨_, node, ha, _, (hnode ha).mp hforth, ?_⟩
    rw [if_pos]
    · rw [finIdxOf_keys_eq_some_iff.mpr rfl, finIdxOf_keys_eq_some_iff.mpr rfl]
      rfl
    · rw [Bool.and_eq_true, decide_eq_true_eq, hasEdge, contains_iff_mem]
      exact ⟨hlt, hback⟩

/-- Two places have one root after all joins iff their files are connected. -/
theorem root_eq_iff_connected {i j : Fin g.nodes.keys.length} :
    g.mutualForest.root i = g.mutualForest.root j ↔
      g.Connected (g.nodes.keys.get i) (g.nodes.keys.get j) := by
  have hmatches := Forest.matches_joinAll (g.mutualPairs g.nodes.keys)
  constructor
  · intro hroot
    -- The root is the same by a chain of joined pairs, each of which is a mutual import.
    refine ((Relation.EqvGen.is_equivalence g.Mutual).comap g.nodes.keys.get).eqvGen_iff.mp
      (Relation.EqvGen.mono (fun i j hpair => .rel _ _ ?_) i j ((hmatches i j).mp hroot))
    obtain ⟨hlt, himports⟩ := mem_mutualPairs_iff.mp hpair
    exact ⟨fun heq => compare_self_ne_lt _ (heq ▸ hlt), himports⟩
  · intro hconnected
    -- Files that import each other have places, and a pair of them was joined in one direction.
    have hmutual : ∀ a b, g.Mutual a b → (g.nodes.keys.finIdxOf? a).map g.mutualForest.root =
        (g.nodes.keys.finIdxOf? b).map g.mutualForest.root := by
      rintro a b ⟨hne, hforth, hback⟩
      obtain ⟨i, rfl⟩ := List.mem_iff_get.mp hforth.mem_keys
      obtain ⟨j, rfl⟩ := List.mem_iff_get.mp hback.mem_keys
      rw [finIdxOf_keys_eq_some_iff.mpr rfl, finIdxOf_keys_eq_some_iff.mpr rfl]
      refine congrArg some ?_
      cases horder : compare (g.nodes.keys.get i) (g.nodes.keys.get j) with
      | lt => exact (hmatches i j).mpr (.rel _ _ (mem_mutualPairs_iff.mpr ⟨horder, hforth, hback⟩))
      | gt =>
        exact ((hmatches j i).mpr (.rel _ _ (mem_mutualPairs_iff.mpr
          ⟨Std.OrientedCmp.lt_of_gt horder, hback, hforth⟩))).symm
      | eq => exact absurd (Std.LawfulEqOrd.eq_of_compare horder) hne
    have hsame := eq_of_eqvGen hmutual hconnected
    rw [finIdxOf_keys_eq_some_iff.mpr rfl, finIdxOf_keys_eq_some_iff.mpr rfl] at hsame
    exact Option.some.inj hsame

theorem Connected.mem_keys (h : g.Connected a b) (ha : a ∈ g.nodes.keys) : b ∈ g.nodes.keys := by
  have hsame : (a ∈ g.nodes.keys) = (b ∈ g.nodes.keys) :=
    eq_of_eqvGen (fun x y hxy => propext
      ⟨fun _ => hxy.2.2.mem_keys, fun _ => hxy.2.1.mem_keys⟩) h
  exact hsame ▸ ha

/-- Connected files reach each other. -/
theorem Connected.together (h : g.Connected a b) : Together g.nodes.keys g.dependenciesOf a b := by
  induction h with
  | rel a b h =>
    have hlink : ∀ {x y}, g.Imports x y → g.Imports y x →
        Linked g.nodes.keys g.dependenciesOf x y :=
      fun hforth hback => ⟨hforth.mem_keys, hback.mem_keys, hforth⟩
    exact ⟨.single (hlink h.2.1 h.2.2), .single (hlink h.2.2 h.2.1)⟩
  | refl a => exact together_refl a
  | symm _ _ _ ih => exact ih.symm
  | trans _ _ _ _ _ ih ih' => exact ih.trans ih'

/-- The files whose places have one root, in the order of all files. -/
theorem listed_by_root (i : Fin g.nodes.keys.length) {listed : List String}
    (h : listed = ((List.finRange _).filter fun j =>
      g.mutualForest.root j = g.mutualForest.root i).map g.nodes.keys.get) :
    Increasing listed ∧ ∀ b, b ∈ listed ↔ g.Connected (g.nodes.keys.get i) b := by
  subst h
  refine ⟨?_, fun b => ?_⟩
  · have hsub := (filter_sublist (l := List.finRange _) (p := fun j =>
      g.mutualForest.root j = g.mutualForest.root i)).map g.nodes.keys.get
    rw [map_get_finRange] at hsub
    exact g.nodes.increasing_keys.sublist hsub
  · simp only [mem_map, mem_filter, decide_eq_true_eq, mem_finRange, true_and]
    constructor
    · rintro ⟨j, hroot, rfl⟩
      exact root_eq_iff_connected.mp hroot.symm
    · intro h
      obtain ⟨j, rfl⟩ := List.mem_iff_get.mp (h.mem_keys (get_mem _ i))
      exact ⟨j, (root_eq_iff_connected.mpr h).symm, rfl⟩

/-- A group lists in order the files that are connected to one of its files. -/
theorem mem_mutualGroups_iff {members : List String} : members ∈ g.mutualGroups ↔
    Increasing members ∧ ∃ a ∈ g.nodes.keys, ∀ b, b ∈ members ↔ g.Connected a b := by
  rw [mutualGroups, mem_map]
  constructor
  · rintro ⟨places, hplaces, rfl⟩
    obtain ⟨i, rfl⟩ := (Forest.mem_values_gather _ _).mp hplaces
    obtain ⟨hinc, hclass⟩ := listed_by_root i rfl
    exact ⟨hinc, _, get_mem _ i, hclass⟩
  · rintro ⟨hinc, a, ha, hclass⟩
    obtain ⟨i, rfl⟩ := List.mem_iff_get.mp ha
    obtain ⟨hinc', hclass'⟩ := listed_by_root i rfl
    refine ⟨_, (Forest.mem_values_gather _ _).mpr ⟨i, rfl⟩, ?_⟩
    exact hinc'.eq_of_mem_iff hinc fun b => (hclass' b).trans (hclass b).symm

theorem pairwise_disjoint_mutualGroups (g : ImportGraph) :
    g.mutualGroups.Pairwise List.Disjoint := by
  rw [mutualGroups, pairwise_map]
  refine (Forest.pairwise_disjoint_gather _).imp fun hdisj b hb hb' => ?_
  obtain ⟨i, hi, rfl⟩ := mem_map.mp hb
  obtain ⟨j, hj, heq⟩ := mem_map.mp hb'
  exact hdisj hi (List.nodup_iff_injective_get.mp g.nodup_keys heq ▸ hj)

/-- The groups that are large enough are sorted and have no file in common. -/
theorem largeGroups_spec (g : ImportGraph) (minSize : Nat) :
    (∀ members, members ∈ g.largeGroups minSize ↔
      members ∈ g.mutualGroups ∧ max minSize 2 ≤ members.length) ∧
    Increasing (g.largeGroups minSize) ∧ (g.largeGroups minSize).Pairwise List.Disjoint := by
  have hmem : ∀ members, members ∈ g.largeGroups minSize ↔
      members ∈ g.mutualGroups ∧ max minSize 2 ≤ members.length := by
    intro members
    rw [largeGroups, mem_sortAscending, mem_filter, decide_eq_true_eq]
  have hdisj : (g.mutualGroups.filter fun members =>
      max minSize 2 ≤ members.length).Pairwise List.Disjoint :=
    g.pairwise_disjoint_mutualGroups.filter _
  refine ⟨hmem, increasing_sortAscending ?_, ?_⟩
  · -- A group that occurs twice would have no members.
    refine hdisj.imp_of_mem fun {xs ys} hxs _ hsep heq => ?_
    subst heq
    have hlarge := of_decide_eq_true (mem_filter.mp hxs).2
    have hpos : 0 < xs.length := Nat.lt_of_lt_of_le Nat.zero_lt_two (le_of_max_le_right hlarge)
    obtain ⟨a, ha⟩ := exists_mem_of_length_pos hpos
    exact hsep ha ha
  · exact ((mergeSort_perm _ _).pairwise_iff fun h => h.symm).mpr hdisj

theorem exists_unique_component {members : List String} (h : members ∈ g.mutualGroups)
    (hlarge : 2 ≤ members.length) :
    ∃! component, component ∈ g.components ∧ members ⊆ component := by
  obtain ⟨hinc, a, -, hclass⟩ := mem_mutualGroups_iff.mp h
  have ha : a ∈ members := (hclass a).mpr (.refl a)
  -- It takes a second member for the first one to be in a component at all.
  have hothers : 0 < (members.erase a).length := by
    rw [length_erase_of_mem ha]
    omega
  obtain ⟨b, hb⟩ := exists_mem_of_length_pos hothers
  obtain ⟨hne, hb⟩ := hinc.nodup.mem_erase_iff.mp hb
  obtain ⟨component, hcomp, hmem⟩ :=
    exists_component_iff.mpr ⟨b, hne, ((hclass b).mp hb).together⟩
  have hinside : members ⊆ component := fun x hx =>
    (mem_iff_together hcomp hmem).mpr ((hclass x).mp hx).together
  refine ⟨component, ⟨hcomp, hinside⟩, fun other ⟨hother, hinside'⟩ => ?_⟩
  refine (increasing_of_mem_components hother).eq_of_mem_iff
    (increasing_of_mem_components hcomp) fun x => ?_
  rw [mem_iff_together hother (hinside' ha), mem_iff_together hcomp hmem]

/-- The clusters of a graph are the sets of files that are connected by mutual imports, as far as
    they are large enough. Their files are in order and no file is in two of them; their keys
    number them in the order of their first files; each one lies in one component. The search for
    a root that they are made with comes to an end in at most as many steps as there are places
    before. -/
theorem clusters_are_mutual_components (g : ImportGraph) (minSize : Nat) :
    (∀ members, members ∈ (g.clusters minSize).values ↔
      Increasing members ∧ max minSize 2 ≤ members.length ∧
        ∃ a ∈ g.nodes.keys, ∀ b, b ∈ members ↔ g.Connected a b) ∧
    (∃ listing : List (List String),
      (listing.Pairwise fun xs ys => ∀ a ∈ xs.head?, ∀ b ∈ ys.head?, compare a b = .lt) ∧
      listing.Pairwise List.Disjoint ∧
      ∀ key members, (g.clusters minSize).get? key = some members ↔
        ∃ i, listing[i]? = some members ∧ key = "cluster-" ++ toString (i + 1)) ∧
    (∀ members ∈ (g.clusters minSize).values,
      ∃! component, component ∈ g.components ∧ members ⊆ component) ∧
    ∀ (size : Nat) (f : Forest size) (place : Fin size), ∃ turns ≤ place.val,
      RootSearch.step^[turns] ⟨f, place⟩ = f.find place ∧ (f.find place).atRoot := by
  obtain ⟨hlarge, hincreasing, hdisjoint⟩ := g.largeGroups_spec minSize
  have hget := Dict.get_ofList_numbered (injective_numbered "cluster-") (g.largeGroups minSize)
  -- No group is lost among the values, since no two numbers give the same key.
  have hvalues : ∀ members, members ∈ (g.clusters minSize).values ↔
      members ∈ g.mutualGroups ∧ max minSize 2 ≤ members.length := by
    intro members
    rw [← hlarge]
    constructor
    · intro h
      obtain ⟨⟨key, members⟩, hentry, rfl⟩ := mem_map.mp h
      obtain ⟨i, hi, -⟩ := (hget key members).mp (Dict.mem_toList_iff.mp hentry)
      exact mem_of_getElem? hi
    · intro h
      obtain ⟨i, hi⟩ := List.mem_iff_getElem?.mp h
      exact Dict.mem_values_of_get ((hget _ members).mpr ⟨i, hi, rfl⟩)
  refine ⟨fun members => ?_, ⟨g.largeGroups minSize, ?_, hdisjoint, hget⟩, ?_, ?_⟩
  · rw [hvalues, mem_mutualGroups_iff]
    exact ⟨fun ⟨⟨h, hclass⟩, hsize⟩ => ⟨h, hsize, hclass⟩,
      fun ⟨h, hsize, hclass⟩ => ⟨⟨h, hclass⟩, hsize⟩⟩
  · exact (hincreasing.and hdisjoint).imp fun h => compare_head_of_disjoint h.1 h.2
  · intro members h
    obtain ⟨hgroup, hsize⟩ := (hvalues members).mp h
    exact exists_unique_component hgroup (le_of_max_le_right hsize)
  · intro size f place
    obtain ⟨turns, hturns, hrun, hroot⟩ := RootSearch.exists_iterate_eq_run ⟨f, place⟩
    exact ⟨turns, hturns, hrun, hroot⟩

end ImportGraph

end Ripple
