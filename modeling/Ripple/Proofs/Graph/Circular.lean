import Ripple.Graph.Impact
import Ripple.Proofs.Graph.Build
import Ripple.Proofs.Graph.Components

/-!
# Files on Cycles and Files in Components

That files depend on each other in a circle is told in two ways. A graph lists
its cycles, as far as they do not have too many files, and of cycles through
the same files only one. The components say which files reach each other, and
they know nothing of cycles or their number of files.

Both mean the same files. A cycle is a walk that comes back, so its files reach
each other; and since no file of a built graph imports itself, there are at
least two of them. The other direction needs a cycle that is short enough to be
listed. A walk from a file to another one and back may go through some file
many times, but from the second file on the walk there is a path back to the
first one that repeats no file, and with the first step it is a cycle. It has
no more files than the graph, and a cycle that is left out in the listing
leaves another one through the same files.

## Theorems

* `exists_component_iff`: A node is in a component iff it reaches another one
  and is reached from it.
* `ImportGraph.IsCycle.together`: The files of a cycle reach each other.
* `ImportGraph.circular_agrees_with_components`: Cycles and components mean the
  same files.
-/

open List Relation

namespace Ripple

section Paths

variable {α : Type} {step : α → α → Prop}

theorem exists_path_of_reaches {a b : α} (h : ReflTransGen step a b) :
    ∃ path : List α, path.head? = some a ∧ path.getLast? = some b ∧ path.IsChain step ∧
      path.Nodup := by
  induction h using ReflTransGen.head_induction_on with
  | refl => exact ⟨[b], rfl, rfl, isChain_singleton b, nodup_singleton b⟩
  | @head a c hstep _ ih =>
    obtain ⟨path, hhead, hlast, hchain, hnd⟩ := ih
    by_cases hmem : a ∈ path
    · -- The path comes back to its start, so it is enough to begin there.
      obtain ⟨front, back, rfl⟩ := append_of_mem hmem
      refine ⟨a :: back, rfl, ?_, hchain.right_of_append, hnd.of_append_right⟩
      rw [← hlast, getLast?_append_of_ne_nil _ (cons_ne_nil _ _)]
    · obtain ⟨rest, rfl⟩ := head?_eq_some_iff.mp hhead
      exact ⟨a :: c :: rest, rfl, hlast, .cons_cons hstep hchain, nodup_cons.mpr ⟨hmem, hnd⟩⟩

end Paths

section Components

variable {nodes : List String} {successors : String → List String}

theorem exists_component_iff {a : String} :
    (∃ component ∈ components nodes successors, a ∈ component) ↔
      ∃ b, b ≠ a ∧ Together nodes successors a b := by
  constructor
  · rintro ⟨component, hc, ha⟩
    have hjoined := (maximal_of_mem_components hc).prop
    obtain ⟨b, hb, hne⟩ := hjoined.nontrivial.exists_ne a
    exact ⟨b, hne, hjoined.together a ha b hb⟩
  · rintro ⟨b, hne, htogether⟩
    -- A walk to another node has a first step, which comes from a listed node.
    have ha : a ∈ nodes := by
      rcases ReflTransGen.cases_head htogether.1 with heq | ⟨_, hstep, -⟩
      · exact absurd heq.symm hne
      · exact hstep.1
    -- What belongs together with a node is the largest joined set around it.
    have hjoined : Joined nodes successors {x | Together nodes successors a x} :=
      joined_of_class ha (fun _ => Iff.rfl) ⟨a, together_refl a, b, htogether, hne.symm⟩
    have hmaximal : Maximal (Joined nodes successors) {x | Together nodes successors a x} :=
      ⟨hjoined, fun _ hlarger hsub x hx => hlarger.together a (hsub (together_refl a)) x hx⟩
    obtain ⟨component, hc, hsame⟩ := exists_component_of_maximal hmaximal
    exact ⟨component, hc, (Set.ext_iff.mp hsame a).mp (together_refl a)⟩

theorem increasing_components : Increasing (components nodes successors) := by
  refine increasing_sortAscending ?_
  exact (mergeSort_perm _ _).nodup_iff.mp pairwise_disjoint_components.2

/-- A component lists in order what belongs together with one of its nodes. -/
theorem mem_iff_together {component : List String} (h : component ∈ components nodes successors)
    {a b : String} (ha : a ∈ component) : b ∈ component ↔ Together nodes successors a b := by
  obtain ⟨members, hmems, -, rfl⟩ := mem_components.mp h
  obtain ⟨-, c, -, hclass⟩ := mem_groups hmems
  rw [mem_sortAscending, hclass] at ha ⊢
  exact ⟨ha.symm.trans, ha.trans⟩

/-- A component is what belongs together with a node, listed in order, if that is not the node
    alone. -/
theorem mem_components_iff {component : List String} : component ∈ components nodes successors ↔
    Increasing component ∧ ∃ a b, b ≠ a ∧ Together nodes successors a b ∧
      ∀ x, x ∈ component ↔ Together nodes successors a x := by
  constructor
  · intro h
    obtain ⟨a, ha, b, hb, hne⟩ := (maximal_of_mem_components h).prop.nontrivial
    exact ⟨increasing_of_mem_components h, a, b, hne.symm, (mem_iff_together h ha).mp hb,
      fun x => mem_iff_together h ha⟩
  · rintro ⟨hinc, a, b, hne, htogether, hclass⟩
    obtain ⟨other, hother, ha⟩ := exists_component_iff.mpr ⟨b, hne, htogether⟩
    have hsame : component = other :=
      hinc.eq_of_mem_iff (increasing_of_mem_components hother) fun x =>
        (hclass x).trans (mem_iff_together hother ha).symm
    rw [hsame]
    exact hother

end Components

namespace ImportGraph

variable {g : ImportGraph}

/-- One file imports another. -/
def Imports (g : ImportGraph) (a b : String) : Prop := b ∈ g.dependenciesOf a

theorem Imports.mem_keys {a b : String} (h : g.Imports a b) : a ∈ g.nodes.keys := by
  unfold Imports dependenciesOf at h
  split at h
  case h_1 node hnode => exact Dict.mem_keys_of_get hnode
  case h_2 => exact absurd h not_mem_nil

theorem reaches_of_imports {a b : String} (h : TransGen g.Imports a b)
    (hb : b ∈ g.nodes.keys) : Reaches g.nodes.keys g.dependenciesOf a b := by
  induction h with
  | single hstep => exact .single ⟨hstep.mem_keys, hb, hstep⟩
  | tail _ hstep ih => exact (ih hstep.mem_keys).tail ⟨hstep.mem_keys, hb, hstep⟩

theorem IsCycle.together {files : List String} (h : g.IsCycle files) {a b : String} (ha : a ∈ files)
    (hb : b ∈ files) : Together g.nodes.keys g.dependenciesOf a b := by
  have hchain : Cycle.Chain (TransGen g.Imports) (files : Cycle String) :=
    h.chain.imp fun _ _ hstep => .single hstep
  have hwalk : ∀ x ∈ files, ∀ y ∈ files, TransGen g.Imports x y :=
    Cycle.chain_iff_pairwise.mp hchain
  have hkeys : ∀ x ∈ files, x ∈ g.nodes.keys := by
    intro x hx
    obtain ⟨_, hstep, -⟩ := TransGen.head'_iff.mp (hwalk x hx x hx)
    exact hstep.mem_keys
  exact ⟨reaches_of_imports (hwalk a ha b hb) (hkeys b hb),
    reaches_of_imports (hwalk b hb a ha) (hkeys a ha)⟩

theorem IsCycle.exists_ne {files : List String} (h : g.IsCycle files)
    (hself : ∀ path, ¬ g.Imports path path) {a : String} (ha : a ∈ files) :
    ∃ b ∈ files, b ≠ a := by
  by_contra hc
  push Not at hc
  -- If there is no other file the cycle is the file alone, and so imports itself.
  have honly : files = [a] := by
    obtain ⟨first, rest, rfl⟩ := exists_cons_of_ne_nil h.nonempty
    obtain rfl := hc first mem_cons_self
    have hrest : rest = [] := eq_nil_iff_forall_not_mem.mpr fun x hx =>
      (nodup_cons.mp h.nodup).1 (hc x (mem_cons_of_mem _ hx) ▸ hx)
    rw [hrest]
  have hchain := h.chain
  rw [honly] at hchain
  exact hself a (List.IsChain.rel ((Cycle.chain_coe_cons _ _ _).mp hchain))

/-- A file that reaches another one and is reached from it lies on a cycle, which has no more files
    than the graph. -/
theorem exists_cycle_of_together {a b : String} (hne : b ≠ a)
    (h : Together g.nodes.keys g.dependenciesOf a b) :
    ∃ files, g.IsCycle files ∧ a ∈ files ∧ files.length ≤ g.nodes.keys.length := by
  obtain heq | ⟨next, hfst, hrest⟩ := ReflTransGen.cases_head h.1
  · exact absurd heq.symm hne
  obtain ⟨path, hhead, hlast, hchain, hnd⟩ := exists_path_of_reaches (hrest.trans h.2)
  -- The path leads from the second file of the walk to the first, and one more step closes it.
  obtain ⟨rest, rfl⟩ := head?_eq_some_iff.mp hhead
  have hclosed : ((next :: rest) ++ [next]).IsChain (Linked g.nodes.keys g.dependenciesOf) := by
    refine List.isChain_append.mpr ⟨hchain, isChain_singleton _, fun x hx y hy => ?_⟩
    obtain rfl := Option.some.inj (hlast.symm.trans hx)
    obtain rfl := Option.some.inj hy
    exact hfst
  have hlist : ∀ x ∈ next :: rest, x ∈ g.nodes.keys :=
    hchain.induction _ _ (fun _ _ hstep _ => hstep.2.1) fun _ => hfst.2.1
  refine ⟨next :: rest, ⟨cons_ne_nil _ _, hnd, ?_⟩, mem_of_getLast? hlast,
    (subperm_of_subset hnd hlist).length_le⟩
  exact (Cycle.chain_coe_cons _ _ _).mpr (hclosed.imp fun _ _ hstep => hstep.2.2)

section Built

variable {outlines : Dict String Outline} {maxCycleFiles : Nat}

theorem mem_cycles_build {cycle : List String} (h : cycle ∈ (build outlines maxCycleFiles).cycles) :
    (build outlines maxCycleFiles).IsCycle cycle := by
  rw [cycles_build] at h
  exact ((mem_flatMap_cyclesThrough_iff (Nat.le_max_right _ 1)).mp
    (mem_of_mem_distinctMembers h)).1

/-- A cycle that does not have too many files leaves a cycle through the same files in the
    listing. -/
theorem exists_mem_cycles_build {files : List String}
    (h : (build outlines maxCycleFiles).IsCycle files) (hlen : files.length ≤ maxCycleFiles) :
    ∃ cycle ∈ (build outlines maxCycleFiles).cycles, ∀ file, file ∈ files ↔ file ∈ cycle := by
  obtain ⟨turned, hrot, hturned, hmin⟩ := h.exists_turned
  have hshort : turned.length ≤ max maxCycleFiles 1 :=
    hrot.perm.length_eq ▸ Nat.le_trans hlen (Nat.le_max_left _ _)
  obtain ⟨cycle, hmem, hsame⟩ := exists_mem_distinctMembers
    ((mem_flatMap_cyclesThrough_iff (Nat.le_max_right _ 1)).mpr ⟨hturned, hmin, hshort⟩)
  rw [cycles_build]
  exact ⟨cycle, hmem, fun file => hrot.mem_iff.trans (hsame file)⟩

theorem exists_component_of_mem_cycle {cycle : List String}
    (hcycle : (build outlines maxCycleFiles).IsCycle cycle) {file : String} (hfile : file ∈ cycle) :
    ∃ component ∈ (build outlines maxCycleFiles).components, file ∈ component := by
  have hself := fun path => ((depicts_build outlines maxCycleFiles).irreflexive path).1
  obtain ⟨other, hother, hne⟩ := hcycle.exists_ne hself hfile
  exact exists_component_iff.mpr ⟨other, hne, hcycle.together hfile hother⟩

/-- A file in a component is on a listed cycle, if no cycle has too many files to be listed. -/
theorem exists_cycle_of_mem_component (hsize : outlines.size ≤ maxCycleFiles)
    {component : List String} (h : component ∈ (build outlines maxCycleFiles).components)
    {file : String} (hfile : file ∈ component) :
    ∃ cycle ∈ (build outlines maxCycleFiles).cycles, file ∈ cycle := by
  obtain ⟨other, hne, htogether⟩ := exists_component_iff.mp ⟨component, h, hfile⟩
  obtain ⟨files, hcycle, hmem, hlen⟩ := exists_cycle_of_together hne htogether
  have hshort : files.length ≤ maxCycleFiles := by
    rw [keys_build, Dict.keys, length_map] at hlen
    exact Nat.le_trans hlen hsize
  obtain ⟨cycle, hlist, hsame⟩ := exists_mem_cycles_build hcycle hshort
  exact ⟨cycle, hlist, (hsame file).mp hmem⟩

/-- A file is told to be circular iff it is in a component. -/
theorem circular_fileImpact_iff (maxCycleFiles : Nat) (weights : Weights) (maxDepth : Nat)
    {path : String} (h : path ∈ outlines.keys) :
    ∃ told, (build outlines maxCycleFiles).fileImpact? weights maxDepth path = some told ∧
      (told.circular = true ↔
        ∃ component ∈ (build outlines maxCycleFiles).components, path ∈ component) := by
  obtain ⟨node, hnode⟩ : ∃ node, (build outlines maxCycleFiles).nodes.get? path = some node := by
    rw [← keys_build outlines maxCycleFiles, Dict.mem_keys_iff] at h
    exact Option.isSome_iff_exists.mp h
  refine ⟨_, by rw [fileImpact?, hnode, Option.map_some], ?_⟩
  simp only [Bool.or_eq_true, isInCycle, any_eq_true, contains_iff_mem]
  refine ⟨fun hc => hc.elim ?_ id, Or.inr⟩
  rintro ⟨cycle, hcycle, hpath⟩
  exact exists_component_of_mem_cycle (mem_cycles_build hcycle) hpath

end Built

/-- In the graph of a set of outlines every file of a listed cycle is in a component. If cycles may
    have as many files as there are, every file of a component is on a listed cycle. And whatever
    the bound, a file is told to be circular iff it is in a component, which is to say that it
    reaches another file and is reached from it. -/
theorem circular_agrees_with_components (outlines : Dict String Outline) (maxCycleFiles : Nat) :
    let g := build outlines maxCycleFiles
    (∀ cycle ∈ g.cycles, ∀ file ∈ cycle, ∃ component ∈ g.components, file ∈ component) ∧
      (outlines.size ≤ maxCycleFiles → ∀ component ∈ g.components, ∀ file ∈ component,
        ∃ cycle ∈ g.cycles, file ∈ cycle) ∧
      ∀ (weights : Weights) (maxDepth : Nat), ∀ path ∈ outlines.keys,
        ∃ told, g.fileImpact? weights maxDepth path = some told ∧
          (told.circular = true ↔ ∃ component ∈ g.components, path ∈ component) ∧
          (told.circular = true ↔
            ∃ other, other ≠ path ∧ Together g.nodes.keys g.dependenciesOf path other) := by
  refine ⟨fun cycle hcycle file => exists_component_of_mem_cycle (mem_cycles_build hcycle),
    fun hsize component hcomponent file => exists_cycle_of_mem_component hsize hcomponent,
    fun weights maxDepth path hpath => ?_⟩
  obtain ⟨told, htold, hiff⟩ := circular_fileImpact_iff maxCycleFiles weights maxDepth hpath
  exact ⟨told, htold, hiff, hiff.trans exists_component_iff⟩

end ImportGraph

end Ripple
