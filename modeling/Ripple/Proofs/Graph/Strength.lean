import Mathlib.Data.Set.Card
import Ripple.Graph.Strength
import Ripple.Proofs.Graph.Build
import Ripple.Proofs.Graph.Paths

/-!
# What Couples Two Files

One part of the coupling of two files is the number of short import paths
between them. The search for paths ends at its first target and counts up to a
cap; it is to be shown that it counts just the paths that repeat no file. A
path that ends at the target and repeats nothing cannot pass through the target
before, so ending there loses none.

The coupling is the same seen from either file. All its parts are: the paths
in both directions are added up, and the shared imports are those of both.

## Theorems

* `ImportGraph.shortPathCount_eq_min`: Short paths are counted exactly, up to the cap.
* `ImportGraph.strength_counts_paths_both_ways`: Short paths in the coupling of two files.
-/

namespace Ripple

open List

/-- The paths from one node to another that repeat no node and have a bounded number of edges. -/
def simplePaths (follows : String → String → Prop) (maxEdges : Nat) (a b : String) :
    Set (List String) :=
  {path | path.head? = some a ∧ path.getLast? = some b ∧ path.IsChain follows ∧ path.Nodup ∧
    path.length ≤ maxEdges + 1}

/-- A path to a single target does not pass through it before, since it repeats no node. -/
theorem isRoute_singleton_iff {follows : String → String → Prop} {maxEdges : Nat} {a b : String}
    (hne : a ≠ b) {path : List String} :
    IsRoute follows [b] maxEdges a path ↔ path ∈ simplePaths follows maxEdges a b := by
  have hend (between : List String) (target : String) :
      (a :: (between ++ [target])).getLast? = some target := by
    rw [← cons_append, getLast?_concat]
  constructor
  · rintro ⟨between, target, rfl, hchain, hnd, hlen, htgt, -⟩
    obtain rfl := mem_singleton.mp htgt
    exact ⟨rfl, hend between target, hchain, hnd, by simpa using hlen⟩
  · rintro ⟨hhead, hlast, hchain, hnd, hlen⟩
    obtain ⟨rest, rfl⟩ := head?_eq_some_iff.mp hhead
    -- The path ends at another node than it begins with, so it has a step.
    rcases eq_nil_or_concat' rest with rfl | ⟨between, target, rfl⟩
    · exact absurd (Option.some.inj hlast) hne
    obtain rfl := Option.some.inj ((hend between target).symm.trans hlast)
    refine ⟨between, target, rfl, hchain, hnd, by simpa using hlen, mem_cons_self, ?_⟩
    have hfresh := (List.nodup_append.mp (nodup_cons.mp hnd).2).2.2
    exact fun node hnode htgt => hfresh node hnode node htgt rfl

namespace ImportGraph

variable (g : ImportGraph)

/-- The number of import paths from one file to another that repeat no file and have at most five
    imports. -/
noncomputable def simplePathCount (a b : String) : Nat :=
  (simplePaths (fun x y => y ∈ g.dependenciesOf x) 5 a b).ncard

variable {g} in
theorem shortPathCount_eq_min (hnd : ∀ node ∈ g.nodes.values, node.dependencies.Nodup)
    {a b : String} (hne : a ≠ b) : g.shortPathCount a b = min 5 (g.simplePathCount a b) := by
  obtain ⟨paths, hlists, htake⟩ := exists_listsRoutes (nodup_dependenciesOf hnd) [b] 5 a
  have htgt : (fun x => decide (x = b)) = [b].contains := by
    funext x
    simp
  have hset : simplePaths (fun x y => y ∈ g.dependenciesOf x) 5 a b = paths.toFinset := by
    ext path
    rw [← isRoute_singleton_iff hne, ← hlists.mem_iff, Finset.mem_coe, mem_toFinset]
  rw [shortPathCount, htgt, shortPathEdges, htake, length_take, simplePathCount, hset,
    Set.ncard_coe_finset, toFinset_card_of_nodup hlists.nodup, shortPathCap]

/-- Shared are the imports of both files, whichever comes first, and so are those of either. -/
theorem sharedImports_comm (a b : String) : g.sharedImports a b = g.sharedImports b a := by
  have hnd (path : String) := (firstOccurrences_eraseDups (g.dependenciesOf path)).nodup
  have hboth : ((g.dependenciesOf a).eraseDups.filter (g.dependenciesOf b).eraseDups.contains).Perm
      ((g.dependenciesOf b).eraseDups.filter (g.dependenciesOf a).eraseDups.contains) := by
    refine (perm_ext_iff_of_nodup ((hnd a).filter _) ((hnd b).filter _)).mpr ?_
    simp [and_comm]
  have heither : ∀ x y, ((g.dependenciesOf x).eraseDups ++ (g.dependenciesOf y).eraseDups.filter
      fun path => !(g.dependenciesOf x).eraseDups.contains path).Nodup := by
    intro x y
    refine List.nodup_append.mpr ⟨hnd x, (hnd y).filter _, fun path hx other hy => ?_⟩
    rintro rfl
    simp_all
  have hsame := (perm_ext_iff_of_nodup (heither a b) (heither b a)).mpr
    fun path => by simp; tauto
  simp only [sharedImports, hboth.length_eq, hsame.length_eq, hsame.isEmpty_eq]

/-- The short import paths from one file to another are counted exactly, up to five; so the share of
    the cap that the paths in both directions make up is exact, and the coupling of two files does
    not depend on which comes first. -/
theorem strength_counts_paths_both_ways
    (hnodup : ∀ node ∈ g.nodes.values, node.dependencies.Nodup) {a b : String} (hne : a ≠ b) :
    g.shortPathCount a b = min 5 (g.simplePathCount a b) ∧
      g.pathShare a b =
        (min 5 (g.simplePathCount a b + g.simplePathCount b a)).toFloat / (5 : Nat).toFloat ∧
      g.strength a b = g.strength b a := by
  have hforth := shortPathCount_eq_min hnodup hne
  have hback := shortPathCount_eq_min hnodup hne.symm
  refine ⟨hforth, ?_, ?_⟩
  · have hmin : min (g.shortPathCount a b + g.shortPathCount b a) shortPathCap =
        min 5 (g.simplePathCount a b + g.simplePathCount b a) := by
      rw [hforth, hback, shortPathCap]
      omega
    rw [pathShare, hmin, shortPathCap]
  · have hshare : g.pathShare a b = g.pathShare b a := by
      rw [pathShare, pathShare, Nat.add_comm]
    simp only [strength, hshare, g.sharedImports_comm a b, Bool.or_comm (g.hasEdge a b),
      Bool.and_comm (g.hasEdge a b)]
    grind

theorem strength_counts_paths_both_ways_shortcuts :
    (∀ node ∈ shortcuts.nodes.values, node.dependencies.Nodup) ∧ "a" ≠ "c" ∧
      shortcuts.shortPathCount "a" "c" = 2 ∧
      shortcuts.shortPathCount "a" "c" = min 5 (shortcuts.simplePathCount "a" "c") ∧
      shortcuts.pathShare "a" "c" = (min 5 (shortcuts.simplePathCount "a" "c" +
        shortcuts.simplePathCount "c" "a")).toFloat / (5 : Nat).toFloat ∧
      shortcuts.strength "a" "c" = shortcuts.strength "c" "a" := by
  have hnodup : ∀ node ∈ shortcuts.nodes.values, node.dependencies.Nodup := by decide
  have hne : "a" ≠ "c" := by decide
  exact ⟨hnodup, hne, by decide, strength_counts_paths_both_ways shortcuts hnodup hne⟩

end ImportGraph

end Ripple
