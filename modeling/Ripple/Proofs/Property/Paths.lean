import Ripple.Proofs.Graph.Paths
import Ripple.Property.Query

/-!
# Paths in Property Graphs

A path through a property graph goes along links of any relation except the
order within a file. Links of different relations between the same two nodes
count as one, since the successors of a node are a sorted set; and as they
are ascending, the paths from a node come in ascending order.

A question may mean several nodes, and then the paths from each of them are
listed one after another. No path comes twice, since a node is kept under its
own id, so that no id is meant twice.

## Theorems

* `PropertyGraph.nodup_resolve`: A question means no id twice.
* `PropertyGraph.paths_list_routes`: The paths between what two questions mean.
-/

namespace Ripple

open List

/-- Paths that part at ascending successors are in ascending order. -/
theorem lt_of_partsBefore {successors : String → List String}
    (h : ∀ node, Increasing (successors node)) {first second : List String}
    (hparts : PartsBefore successors first second) : first < second := by
  obtain ⟨front, node, a, b, rest, rest', rfl, rfl, hsub⟩ := hparts
  have hlt : a < b := compare_lt_iff_lt.mp (List.pairwise_iff_forall_sublist.mp (h node) hsub)
  exact List.Lex.append_left _ (.cons (.rel hlt)) front

namespace PropertyGraph

variable (g : PropertyGraph)

/-- A link joins a node to another by a relation other than order. -/
def Joins (node next : String) : Prop :=
  ∃ l ∈ g.links, l.source = node ∧ l.target = next ∧ l.relation ≠ .precedes

theorem mem_successors_iff {node next : String} : next ∈ g.successors node ↔ g.Joins node next := by
  simp only [successors, mem_sortedSet, mem_map, mem_filter, Joins, Bool.and_eq_true,
    decide_eq_true_eq]
  grind

/-- The table that a search uses has the successors of every node. -/
theorem getD_tabulate_successors (node : String) :
    (Dict.ofList ((g.links.map (·.source)).map fun id => (id, g.successors id))).getD node [] =
      g.successors node := by
  rw [Dict.getD, Dict.get_ofList_tabulate]
  split
  · rfl
  next hnone =>
    -- A node without links has no successors.
    refine (eq_nil_iff_forall_not_mem.mpr fun next hnext => hnone ?_).symm
    obtain ⟨l, hl, hsrc, -⟩ := g.mem_successors_iff.mp hnext
    exact mem_map.mpr ⟨l, hl, hsrc⟩

variable {g}

theorem nodup_resolve (hids : ∀ id node, g.nodes.get? id = some node → node.id = id)
    (query : String) : (g.resolve query).Nodup := by
  have hkeys : g.nodes.values.map (·.id) = g.nodes.keys := by
    rw [Dict.values, map_map]
    refine map_congr_left fun entry hentry => ?_
    exact hids entry.1 entry.2 (Dict.mem_toList_iff.mp hentry)
  unfold resolve
  split
  · exact nodup_singleton _
  · split
    · exact nodup_singleton _
    · refine List.Nodup.sublist (filter_sublist.map _) ?_
      rw [hkeys]
      exact (Dict.increasing_keys _).nodup

/-- The paths between what two questions mean are listed start by start, in ascending order for
    each, up to a number of paths, and none of them twice. -/
theorem paths_list_routes (g : PropertyGraph)
    (hids : ∀ id node, g.nodes.get? id = some node → node.id = id) (source target : String)
    (maxDepth : Nat) : ∃ routes : String → List (List String),
      (∀ id, (∀ path, path ∈ routes id ↔ IsRoute g.Joins (g.resolve target) maxDepth id path) ∧
        (routes id).Pairwise (· < ·)) ∧
      g.paths source target maxDepth = ((g.resolve source).flatMap routes).take 1000 ∧
      (g.paths source target maxDepth).Nodup := by
  have hincreasing : ∀ node, Increasing (g.successors node) := fun _ => increasing_sortedSet _
  have hjoins : (fun a b => b ∈ g.successors a) = g.Joins := by
    funext a b
    exact propext g.mem_successors_iff
  choose routes hlists htake using fun id =>
    exists_listsRoutes (fun node => (hincreasing node).nodup) (g.resolve target) maxDepth id
  have hpaths : g.paths source target maxDepth = ((g.resolve source).flatMap routes).take 1000 := by
    refine flatMapUpTo_eq_take (fun id limit => ?_) _ _
    simp only [getD_tabulate_successors]
    exact htake id limit
  refine ⟨routes, fun id => ⟨hjoins ▸ (hlists id).mem_iff,
    (hlists id).depthFirst.imp (lt_of_partsBefore hincreasing)⟩, hpaths, ?_⟩
  rw [hpaths]
  refine List.Nodup.sublist (take_sublist _ _) ?_
  refine List.nodup_flatMap.mpr ⟨fun id _ => (hlists id).nodup, ?_⟩
  -- Paths from different ids differ in their first node.
  refine (nodup_resolve hids source).imp fun {a b} hne path ha hb => ?_
  obtain ⟨_, _, rfl, -⟩ := ((hlists a).mem_iff _).mp ha
  obtain ⟨_, _, heq, -⟩ := ((hlists b).mem_iff _).mp hb
  exact hne (List.cons.inj heq).1

/-- Two declarations of one name, with links of two relations from the first to a third. -/
def parallel : PropertyGraph where
  nodes := .ofList ([("a#run", "run"), ("b#run", "run"), ("b#stop", "stop")].map fun (id, name) =>
    (id, ⟨id, .function, name, "a", 0, true⟩))
  links := [⟨"a#run", "b#stop", .mentions⟩, ⟨"a#run", "b#stop", .calls⟩, ⟨"a#run", "b#run", .calls⟩,
    ⟨"b#run", "a#run", .calls⟩, ⟨"b#run", "b#stop", .calls⟩, ⟨"b#stop", "a#run", .precedes⟩]
  fileIndex := .empty

theorem paths_list_routes_parallel :
    (∀ id node, parallel.nodes.get? id = some node → node.id = id) ∧
      parallel.paths "run" "stop" 2 =
        [["a#run", "b#run", "b#stop"], ["a#run", "b#stop"], ["b#run", "a#run", "b#stop"],
          ["b#run", "b#stop"]] ∧
      ∃ routes : String → List (List String),
        (∀ id, (∀ path, path ∈ routes id ↔
            IsRoute parallel.Joins (parallel.resolve "stop") 2 id path) ∧
          (routes id).Pairwise (· < ·)) ∧
        parallel.paths "run" "stop" 2 = ((parallel.resolve "run").flatMap routes).take 1000 ∧
        (parallel.paths "run" "stop" 2).Nodup := by
  have hentries : ∀ entry ∈ parallel.nodes.toList, entry.2.id = entry.1 := by decide
  have hids : ∀ id node, parallel.nodes.get? id = some node → node.id = id :=
    fun id node h => hentries _ (Dict.mem_of_lookup h)
  exact ⟨hids, by decide, paths_list_routes parallel hids "run" "stop" 2⟩

end PropertyGraph

end Ripple
