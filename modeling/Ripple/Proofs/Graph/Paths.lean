import Mathlib.Data.String.Basic
import Ripple.Graph.Impact
import Ripple.Proofs.Dict

/-!
# The Paths to a Set of Targets

The search for paths stops at a limit, and each part of it is told how many
paths are left to find. `pathsUpTo_eq_take` takes the limit out: what is found
is the front of `ways`, which lists the same paths without one, and everything
else is about `ways`.

A way is what follows the last node of a path. It goes on along successors to
nodes that are not on the path, and ends at the first target. Since two ways
part at some node, where one takes a successor that is listed before that of
the other, the ways come in an order that says which of two is first.

## Theorems

* `mem_ways_iff`: Which ways there are.
* `ImportGraph.pathsBetween_lists_routes`: The import paths from sources to targets.
-/

namespace Ripple

open List

/-- A path from a node to a target: it repeats no node, has a bounded number of edges, at least
    one, and passes through no target on its way. -/
def IsRoute (follows : String → String → Prop) (targets : List String) (maxEdges : Nat)
    (source : String) (path : List String) : Prop :=
  ∃ between target, path = source :: (between ++ [target]) ∧ path.IsChain follows ∧ path.Nodup ∧
    between.length + 1 ≤ maxEdges ∧ target ∈ targets ∧ ∀ node ∈ between, node ∉ targets

/-- Two paths part after a node, and the first goes on with an earlier one of its successors. -/
def PartsBefore (successors : String → List String) (first second : List String) : Prop :=
  ∃ front node a b rest rest', first = front ++ node :: a :: rest ∧
    second = front ++ node :: b :: rest' ∧ [a, b].Sublist (successors node)

/-- A list has all paths from a node to targets, each once, depth first in the order of the
    successors. -/
structure ListsRoutes (successors : String → List String) (targets : List String) (maxEdges : Nat)
    (source : String) (paths : List (List String)) : Prop where
  mem_iff : ∀ path, path ∈ paths ↔
    IsRoute (fun a b => b ∈ successors a) targets maxEdges source path
  depthFirst : paths.Pairwise (PartsBefore successors)
  nodup : paths.Nodup

/-- The ways from the last node of a path to a target, with a bounded number of edges. -/
def ways (successors : String → List String) (targets : List String) :
    Nat → String → List String → List (List String)
  | 0, _, _ => []
  | edges + 1, last, before =>
    ((successors last).filter fun next => !(last :: before).contains next).flatMap fun next =>
      (if targets.contains next then [[]]
        else ways successors targets edges next (last :: before)).map (next :: ·)

/-- What is computed up to a limit is what comes first of everything. -/
theorem flatMapUpTo_eq_take {α β : Type} {f : α → Nat → List β} {all : α → List β}
    (h : ∀ a limit, f a limit = (all a).take limit) (items : List α) (limit : Nat) :
    flatMapUpTo limit f items = (items.flatMap all).take limit := by
  induction items generalizing limit with
  | nil => rw [flatMapUpTo, flatMap_nil, take_nil]
  | cons a rest ih =>
    have hleft : limit - ((all a).take limit).length = limit - (all a).length := by
      rw [length_take]
      omega
    simp only [flatMapUpTo, h, ih, hleft, flatMap_cons, take_append]
    split
    next hzero => simp [hzero]
    · rfl

section Search

variable {successors : String → List String} {targets : List String}

/-- A limited search finds what comes first of all ways, unless the path ends at a target. -/
theorem pathsUpTo_eq_take (edges : Nat) (last : String) (before : List String) (limit : Nat) :
    pathsUpTo successors targets.contains edges (last :: before) limit =
      (if !before.isEmpty && targets.contains last then [(last :: before).reverse]
        else (ways successors targets edges last before).map
          ((last :: before).reverse ++ ·)).take limit := by
  -- At a limit of zero nothing is looked for; any other limit has room for a path that is complete.
  induction edges generalizing last before limit with
  | zero =>
    simp only [pathsUpTo, ways, map_nil]
    by_cases hlimit : limit = 0
    · rw [if_pos hlimit, hlimit, take_zero]
    · rw [if_neg hlimit]
      split
      · exact (take_of_length_le (Nat.pos_of_ne_zero hlimit)).symm
      · rw [take_nil]
  | succ edges ih =>
    simp only [pathsUpTo]
    by_cases hlimit : limit = 0
    · rw [if_pos hlimit, hlimit, take_zero]
    · rw [if_neg hlimit]
      split
      · exact (take_of_length_le (Nat.pos_of_ne_zero hlimit)).symm
      · rw [ways, map_flatMap]
        refine flatMapUpTo_eq_take (fun next limit => ?_) _ limit
        split <;> simp_all [Function.comp_def]

/-- A way from the last node of a path to a target. -/
structure IsWay (successors : String → List String) (targets : List String) (edges : Nat)
    (last : String) (before way : List String) : Prop where
  chain : (last :: way).IsChain fun a b => b ∈ successors a
  /-- The path and the way together repeat no node. -/
  nodup : (way.reverse ++ last :: before).Nodup
  length_le : way.length ≤ edges
  /-- The way ends at the first target. -/
  ends : ∃ between target, way = between ++ [target] ∧ target ∈ targets ∧
    ∀ node ∈ between, node ∉ targets

variable {edges : Nat} {last next : String} {before way : List String}

/-- A way begins with a successor, and ends there or goes on from there. -/
theorem isWay_cons_iff (hpath : (last :: before).Nodup) :
    IsWay successors targets (edges + 1) last before (next :: way) ↔
      next ∈ successors last ∧ next ∉ last :: before ∧
        (next ∈ targets ∧ way = [] ∨
          next ∉ targets ∧ IsWay successors targets edges next (last :: before) way) := by
  have hsplit : (next :: way).reverse ++ last :: before =
      way.reverse ++ next :: last :: before := by simp
  constructor
  · rintro ⟨hchain, hnd, hlen, between, target, hway, htgt, hbetween⟩
    obtain ⟨hnext, hchain⟩ := List.isChain_cons_cons.mp hchain
    rw [hsplit] at hnd
    refine ⟨hnext, (nodup_cons.mp (List.nodup_append.mp hnd).2.1).1, ?_⟩
    cases between with
    | nil =>
      obtain ⟨rfl, rfl⟩ := List.cons.inj hway
      exact .inl ⟨htgt, rfl⟩
    | cons node between =>
      obtain ⟨rfl, rfl⟩ := List.cons.inj hway
      obtain ⟨hnode, hbetween⟩ := forall_mem_cons.mp hbetween
      exact .inr ⟨hnode, hchain, hnd, Nat.le_of_succ_le_succ hlen, between, target, rfl,
        htgt, hbetween⟩
  · rintro ⟨hnext, hfresh, ⟨htgt, rfl⟩ | ⟨hnot, hway⟩⟩
    · exact ⟨by simpa using hnext, nodup_cons.mpr ⟨hfresh, hpath⟩, by simp, [], next, rfl,
        htgt, by simp⟩
    · obtain ⟨hchain, hnd, hlen, between, target, rfl, htgt, hbetween⟩ := hway
      exact ⟨List.isChain_cons_cons.mpr ⟨hnext, hchain⟩, hsplit ▸ hnd,
        Nat.succ_le_succ hlen, next :: between, target, rfl, htgt,
        forall_mem_cons.mpr ⟨hnot, hbetween⟩⟩

theorem mem_ways_iff (hpath : (last :: before).Nodup) :
    way ∈ ways successors targets edges last before ↔
      IsWay successors targets edges last before way := by
  -- The induction is on the number of edges, and a way uses up one for each of its nodes.
  induction edges generalizing last before way with
  | zero =>
    refine iff_of_false not_mem_nil fun h => ?_
    obtain ⟨between, target, rfl, -, -⟩ := h.ends
    simpa using h.length_le
  | succ edges ih =>
    cases way with
    | nil =>
      refine iff_of_false ?_ fun h => ?_
      · simp [ways]
      · obtain ⟨between, target, hway, -, -⟩ := h.ends
        simp at hway
    | cons next way =>
      rw [isWay_cons_iff hpath]
      simp only [ways, mem_flatMap, mem_filter, mem_map, List.cons.injEq]
      constructor
      · rintro ⟨first, ⟨hnext, hfresh⟩, way', hway, rfl, rfl⟩
        have hfresh : first ∉ last :: before := by simpa using hfresh
        have hlonger := nodup_cons.mpr ⟨hfresh, hpath⟩
        refine ⟨hnext, hfresh, ?_⟩
        split at hway
        next htgt => exact .inl ⟨by simpa using htgt, by simpa using hway⟩
        next hnot => exact .inr ⟨by simpa using hnot, (ih hlonger).mp hway⟩
      · rintro ⟨hnext, hfresh, hway⟩
        have hlonger := nodup_cons.mpr ⟨hfresh, hpath⟩
        refine ⟨next, ⟨hnext, by simpa using hfresh⟩, way, ?_, rfl, rfl⟩
        rcases hway with ⟨htgt, rfl⟩ | ⟨hnot, hway⟩
        · rw [if_pos (by simpa using htgt)]
          exact mem_cons_self
        · rw [if_neg (by simpa using hnot)]
          exact (ih hlonger).mpr hway

theorem PartsBefore.cons {first second : List String} (h : PartsBefore successors first second)
    (node : String) : PartsBefore successors (node :: first) (node :: second) := by
  obtain ⟨front, parting, a, b, rest, rest', rfl, rfl, hsub⟩ := h
  exact ⟨node :: front, parting, a, b, rest, rest', rfl, rfl, hsub⟩

theorem PartsBefore.ne (hnd : ∀ node, (successors node).Nodup) {first second : List String}
    (h : PartsBefore successors first second) : first ≠ second := by
  obtain ⟨front, node, a, b, rest, rest', rfl, rfl, hsub⟩ := h
  have hne : a ≠ b := by simpa using (hnd node).sublist hsub
  simp [hne]

theorem pairwise_ways (edges : Nat) (last : String) (before : List String) :
    (ways successors targets edges last before).Pairwise fun first second =>
      PartsBefore successors (last :: first) (last :: second) := by
  induction edges generalizing last before with
  | zero => exact .nil
  | succ edges ih =>
    rw [ways, pairwise_flatMap]
    -- Ways that begin with the same successor part later, and others part here.
    refine ⟨fun next _ => ?_, List.pairwise_iff_forall_sublist.mpr fun {a b} hsub => ?_⟩
    · rw [pairwise_map]
      split
      · exact pairwise_singleton _ _
      · exact (ih next (last :: before)).imp fun h => h.cons last
    · rintro _ hfst _ hsnd
      obtain ⟨rest, -, rfl⟩ := mem_map.mp hfst
      obtain ⟨rest', -, rfl⟩ := mem_map.mp hsnd
      exact ⟨[], last, a, b, rest, rest', rfl, rfl, hsub.trans filter_sublist⟩

theorem isRoute_cons_iff {maxEdges : Nat} {source : String} :
    IsRoute (fun a b => b ∈ successors a) targets maxEdges source (source :: way) ↔
      IsWay successors targets maxEdges source [] way := by
  have hrev : (way.reverse ++ [source]).Nodup ↔ (source :: way).Nodup := by
    rw [← reverse_cons, nodup_reverse]
  constructor
  · rintro ⟨between, target, hpath, hchain, hnd, hlen, hends⟩
    obtain rfl := (List.cons.inj hpath).2
    exact ⟨hchain, hrev.mpr hnd, by simpa using hlen, between, target, rfl, hends⟩
  · rintro ⟨hchain, hnd, hlen, between, target, rfl, hends⟩
    exact ⟨between, target, rfl, hchain, hrev.mp hnd, by simpa using hlen, hends⟩

/-- A search from a node lists the routes from it, up to its limit. -/
theorem exists_listsRoutes (hnd : ∀ node, (successors node).Nodup) (targets : List String)
    (maxEdges : Nat) (source : String) : ∃ paths,
      ListsRoutes successors targets maxEdges source paths ∧ ∀ limit,
        pathsUpTo successors targets.contains maxEdges [source] limit = paths.take limit := by
  have hord : ((ways successors targets maxEdges source []).map (source :: ·)).Pairwise
      (PartsBefore successors) := pairwise_map.mpr (pairwise_ways maxEdges source [])
  refine ⟨_, ⟨fun path => ?_, hord, hord.imp fun h => h.ne hnd⟩, fun limit => ?_⟩
  · rw [mem_map]
    constructor
    · rintro ⟨way, hway, rfl⟩
      exact isRoute_cons_iff.mpr ((mem_ways_iff (nodup_singleton _)).mp hway)
    · intro h
      obtain ⟨between, target, rfl, -⟩ := id h
      exact ⟨_, (mem_ways_iff (nodup_singleton _)).mpr (isRoute_cons_iff.mp h), rfl⟩
  · rw [pathsUpTo_eq_take]
    rfl

end Search

namespace ImportGraph

theorem nodup_dependenciesOf {g : ImportGraph}
    (h : ∀ node ∈ g.nodes.values, node.dependencies.Nodup) (path : String) :
    (g.dependenciesOf path).Nodup := by
  unfold dependenciesOf
  split
  next node hnode => exact h node (Dict.mem_values_of_get hnode)
  · exact nodup_nil

/-- The import paths from sources to targets are listed source by source, depth first and each
    once, up to a number of paths. -/
theorem pathsBetween_lists_routes (g : ImportGraph)
    (hnodup : ∀ node ∈ g.nodes.values, node.dependencies.Nodup) (maxDepth : Nat)
    (sources targets : List String) : ∃ routes : String → List (List String),
      (∀ source, ListsRoutes g.dependenciesOf targets maxDepth source (routes source)) ∧
        g.pathsBetween maxDepth sources targets = (sources.flatMap routes).take 1000 := by
  choose routes hlists htake using
    fun source => exists_listsRoutes (nodup_dependenciesOf hnodup) targets maxDepth source
  exact ⟨routes, hlists, flatMapUpTo_eq_take htake sources _⟩

/-- Files in a ring with two shortcuts. -/
def shortcuts : ImportGraph :=
  .ofEdges [] [("a", "c"), ("a", "b"), ("b", "a"), ("b", "c"), ("c", "d"), ("d", "a")]

theorem pathsBetween_lists_routes_shortcuts :
    (∀ node ∈ shortcuts.nodes.values, node.dependencies.Nodup) ∧
      shortcuts.pathsBetween 2 ["a", "c"] ["a", "c"] =
        [["a", "c"], ["a", "b", "c"], ["c", "d", "a"]] ∧
      ∃ routes : String → List (List String),
        (∀ source, ListsRoutes shortcuts.dependenciesOf ["a", "c"] 2 source (routes source)) ∧
          shortcuts.pathsBetween 2 ["a", "c"] ["a", "c"] =
            (["a", "c"].flatMap routes).take 1000 := by
  have hnodup : ∀ node ∈ shortcuts.nodes.values, node.dependencies.Nodup := by decide
  exact ⟨hnodup, by decide, pathsBetween_lists_routes shortcuts hnodup 2 _ _⟩

end ImportGraph

end Ripple
