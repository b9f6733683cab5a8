import Ripple.Graph.Build
import Ripple.Proofs.Graph.Cycles
import Ripple.Proofs.Graph.Resolve

/-!
# The Graph of a Set of Outlines

A graph that is built from outlines says what the outlines import, in both
directions, and nothing else. Each import of a file is one of three things: an
edge to another file, an import of the file itself, which is dropped, or a name
from outside of the project.

Only the dependencies of a file are read off its outline. Its dependents are
read off the dependencies of all other files, so that the two directions agree
is a matter of how the lists are made: an import resolves to known files only,
and so every file that is depended on has a node to note it.

The order of imports and their number do not matter for the nodes, since
dependencies are kept in their own order and without repeats. They do matter
for the names from outside, which come in the order in which they are first
mentioned.

## Theorems

* `ImportGraph.get_nodes_build`: The nodes of the graph, by path.
* `ImportGraph.build_depicts_up_to_order`: The graph says what outlines import.
-/

namespace Ripple

open List

section Names

/-- The members of a list, each once, in the order of their first mention. -/
structure FirstOccurrences (names sources : List String) : Prop where
  nodup : names.Nodup
  mem_iff : ∀ name, name ∈ names ↔ name ∈ sources
  /-- A name comes before another one iff it is mentioned first. -/
  order : names.Pairwise fun a b => sources.idxOf a < sources.idxOf b

/-- Erasing repeats keeps first occurrences. -/
theorem firstOccurrences_eraseDups (sources : List String) :
    FirstOccurrences sources.eraseDups sources := by
  have horder : sources.eraseDups.Pairwise fun a b => sources.idxOf a < sources.idxOf b := by
    -- From the back, since a later mention does not move the earlier ones.
    induction sources using List.reverseRecOn with
    | nil => simp
    | append_singleton front last ih =>
      have hkept : front.eraseDups.Pairwise fun a b =>
          (front ++ [last]).idxOf a < (front ++ [last]).idxOf b := by
        refine List.Pairwise.imp_of_mem (fun {a b} ha hb hlt => ?_) ih
        rw [idxOf_append_of_mem (mem_eraseDups.mp ha), idxOf_append_of_mem (mem_eraseDups.mp hb)]
        exact hlt
      rw [eraseDups_append]
      by_cases hmem : last ∈ front
      · simpa [List.removeAll, hmem] using hkept
      · -- The last item is new, so it is mentioned after all others.
        simp only [List.removeAll, filter_cons, elem_eq_mem, hmem, decide_false,
          Bool.not_false, if_true, filter_nil]
        refine pairwise_append.mpr ⟨hkept, pairwise_singleton _ _, ?_⟩
        intro a ha b hb
        rw [mem_eraseDups, mem_singleton] at hb
        rw [mem_eraseDups] at ha
        rw [hb, idxOf_append_of_mem ha, idxOf_append_of_notMem hmem]
        exact Nat.lt_add_right _ (idxOf_lt_length_of_mem ha)
  refine ⟨horder.imp fun {a b} hlt heq => ?_, fun name => mem_eraseDups, horder⟩
  rw [heq] at hlt
  exact Nat.lt_irrefl _ hlt

theorem FirstOccurrences.unique {names other sources : List String}
    (h : FirstOccurrences names sources) (h' : FirstOccurrences other sources) :
    names = other := by
  refine List.Pairwise.eq_of_mem_iff h.order h'.order fun name => ?_
  rw [h.mem_iff, h'.mem_iff]

end Names

section Resolving

variable {isKnown : String → Bool} {path : String} {imports : List Import}

/-- A file depends on the other files that its imports resolve to. -/
theorem mem_dependencies_resolveImports {target : String} :
    target ∈ (resolveImports isKnown path imports).dependencies ↔
      target ≠ path ∧ ∃ i ∈ imports, i.isExternal = false ∧
        resolveImport? isKnown path i.source = some target := by
  simp only [resolveImports, mem_sortedSet, mem_filter, mem_filterMap, decide_eq_true_eq]
  rw [and_comm]
  refine and_congr_right fun _ => exists_congr fun i => and_congr_right fun _ => ?_
  cases i.isExternal with
  | true => simp
  | false => simp

theorem increasing_dependencies_resolveImports :
    Increasing (resolveImports isKnown path imports).dependencies :=
  increasing_sortedSet _

/-- What a file imports from outside, or under a name that means no known file, in the order of its
    imports. -/
def outsideSources (isKnown : String → Bool) (path : String) (imports : List Import) :
    List String :=
  (imports.filter fun i =>
    i.isExternal || (resolveImport? isKnown path i.source).isNone).map (·.source)

theorem firstOccurrences_external_resolveImports :
    FirstOccurrences (resolveImports isKnown path imports).external
      (outsideSources isKnown path imports) := by
  have hsame : (resolveImports isKnown path imports).external =
      (outsideSources isKnown path imports).eraseDups := by
    simp only [resolveImports, outsideSources]
    congr 3
    funext i
    cases i.isExternal with
    | true => rfl
    | false => rfl
  rw [hsame]
  exact firstOccurrences_eraseDups _

/-- The dependencies of a file depend on what it imports only, not on the order or on repeats. -/
theorem dependencies_resolveImports_congr {others : List Import}
    (h : ∀ i, i ∈ imports ↔ i ∈ others) :
    (resolveImports isKnown path imports).dependencies =
      (resolveImports isKnown path others).dependencies := by
  refine increasing_dependencies_resolveImports.eq_of_mem_iff
    increasing_dependencies_resolveImports fun target => ?_
  simp only [mem_dependencies_resolveImports, h]

/-- So does whether it imports something from outside. -/
theorem isEmpty_external_resolveImports_congr {others : List Import}
    (h : ∀ i, i ∈ imports ↔ i ∈ others) :
    (resolveImports isKnown path imports).external.isEmpty =
      (resolveImports isKnown path others).external.isEmpty := by
  rw [Bool.eq_iff_iff, List.isEmpty_iff, List.isEmpty_iff, eq_nil_iff_forall_not_mem,
    eq_nil_iff_forall_not_mem]
  simp only [firstOccurrences_external_resolveImports.mem_iff, outsideSources, mem_map,
    mem_filter, h]

end Resolving

/-- A graph says what outlines import. -/
structure ImportGraph.Depicts (g : ImportGraph) (outlines : Dict String Outline) : Prop where
  keys : g.nodes.keys = outlines.keys
  path : ∀ path node, g.nodes.get? path = some node → node.path = path
  /-- A file depends on the other files that its imports resolve to. -/
  mem_dependenciesOf : ∀ a b, b ∈ g.dependenciesOf a ↔ b ≠ a ∧ ∃ o, outlines.get? a = some o ∧
    ∃ i ∈ o.imports, i.isExternal = false ∧ resolveImport? outlines.contains a i.source = some b
  /-- The two directions agree. -/
  mem_dependentsOf : ∀ a b, b ∈ g.dependenciesOf a ↔ a ∈ g.dependentsOf b
  increasing_dependenciesOf : ∀ path, Increasing (g.dependenciesOf path)
  increasing_dependentsOf : ∀ path, Increasing (g.dependentsOf path)
  irreflexive : ∀ path, path ∉ g.dependenciesOf path ∧ path ∉ g.dependentsOf path
  /-- Names from outside are listed in the order of their first mention, if there are any. -/
  externalImports : ∀ path names, g.externalImports.get? path = some names ↔
    names ≠ [] ∧ ∃ o, outlines.get? path = some o ∧
      FirstOccurrences names (outsideSources outlines.contains path o.imports)
  /-- A node tells whether there are any. -/
  external : ∀ path node, g.nodes.get? path = some node →
    (node.external = true ↔ (g.externalImports.get? path).isSome)

/-- Outlines of the same files that import the same, up to order and repeats. -/
structure SameImports (outlines other : Dict String Outline) : Prop where
  keys : outlines.keys = other.keys
  /-- Each file imports the same. -/
  imports : ∀ path o o', outlines.get? path = some o → other.get? path = some o' →
    ∀ i, i ∈ o.imports ↔ i ∈ o'.imports

/-- The files whose dependencies have a file among them. -/
def importers (outlines : Dict String Outline) (path : String) : List String :=
  (outlines.toList.filter fun entry =>
    (resolveImports outlines.contains entry.1 entry.2.imports).dependencies.contains path).map
      Prod.fst

namespace ImportGraph

variable (outlines : Dict String Outline) (maxCycleFiles : Nat)

theorem get_nodes_build (path : String) : (build outlines maxCycleFiles).nodes.get? path =
    (outlines.get? path).map fun o =>
      { path := path
        dependencies := (resolveImports outlines.contains path o.imports).dependencies
        dependents := importers outlines path
        external := !(resolveImports outlines.contains path o.imports).external.isEmpty } := by
  have himporters : ((outlines.map fun path o =>
      resolveImports outlines.contains path o.imports).toList.filter fun entry =>
        entry.2.dependencies.contains path).map Prod.fst = importers outlines path := by
    simp only [importers, Dict.map, filter_map, map_map]
    rfl
  simp only [build, Dict.get_map, Option.map_map, himporters]
  rfl

/-- The names from outside, by path. -/
theorem get_externalImports_build (path : String) :
    (build outlines maxCycleFiles).externalImports.get? path =
      (outlines.get? path).bind fun o =>
        if (resolveImports outlines.contains path o.imports).external.isEmpty then none
        else some (resolveImports outlines.contains path o.imports).external := by
  simp only [build, Dict.get_filterMap, Dict.get_map]
  cases outlines.get? path with
  | none => rfl
  | some o => rfl

theorem keys_build : (build outlines maxCycleFiles).nodes.keys = outlines.keys := by
  simp only [build, Dict.keys_map]

theorem mem_importers {a b : String} : a ∈ importers outlines b ↔
    ∃ o, outlines.get? a = some o ∧
      b ∈ (resolveImports outlines.contains a o.imports).dependencies := by
  simp only [importers, mem_map, mem_filter, contains_iff_mem, Prod.exists]
  constructor
  · rintro ⟨a, o, ⟨hmem, hb⟩, rfl⟩
    exact ⟨o, Dict.mem_toList_iff.mp hmem, hb⟩
  · rintro ⟨o, hget, hb⟩
    exact ⟨a, o, ⟨Dict.mem_toList_iff.mpr hget, hb⟩, rfl⟩

theorem increasing_importers (path : String) : Increasing (importers outlines path) := by
  refine List.Pairwise.sublist ?_ outlines.increasing_keys
  exact List.Sublist.map _ filter_sublist

theorem dependenciesOf_build (path : String) : (build outlines maxCycleFiles).dependenciesOf path =
    ((outlines.get? path).map fun o =>
      (resolveImports outlines.contains path o.imports).dependencies).getD [] := by
  rw [dependenciesOf, get_nodes_build]
  cases outlines.get? path with
  | none => rfl
  | some o => rfl

theorem mem_dependenciesOf_build {a b : String} :
    b ∈ (build outlines maxCycleFiles).dependenciesOf a ↔ ∃ o, outlines.get? a = some o ∧
      b ∈ (resolveImports outlines.contains a o.imports).dependencies := by
  rw [dependenciesOf_build]
  cases outlines.get? a with
  | none => simp
  | some o => simp

theorem dependentsOf_build (path : String) : (build outlines maxCycleFiles).dependentsOf path =
    if outlines.contains path then importers outlines path else [] := by
  rw [dependentsOf, get_nodes_build, Dict.contains]
  cases outlines.get? path with
  | none => rfl
  | some o => rfl

/-- A file that is depended on is one of the outlines, so that all of its importers are noted. -/
theorem mem_dependentsOf_build {a b : String} :
    a ∈ (build outlines maxCycleFiles).dependentsOf b ↔ ∃ o, outlines.get? a = some o ∧
      b ∈ (resolveImports outlines.contains a o.imports).dependencies := by
  rw [dependentsOf_build]
  by_cases hknown : outlines.contains b = true
  · rw [if_pos hknown, mem_importers]
  · rw [if_neg hknown]
    refine ⟨fun h => absurd h not_mem_nil, ?_⟩
    -- Without a node the importers would be lost, but nothing resolves to such a file.
    rintro ⟨o, -, hb⟩
    obtain ⟨-, i, -, -, hresolves⟩ := mem_dependencies_resolveImports.mp hb
    exact absurd (isKnown_of_resolveImport hresolves) hknown

theorem depicts_build : (build outlines maxCycleFiles).Depicts outlines := by
  have hedge : ∀ a b, b ∈ (build outlines maxCycleFiles).dependenciesOf a ↔
      b ≠ a ∧ ∃ o, outlines.get? a = some o ∧ ∃ i ∈ o.imports, i.isExternal = false ∧
        resolveImport? outlines.contains a i.source = some b := by
    intro a b
    simp only [mem_dependenciesOf_build, mem_dependencies_resolveImports]
    constructor
    · rintro ⟨o, ho, hne, hi⟩
      exact ⟨hne, o, ho, hi⟩
    · rintro ⟨hne, o, ho, hi⟩
      exact ⟨o, ho, hne, hi⟩
  have hboth : ∀ a b, b ∈ (build outlines maxCycleFiles).dependenciesOf a ↔
      a ∈ (build outlines maxCycleFiles).dependentsOf b := by
    intro a b
    rw [mem_dependenciesOf_build, mem_dependentsOf_build]
  have hself : ∀ path, path ∉ (build outlines maxCycleFiles).dependenciesOf path :=
    fun path h => ((hedge path path).mp h).1 rfl
  refine ⟨keys_build outlines maxCycleFiles, ?path, hedge, hboth, ?dependencies, ?dependents,
    fun path => ⟨hself path, fun h => hself path ((hboth path path).mpr h)⟩, ?outside, ?external⟩
  case path =>
    intro path node hnode
    rw [get_nodes_build, Option.map_eq_some_iff] at hnode
    obtain ⟨o, -, rfl⟩ := hnode
    rfl
  case dependencies =>
    intro path
    rw [dependenciesOf_build]
    cases outlines.get? path with
    | none => exact .nil
    | some o => exact increasing_dependencies_resolveImports
  case dependents =>
    intro path
    rw [dependentsOf_build]
    split
    · exact increasing_importers outlines path
    · exact .nil
  case outside =>
    intro path names
    rw [get_externalImports_build, Option.bind_eq_some_iff]
    constructor
    · rintro ⟨o, ho, hnames⟩
      split at hnames
      · exact absurd hnames (by simp)
      · rename_i hsome
        obtain rfl := Option.some.inj hnames
        exact ⟨by simpa using hsome, o, ho, firstOccurrences_external_resolveImports⟩
    · rintro ⟨hsome, o, ho, hnames⟩
      -- There is only one such list, so it is the one that was made.
      obtain rfl := hnames.unique firstOccurrences_external_resolveImports
      exact ⟨o, ho, by simp [hsome]⟩
  case external =>
    intro path node hnode
    rw [get_nodes_build, Option.map_eq_some_iff] at hnode
    obtain ⟨o, ho, rfl⟩ := hnode
    rw [get_externalImports_build, ho]
    simp only [Option.bind_some]
    split
    · simp [*]
    · simp [*]

theorem cycles_build : (build outlines maxCycleFiles).cycles =
    cyclesWithin (build outlines maxCycleFiles) (max maxCycleFiles 1) := by
  -- The cycles were searched in the graph as it was without them.
  exact cyclesWithin_congr (by rfl) _

variable {outlines} in
theorem nodes_build_congr {other : Dict String Outline} (h : SameImports outlines other) :
    (build other maxCycleFiles).nodes = (build outlines maxCycleFiles).nodes := by
  have hknown : other.contains = outlines.contains := by
    funext path
    rw [Bool.eq_iff_iff, Dict.contains_eq_true_iff, Dict.contains_eq_true_iff, h.keys]
  have hget : ∀ path, (outlines.get? path = none ∧ other.get? path = none) ∨
      ∃ o o', outlines.get? path = some o ∧ other.get? path = some o' := by
    intro path
    have hsome := congrFun hknown path
    simp only [Dict.contains] at hsome
    cases ho : outlines.get? path with
    | none =>
      rw [ho, Option.isSome_none, Option.isSome_eq_false_iff, Option.isNone_iff_eq_none] at hsome
      exact .inl ⟨rfl, hsome⟩
    | some o =>
      rw [ho, Option.isSome_some, Option.isSome_iff_exists] at hsome
      obtain ⟨o', ho'⟩ := hsome
      exact .inr ⟨o, o', rfl, ho'⟩
  -- Both lists of importers ascend, so it is enough that they have the same members.
  have himporters : ∀ path, importers other path = importers outlines path := by
    intro path
    refine (increasing_importers other path).eq_of_mem_iff (increasing_importers outlines path)
      fun a => ?_
    rw [mem_importers, mem_importers, hknown]
    rcases hget a with ⟨ho, ho'⟩ | ⟨o, o', ho, ho'⟩
    · simp [ho, ho']
    · simp [ho, ho', dependencies_resolveImports_congr (h.imports a o o' ho ho')]
  refine Dict.ext_get fun path => ?_
  rw [get_nodes_build, get_nodes_build, hknown, himporters]
  rcases hget path with ⟨ho, ho'⟩ | ⟨o, o', ho, ho'⟩
  · rw [ho, ho']
  · rw [ho, ho', Option.map_some, Option.map_some,
      dependencies_resolveImports_congr (h.imports path o o' ho ho'),
      isEmpty_external_resolveImports_congr (h.imports path o o' ho ho')]

/-- The graph says what the outlines import, and its nodes and cycles are those of any outlines
    that import the same in another order or repeatedly. -/
theorem build_depicts_up_to_order : (build outlines maxCycleFiles).Depicts outlines ∧
    ∀ other, SameImports outlines other →
      (build other maxCycleFiles).nodes = (build outlines maxCycleFiles).nodes ∧
        (build other maxCycleFiles).cycles = (build outlines maxCycleFiles).cycles := by
  refine ⟨depicts_build outlines maxCycleFiles, fun other h => ?_⟩
  have hnodes := nodes_build_congr maxCycleFiles h
  refine ⟨hnodes, ?_⟩
  rw [cycles_build, cycles_build, cyclesWithin_congr hnodes]

end ImportGraph

end Ripple
