import Ripple.Proofs.Graph.Build
import Ripple.Property.Build
import Ripple.Property.Query

/-!
# The Property Graph Refines the Import Graph

The property graph of a project joins ids, which are texts, and nothing in its
type says that an id belongs to a node or that a link between declarations of
two files goes along an import. Both hold of a graph that is built.

The links come from several places, each with a search of its own. `Arises`
says once how a link can come about, in terms of what files declare and import,
and what follows is read off it. A name resolves to a declaration of the same
file or to an exported one of an imported file, so the two files of a link
between files are the ends of an import.

Which file a node belongs to is another matter, since it is told by the node
that was inserted last under an id. The ids of files and declarations are cut
at their first number sign: if no path has one, the path can be read off the
id, and nodes of different files do not get into each other's way. Overloads
share an id, but they are of one file.

## Theorems

* `PropertyGraph.closed_build`: Links join nodes.
* `PropertyGraph.build_refines`: The graph of a set of outlines refines its
  graph of imports.
-/

namespace Ripple

open List Dict

/-- A file declares something. -/
def Declares (outlines : Dict String Outline) (path : String) (d : Declaration) : Prop :=
  ∃ o, outlines.get? path = some o ∧ d ∈ o.declarations

theorem Outline.mem_inPlaceOrder {o : Outline} {d : Declaration} :
    d ∈ o.inPlaceOrder ↔ d ∈ o.declarations :=
  mem_mergeSort

section Ids

variable {path other : String} {d d' : Declaration}

theorem toList_declarationId :
    (declarationId path d).toList = path.toList ++ '#' :: d.key.text.toList := by
  rw [declarationId, String.toList_append, String.toList_append, append_assoc]
  rfl

/-- What comes before the first number sign of a declaration's id is its path. -/
theorem takeWhile_declarationId (h : '#' ∉ path.toList) :
    (declarationId path d).toList.takeWhile (· ≠ '#') = path.toList := by
  have hpath : ∀ c ∈ path.toList, decide (c ≠ '#') = true :=
    fun c hc => decide_eq_true fun heq => h (heq ▸ hc)
  rw [toList_declarationId, takeWhile_append_of_pos hpath,
    takeWhile_cons_of_neg (by simp), append_nil]

/-- The path of a declaration can be read off its id, if no path has a number sign. -/
theorem declarationId_path (h : '#' ∉ path.toList) (h' : '#' ∉ other.toList)
    (heq : declarationId path d = declarationId other d') : path = other := by
  apply String.toList_inj.mp
  rw [← takeWhile_declarationId h, ← takeWhile_declarationId h', heq]

/-- No file has the id of a declaration, if its path has no number sign. -/
theorem fileId_ne_declarationId (h : '#' ∉ path.toList) : fileId path ≠ declarationId other d := by
  intro heq
  have hmem : '#' ∈ (fileId path).toList := by
    rw [heq, toList_declarationId]
    exact mem_append_right _ mem_cons_self
  rw [fileId, String.toList_append, mem_append] at hmem
  exact hmem.elim (by decide) h

end Ids

/-- A name means a declaration of the same file, or an exported one of an imported file. -/
theorem resolveName_cases {outlines : Dict String Outline} {path name target : String}
    {imported : List String} {accepts : Declaration → Bool}
    (h : resolveName? outlines path imported accepts name = some target) :
    ∃ file d, Declares outlines file d ∧ target = declarationId file d ∧
      (file = path ∨ file ∈ imported ∧ d.isExported = true) := by
  have hsearch : ∀ file (suits : Declaration → Bool),
      ((outlines.get? file).bind fun o => (o.declarations.find? fun d =>
        d.name = name && suits d && accepts d).map (declarationId file)) = some target →
      ∃ d, Declares outlines file d ∧ target = declarationId file d ∧ suits d = true := by
    intro file suits hfound
    obtain ⟨o, ho, hmap⟩ := Option.bind_eq_some_iff.mp hfound
    obtain ⟨d, hd, htgt⟩ := Option.map_eq_some_iff.mp hmap
    have hpasses := find?_some hd
    simp only [Bool.and_eq_true] at hpasses
    exact ⟨d, ⟨o, ho, mem_of_find?_eq_some hd⟩, htgt.symm, hpasses.1.2⟩
  -- The file itself is searched first, and takes part whether a declaration is exported or not.
  rcases Option.or_eq_some_iff.mp h with hlocal | ⟨-, himported⟩
  · obtain ⟨d, hd, htgt, -⟩ := hsearch path _ hlocal
    exact ⟨path, d, hd, htgt, Or.inl rfl⟩
  · obtain ⟨file, hfile, hfound⟩ := exists_of_findSome?_eq_some himported
    obtain ⟨d, hd, htgt, hexp⟩ := hsearch file _ hfound
    exact ⟨file, d, hd, htgt, Or.inr ⟨hfile, hexp⟩⟩

namespace PropertyGraph

section Links

variable {outlines : Dict String Outline} {graph : ImportGraph}

variable {l : Link} {path : String}

/-- How a link of a property graph comes about. -/
inductive Arises (outlines : Dict String Outline) (graph : ImportGraph) : Link → Prop
  /-- A file contains a declaration. -/
  | contained {path : String} {d : Declaration} (h : Declares outlines path d) :
      Arises outlines graph ⟨fileId path, declarationId path d, .contains⟩
  /-- A file exports a declaration. -/
  | exported {path : String} {d : Declaration} (h : Declares outlines path d)
      (hexported : d.isExported = true) :
      Arises outlines graph ⟨fileId path, declarationId path d, .exports⟩
  /-- A declaration comes before another one of its file. -/
  | ordered {path : String} {d d' : Declaration} (h : Declares outlines path d)
      (h' : Declares outlines path d') :
      Arises outlines graph ⟨declarationId path d, declarationId path d', .precedes⟩
  /-- A file imports another. -/
  | imported {path other : String} (h : other ∈ graph.dependenciesOf path)
      (hknown : other ∈ outlines.keys) :
      Arises outlines graph ⟨fileId path, fileId other, .imports⟩
  /-- A declaration calls or mentions one of its file, or an exported one of an imported file. -/
  | used {path file : String} {d d' : Declaration} {relation : Relation}
      (hrelation : relation = .calls ∨ relation = .mentions) (h : Declares outlines path d)
      (h' : Declares outlines file d')
      (hfile : file = path ∨ file ∈ graph.dependenciesOf path ∧ d'.isExported = true) :
      Arises outlines graph ⟨declarationId path d, declarationId file d', relation⟩

theorem mem_links_build : l ∈ (build outlines graph).links ↔
    (∃ path o, outlines.get? path = some o ∧ l ∈ structureLinks path o) ∨
      l ∈ importLinks outlines graph ∨
      ∃ path d, Declares outlines path d ∧
        l ∈ useLinks outlines (graph.dependenciesOf path) path d := by
  simp only [build, mem_sortedSet, mem_append, mem_flatMap, Prod.exists, mem_toList_iff, or_assoc]
  refine or_congr_right (or_congr_right ?_)
  constructor
  · rintro ⟨path, o, ho, d, hd, hl⟩
    exact ⟨path, d, ⟨o, ho, hd⟩, hl⟩
  · rintro ⟨path, d, ⟨o, ho, hd⟩, hl⟩
    exact ⟨path, o, ho, d, hd, hl⟩

theorem arises_of_mem_structureLinks {o : Outline} (ho : outlines.get? path = some o)
    (h : l ∈ structureLinks path o) : Arises outlines graph l := by
  have hdeclares : ∀ d ∈ o.inPlaceOrder, Declares outlines path d :=
    fun d hd => ⟨o, ho, Outline.mem_inPlaceOrder.mp hd⟩
  simp only [structureLinks, mem_append, mem_map, mem_filter] at h
  rcases h with (⟨_, ⟨d, hd, rfl⟩, rfl⟩ | ⟨d, ⟨hd, hexp⟩, rfl⟩) | ⟨⟨a, b⟩, ⟨hpair, -⟩, rfl⟩
  · exact .contained (hdeclares d hd)
  · exact .exported (hdeclares d hd) hexp
  · obtain ⟨ha, hb⟩ := of_mem_zip hpair
    obtain ⟨d, hd, rfl⟩ := mem_map.mp ha
    obtain ⟨d', hd', rfl⟩ := mem_map.mp (mem_of_mem_tail hb)
    exact .ordered (hdeclares d hd) (hdeclares d' hd')

theorem mem_importLinks : l ∈ importLinks outlines graph ↔
    ∃ path other, other ∈ graph.dependenciesOf path ∧ other ∈ outlines.keys ∧
      l = ⟨fileId path, fileId other, .imports⟩ := by
  simp only [importLinks, mem_flatMap, Prod.exists, mem_toList_iff, mem_map,
    mem_filter, contains_eq_true_iff]
  constructor
  · rintro ⟨path, node, hnode, other, ⟨hother, hknown⟩, rfl⟩
    refine ⟨path, other, ?_, hknown, rfl⟩
    rw [ImportGraph.dependenciesOf, hnode]
    exact hother
  · rintro ⟨path, other, hother, hknown, rfl⟩
    unfold ImportGraph.dependenciesOf at hother
    split at hother
    next node hnode => exact ⟨path, node, hnode, other, ⟨hother, hknown⟩, rfl⟩
    next => exact absurd hother not_mem_nil

theorem arises_of_mem_useLinks {d : Declaration} (hd : Declares outlines path d)
    (h : l ∈ useLinks outlines (graph.dependenciesOf path) path d) :
    Arises outlines graph l := by
  simp only [useLinks, mem_append, mem_map, mem_filter, mem_filterMap] at h
  rcases h with ⟨_, ⟨⟨name, -, hname⟩, -⟩, rfl⟩ | ⟨_, ⟨⟨name, -, hname⟩, -⟩, rfl⟩
  · obtain ⟨file, d', hd', rfl, hfile⟩ := resolveName_cases hname
    exact .used (Or.inl rfl) hd hd' hfile
  · obtain ⟨file, d', hd', rfl, hfile⟩ := resolveName_cases hname
    exact .used (Or.inr rfl) hd hd' hfile

/-- Every link comes about in one of these ways. -/
theorem arises_of_mem_links (h : l ∈ (build outlines graph).links) : Arises outlines graph l := by
  rcases mem_links_build.mp h with ⟨path, o, ho, hl⟩ | himport | ⟨path, d, hd, hl⟩
  · exact arises_of_mem_structureLinks ho hl
  · obtain ⟨path, other, hother, hknown, rfl⟩ := mem_importLinks.mp himport
    exact .imported hother hknown
  · exact arises_of_mem_useLinks hd hl

theorem Arises.of_imports (h : Arises outlines graph l) (hrel : l.relation = .imports) :
    ∃ a b, b ∈ graph.dependenciesOf a ∧ l = ⟨fileId a, fileId b, .imports⟩ := by
  cases h with
  | contained _ => cases hrel
  | exported _ _ => cases hrel
  | ordered _ _ => cases hrel
  | imported h _ => exact ⟨_, _, h, rfl⟩
  | used hused _ _ _ =>
    rcases hused with rfl | rfl
    · cases hrel
    · cases hrel

/-- Only declarations call and mention each other. -/
theorem Arises.of_use (h : Arises outlines graph l)
    (hrel : l.relation = .calls ∨ l.relation = .mentions) :
    ∃ path d file d', Declares outlines path d ∧ Declares outlines file d' ∧
      l.source = declarationId path d ∧ l.target = declarationId file d' ∧
      (file = path ∨ file ∈ graph.dependenciesOf path ∧ d'.isExported = true) := by
  cases h with
  | contained _ => rcases hrel with h | h <;> cases h
  | exported _ _ => rcases hrel with h | h <;> cases h
  | ordered _ _ => rcases hrel with h | h <;> cases h
  | imported _ _ => rcases hrel with h | h <;> cases h
  | used _ h h' hfile => exact ⟨_, _, _, _, h, h', rfl, rfl, hfile⟩

theorem contains_mem_links {d : Declaration} (h : Declares outlines path d) :
    ⟨fileId path, declarationId path d, .contains⟩ ∈ (build outlines graph).links := by
  obtain ⟨o, ho, hd⟩ := h
  refine mem_links_build.mpr (Or.inl ⟨path, o, ho, ?_⟩)
  refine mem_append_left _ (mem_append_left _ ?_)
  exact mem_map_of_mem (mem_map_of_mem (Outline.mem_inPlaceOrder.mpr hd))

theorem exports_mem_links {d : Declaration} (h : Declares outlines path d)
    (hexp : d.isExported = true) :
    ⟨fileId path, declarationId path d, .exports⟩ ∈ (build outlines graph).links := by
  obtain ⟨o, ho, hd⟩ := h
  refine mem_links_build.mpr (Or.inl ⟨path, o, ho, ?_⟩)
  refine mem_append_left _ (mem_append_right _ (mem_map.mpr ⟨d, ?_, rfl⟩))
  exact mem_filter.mpr ⟨Outline.mem_inPlaceOrder.mpr hd, hexp⟩

end Links

section Nodes

variable {outlines : Dict String Outline} {graph : ImportGraph}

theorem mem_nodesOf {path : String} {o : Outline} {n : PropertyNode} :
    n ∈ nodesOf path o ↔ n = fileNode path ∨ ∃ d ∈ o.declarations, n = declarationNode path d := by
  simp only [nodesOf, mem_cons, mem_map, Outline.mem_inPlaceOrder, eq_comm]

/-- The ids of the nodes. -/
theorem mem_keys_nodes_build {id : String} : id ∈ (build outlines graph).nodes.keys ↔
    (∃ path ∈ outlines.keys, id = fileId path) ∨
      ∃ path d, Declares outlines path d ∧ id = declarationId path d := by
  rw [build, mem_keys_ofList]
  simp only [mem_map, mem_flatMap, Prod.exists, mem_toList_iff, mem_nodesOf]
  constructor
  · rintro ⟨_, n, ⟨path, o, ho, _, rfl | ⟨d, hd, rfl⟩, hpair⟩, rfl⟩
    · exact Or.inl ⟨path, mem_keys_of_get ho, (Prod.mk.inj hpair).1.symm⟩
    · exact Or.inr ⟨path, d, ⟨o, ho, hd⟩, (Prod.mk.inj hpair).1.symm⟩
  · rintro (⟨path, hpath, rfl⟩ | ⟨path, d, ⟨o, ho, hd⟩, rfl⟩)
    · obtain ⟨o, ho⟩ := Option.isSome_iff_exists.mp (mem_keys_iff.mp hpath)
      exact ⟨_, _, ⟨path, o, ho, _, Or.inl rfl, rfl⟩, rfl⟩
    · exact ⟨_, _, ⟨path, o, ho, _, Or.inr ⟨d, hd, rfl⟩, rfl⟩, rfl⟩

/-- A node is found under its id, and is the node of a file or of a declaration. -/
theorem cases_nodes_build {id : String} {node : PropertyNode}
    (h : (build outlines graph).nodes.get? id = some node) : node.id = id ∧
      ((∃ path ∈ outlines.keys, node = fileNode path) ∨
        ∃ path d, Declares outlines path d ∧ node = declarationNode path d) := by
  have hmem := (mem_of_get_insertAll h).resolve_right (by simp [get_empty])
  simp only [mem_map, mem_flatMap, Prod.exists, mem_toList_iff, mem_nodesOf] at hmem
  obtain ⟨path, o, ho, n, hn, hpair⟩ := hmem
  obtain ⟨rfl, rfl⟩ := Prod.mk.inj hpair
  refine ⟨rfl, hn.imp (fun hfile => ⟨path, mem_keys_of_get ho, hfile⟩) ?_⟩
  rintro ⟨d, hd, hnode⟩
  exact ⟨path, d, ⟨o, ho, hd⟩, hnode⟩

theorem mem_keys_of_declares {path : String} {d : Declaration} (h : Declares outlines path d) :
    path ∈ outlines.keys := by
  obtain ⟨o, ho, -⟩ := h
  exact mem_keys_of_get ho

theorem mem_keys_of_imports (hgraph : graph.Depicts outlines) {a b : String}
    (h : b ∈ graph.dependenciesOf a) : a ∈ outlines.keys ∧ b ∈ outlines.keys := by
  obtain ⟨-, o, ho, i, -, -, hresolves⟩ := (hgraph.mem_dependenciesOf a b).mp h
  exact ⟨mem_keys_of_get ho, contains_eq_true_iff.mp (isKnown_of_resolveImport hresolves)⟩

theorem closed_build (hgraph : graph.Depicts outlines) {l : Link}
    (hl : l ∈ (build outlines graph).links) : l.source ∈ (build outlines graph).nodes.keys ∧
      l.target ∈ (build outlines graph).nodes.keys := by
  have hfile : ∀ path ∈ outlines.keys, fileId path ∈ (build outlines graph).nodes.keys :=
    fun path hpath => mem_keys_nodes_build.mpr (Or.inl ⟨path, hpath, rfl⟩)
  have hdecl : ∀ path d, Declares outlines path d →
      declarationId path d ∈ (build outlines graph).nodes.keys :=
    fun path d hd => mem_keys_nodes_build.mpr (Or.inr ⟨path, d, hd, rfl⟩)
  cases arises_of_mem_links hl with
  | contained h => exact ⟨hfile _ (mem_keys_of_declares h), hdecl _ _ h⟩
  | exported h _ => exact ⟨hfile _ (mem_keys_of_declares h), hdecl _ _ h⟩
  | ordered h h' => exact ⟨hdecl _ _ h, hdecl _ _ h'⟩
  | imported h hknown => exact ⟨hfile _ (mem_keys_of_imports hgraph h).1, hfile _ hknown⟩
  | used _ h h' _ => exact ⟨hdecl _ _ h, hdecl _ _ h'⟩

/-- The node of a declaration belongs to the file that declares it, if no path has a number
    sign. -/
theorem file_of_declares (hpaths : ∀ path ∈ outlines.keys, '#' ∉ path.toList) {path : String}
    {d : Declaration} (h : Declares outlines path d) {node : PropertyNode}
    (hnode : (build outlines graph).nodes.get? (declarationId path d) = some node) :
    node.file = path := by
  obtain ⟨hid, ⟨other, hother, rfl⟩ | ⟨other, d', hd', rfl⟩⟩ := cases_nodes_build hnode
  · exact absurd hid (fileId_ne_declarationId (hpaths other hother))
  · exact declarationId_path (hpaths other (mem_keys_of_declares hd'))
      (hpaths path (mem_keys_of_declares h)) hid

end Nodes

section Calls

variable {g : PropertyGraph} {x y : String}

theorem mem_nodesAt {ids : List String} {n : PropertyNode} :
    n ∈ g.nodesAt ids ↔ ∃ id ∈ ids, g.nodes.get? id = some n := by
  simp only [nodesAt, mem_filterMap, mem_sortedSet]

theorem resolve_of_mem (h : x ∈ g.nodes.keys) : g.resolve x = [x] := by
  rw [resolve, if_pos (contains_eq_true_iff.mpr h)]

variable (hid : ∀ id node, g.nodes.get? id = some node → node.id = id)

include hid

theorem exists_node_iff (hy : y ∈ g.nodes.keys) {ids : List String} :
    (∃ n ∈ g.nodesAt ids, n.id = y) ↔ y ∈ ids := by
  constructor
  · rintro ⟨n, hn, rfl⟩
    obtain ⟨id, hmem, hget⟩ := mem_nodesAt.mp hn
    rw [hid id n hget]
    exact hmem
  · intro hmem
    obtain ⟨n, hn⟩ := Option.isSome_iff_exists.mp (mem_keys_iff.mp hy)
    exact ⟨n, mem_nodesAt.mpr ⟨y, hmem, hn⟩, hid y n hn⟩

/-- The nodes at one end of the calls that have a node at the other end. -/
theorem exists_end_iff (hy : y ∈ g.nodes.keys) (here there : Link → String) :
    (∃ n ∈ g.nodesAt (((g.linksOf .calls).filter fun l => [x].contains (here l)).map there),
      n.id = y) ↔ ∃ l ∈ g.links, l.relation = .calls ∧ here l = x ∧ there l = y := by
  rw [exists_node_iff hid hy]
  simp only [linksOf, mem_map, mem_filter, decide_eq_true_eq, contains_iff_mem,
    mem_singleton, and_assoc]

/-- A node is found among those that another calls iff there is a link from the other to it. -/
theorem exists_callee_iff (hx : x ∈ g.nodes.keys) (hy : y ∈ g.nodes.keys) :
    (∃ n ∈ g.callees x, n.id = y) ↔
      ∃ l ∈ g.links, l.relation = .calls ∧ l.source = x ∧ l.target = y := by
  rw [callees, resolve_of_mem hx]
  exact exists_end_iff hid hy Link.source Link.target

/-- A node is found among those that call another iff there is a link from it to the other. -/
theorem exists_caller_iff (hx : x ∈ g.nodes.keys) (hy : y ∈ g.nodes.keys) :
    (∃ n ∈ g.callers y, n.id = x) ↔
      ∃ l ∈ g.links, l.relation = .calls ∧ l.target = y ∧ l.source = x := by
  rw [callers, resolve_of_mem hy]
  exact exists_end_iff hid hx Link.target Link.source

end Calls

/-- A property graph is closed and refines an import graph. -/
structure Refines (g : PropertyGraph) (outlines : Dict String Outline) (graph : ImportGraph) :
    Prop where
  /-- Links join nodes. -/
  closed : ∀ l ∈ g.links, l.source ∈ g.nodes.keys ∧ l.target ∈ g.nodes.keys
  increasing : Increasing g.links
  /-- The imports are those of the import graph. -/
  imports_iff : ∀ l, l ∈ g.links ∧ l.relation = .imports ↔
    ∃ a b, b ∈ graph.dependenciesOf a ∧ l = ⟨fileId a, fileId b, .imports⟩
  /-- A file contains what it declares. -/
  contains_declared : ∀ path d, Declares outlines path d →
    ⟨fileId path, declarationId path d, .contains⟩ ∈ g.links
  /-- What is called or mentioned in another file is exported by an imported one. -/
  along_imports : ∀ l ∈ g.links, l.relation = .calls ∨ l.relation = .mentions →
    ∀ x y, g.nodes.get? l.source = some x → g.nodes.get? l.target = some y → x.file ≠ y.file →
      y.file ∈ graph.dependenciesOf x.file ∧ ⟨fileId y.file, l.target, .exports⟩ ∈ g.links
  /-- One node calls another iff the other is called by it. -/
  calls_converse : ∀ x ∈ g.nodes.keys, ∀ y ∈ g.nodes.keys,
    (∃ n ∈ g.callees x, n.id = y) ↔ ∃ n ∈ g.callers y, n.id = x

/-- Built from outlines and their import graph, where no path has a number sign, a property graph
    is closed and refines the import graph. -/
theorem build_refines (outlines : Dict String Outline) (maxCycleFiles : Nat)
    (hpaths : ∀ path ∈ outlines.keys, '#' ∉ path.toList) :
    (build outlines (ImportGraph.build outlines maxCycleFiles)).Refines outlines
      (ImportGraph.build outlines maxCycleFiles) := by
  have hgraph := ImportGraph.depicts_build outlines maxCycleFiles
  generalize ImportGraph.build outlines maxCycleFiles = graph at hgraph
  refine
    { closed := fun l => closed_build hgraph
      increasing := increasing_sortedSet _
      imports_iff := fun l => ⟨fun h => (arises_of_mem_links h.1).of_imports h.2, ?_⟩
      contains_declared := fun path d => contains_mem_links
      along_imports := fun l hl hrelation x y hx hy hne => ?_
      calls_converse := fun x hx y hy => ?_ }
  · rintro ⟨a, b, hb, rfl⟩
    refine ⟨mem_links_build.mpr (Or.inr (Or.inl ?_)), rfl⟩
    exact mem_importLinks.mpr ⟨a, b, hb, (mem_keys_of_imports hgraph hb).2, rfl⟩
  · -- The files of the two nodes are the files of the two declarations.
    obtain ⟨path, d, file, d', hd, hd', hsource, htarget, hfrom⟩ :=
      (arises_of_mem_links hl).of_use hrelation
    rw [hsource] at hx
    rw [htarget] at hy ⊢
    obtain rfl := file_of_declares hpaths hd hx
    obtain rfl := file_of_declares hpaths hd' hy
    obtain ⟨himported, hexported⟩ := hfrom.resolve_left hne.symm
    exact ⟨himported, exports_mem_links hd' hexported⟩
  · -- Both sides ask for the same links, from their two ends.
    have hid : ∀ id node, (build outlines graph).nodes.get? id = some node → node.id = id :=
      fun _ _ hnode => (cases_nodes_build hnode).1
    rw [exists_callee_iff hid hx hy, exists_caller_iff hid hx hy]
    simp only [and_comm]

/-- One file calls a function that another one exports. -/
def sharing : Dict String Outline := .ofList
  [("a.ts", { Outline.empty "a.ts" "1" with
      declarations := [{ Declaration.bare .function "run" with calls := ["f"] }]
      imports := [.of "./b" ["f"] false] }),
    ("b.ts", { Outline.empty "b.ts" "1" with
      declarations := [{ Declaration.bare .function "f" with exports := some ["f"] }] })]

/-- A call from one file to another is among the links of a graph that refines its imports. -/
theorem build_refines_sharing : (∀ path ∈ sharing.keys, '#' ∉ path.toList) ∧
    ⟨"a.ts#function:run", "b.ts#function:f", .calls⟩ ∈
      (build sharing (ImportGraph.build sharing 100)).links ∧
    (build sharing (ImportGraph.build sharing 100)).Refines sharing
      (ImportGraph.build sharing 100) := by
  have hpaths : ∀ path ∈ sharing.keys, '#' ∉ path.toList := by decide +kernel
  exact ⟨hpaths, by decide +kernel, build_refines sharing 100 hpaths⟩

end PropertyGraph

end Ripple
