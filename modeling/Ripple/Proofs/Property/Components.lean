import Ripple.Proofs.Graph.Circular
import Ripple.Proofs.Property.Refinement

/-!
# Components of Property Graphs

A property graph has two sorts of nodes, files and declarations, and its
components are formed by calls and imports together. Calls join declarations
and imports join files, so no walk gets from one sort to the other, and
circular imports look in the property graph as they do in the import graph.

What is needed for this is that the import graph is found again inside of the
property graph: a file is listed there under its id, and the steps from its id
are its imports. `Embeds` says so for any two graphs. Then what belongs
together with an image is the image of what belongs together, so components of
the smaller graph are components of the larger one. That they also come in the
same order is a matter of ids: all ids of files begin alike, so they are
ordered as their paths.

An id does not say by itself which sort it is of. The path of a file may begin
as ids of files do, and it may have a number sign, which is where the path in
the id of a declaration ends. Only if no path has one are the two sorts of ids
apart.

## Theorems

* `PropertyGraph.embeds_build`: The import graph is found again in the property graph.
* `PropertyGraph.components_keep_circularity`: Circular imports are the
  components of files of the property graph, in their order.
-/

namespace Ripple

open List

section Order

theorem compare_append_left (front a b : String) :
    compare (front ++ a) (front ++ b) = compare a b := by
  -- The order of texts is that of their characters, where a common front cancels.
  have hlists : ∀ cs : List Char, cs ++ a.toList < cs ++ b.toList ↔ a.toList < b.toList := by
    intro cs
    induction cs with
    | nil => exact Iff.rfl
    | cons c cs ih =>
      rw [cons_append, cons_append, cons_lt_cons_iff, ih]
      exact ⟨fun h => h.elim (fun hlt => absurd hlt (lt_irrefl c)) And.right,
        fun h => Or.inr ⟨rfl, h⟩⟩
  have hlt : front ++ a < front ++ b ↔ a < b := by
    rw [String.lt_iff_toList_lt, String.lt_iff_toList_lt, String.toList_append,
      String.toList_append, hlists]
  change compareOfLessAndEq _ _ = compareOfLessAndEq _ _
  simp only [compareOfLessAndEq, hlt, String.append_right_inj]

/-- Lists of images come in the order of the lists, if the images come in order. -/
theorem compare_map {f : String → String} (h : ∀ a b, compare (f a) (f b) = compare a b)
    (xs ys : List String) : compare (xs.map f) (ys.map f) = compare xs ys := by
  change List.compareLex compare _ _ = List.compareLex compare _ _
  induction xs generalizing ys with
  | nil =>
    cases ys with
    | nil => rfl
    | cons y ys => rfl
  | cons x xs ih =>
    cases ys with
    | nil => rfl
    | cons y ys =>
      rw [map_cons, map_cons, List.compareLex_cons_cons, List.compareLex_cons_cons, h, ih]

end Order

/-- A graph is found again inside of another one: each node has an image there, in the same order,
    and the steps from an image are the images of steps. -/
structure Embeds (f : String → String) (nodes : List String) (successors : String → List String)
    (nodes' : List String) (successors' : String → List String) : Prop where
  /-- Images come in the order of the nodes. -/
  compare_eq : ∀ a b, compare (f a) (f b) = compare a b
  /-- Images of listed nodes are listed. -/
  listed : ∀ a ∈ nodes, f a ∈ nodes'
  /-- The steps from an image are the images of steps. -/
  linked_iff : ∀ a ∈ nodes, ∀ x, Linked nodes' successors' (f a) x ↔
    ∃ b, x = f b ∧ Linked nodes successors a b

namespace Embeds

variable {f : String → String} {nodes nodes' : List String}
  {successors successors' : String → List String}

variable {component : List String}

variable (h : Embeds f nodes successors nodes' successors')

include h

theorem injective {a b : String} (heq : f a = f b) : a = b := by
  have hself := h.compare_eq a b
  rw [heq, Std.ReflOrd.compare_self] at hself
  exact Std.LawfulEqOrd.eq_of_compare hself.symm

theorem reaches_iff {a x : String} (ha : a ∈ nodes) :
    Reaches nodes' successors' (f a) x ↔ ∃ b, x = f b ∧ Reaches nodes successors a b := by
  constructor
  · intro hwalk
    -- By the last step, which leaves from an image since the walk before it ends at one.
    induction hwalk with
    | refl => exact ⟨a, rfl, .refl⟩
    | tail _ hstep ih =>
      obtain ⟨b, rfl, hab⟩ := ih
      obtain ⟨c, rfl, hbc⟩ := (h.linked_iff b (hab.listed ha) _).mp hstep
      exact ⟨c, rfl, hab.tail hbc⟩
  · rintro ⟨b, rfl, hwalk⟩
    induction hwalk with
    | refl => exact .refl
    | tail hab hstep ih =>
      exact ih.tail ((h.linked_iff _ (Reaches.listed hab ha) _).mpr ⟨_, rfl, hstep⟩)

theorem together_iff {a x : String} (ha : a ∈ nodes) :
    Together nodes' successors' (f a) x ↔ ∃ b, x = f b ∧ Together nodes successors a b := by
  constructor
  · rintro ⟨hthere, hback⟩
    obtain ⟨b, rfl, hab⟩ := (h.reaches_iff ha).mp hthere
    obtain ⟨c, hc, hbc⟩ := (h.reaches_iff (hab.listed ha)).mp hback
    -- The walk back ends at the image where the walk there began.
    obtain rfl := h.injective hc
    exact ⟨b, rfl, hab, hbc⟩
  · rintro ⟨b, rfl, hab, hba⟩
    exact ⟨(h.reaches_iff ha).mpr ⟨b, rfl, hab⟩,
      (h.reaches_iff (Reaches.listed hab ha)).mpr ⟨a, rfl, hba⟩⟩

theorem forall_mem_image (hcomp : component ∈ components nodes' successors') {a : String}
    (ha : a ∈ nodes) (hmem : f a ∈ component) : ∀ x ∈ component, x ∈ nodes.map f := by
  intro x hx
  obtain ⟨b, rfl, hab⟩ := (h.together_iff ha).mp ((mem_iff_together hcomp hmem).mp hx)
  exact mem_map_of_mem (hab.1.listed ha)

theorem map_mem_components (hcomp : component ∈ components nodes successors) :
    component.map f ∈ components nodes' successors' := by
  obtain ⟨hinc, a, b, hne, hab, hclass⟩ := mem_components_iff.mp hcomp
  have ha : a ∈ nodes :=
    (maximal_of_mem_components hcomp).prop.listed a ((hclass a).mpr (together_refl a))
  refine mem_components_iff.mpr ⟨?_, f a, f b, fun heq => hne (h.injective heq),
    (h.together_iff ha).mpr ⟨b, rfl, hab⟩, fun x => ?_⟩
  · refine pairwise_map.mpr (hinc.imp fun {c d} hcd => ?_)
    rw [h.compare_eq, hcd]
  · rw [h.together_iff ha, mem_map]
    refine exists_congr fun c => ?_
    rw [hclass, and_comm, eq_comm]

theorem exists_component_of_image (hcomp : component ∈ components nodes' successors')
    (himage : ∀ x ∈ component, x ∈ nodes.map f) :
    ∃ origin ∈ components nodes successors, origin.map f = component := by
  obtain ⟨x, y, hne, hxy, hclass⟩ := (mem_components_iff.mp hcomp).2
  have hx : x ∈ component := (hclass x).mpr (together_refl x)
  obtain ⟨a, ha, rfl⟩ := mem_map.mp (himage x hx)
  obtain ⟨b, rfl, hab⟩ := (h.together_iff ha).mp hxy
  obtain ⟨origin, horigin, hmem⟩ :=
    exists_component_iff.mpr ⟨b, fun heq => hne (congrArg f heq), hab⟩
  -- Two components with a node in common list the same nodes.
  refine ⟨origin, horigin, ?_⟩
  have hmapped := h.map_mem_components horigin
  refine (increasing_of_mem_components hmapped).eq_of_mem_iff
    (increasing_of_mem_components hcomp) fun z => ?_
  rw [mem_iff_together hmapped (mem_map_of_mem hmem), hclass]

/-- The components of images of a larger graph are the images of the components, in their order. -/
theorem components_filter :
    ((components nodes' successors').filter fun component => ∀ x ∈ component, x ∈ nodes.map f) =
      (components nodes successors).map (List.map f) := by
  have hinc : Increasing ((components nodes successors).map (List.map f)) := by
    refine pairwise_map.mpr (increasing_components.imp fun {c d} hcd => ?_)
    rw [compare_map h.compare_eq, hcd]
  refine Increasing.eq_of_mem_iff (increasing_components.filter _) hinc fun component => ?_
  rw [mem_filter, decide_eq_true_eq, mem_map]
  constructor
  · rintro ⟨hcomp, himage⟩
    exact h.exists_component_of_image hcomp himage
  · rintro ⟨origin, horigin, rfl⟩
    refine ⟨h.map_mem_components horigin, fun x hx => ?_⟩
    obtain ⟨a, ha, rfl⟩ := mem_map.mp hx
    exact mem_map_of_mem ((maximal_of_mem_components horigin).prop.listed a ha)

end Embeds

/-- The ids of files. -/
def fileIds (outlines : Dict String Outline) : List String := outlines.keys.map fileId

/-- The ids of declarations. -/
def declarationIds (outlines : Dict String Outline) : List String :=
  outlines.toList.flatMap fun (path, o) => o.declarations.map (declarationId path)

theorem mem_declarationIds {outlines : Dict String Outline} {id : String} :
    id ∈ declarationIds outlines ↔
      ∃ path d, Declares outlines path d ∧ id = declarationId path d := by
  simp only [declarationIds, mem_flatMap, Prod.exists, Dict.mem_toList_iff, mem_map]
  constructor
  · rintro ⟨path, o, ho, d, hd, rfl⟩
    exact ⟨path, d, ⟨o, ho, hd⟩, rfl⟩
  · rintro ⟨path, d, ⟨o, ho, hd⟩, rfl⟩
    exact ⟨path, o, ho, d, hd, rfl⟩

namespace PropertyGraph

variable {outlines : Dict String Outline}

theorem disjoint_ids (hpaths : ∀ path ∈ outlines.keys, '#' ∉ path.toList) :
    (fileIds outlines).Disjoint (declarationIds outlines) := by
  intro id hfile hdecl
  obtain ⟨path, hpath, rfl⟩ := mem_map.mp hfile
  obtain ⟨_, _, -, hid⟩ := mem_declarationIds.mp hdecl
  exact fileId_ne_declarationId (hpaths path hpath) hid

theorem mem_uses_fileId_iff {graph : ImportGraph} (hgraph : graph.Depicts outlines) {path : String}
    (hpath : '#' ∉ path.toList) {x : String} : x ∈ (build outlines graph).uses (fileId path) ↔
      ∃ other, x = fileId other ∧ other ∈ graph.dependenciesOf path := by
  simp only [uses, mem_map, mem_filter, Bool.and_eq_true, Bool.or_eq_true, decide_eq_true_eq]
  constructor
  · rintro ⟨l, ⟨hl, hsrc, hcalls | himports⟩, rfl⟩
    · -- Only declarations call, and a file is none.
      obtain ⟨_, _, _, _, -, -, hcaller, -⟩ := (arises_of_mem_links hl).of_use (.inl hcalls)
      exact absurd (hsrc.symm.trans hcaller) (fileId_ne_declarationId hpath)
    · obtain ⟨a, b, hb, rfl⟩ := (arises_of_mem_links hl).of_imports himports
      obtain rfl : a = path := (String.append_right_inj _).mp hsrc
      exact ⟨b, rfl, hb⟩
  · rintro ⟨other, rfl, hother⟩
    refine ⟨⟨fileId path, fileId other, .imports⟩, ⟨?_, rfl, .inr rfl⟩, rfl⟩
    exact mem_links_build.mpr (.inr (.inl (mem_importLinks.mpr
      ⟨path, other, hother, (mem_keys_of_imports hgraph hother).2, rfl⟩)))

theorem embeds_build (maxCycleFiles : Nat) (hpaths : ∀ path ∈ outlines.keys, '#' ∉ path.toList) :
    Embeds fileId (ImportGraph.build outlines maxCycleFiles).nodes.keys
      (ImportGraph.build outlines maxCycleFiles).dependenciesOf
      (build outlines (ImportGraph.build outlines maxCycleFiles)).nodes.keys
      (build outlines (ImportGraph.build outlines maxCycleFiles)).uses := by
  have hgraph := ImportGraph.depicts_build outlines maxCycleFiles
  rw [ImportGraph.keys_build]
  generalize ImportGraph.build outlines maxCycleFiles = graph at hgraph
  have hlist : ∀ path ∈ outlines.keys, fileId path ∈ (build outlines graph).nodes.keys :=
    fun path hpath => mem_keys_nodes_build.mpr (.inl ⟨path, hpath, rfl⟩)
  refine ⟨compare_append_left _, hlist, fun a ha x => ?_⟩
  rw [Linked, mem_uses_fileId_iff hgraph (hpaths a ha)]
  constructor
  · rintro ⟨-, -, b, rfl, hb⟩
    exact ⟨b, rfl, ha, (mem_keys_of_imports hgraph hb).2, hb⟩
  · rintro ⟨b, rfl, -, hmem, hb⟩
    exact ⟨hlist a ha, hlist b hmem, b, rfl, hb⟩

/-- Built from outlines and their import graph, where no path has a number sign, a property graph
    has components of files and components of declarations. No id is of both sorts, and the
    components of files are those of the import graph, in their order. -/
theorem components_keep_circularity (outlines : Dict String Outline) (maxCycleFiles : Nat)
    (hpaths : ∀ path ∈ outlines.keys, '#' ∉ path.toList) :
    let imports := ImportGraph.build outlines maxCycleFiles
    let properties := build outlines imports
    (fileIds outlines).Disjoint (declarationIds outlines) ∧
      (∀ component ∈ properties.components, (∀ id ∈ component, id ∈ fileIds outlines) ∨
        ∀ id ∈ component, id ∈ declarationIds outlines) ∧
      (properties.components.filter fun component => ∀ id ∈ component, id ∈ fileIds outlines) =
        imports.components.map (List.map fileId) := by
  have hembeds := embeds_build maxCycleFiles hpaths
  have hids : (ImportGraph.build outlines maxCycleFiles).nodes.keys.map fileId =
      fileIds outlines := by rw [ImportGraph.keys_build, fileIds]
  refine ⟨disjoint_ids hpaths, fun component hcomponent => ?_, ?_⟩
  · by_cases hfile : ∃ id ∈ component, id ∈ fileIds outlines
    · obtain ⟨id, hid, hfile⟩ := hfile
      rw [← hids] at hfile ⊢
      obtain ⟨path, hpath, rfl⟩ := mem_map.mp hfile
      exact .inl (hembeds.forall_mem_image hcomponent hpath hid)
    · -- All nodes are of one of the two sorts, and there is no file among these.
      refine .inr fun id hid => ?_
      rcases mem_keys_nodes_build.mp
          ((maximal_of_mem_components hcomponent).prop.listed id hid) with
        ⟨path, hpath, rfl⟩ | hdeclared
      · exact absurd ⟨_, hid, mem_map_of_mem hpath⟩ hfile
      · exact mem_declarationIds.mpr hdeclared
  · rw [← hids]
    exact hembeds.components_filter

/-- Two files import each other, and a function of each calls one of the other. -/
def entangled : Dict String Outline := .ofList
  [("a.ts", { Outline.empty "a.ts" "1" with
      declarations := [{ Declaration.bare .function "f" with
        calls := ["g"]
        exports := some ["f"] }]
      imports := [.of "./b" ["g"] false] }),
    ("b.ts", { Outline.empty "b.ts" "1" with
      declarations := [{ Declaration.bare .function "g" with
        calls := ["f"]
        exports := some ["g"] }]
      imports := [.of "./a" ["f"] false] })]

/-- There are components of both sorts if both files and functions are entangled. -/
theorem components_keep_circularity_entangled : let imports := ImportGraph.build entangled 100
    let properties := build entangled imports
    (∀ path ∈ entangled.keys, '#' ∉ path.toList) ∧
      (∃ component ∈ imports.components, "a.ts" ∈ component) ∧
      (∃ component ∈ properties.components, "a.ts#function:f" ∈ component) ∧
      (∀ component ∈ properties.components, (∀ id ∈ component, id ∈ fileIds entangled) ∨
        ∀ id ∈ component, id ∈ declarationIds entangled) ∧
      (properties.components.filter fun component => ∀ id ∈ component, id ∈ fileIds entangled) =
        imports.components.map (List.map fileId) := by
  have hpaths : ∀ path ∈ entangled.keys, '#' ∉ path.toList := by decide +kernel
  refine ⟨hpaths, ?_, ?_, (components_keep_circularity entangled 100 hpaths).2⟩
  · refine exists_component_iff.mpr ⟨"b.ts", by decide, .single ?_, .single ?_⟩
    all_goals unfold Linked; decide +kernel
  · refine exists_component_iff.mpr ⟨"b.ts#function:g", by decide, .single ?_, .single ?_⟩
    all_goals unfold Linked; decide +kernel

end PropertyGraph

end Ripple
