import Ripple.Proofs.Property.Refinement

/-!
# What the File Index Lists

The index of a property graph lists for each file its id and then the ids of its
declarations, by place, where an id that equals the one before is left out. An
id comes more than once if a file declares something again, as with overloads or
in namespaces. It is listed once as long as nothing else is declared in between,
and again otherwise. So the ids of all files are the ids of all nodes, each
once, exactly if in no file a declaration comes again after another one.
-/

namespace Ripple

open List Dict

/-- What comes again comes again right away. -/
def Grouped : List String → Prop
  | [] => True
  | a :: rest => (a ∈ rest → rest.head? = some a) ∧ Grouped rest

instance decidableGrouped : ∀ items, Decidable (Grouped items)
  | [] => .isTrue trivial
  | _ :: rest => have := decidableGrouped rest; inferInstanceAs (Decidable (_ ∧ _))

section Repeats

variable {items : List String}

theorem mem_dropRepeats {item : String} : item ∈ dropRepeats items ↔ item ∈ items := by
  fun_induction dropRepeats items with
  | case1 => rfl
  | case2 a => rfl
  | case3 a rest ih => simp [ih]
  | case4 a b rest _ ih => simp [ih]

/-- An item is left twice iff it comes again after another one. -/
theorem nodup_dropRepeats_iff : (dropRepeats items).Nodup ↔ Grouped items := by
  fun_induction dropRepeats items with
  | case1 => simp [Grouped]
  | case2 a => simp [Grouped]
  | case3 a rest ih => simp [Grouped, ih]
  | case4 a b rest hne ih =>
    rw [nodup_cons, mem_dropRepeats, ih, Grouped.eq_2 a]
    simp [Ne.symm hne]

end Repeats

namespace PropertyGraph

/-- What the index lists for a file. -/
def listed (path : String) (o : Outline) : List String := dropRepeats ((nodesOf path o).map (·.id))

variable {outlines : Dict String Outline} {graph : ImportGraph} {path : String} {o : Outline}

theorem mem_listed {id : String} : id ∈ listed path o ↔
    id = fileId path ∨ ∃ d ∈ o.declarations, id = declarationId path d := by
  simp only [listed, mem_dropRepeats, nodesOf, map_cons, map_map, mem_cons, mem_map,
    Outline.mem_inPlaceOrder, eq_comm]
  rfl

/-- The id of a file is none of the ids of its declarations. -/
theorem listed_eq (h : '#' ∉ path.toList) : listed path o =
    fileId path :: dropRepeats (o.inPlaceOrder.map (declarationId path)) := by
  rw [listed, nodesOf, map_cons, map_map]
  cases o.inPlaceOrder with
  | nil => rfl
  | cons d rest => exact if_neg (fileId_ne_declarationId h)

theorem nodup_listed_iff (h : '#' ∉ path.toList) :
    (listed path o).Nodup ↔ Grouped (o.inPlaceOrder.map (declarationId path)) := by
  rw [listed_eq h, nodup_cons, nodup_dropRepeats_iff, mem_dropRepeats, and_iff_right]
  intro hmem
  obtain ⟨d, -, hd⟩ := mem_map.mp hmem
  exact fileId_ne_declarationId h hd.symm

/-- Different files have no ids in common. -/
theorem disjoint_listed {other : String} {o' : Outline} (h : '#' ∉ path.toList)
    (h' : '#' ∉ other.toList) (hne : path ≠ other) :
    (listed path o).Disjoint (listed other o') := by
  intro id hid hid'
  rcases mem_listed.mp hid with rfl | ⟨d, -, rfl⟩
  · rcases mem_listed.mp hid' with heq | ⟨d', -, heq⟩
    · exact hne ((String.append_right_inj _).mp heq)
    · exact fileId_ne_declarationId h heq
  · rcases mem_listed.mp hid' with heq | ⟨d', -, heq⟩
    · exact fileId_ne_declarationId h' heq.symm
    · exact hne (declarationId_path h h' heq)

theorem values_fileIndex : (build outlines graph).fileIndex.values =
    outlines.toList.map fun entry => listed entry.1 entry.2 :=
  map_map

/-- All ids are listed, and nothing else. -/
theorem mem_fileIndex_iff {id : String} : id ∈ (build outlines graph).fileIndex.values.flatten ↔
    id ∈ (build outlines graph).nodes.keys := by
  rw [mem_keys_nodes_build, values_fileIndex]
  simp only [mem_flatten, mem_map, Prod.exists, mem_toList_iff]
  constructor
  · rintro ⟨_, ⟨path, o, ho, rfl⟩, hid⟩
    exact (mem_listed.mp hid).imp (fun heq => ⟨path, mem_keys_of_get ho, heq⟩)
      fun ⟨d, hd, heq⟩ => ⟨path, d, ⟨o, ho, hd⟩, heq⟩
  · rintro (⟨path, hpath, heq⟩ | ⟨path, d, ⟨o, ho, hd⟩, heq⟩)
    · obtain ⟨o, ho⟩ := Option.isSome_iff_exists.mp (mem_keys_iff.mp hpath)
      exact ⟨_, ⟨path, o, ho, rfl⟩, mem_listed.mpr (.inl heq)⟩
    · exact ⟨_, ⟨path, o, ho, rfl⟩, mem_listed.mpr (.inr ⟨d, hd, heq⟩)⟩

theorem perm_fileIndex_iff (hpaths : ∀ path ∈ outlines.keys, '#' ∉ path.toList) :
    (build outlines graph).fileIndex.values.flatten.Perm (build outlines graph).nodes.keys ↔
      ∀ path o, outlines.get? path = some o →
        Grouped (o.inPlaceOrder.map (declarationId path)) := by
  have hnd := (increasing_keys (build outlines graph).nodes).nodup
  have hiff : (build outlines graph).fileIndex.values.flatten.Perm
      (build outlines graph).nodes.keys ↔ (build outlines graph).fileIndex.values.flatten.Nodup :=
    ⟨fun hperm => hperm.nodup_iff.mpr hnd,
      fun h => (perm_ext_iff_of_nodup h hnd).mpr fun _ => mem_fileIndex_iff⟩
  rw [hiff, values_fileIndex, nodup_flatten, and_iff_left]
  · simp only [forall_mem_map, Prod.forall, mem_toList_iff]
    exact forall₂_congr fun path o => forall_congr' fun ho =>
      nodup_listed_iff (hpaths path (mem_keys_of_get ho))
  · refine pairwise_map.mpr (outlines.ascending.imp_of_mem fun {a b} ha hb hlt => ?_)
    refine disjoint_listed (hpaths _ (mem_map_of_mem ha)) (hpaths _ (mem_map_of_mem hb)) ?_
    intro heq
    rw [heq] at hlt
    exact compare_self_ne_lt _ hlt

/-- Where no path has a number sign, the index lists for each file its id and then the ids of its
    declarations, and none of them twice exactly if what is declared again is declared again right
    away. The ids of all files are those of all nodes, each once, exactly if that is so in all
    files. -/
theorem listed_once_iff_grouped (outlines : Dict String Outline) (graph : ImportGraph)
    (hpaths : ∀ path ∈ outlines.keys, '#' ∉ path.toList) :
    (∀ path o, outlines.get? path = some o → ∃ ids,
      (build outlines graph).fileIndex.get? path = some (fileId path :: ids) ∧
      (∀ id, id ∈ ids ↔ ∃ d ∈ o.declarations, id = declarationId path d) ∧
      (ids.Nodup ↔ Grouped (o.inPlaceOrder.map (declarationId path)))) ∧
    ((build outlines graph).fileIndex.values.flatten.Perm (build outlines graph).nodes.keys ↔
      ∀ path o, outlines.get? path = some o →
        Grouped (o.inPlaceOrder.map (declarationId path))) := by
  refine ⟨fun path o ho => ⟨dropRepeats (o.inPlaceOrder.map (declarationId path)), ?_, ?_,
    nodup_dropRepeats_iff⟩, perm_fileIndex_iff hpaths⟩
  · rw [← listed_eq (hpaths path (mem_keys_of_get ho))]
    exact (get_map _ _ _).trans (congrArg _ ho)
  · simp [mem_dropRepeats, Outline.mem_inPlaceOrder, eq_comm]

/-- A file that declares functions of some names, one after another. -/
def declaring (names : List String) : Outline :=
  { Outline.empty "a.ts" "1" with declarations := names.map (Declaration.bare .function) }

theorem grouped_declaring_iff (names : List String) :
    (∀ path o, (Dict.ofList [("a.ts", declaring names)]).get? path = some o →
        Grouped (o.inPlaceOrder.map (declarationId path))) ↔
      Grouped (names.map fun name => declarationId "a.ts" (.bare .function name)) := by
  have horder : (declaring names).inPlaceOrder = names.map (Declaration.bare .function) :=
    mergeSort_of_pairwise (pairwise_map.mpr (pairwise_of_forall fun _ _ => rfl))
  have hfile : ∀ entry, entry ∈ (Dict.ofList [("a.ts", declaring names)]).toList ↔
      entry = ("a.ts", declaring names) := fun _ => mem_singleton
  rw [← Function.comp_def, ← map_map, ← horder]
  refine ⟨fun h => h _ _ (mem_toList_iff.mp ((hfile _).mpr rfl)), fun h path o ho => ?_⟩
  obtain ⟨rfl, rfl⟩ := Prod.mk.inj ((hfile _).mp (mem_toList_iff.mpr ho))
  exact h

/-- A function that is declared twice in a row is listed once. -/
theorem listed_once_iff_grouped_overloaded :
    (build (.ofList [("a.ts", declaring ["f", "f", "g"])]) .empty).fileIndex.values.flatten.Perm
      (build (.ofList [("a.ts", declaring ["f", "f", "g"])]) .empty).nodes.keys :=
  (listed_once_iff_grouped _ _ (by decide +kernel)).2.mpr
    ((grouped_declaring_iff _).mpr (by decide +kernel))

/-- With another function in between it is listed twice. -/
theorem not_listed_once_alternating :
    ¬ (build (.ofList [("a.ts", declaring ["f", "g", "f"])]) .empty).fileIndex.values.flatten.Perm
      (build (.ofList [("a.ts", declaring ["f", "g", "f"])]) .empty).nodes.keys := by
  rw [perm_fileIndex_iff (by decide +kernel), grouped_declaring_iff]
  decide +kernel

end PropertyGraph

end Ripple
