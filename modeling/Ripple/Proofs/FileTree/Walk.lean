import Ripple.FileTree.Edit
import Ripple.FileTree.Walk
import Ripple.Proofs.Dict
import Ripple.Proofs.Path

/-!
# What a Walk Finds

A walk over a tree and a look at one path have to agree on which files there
are: a full scan rests on the walk, and a pass over named files on single
looks. They do, for trees as a file system has them, where the entries of a
directory have different names and every name can stand in a path.

The walk enters no directory that is passed over, and the question whether a
file is tracked looks at the directories above the file. What has to be shown
is that both mean the same directories, so that the walk passes over no file
that is tracked.

Nothing is assumed of the way in which a walk comes to the nodes of a tree, but
that it meets each node once and all that it gets to (`FileTree.Traverses`).
Since what is met is looked at once more, file by file, more may be met without
harm, and since the files are put in order, the order does not matter.

## Theorems

* `FileTree.at_ofNames`: A look at a path follows its names.
* `FileTree.traverses_visit`: A walk meets what it gets to, and each node once.
* `FileWalker.admits_of_tracks`: A walk gets to every file that is tracked.
* `FileTree.mem_walk_iff`: A walk finds what is tracked, and nothing else.
* `FileWalker.collect_finds_tracked`: The walk and the test for a path agree on every tree.
-/

namespace Ripple

open List Ripple.Path

namespace FileTree

/-- A tree in which the entries of each directory have different names that can stand in a
    path. -/
inductive Named : FileTree → Prop
  | file (content : ByteArray) (modified : Int64) : Named (file content modified)
  | directory {entries : List (String × FileTree)} (names : ∀ e ∈ entries, IsName e.1)
      (distinct : (entries.map Prod.fst).Nodup) (below : ∀ e ∈ entries, Named e.2) :
      Named (directory entries)

/-- Whether a text can be looked for as a path. -/
def Reachable (path : String) : Prop :=
  '\x00' ∉ path.toList ∧ path.utf8ByteSize ≤ maxPathSize

/-- A tree as a file system has them. -/
structure WellFormed (top : FileTree) : Prop where
  isDirectory : top.isDirectory = true
  /-- The entries of each directory can be told apart by name. -/
  named : top.Named
  /-- Every file can be looked for. -/
  reachable : ∀ names content modified, top.node? names = some (file content modified) →
    Reachable (ofSegments names)

section Looking

variable {node top : FileTree} {names : List String} {entries : List (String × FileTree)}

theorem node_cons {name : String} (first : String) (rest : List String) :
    (directory ((name, node) :: entries)).node? (first :: rest) =
      if name = first then node.node? rest else (directory entries).node? (first :: rest) := by
  by_cases h : name = first
  · simp only [node?, find?_cons, decide_eq_true h, if_pos h]
  · simp only [node?, find?_cons, decide_eq_false h, if_neg h]

theorem node_nil_cons (first : String) (rest : List String) :
    (directory []).node? (first :: rest) = none := rfl

theorem mem_of_node {first : String} {rest : List String}
    (h : (directory entries).node? (first :: rest) = some node) :
    first ∈ entries.map Prod.fst := by
  induction entries with
  | nil => exact nomatch h
  | cons e entries ih =>
    rw [node_cons] at h
    by_cases hname : e.1 = first
    · exact hname ▸ mem_cons_self
    · rw [if_neg hname] at h
      exact mem_cons_of_mem _ (ih h)

theorem isName_of_node (htop : top.Named) (h : top.node? names = some node) :
    ∀ name ∈ names, IsName name := by
  induction names generalizing top with
  | nil => exact forall_mem_nil _
  | cons first rest ih =>
    cases htop with
    | file content modified => exact nomatch h
    | directory hnames hdist hbelow =>
      unfold node? at h
      split at h
      next e hfind =>
        have hfst : e.1 = first := by simpa using find?_some hfind
        have hmem := mem_of_find?_eq_some hfind
        exact forall_mem_cons.mpr ⟨hfst ▸ hnames e hmem, ih (hbelow e hmem) h⟩
      next => exact nomatch h

/-- Following names leads to the node at their end, or fails if there is none. -/
theorem node_trace (top : FileTree) (h : ∀ name ∈ names, IsName name) (way : Way) :
    (trace top way names).toOption.map (Way.node top) = (way.node top).node? names := by
  induction names generalizing way with
  | nil => rfl
  | cons first rest ih =>
    obtain ⟨hfst, hrest⟩ := forall_mem_cons.mp h
    have hblank : ¬ (decide (first = "") || decide (first = ".")) = true := by
      rw [Bool.or_eq_true, decide_eq_true_eq, decide_eq_true_eq, not_or]
      exact ⟨hfst.ne_empty, hfst.ne_dot⟩
    unfold trace
    cases hnode : way.node top with
    | file content modified => rfl
    | directory entries =>
      simp only [if_neg hblank, if_neg hfst.ne_dots, entry?, node?]
      cases entries.find? fun e => e.1 = first with
      | none => rfl
      | some e => exact ih hrest ((first, e.2) :: way)

theorem checked_ofNames (hne : names ≠ []) (h : ∀ name ∈ names, IsName name)
    (hreach : Reachable (ofSegments names)) :
    checked (ofSegments names) = .ok names := by
  have hsplit := splitText_ofNames hne h
  have hnonempty : ofSegments names ≠ "" := by
    intro hempty
    have hblank : names = [""] := by
      rw [← hsplit, hempty]
      rfl
    exact (h "" (hblank ▸ mem_singleton_self "")).ne_empty rfl
  -- No name is empty, so nothing is dropped in front.
  have hfront : names.dropWhile (· = "") = names := by
    cases names with
    | nil => rfl
    | cons first rest =>
      have hfst : first ≠ "" := (h first mem_cons_self).ne_empty
      simp only [dropWhile_cons, decide_eq_false hfst, Bool.false_eq_true, if_false]
  have hzero : ¬ (ofSegments names).toList.contains '\x00' = true := by
    rw [contains_iff_mem]
    exact hreach.1
  rw [checked, if_neg hzero, if_neg hnonempty, if_neg (Nat.not_lt.mpr hreach.2), hsplit, hfront]

theorem at_ofNames (top : FileTree) (hne : names ≠ []) (h : ∀ name ∈ names, IsName name)
    (hreach : Reachable (ofSegments names)) :
    (top.at? (ofSegments names)).toOption = top.node? names := by
  have hat : top.at? (ofSegments names) = (trace top [] names).map (Way.node top) := by
    unfold at?
    rw [checked_ofNames hne h hreach]
    rfl
  have htop : top.node? names = (trace top [] names).toOption.map (Way.node top) :=
    (node_trace top h []).symm
  rw [hat, htop]
  cases trace top [] names with
  | error fault => rfl
  | ok way => rfl

theorem reachable_of_at {path : String} (h : top.at? path = .ok node) : Reachable path := by
  have hchecked : ∃ segments, checked path = .ok segments := by
    cases hpath : checked path with
    | error fault =>
      unfold at? at h
      rw [hpath] at h
      exact nomatch h
    | ok segments => exact ⟨segments, rfl⟩
  obtain ⟨segments, hsegs⟩ := hchecked
  unfold checked at hsegs
  split at hsegs
  · exact nomatch hsegs
  next hzero =>
    split at hsegs
    · exact nomatch hsegs
    · split at hsegs
      · exact nomatch hsegs
      next hsize =>
        rw [contains_iff_mem] at hzero
        exact ⟨hzero, Nat.not_lt.mp hsize⟩

theorem file_eq_some_iff {path : String} {content : ByteArray} {time : Int64} :
    top.file? path = some (content, time) ↔
      ∃ modified, top.at? path = .ok (file content modified) ∧ timeOf modified = time := by
  unfold file?
  constructor
  · intro h
    split at h
    next held modified hat =>
      obtain ⟨rfl, rfl⟩ := Prod.mk.inj (Option.some.inj h)
      exact ⟨modified, hat, rfl⟩
    · exact nomatch h
  · rintro ⟨modified, hat, rfl⟩
    rw [hat]

/-- The file at a path is the file at the end of its names. -/
theorem file_ofNames_iff (htop : top.WellFormed) (hne : names ≠ [])
    (h : ∀ name ∈ names, IsName name) {content : ByteArray} {time : Int64} :
    top.file? (ofSegments names) = some (content, time) ↔
      ∃ modified, top.node? names = some (file content modified) ∧ timeOf modified = time := by
  rw [file_eq_some_iff]
  refine exists_congr fun modified => and_congr_left fun _ => ?_
  constructor
  · intro hat
    rw [← at_ofNames top hne h (reachable_of_at hat), hat]
    rfl
  · intro hnode
    have hat := at_ofNames top hne h (htop.reachable names content modified hnode)
    rw [hnode] at hat
    cases hfound : top.at? (ofSegments names) with
    | error fault =>
      rw [hfound] at hat
      exact nomatch hat
    | ok node =>
      rw [hfound] at hat
      rw [Option.some.inj hat]

end Looking

section Walking

/-- A walk gets to the end of some names: none of them is hidden, and every node on the way passes a
    test, the last one as what it is and the others as directories. -/
def Admits (passes : List String → Bool → Bool) (names : List String) (isDirectory : Bool) : Prop :=
  ∀ front name back, names = front ++ name :: back → IgnoreRules.isHidden name = false ∧
    passes (front ++ [name]) (isDirectory || !back.isEmpty) = true

/-- A list of nodes that a walk over a tree may have met, by a test. -/
structure Traverses (passes : List String → Bool → Bool) (top : FileTree)
    (met : List TreeEntry) : Prop where
  /-- Each node is met once. -/
  once : (met.map TreeEntry.names).Nodup
  /-- What is met is there. -/
  found : ∀ e ∈ met, top.node? e.names = some e.node
  /-- What a walk gets to is met. -/
  complete : ∀ names node, names ≠ [] → top.node? names = some node →
    Admits passes names node.isDirectory → ⟨names, node⟩ ∈ met

variable {passes : List String → Bool → Bool} {name : String} {rest : List String}
  {node target : FileTree} {entries : List (String × FileTree)}

theorem Admits.head {isDirectory : Bool} (h : Admits passes (name :: rest) isDirectory) :
    IgnoreRules.isHidden name = false ∧ passes [name] (isDirectory || !rest.isEmpty) = true :=
  h [] name rest rfl

theorem Admits.tail {isDirectory : Bool} (h : Admits passes (name :: rest) isDirectory) :
    Admits (fun names => passes (name :: names)) rest isDirectory := by
  rintro front next back rfl
  exact h (name :: front) next back rfl

theorem isDirectory_of_node (h : node.node? rest = some target) :
    node.isDirectory = (target.isDirectory || !rest.isEmpty) := by
  cases rest with
  | nil =>
    rw [show node = target from Option.some.inj h, isEmpty_nil, Bool.not_true, Bool.or_false]
  | cons first rest =>
    rw [isEmpty_cons, Bool.not_false, Bool.or_true]
    cases node with
    | file content modified => exact nomatch h
    | directory entries => rfl

/-- What holds of the first entry of a directory, and of the directory without it. -/
theorem named_cons (h : (directory ((name, node) :: entries)).Named) :
    IsName name ∧ name ∉ entries.map Prod.fst ∧ node.Named ∧ (directory entries).Named := by
  cases h with
  | directory hnames hdist hbelow =>
    obtain ⟨hname, hnames⟩ := forall_mem_cons.mp hnames
    obtain ⟨hnew, hdist⟩ := nodup_cons.mp hdist
    obtain ⟨hnode, hbelow⟩ := forall_mem_cons.mp hbelow
    exact ⟨hname, hnew, hnode, .directory hnames hdist hbelow⟩

theorem node_cons_of_node {first : String} (hnew : name ∉ entries.map Prod.fst)
    (h : (directory entries).node? (first :: rest) = some target) :
    (directory ((name, node) :: entries)).node? (first :: rest) = some target := by
  have hother : name ≠ first := by
    rintro rfl
    exact hnew (mem_of_node h)
  rw [node_cons, if_neg hother, h]

mutual

/-- What a walk meets from a place on is at the ends of further names. -/
theorem node_of_mem_visitFrom (above : List String) {e : TreeEntry} :
    ∀ {node : FileTree}, node.Named → e ∈ visitFrom passes above node →
      ∃ rest, e.names = above ++ rest ∧ node.node? rest = some e.node
  | file content modified, _, he => by
    rw [visitFrom, mem_singleton] at he
    subst he
    exact ⟨[], (append_nil above).symm, rfl⟩
  | directory entries, hnode, he => by
    rw [visitFrom, mem_cons] at he
    rcases he with rfl | he
    · exact ⟨[], (append_nil above).symm, rfl⟩
    · obtain ⟨first, rest, hnames, hfound⟩ := node_of_mem_visitEntries above hnode he
      exact ⟨first :: rest, hnames, hfound⟩

/-- What a walk meets from the entries of a directory on is at the ends of further names. -/
theorem node_of_mem_visitEntries (above : List String) {e : TreeEntry} :
    ∀ {entries : List (String × FileTree)}, (directory entries).Named →
      e ∈ visitEntries passes above entries →
      ∃ first rest, e.names = above ++ first :: rest ∧
        (directory entries).node? (first :: rest) = some e.node
  | [], _, he => by
    rw [visitEntries] at he
    exact absurd he not_mem_nil
  | (name, node) :: entries, hdir, he => by
    obtain ⟨-, hnew, hnode, hents⟩ := named_cons hdir
    rw [visitEntries, mem_append] at he
    rcases he with he | he
    · split at he
      · obtain ⟨rest, hnames, hfound⟩ := node_of_mem_visitFrom (above ++ [name]) hnode he
        rw [append_assoc] at hnames
        exact ⟨name, rest, hnames, by rw [node_cons, if_pos rfl, hfound]⟩
      · exact absurd he not_mem_nil
    · obtain ⟨first, rest, hnames, hfound⟩ := node_of_mem_visitEntries above hents he
      exact ⟨first, rest, hnames, node_cons_of_node hnew hfound⟩

end

mutual

/-- A walk from a place on meets what it gets to. -/
theorem mem_visitFrom_of_admits (above : List String) {rest : List String} {target : FileTree} :
    ∀ {node : FileTree}, node.node? rest = some target →
      Admits (fun names => passes (above ++ names)) rest target.isDirectory →
      ⟨above ++ rest, target⟩ ∈ visitFrom passes above node
  | file content modified, hfound, _ => by
    cases rest with
    | nil =>
      rw [← Option.some.inj hfound, append_nil, visitFrom]
      exact mem_singleton_self _
    | cons first rest => exact nomatch hfound
  | directory entries, hfound, hadmits => by
    rw [visitFrom, mem_cons]
    cases rest with
    | nil =>
      rw [← Option.some.inj hfound, append_nil]
      exact .inl rfl
    | cons first rest => exact .inr (mem_visitEntries_of_admits above hfound hadmits)

/-- A walk from the entries of a directory on meets what it gets to. -/
theorem mem_visitEntries_of_admits (above : List String) {first : String} {rest : List String}
    {target : FileTree} :
    ∀ {entries : List (String × FileTree)},
      (directory entries).node? (first :: rest) = some target →
      Admits (fun names => passes (above ++ names)) (first :: rest) target.isDirectory →
      ⟨above ++ first :: rest, target⟩ ∈ visitEntries passes above entries
  | [], hfound, _ => nomatch hfound
  | (name, node) :: entries, hfound, hadmits => by
    rw [node_cons] at hfound
    rw [visitEntries, mem_append]
    by_cases hfst : name = first
    · rw [if_pos hfst] at hfound
      subst hfst
      obtain ⟨hvisible, hpasses⟩ := hadmits.head
      rw [← isDirectory_of_node hfound] at hpasses
      have hshift : (fun names => passes (above ++ name :: names)) =
          fun names => passes (above ++ [name] ++ names) :=
        funext fun names => congrArg passes (append_cons above name names)
      refine .inl ?_
      rw [append_cons above name rest, if_pos (by rw [hvisible, hpasses]; rfl)]
      exact mem_visitFrom_of_admits (above ++ [name]) hfound (hshift ▸ hadmits.tail)
    · rw [if_neg hfst] at hfound
      exact .inr (mem_visitEntries_of_admits above hfound hadmits)

end

mutual

/-- A walk from a place on meets each node once. -/
theorem nodup_visitFrom (above : List String) : ∀ {node : FileTree}, node.Named →
    ((visitFrom passes above node).map TreeEntry.names).Nodup
  | file content modified, _ => by
    rw [visitFrom]
    exact pairwise_singleton _ _
  | directory entries, hnode => by
    rw [visitFrom, map_cons, nodup_cons]
    refine ⟨fun hmem => ?_, nodup_visitEntries above hnode⟩
    obtain ⟨e, he, hnames⟩ := mem_map.mp hmem
    obtain ⟨first, rest, hbelow, -⟩ := node_of_mem_visitEntries above hnode he
    rw [hbelow] at hnames
    exact cons_ne_nil _ _ (List.append_right_eq_self.mp hnames)

/-- A walk from the entries of a directory on meets each node once. -/
theorem nodup_visitEntries (above : List String) :
    ∀ {entries : List (String × FileTree)}, (directory entries).Named →
      ((visitEntries passes above entries).map TreeEntry.names).Nodup
  | [], _ => by
    rw [visitEntries]
    exact nodup_nil
  | (name, node) :: entries, hdir => by
    obtain ⟨-, hnew, hnode, hents⟩ := named_cons hdir
    rw [visitEntries, map_append]
    split
    · refine List.nodup_append.mpr ⟨nodup_visitFrom (above ++ [name]) hnode,
        nodup_visitEntries above hents, fun names hnames other hother heq => ?_⟩
      -- What is below different entries has different names where they part.
      obtain ⟨e, he, rfl⟩ := mem_map.mp hnames
      obtain ⟨e', he', rfl⟩ := mem_map.mp hother
      obtain ⟨rest, hbelow, -⟩ := node_of_mem_visitFrom (above ++ [name]) hnode he
      obtain ⟨first, rest', hbelow', hfound⟩ := node_of_mem_visitEntries above hents he'
      rw [hbelow, hbelow', append_assoc, append_cancel_left_eq, singleton_append] at heq
      exact hnew ((List.cons.inj heq).1 ▸ mem_of_node hfound)
    · exact nodup_visitEntries above hents

end

theorem traverses_visit (passes : List String → Bool → Bool) {top : FileTree} (htop : top.Named) :
    Traverses passes top (top.visit passes) where
  once := nodup_visitFrom [] htop
  found e he := by
    obtain ⟨rest, hnames, hfound⟩ := node_of_mem_visitFrom [] htop he
    rw [hnames]
    exact hfound
  complete names _ _ hfound hadmits := mem_visitFrom_of_admits [] hfound hadmits

end Walking

end FileTree

section Sorting

namespace TreeFile

/-- One file comes before another one, segment by segment. -/
def Before (f g : TreeFile) : Prop := compare f.segments g.segments = .lt

theorem insertByPath_eq_orderedInsert (f : TreeFile) (files : List TreeFile) :
    insertByPath f files =
      files.orderedInsert (fun f g => (compare f.segments g.segments).isLE = true) f := by
  induction files with
  | nil => rfl
  | cons first rest ih => rw [insertByPath, ih, List.orderedInsert]

variable {files : List TreeFile}

theorem sortByPath_eq_insertionSort : sortByPath files =
    files.insertionSort fun f g => (compare f.segments g.segments).isLE = true := by
  rw [sortByPath, funext₂ insertByPath_eq_orderedInsert, List.insertionSort]

theorem sortByPath_perm : (sortByPath files).Perm files :=
  sortByPath_eq_insertionSort ▸ perm_insertionSort _ files

theorem pairwise_sortByPath (h : files.Pairwise fun f g => f.segments ≠ g.segments) :
    (sortByPath files).Pairwise Before := by
  let le (f g : TreeFile) : Prop := (compare f.segments g.segments).isLE = true
  have : Std.Total le := ⟨fun f g => or_iff_not_imp_left.mpr fun hnot =>
    Ordering.isLE_of_eq_lt (Std.OrientedCmp.lt_of_not_isLE hnot)⟩
  have : IsTrans TreeFile le := ⟨fun _ _ _ => Std.TransCmp.isLE_trans⟩
  have hle : (sortByPath files).Pairwise le :=
    sortByPath_eq_insertionSort ▸ pairwise_insertionSort le files
  have hne := (sortByPath_perm.pairwise_iff fun hne => hne.symm).mpr h
  refine (hle.and hne).imp fun {f g} ⟨(hle : (compare f.segments g.segments).isLE), hne⟩ => ?_
  unfold Before
  cases hcmp : compare f.segments g.segments with
  | lt => rfl
  | eq => exact absurd (Std.LawfulEqCmp.eq_of_compare hcmp) hne
  | gt => exact absurd hle (by rw [hcmp]; exact nofun)

end TreeFile

end Sorting

section Collecting

namespace FileWalker

open FileTree

variable {w : FileWalker} {top : FileTree} {met : List TreeEntry}

theorem ofSegments_mem_ancestors {above rest : List String} {name : String} (hrest : rest ≠ []) :
    ofSegments (above ++ [name]) ∈ IgnoreRules.ancestors (above ++ name :: rest) := by
  have hlen : 0 < rest.length := List.length_pos_iff.mpr hrest
  refine mem_map.mpr ⟨above.length + 1, ?_, ?_⟩
  · rw [mem_range'_1, length_append, length_cons]
    omega
  · rw [take_length_add_append, take_succ_cons, take_zero]

theorem admits_of_tracks {names : List String} (hne : names ≠ []) (h : ∀ name ∈ names, IsName name)
    (htracks : w.tracks (ofSegments names) = true) : Admits w.passes names false := by
  unfold tracks IgnoreRules.excludes at htracks
  rw [splitText_ofNames hne h] at htracks
  simp only [Bool.and_eq_true, Bool.not_eq_true', Bool.or_eq_false_iff, any_eq_false] at htracks
  obtain ⟨-, ⟨hhidden, habove⟩, hself⟩ := htracks
  rintro front name back rfl
  refine ⟨?_, ?_⟩
  · exact Bool.not_eq_true _ |>.mp (hhidden name (mem_append_right _ mem_cons_self))
  · rw [passes, Bool.not_eq_true']
    cases back with
    | nil => exact hself
    | cons next rest =>
      exact Bool.not_eq_true _ |>.mp (habove _ (ofSegments_mem_ancestors (cons_ne_nil _ _)))

theorem file?_eq_some_iff {e : TreeEntry} {f : TreeFile} :
    w.file? e = some f ↔ e.names ≠ [] ∧ e.node = .file f.content f.modified ∧
      f.path = ofSegments e.names ∧ w.tracks f.path = true := by
  obtain ⟨names, node⟩ := e
  obtain ⟨path, content, modified⟩ := f
  cases node with
  | directory entries =>
    constructor
    · intro h
      cases h
    · rintro ⟨-, h, -⟩
      cases h
  | file content' modified' =>
    simp only [file?, Bool.and_eq_true, Bool.not_eq_true', isEmpty_eq_false_iff,
      Option.ite_none_right_eq_some, Option.some.injEq, TreeFile.mk.injEq, FileTree.file.injEq,
      ne_eq]
    constructor
    · rintro ⟨⟨hne, htracks⟩, rfl, rfl, rfl⟩
      exact ⟨hne, ⟨rfl, rfl⟩, rfl, htracks⟩
    · rintro ⟨hne, ⟨rfl, rfl⟩, rfl, htracks⟩
      exact ⟨⟨hne, htracks⟩, rfl, rfl, rfl⟩

/-- What is collected is what is tracked, whatever else was met. -/
theorem mem_collect_iff (htop : top.Named) (h : Traverses w.passes top met) {f : TreeFile} :
    f ∈ w.collect met ↔ ∃ names, names ≠ [] ∧
      top.node? names = some (.file f.content f.modified) ∧ f.path = ofSegments names ∧
        w.tracks f.path = true := by
  rw [collect, TreeFile.sortByPath_perm.mem_iff, mem_filterMap]
  constructor
  · rintro ⟨e, he, hfile⟩
    obtain ⟨hne, hnode, hpath, htracks⟩ := file?_eq_some_iff.mp hfile
    exact ⟨e.names, hne, hnode ▸ h.found e he, hpath, htracks⟩
  · rintro ⟨names, hne, hnode, hpath, htracks⟩
    have hadmits := admits_of_tracks hne (isName_of_node htop hnode) (hpath ▸ htracks)
    exact ⟨⟨names, _⟩, h.complete names _ hne hnode hadmits,
      file?_eq_some_iff.mpr ⟨hne, rfl, hpath, htracks⟩⟩

theorem pairwise_collect (htop : top.Named) (h : Traverses w.passes top met) :
    (w.collect met).Pairwise TreeFile.Before := by
  refine TreeFile.pairwise_sortByPath (List.pairwise_filterMap.mpr ?_)
  refine List.Pairwise.imp_of_mem ?_ (pairwise_map.mp h.once)
  intro e e' he he' hdist f hf g hg heq
  -- The segments of a file are the names that lead to it.
  have hsegs : ∀ {e f}, e ∈ met → w.file? e = some f → f.segments = e.names := by
    intro e f he hf
    obtain ⟨hne, -, hpath, -⟩ := file?_eq_some_iff.mp hf
    rw [TreeFile.segments, hpath, splitText_ofNames hne (isName_of_node htop (h.found e he))]
  rw [hsegs he hf, hsegs he' hg] at heq
  exact hdist heq

/-- What is collected does not depend on the order in which a walk meets the nodes of a tree. -/
theorem collect_eq_walk (htop : top.Named) (h : Traverses w.passes top met) :
    w.collect met = w.walk top := by
  have hvisit := traverses_visit w.passes htop
  refine eq_of_pairwise_compare TreeFile.segments (pairwise_collect htop h)
    (pairwise_collect htop hvisit) fun f => ?_
  rw [mem_collect_iff htop h, walk, mem_collect_iff htop hvisit]

end FileWalker

end Collecting

namespace FileTree

theorem mem_walk_iff {top : FileTree} (htop : top.WellFormed) {rules : IgnoreRules} {f : TreeFile} :
    f ∈ top.walk rules ↔ ∃ names, names ≠ [] ∧
      top.node? names = some (file f.content f.modified) ∧ f.path = ofSegments names ∧
        rules.tracks f.path = true :=
  FileWalker.mem_collect_iff htop.named (traverses_visit _ htop.named)

end FileTree

namespace FileTree

/-- A tree has a tracked file at a path. -/
structure Holds (top : FileTree) (rules : IgnoreRules) (path : String) (content : ByteArray)
    (time : Int64) : Prop where
  tracked : rules.tracks path = true
  /-- The path is the one that the file is known by. -/
  canonical : Canonical path
  found : top.file? path = some (content, time)

theorem Holds.unique {top : FileTree} {rules : IgnoreRules} {path : String}
    {content content' : ByteArray} {time time' : Int64} (h : top.Holds rules path content time)
    (h' : top.Holds rules path content' time') : content = content' ∧ time = time' :=
  Prod.mk.inj (Option.some.inj (h.found.symm.trans h'.found))

/-- A walk finds what single looks find. -/
theorem holds_iff_mem_walk {top : FileTree} (htop : top.WellFormed) {rules : IgnoreRules}
    {path : String} {content : ByteArray} {time : Int64} :
    top.Holds rules path content time ↔
      ∃ modified, ⟨path, content, modified⟩ ∈ top.walk rules ∧ timeOf modified = time := by
  constructor
  · rintro ⟨htrack, ⟨names, hne, hnames, rfl⟩, hfound⟩
    obtain ⟨modified, hnode, htime⟩ := (file_ofNames_iff htop hne hnames).mp hfound
    exact ⟨modified, (mem_walk_iff htop).mpr ⟨names, hne, hnode, rfl, htrack⟩, htime⟩
  · rintro ⟨modified, hmem, htime⟩
    obtain ⟨names, hne, hnode, hpath, htrack⟩ := (mem_walk_iff htop).mp hmem
    have hnames := isName_of_node htop.named hnode
    refine ⟨htrack, ⟨names, hne, hnames, hpath⟩, ?_⟩
    rw [show path = ofSegments names from hpath]
    exact (file_ofNames_iff htop hne hnames).mpr ⟨modified, hnode, htime⟩

section Small

variable {rules : IgnoreRules} {path name : String} {content : ByteArray} {time modified : Int64}
  {entries : List (String × FileTree)}

theorem exists_eq_file {node : FileTree} (h : node.isFile = true) :
    ∃ content modified, node = file content modified := by
  cases node with
  | file content modified => exact ⟨content, modified, rfl⟩
  | directory entries => exact nomatch h

/-- The files of a directory with files only can be told apart if it has each name once. -/
theorem named_of_files (hfiles : ∀ e ∈ entries, e.2.isFile = true)
    (hnames : ∀ e ∈ entries, IsName e.1) (hdist : (entries.map Prod.fst).Nodup) :
    (directory entries).Named := by
  refine .directory hnames hdist fun e he => ?_
  obtain ⟨content, modified, hfile⟩ := exists_eq_file (hfiles e he)
  rw [hfile]
  exact .file content modified

/-- A directory with files only is well-formed if it has each name once and each can be looked
    for. -/
theorem wellFormed_of_files (hfiles : ∀ e ∈ entries, e.2.isFile = true)
    (hnames : ∀ e ∈ entries, IsName e.1) (hreach : ∀ e ∈ entries, Reachable e.1)
    (hdist : (entries.map Prod.fst).Nodup) :
    (directory entries).WellFormed where
  isDirectory := rfl
  named := named_of_files hfiles hnames hdist
  reachable names content modified h := by
    cases names with
    | nil => exact nomatch h
    | cons first rest =>
      unfold node? at h
      split at h
      next e hfind =>
        have hmem := mem_of_find?_eq_some hfind
        have hfst : e.1 = first := by simpa using find?_some hfind
        obtain ⟨_, _, hfile⟩ := exists_eq_file (hfiles e hmem)
        rw [hfile] at h
        -- There is nothing below a file, so the first name is the last one.
        cases rest with
        | nil =>
          rw [← hfst]
          exact hreach e hmem
        | cons next rest => exact nomatch h
      next => exact nomatch h

theorem wellFormed_empty : empty.WellFormed :=
  wellFormed_of_files (forall_mem_nil _) (forall_mem_nil _) (forall_mem_nil _)
    nodup_nil

theorem not_holds_empty : ¬ empty.Holds rules path content time := by
  rintro ⟨-, ⟨names, hne, hnames, rfl⟩, hfound⟩
  obtain ⟨modified, hnode, -⟩ := (file_ofNames_iff wellFormed_empty hne hnames).mp hfound
  obtain ⟨first, rest, rfl⟩ := exists_cons_of_ne_nil hne
  exact nomatch hnode

/-- A directory with one file. -/
def single (name : String) (content : ByteArray) (modified : Int64) : FileTree :=
  directory [(name, file content modified)]

theorem node_single_iff {names : List String} {content' : ByteArray} {modified' : Int64} :
    (single name content modified).node? names = some (file content' modified') ↔
      names = [name] ∧ content = content' ∧ modified = modified' := by
  rw [← FileTree.file.injEq, single]
  cases names with
  | nil =>
    constructor
    · exact nofun
    · exact nofun
  | cons first rest =>
    rw [node_cons]
    by_cases hfst : name = first
    · subst hfst
      rw [if_pos rfl]
      cases rest with
      | nil => simp only [node?, Option.some.injEq, true_and]
      | cons next rest => simp only [node?, reduceCtorEq, List.cons.injEq, and_false, false_and]
    · rw [if_neg hfst]
      constructor
      · exact nofun
      · rintro ⟨hnames, -⟩
        exact absurd (List.cons.inj hnames).1.symm hfst

theorem wellFormed_single (hname : IsName name) (hreach : Reachable name) :
    (single name content modified).WellFormed :=
  wellFormed_of_files (forall_mem_singleton.mpr rfl) (forall_mem_singleton.mpr hname)
    (forall_mem_singleton.mpr hreach) (pairwise_singleton _ _)

theorem holds_single_iff (hname : IsName name) (hreach : Reachable name) {content' : ByteArray} :
    (single name content modified).Holds rules path content' time ↔
      path = name ∧ rules.tracks name = true ∧ content = content' ∧ timeOf modified = time := by
  have htree : (single name content modified).WellFormed := wellFormed_single hname hreach
  constructor
  · rintro ⟨htrack, ⟨names, hne, hnames, rfl⟩, hfound⟩
    obtain ⟨modified', hnode, htime⟩ := (file_ofNames_iff htree hne hnames).mp hfound
    obtain ⟨rfl, rfl, rfl⟩ := node_single_iff.mp hnode
    exact ⟨ofSegments_singleton name, ofSegments_singleton name ▸ htrack, rfl, htime⟩
  · rintro ⟨rfl, htrack, rfl, htime⟩
    have hnames : ∀ n ∈ [path], IsName n := forall_mem_singleton.mpr hname
    refine ⟨htrack, ⟨[path], cons_ne_nil _ _, hnames, (ofSegments_singleton path).symm⟩, ?_⟩
    exact (file_ofNames_iff htree (cons_ne_nil _ _) hnames).mpr
      ⟨modified, node_single_iff.mpr ⟨rfl, rfl, rfl⟩, htime⟩

end Small

end FileTree

namespace FileWalker

open FileTree

/-- Passing over hidden and ignored directories neither drops a file that is tracked nor keeps one
    that is not. For all languages and rules, every tree and every way to walk over it that meets
    each node once and all that it gets to, what is collected are the files at whose paths the test
    for a single path holds, each once and in order; all ways give the same list. -/
theorem collect_finds_tracked (w : FileWalker) {top : FileTree} {met : List TreeEntry}
    (htop : top.Named) (h : Traverses w.passes top met) :
    (∀ f, f ∈ w.collect met ↔ ∃ names, names ≠ [] ∧
      top.node? names = some (.file f.content f.modified) ∧ f.path = ofSegments names ∧
        w.tracks f.path = true) ∧
      (w.collect met).Pairwise TreeFile.Before ∧ w.collect met = w.walk top :=
  ⟨fun _ => mem_collect_iff htop h, pairwise_collect htop h, collect_eq_walk htop h⟩

/-- Two files that are tracked, and others in a hidden and in an ignored directory, not in order. -/
def scattered : FileTree := .directory
  [("src", .directory [("b.ts", .file .empty 2), ("notes.md", .file .empty 3)]),
    (".cache", .directory [("c.ts", .file .empty 4)]),
    ("dist", .directory [("d.ts", .file .empty 5)]), ("a.ts", .file .empty 1)]

/-- Files of all languages, with no rules but those of every project. -/
def plainWalker : FileWalker := .standard (.ofList [] "")

theorem named_scattered : scattered.Named := by
  refine .directory (by decide) (by decide) ?_
  simp only [forall_mem_cons]
  refine ⟨named_of_files ?_ ?_ ?_, named_of_files ?_ ?_ ?_, named_of_files ?_ ?_ ?_,
    .file _ _, forall_mem_nil _⟩
  all_goals decide

/-- A walk from the last entry to the first one finds the two files in order. -/
theorem collect_finds_tracked_scattered :
    (plainWalker.collect (scattered.visit plainWalker.passes).reverse).map TreeFile.path =
        ["a.ts", "src/b.ts"] ∧
      plainWalker.collect (scattered.visit plainWalker.passes).reverse =
        plainWalker.walk scattered := by
  have htraverses := traverses_visit plainWalker.passes named_scattered
  have hreverse : Traverses plainWalker.passes scattered
      (scattered.visit plainWalker.passes).reverse :=
    ⟨by rw [map_reverse]; exact nodup_reverse.mpr htraverses.once,
      fun e he => htraverses.found e (mem_reverse.mp he),
      fun names node hne hnode hadmits =>
        mem_reverse.mpr (htraverses.complete names node hne hnode hadmits)⟩
  exact ⟨by decide +kernel, (collect_finds_tracked plainWalker named_scattered hreverse).2.2⟩

end FileWalker

end Ripple
