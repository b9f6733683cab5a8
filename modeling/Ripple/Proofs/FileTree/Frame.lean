import Ripple.Proofs.FileTree.Edit
import Ripple.Proofs.FileTree.Walk

/-!
# What an Edit Leaves Alone

An edit is made at one place of a tree, and nothing should be seen of it
anywhere else: no file comes or goes or gets other content, and no directory is
lost. The nodes above the place do change, since they contain it, so what stays
is not the nodes but their faces: that there is a directory, or a file with
such a content and time.

A place that lies below the place of the edit is of no concern. There is
nothing below it before the edit if it was not a directory, and nothing after
it if it is none then, or an empty one.

Edits also keep a tree in order: the entries of a directory stand in the order
of their names, so that each name stands there once and a listing tells what a
look by name finds.
-/

namespace Ripple.FileTree

open List Ripple.Path

variable {top before middle after : FileTree} {names other : List String} {name : String}
  {change : Option FileTree → Option FileTree}

theorem file_iff_face {content : ByteArray} {modified : Int64} :
    top.node? names = some (file content modified) ↔
      (top.node? names).map face = some (some (content, modified)) := by
  rw [Option.map_eq_some_iff]
  constructor
  · exact fun hnode => ⟨_, hnode, rfl⟩
  · rintro ⟨node, hnode, hface⟩
    cases node with
    | directory entries => cases hface
    | file content' modified' =>
      obtain ⟨rfl, rfl⟩ := Prod.mk.inj (Option.some.inj hface)
      exact hnode

section Confined

variable {places places' : List String → Prop}

/-- A change that touches the files at certain names only and takes no directory away. -/
structure Confined (places : List String → Prop) (before after : FileTree) : Prop where
  directories : ∀ names, before.HasDirectory names → after.HasDirectory names
  /-- Files at other names stay, and none comes. -/
  files : ∀ names, ¬ places names → ∀ content modified,
    after.node? names = some (file content modified) ↔
      before.node? names = some (file content modified)

theorem Confined.refl (places : List String → Prop) (top : FileTree) : Confined places top top :=
  ⟨fun _ => id, fun _ _ _ _ => Iff.rfl⟩

theorem Confined.mono (h : Confined places before after)
    (hplaces : ∀ names, places names → places' names) : Confined places' before after :=
  ⟨h.directories, fun names hnames => h.files names fun hplace => hnames (hplaces names hplace)⟩

theorem Confined.trans (h : Confined places before middle) (h' : Confined places middle after) :
    Confined places before after :=
  ⟨fun names hnames => h'.directories names (h.directories names hnames),
    fun names hnames content modified =>
      (h'.files names hnames content modified).trans (h.files names hnames content modified)⟩

theorem node_append_ne_file {rest : List String} (hrest : rest ≠ [])
    (h : ∀ e entries, top.node? names ≠ some (directory (e :: entries))) (content : ByteArray)
    (modified : Int64) : top.node? (names ++ rest) ≠ some (file content modified) := by
  obtain ⟨first, rest, rfl⟩ := exists_cons_of_ne_nil hrest
  rw [node_append]
  intro hnode
  obtain ⟨node, hfound, hnode⟩ := Option.bind_eq_some_iff.mp hnode
  cases node with
  | file content modified => cases hnode
  | directory entries =>
    cases entries with
    | nil => cases hnode
    | cons e entries => exact h e entries hfound

/-- A change at a place that is no directory touches that place only, if it makes no directory with
    entries there. -/
theorem confined_alter (habove : top.HasDirectory names)
    (hnode : ∀ entries, top.node? (names ++ [name]) ≠ some (directory entries))
    (hchange : ∀ node e entries, change node ≠ some (directory (e :: entries))) :
    Confined (· = names ++ [name]) top (top.alter change (names ++ [name])) where
  directories other hother := by
    refine hasDirectory_alter ?_ hother
    rintro ⟨rest, rfl⟩
    obtain ⟨entries, hents⟩ := hother.of_append
    exact hnode entries hents
  files other hother content modified := by
    by_cases hpre : names ++ [name] <+: other
    · obtain ⟨rest, rfl⟩ := hpre
      have hrest : rest ≠ [] := by
        rintro rfl
        exact hother (append_nil _)
      refine iff_of_false (node_append_ne_file hrest (fun e entries => ?_) content modified)
        (node_append_ne_file hrest (fun e entries => hnode _) content modified)
      rw [node_alter_self habove]
      exact hchange _ e entries
    · rw [file_iff_face, file_iff_face, face_alter hpre]

theorem confined_makeBelow {top : FileTree} {made segments : List String}
    (h : top.HasDirectory made.reverse) :
    Confined (fun _ => False) top (makeBelow top made segments).2 := by
  induction segments generalizing top made with
  | nil => exact .refl _ top
  | cons segment rest ih =>
    rw [makeBelow]
    split
    · have htail : top.HasDirectory made.tail.reverse := by
        cases made with
        | nil => exact h
        | cons last made =>
          rw [reverse_cons] at h
          exact h.of_append
      exact ih htail
    · dsimp only
      split
      next entries hents => exact ih ⟨entries, hents⟩
      · exact .refl _ top
      next hnone =>
        rw [reverse_cons] at hnone ⊢
        split
        · exact .refl _ top
        · -- A new directory is empty, so there is no file in it.
          have hnew : Confined (fun _ => False) top
              (top.alter (fun _ => some empty) (made.reverse ++ [segment])) := by
            have hplace : Confined (· = made.reverse ++ [segment]) top
                (top.alter (fun _ => some empty) (made.reverse ++ [segment])) := by
              refine confined_alter h (fun entries hents => ?_) fun _ _ _ hnew => ?_
              · rw [hnone] at hents
                cases hents
              · cases hnew
            refine ⟨hplace.directories, fun names _ content modified => ?_⟩
            by_cases hnames : names = made.reverse ++ [segment]
            · rw [hnames, node_alter_self h, hnone]
              exact iff_of_false (fun hfile => by cases hfile) fun hfile => by cases hfile
            · exact hplace.files names hnames content modified
          refine hnew.trans (ih ?_)
          rw [reverse_cons]
          exact ⟨[], node_alter_self h segment⟩

/-- Making directories touches no file. -/
theorem confined_makeDirectories (htop : top.HasDirectory []) (path : String) :
    Confined (fun _ => False) top (top.makeDirectories path).2 := by
  unfold makeDirectories
  split
  · exact .refl _ top
  · exact confined_makeBelow htop

end Confined

section Files

variable {path : String} {content : ByteArray} {now : Int64}

/-- Writing a file sets it at the place that its path means, which is no directory. -/
theorem writeFile_eq_ok (h : top.writeFile path content now = .ok after) : ∃ p,
    top.place path = .ok p ∧ (∀ entries, p.node ≠ some (directory entries)) ∧
      after = top.alter (fun _ => some (file content now)) p.names := by
  obtain ⟨p, hplace, h⟩ := ok_of_bind h
  split at h
  · cases h
  next hfile =>
    cases h
    exact ⟨p, hplace, hfile, rfl⟩

/-- A change at the place of a path touches that place only. -/
theorem confined_place {p : Place} (hplace : top.place path = .ok p)
    (hfile : ∀ entries, p.node ≠ some (directory entries))
    (hchange : ∀ node e entries, change node ≠ some (directory (e :: entries))) :
    Confined (· = p.names) top (top.alter change p.names) := by
  refine confined_alter (hasDirectory_of_place hplace) (fun entries hents => ?_) hchange
  exact hfile entries ((node_of_place hplace).symm.trans hents)

/-- A move touches the places that it moves from and to. There is no file any more at the first one
    unless they are the same. -/
theorem confined_moveFile {source target : String} {p q : Place}
    (h : top.moveFile source target = .ok after) (hsrc : top.place source = .ok p)
    (htgt : top.place target = .ok q) :
    Confined (fun names => names = p.names ∨ names = q.names) top after ∧
      (p.names ≠ q.names → ∀ content modified,
        after.node? p.names ≠ some (file content modified)) := by
  obtain ⟨p', q', node, hp, hq, hnode, hfile, hover, rfl⟩ := moveFile_eq_ok h
  obtain rfl := Except.ok.inj (hsrc.symm.trans hp)
  obtain rfl := Except.ok.inj (htgt.symm.trans hq)
  have hplain : ∀ entries, node ≠ directory entries := by
    rintro entries rfl
    exact hfile entries hnode
  have htaken : Confined (· = p.names) top (top.alter (fun _ => none) p.names) :=
    confined_place hp hfile fun _ _ _ hnode => by cases hnode
  have habove : (top.alter (fun _ => none) p.names).HasDirectory q.above :=
    htaken.directories _ (hasDirectory_of_place hq)
  -- What was at the second place is still there, or it was what was taken.
  have hfree : ∀ entries,
      (top.alter (fun _ => none) p.names).node? (q.above ++ [q.name]) ≠
        some (directory entries) := by
    intro entries hents
    by_cases hpre : p.names <+: q.names
    · obtain ⟨rest, hrest⟩ := hpre
      have hbelow : (top.alter (fun _ => none) p.names).HasDirectory (p.names ++ rest) :=
        hrest ▸ ⟨entries, hents⟩
      obtain ⟨below, hbelow⟩ := hbelow.of_append
      rw [Place.names, node_alter_self (hasDirectory_of_place hp)] at hbelow
      cases hbelow
    · have hface : ((top.alter (fun _ => none) p.names).node? q.names).map face =
          (top.node? q.names).map face := face_alter hpre
      have hents' : (top.alter (fun _ => none) p.names).node? q.names = _ := hents
      rw [hents', Option.map_some, eq_comm] at hface
      obtain ⟨below, hbelow⟩ := hasDirectory_iff_face.mpr hface
      exact hover below ((node_of_place hq).symm.trans hbelow)
  have hset : Confined (· = q.names) (top.alter (fun _ => none) p.names)
      ((top.alter (fun _ => none) p.names).alter (fun _ => some node) q.names) :=
    confined_alter habove hfree fun _ e entries hchange => hplain _ (Option.some.inj hchange)
  refine ⟨(htaken.mono fun _ => .inl).trans (hset.mono fun _ => .inr), ?_⟩
  intro hne content modified hfound
  rw [hset.files _ hne, Place.names, node_alter_self (hasDirectory_of_place hp)] at hfound
  cases hfound

end Files

section Order

/-- A tree in which the entries of each directory stand in the order of their names, and every name
    can stand in a path. -/
inductive Ordered : FileTree → Prop
  | file (content : ByteArray) (modified : Int64) : Ordered (FileTree.file content modified)
  | directory {entries : List (String × FileTree)} (names : ∀ e ∈ entries, IsName e.1)
      (ascending : Increasing (entries.map Prod.fst)) (below : ∀ e ∈ entries, Ordered e.2) :
      Ordered (FileTree.directory entries)

theorem ordered_empty : empty.Ordered :=
  .directory (forall_mem_nil _) List.Pairwise.nil (forall_mem_nil _)

theorem Ordered.node (h : top.Ordered) {node : FileTree} (hnode : top.node? names = some node) :
    node.Ordered := by
  induction names generalizing top with
  | nil => exact Option.some.inj hnode ▸ h
  | cons first rest ih =>
    cases h with
    | file content modified => cases hnode
    | directory _ _ below =>
      rw [node_directory_cons] at hnode
      obtain ⟨e, hfind, hnode⟩ := Option.bind_eq_some_iff.mp hnode
      exact ih (below e (mem_of_find?_eq_some hfind)) hnode

variable {entries : List (String × FileTree)}

theorem Ordered.find_of_mem (h : (FileTree.directory entries).Ordered) {e : String × FileTree}
    (he : e ∈ entries) :
    (entries.find? fun other => other.1 = e.1) = some e := by
  cases h with
  | directory _ ascending _ =>
    rw [find_eq_lookup, Dict.lookup_of_mem (pairwise_map.mp ascending) he, Option.map_some]

theorem Ordered.alter (h : top.Ordered) (hname : IsName name)
    (hchange : ∀ node node', change node = some node' → node'.Ordered) :
    (top.alter change (names ++ [name])).Ordered := by
  induction names generalizing top with
  | nil =>
    cases h with
    | file content modified => exact .file content modified
    | @directory entries hnames ascending below =>
      rw [nil_append, FileTree.alter, alterEntry]
      split
      next node hnode =>
        rw [setEntry_eq_insertEntry]
        refine .directory (fun e he => ?_) (pairwise_map.mpr
          (Dict.ascending_insertEntry name node (pairwise_map.mp ascending)))
          fun e he => ?_
        · rcases Dict.mem_insertEntry he with rfl | he
          · exact hname
          · exact hnames e he
        · rcases Dict.mem_insertEntry he with rfl | he
          · exact hchange _ _ hnode
          · exact below e he
      next =>
        refine .directory (fun e he => hnames e (mem_of_mem_filter he))
          (List.Pairwise.sublist ?_ ascending) fun e he => below e (mem_of_mem_filter he)
        exact List.Sublist.map _ filter_sublist
  | cons first rest ih =>
    cases h with
    | file content modified =>
      exact .file content modified
    | @directory entries hnames ascending below =>
      rw [cons_append, alter_cons (by simp)]
      have hsame : ∀ e : String × FileTree, (if e.1 = first then
          (e.1, e.2.alter change (rest ++ [name])) else e).1 = e.1 := fun e => by
        split
        · rfl
        · rfl
      refine .directory (List.forall_mem_map.mpr fun e he => ?_) ?_
        (List.forall_mem_map.mpr fun e he => ?_)
      · rw [hsame]
        exact hnames e he
      · rw [map_map, show Prod.fst ∘ _ = Prod.fst from funext hsame]
        exact ascending
      · split
        · exact ih (below e he)
        · exact below e he

theorem ordered_makeBelow {made segments : List String} (h : top.Ordered)
    (hsegs : ∀ segment ∈ segments, segment = ".." ∨ IsName segment) :
    (makeBelow top made segments).2.Ordered := by
  induction segments generalizing top made with
  | nil => exact h
  | cons segment rest ih =>
    obtain ⟨hseg, hrest⟩ := forall_mem_cons.mp hsegs
    rw [makeBelow]
    split
    · exact ih h hrest
    next hdots =>
      dsimp only
      split
      · exact ih h hrest
      · exact h
      · split
        · exact h
        · refine ih ?_ hrest
          rw [reverse_cons]
          refine h.alter (hseg.resolve_left hdots) fun _ node hnode => ?_
          exact Option.some.inj hnode ▸ ordered_empty

variable {path : String}

/-- Making directories keeps a tree in order. -/
theorem ordered_makeDirectories (h : top.Ordered) (path : String) :
    (top.makeDirectories path).2.Ordered := by
  unfold makeDirectories
  split
  · exact h
  · refine ordered_makeBelow h fun segment hseg => ?_
    have hslash := not_mem_slash_of_mem_segments hseg
    obtain ⟨hempty, hdot⟩ : segment ≠ "" ∧ segment ≠ "." := by
      simpa using (mem_filter.mp hseg).2
    by_cases hdots : segment = ".."
    · exact .inl hdots
    · exact .inr ⟨hempty, hdot, hdots, hslash⟩

theorem checked_eq_ok {segments : List String} (h : checked path = .ok segments) :
    Reachable path ∧ path ≠ "" ∧ segments = (splitText '/' path).dropWhile (· = "") := by
  unfold checked at h
  split at h
  · cases h
  next hzero =>
    split at h
    · cases h
    next hempty =>
      split at h
      · cases h
      next hsize =>
        rw [contains_iff_mem] at hzero
        exact ⟨⟨hzero, Nat.not_lt.mp hsize⟩, hempty, (Except.ok.inj h).symm⟩

theorem isName_of_place {p : Place} (h : top.place path = .ok p) : IsName p.name := by
  obtain ⟨segments, way, hpath, -, hdots, -⟩ := place_eq_ok h
  obtain ⟨hblank, hback⟩ := isDots_eq_false_iff.mp hdots
  rw [not_or] at hblank
  have hmem : p.name ∈ splitText '/' path := by
    refine (dropWhile_sublist (· = "")).subset ?_
    rw [← (checked_eq_ok hpath).2.2]
    exact mem_append_right _ mem_cons_self
  exact ⟨hblank.1, hblank.2, hback, not_mem_of_mem_splitText hmem⟩

/-- Writing a file keeps a tree in order. -/
theorem ordered_writeFile {content : ByteArray} {now : Int64} (h : top.Ordered)
    (hwrite : top.writeFile path content now = .ok after) : after.Ordered := by
  obtain ⟨p, hplace, -, rfl⟩ := writeFile_eq_ok hwrite
  refine h.alter (isName_of_place hplace) fun _ node hnode => ?_
  exact Option.some.inj hnode ▸ .file content now

/-- Moving a file keeps a tree in order. -/
theorem ordered_moveFile {source target : String} (h : top.Ordered)
    (hmove : top.moveFile source target = .ok after) : after.Ordered := by
  obtain ⟨p, q, node, hp, hq, hnode, -, -, rfl⟩ := moveFile_eq_ok hmove
  have hnode' : node.Ordered := h.node ((node_of_place hp).trans hnode)
  have htaken : (top.alter (fun _ => none) p.names).Ordered :=
    h.alter (isName_of_place hp) fun _ _ hnone => by cases hnone
  refine htaken.alter (isName_of_place hq) fun _ other hother => ?_
  exact Option.some.inj hother ▸ hnode'

end Order

end Ripple.FileTree
