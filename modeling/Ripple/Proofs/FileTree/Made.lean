import Ripple.Proofs.FileTree.Follow

/-!
# What an Edit Makes

An edit below a directory leaves the rest of a tree alone, and it also makes
little: directories on the way to the place of a file, and files whose names
fit. So nothing can come to stand where no one was asked to put it.

All this is said of an `Edit` at once, so that a store whose writes make
several edits in a row needs to say only where they are made.
-/

namespace Ripple.FileTree

open List Ripple.Path

variable {top before middle after : FileTree} {names other : List String} {name : String}
  {change : Option FileTree → Option FileTree}

/-- There is a file at the end of some names. -/
def HasFile (top : FileTree) (names : List String) : Prop :=
  ∃ content modified, top.node? names = some (file content modified)

section Directories

theorem hasDirectory_of_alter (habove : top.HasDirectory names)
    (hchange : ∀ node entries, change node ≠ some (directory entries))
    (h : (top.alter change (names ++ [name])).HasDirectory other) : top.HasDirectory other := by
  by_cases hpre : names ++ [name] <+: other
  · rcases hpre with ⟨rest, rfl⟩
    rcases h.of_append with ⟨entries, hents⟩
    rw [node_alter_self habove] at hents
    exact absurd hents (hchange _ entries)
  · rw [hasDirectory_iff_face] at h ⊢
    rw [← h, face_alter hpre]

theorem hasDirectory_of_alter_empty (habove : top.HasDirectory names)
    (h : (top.alter (fun _ => some empty) (names ++ [name])).HasDirectory other) :
    top.HasDirectory other ∨ other = names ++ [name] := by
  by_cases hpre : names ++ [name] <+: other
  · rcases hpre with ⟨rest, rfl⟩
    cases rest with
    | nil => exact .inr (append_nil _)
    | cons first rest =>
      rcases h with ⟨entries, hents⟩
      rw [node_append, node_alter_self habove] at hents
      cases hents
  · left
    rw [hasDirectory_iff_face] at h ⊢
    rw [← h, face_alter hpre]

/-- Making directories makes none as long as the segments lead to one that is there. -/
theorem makeBelow_of_trace {way last : Way} {segments : List String} (hway : way.Leads top)
    (h : trace top way segments = .ok last) (hlast : ∃ entries, last.node top = directory entries)
    (hsegs : ∀ segment ∈ segments, segment ≠ "" ∧ segment ≠ ".") (rest : List String) :
    makeBelow top way.names.reverse (segments ++ rest) = makeBelow top last.names.reverse rest := by
  induction segments generalizing way with
  | nil =>
    cases h
    rfl
  | cons segment segments ih =>
    rcases forall_mem_cons.mp hsegs with ⟨hseg, hsegs⟩
    rcases trace_cons_eq_ok_iff.mp h with
      ⟨entries, hents, ⟨hblank, -⟩ | ⟨hback, htrace⟩ | ⟨hname, node, hnode, htrace⟩⟩
    · exact absurd hblank (not_or.mpr hseg)
    · rw [cons_append, makeBelow, if_pos hback]
      have htail : way.names.reverse.tail = (Way.names way.tail).reverse := by
        simp only [Way.names, reverse_reverse, map_tail]
      rw [htail]
      exact ih hway.tail htrace hsegs
    · have hne : segment ≠ ".." := (isDots_eq_false_iff.mp hname).2
      have hstep : Way.Leads top ((segment, node) :: way) := ⟨hway, hents ▸ hnode⟩
      have hnames : (segment :: way.names.reverse) =
          (Way.names ((segment, node) :: way)).reverse := by
        rw [Way.names_cons, reverse_append]
        rfl
      rcases isDirectory_of_trace htrace hlast with ⟨below, hbelow⟩
      rw [cons_append, makeBelow, if_neg hne]
      simp only [hnames, reverse_reverse, hstep.node_names, hbelow]
      exact ih hstep htrace hsegs

theorem hasDirectory_of_makeBelow {made segments : List String} (h : top.HasDirectory made.reverse)
    (hsegs : ".." ∉ segments) (hother : (makeBelow top made segments).2.HasDirectory other) :
    top.HasDirectory other ∨ ∃ front, front <+: segments ∧ other = made.reverse ++ front := by
  induction segments generalizing top made with
  | nil => exact .inl hother
  | cons segment rest ih =>
    rw [mem_cons, not_or] at hsegs
    rcases hsegs with ⟨hseg, hrest⟩
    -- What is made below the segment is made below what comes before it as well.
    have hlonger : (∃ front, front <+: rest ∧ other = (segment :: made).reverse ++ front) →
        ∃ front, front <+: segment :: rest ∧ other = made.reverse ++ front := by
      rintro ⟨front, hfront, rfl⟩
      refine ⟨segment :: front, List.cons_prefix_cons.mpr ⟨rfl, hfront⟩, ?_⟩
      rw [reverse_cons, append_assoc, singleton_append]
    rw [makeBelow, if_neg (Ne.symm hseg)] at hother
    dsimp only at hother
    split at hother
    next entries hents => exact (ih ⟨entries, hents⟩ hrest hother).imp_right hlonger
    · exact .inl hother
    · split at hother
      · exact .inl hother
      · rw [reverse_cons] at hother
        have hmade : (top.alter (fun _ => some empty) (made.reverse ++ [segment])).HasDirectory
            (segment :: made).reverse := by
          rw [reverse_cons]
          exact ⟨[], node_alter_self h segment⟩
        rcases ih hmade hrest hother with hold | hnew
        · rcases hasDirectory_of_alter_empty h hold with hold | rfl
          · exact .inl hold
          · exact .inr ⟨[segment], List.cons_prefix_cons.mpr ⟨rfl, nil_prefix⟩, rfl⟩
        · exact .inr (hlonger hnew)

end Directories

/-- What a change below a directory does: it touches the files at certain places, and it makes
    directories only on one way. -/
structure Edit (base : List String) (places : List String → Prop) (made : List String)
    (before after : FileTree) : Prop where
  ordered : before.Ordered → after.Ordered
  /-- Only the files at the places are touched. -/
  confined : Confined (fun names => ∃ below, places below ∧ names = base ++ below) before after
  /-- New directories are on the way. -/
  directories : ∀ names, after.HasDirectory names →
    before.HasDirectory names ∨ ∃ front, front <+: made ∧ names = base ++ front
  /-- New files have names that fit. -/
  files : ∀ names, after.HasFile names →
    before.HasFile names ∨ (names.getLastD "").utf8ByteSize ≤ maxNameSize

namespace Edit

variable {base made : List String} {places places' : List String → Prop}

theorem refl (base : List String) (places : List String → Prop) (made : List String)
    (top : FileTree) : Edit base places made top top :=
  ⟨id, .refl _ _, fun _ => .inl, fun _ => .inl⟩

theorem trans (h : Edit base places made before middle) (h' : Edit base places made middle after) :
    Edit base places made before after where
  ordered hord := h'.ordered (h.ordered hord)
  confined := h.confined.trans h'.confined
  directories names hnames := (h'.directories names hnames).elim (h.directories names) .inr
  files names hnames := (h'.files names hnames).elim (h.files names) .inr

theorem mono (h : Edit base places made before after)
    (hplaces : ∀ below, places below → places' below) : Edit base places' made before after where
  ordered := h.ordered
  confined := h.confined.mono fun _ ⟨below, hbelow, hnames⟩ => ⟨below, hplaces below hbelow, hnames⟩
  directories := h.directories
  files := h.files

end Edit

section Edits

variable {base made below : List String} {places : List String → Prop} {path : String} {p : Place}

/-- Making the directories of a path that goes on below a directory. -/
theorem edit_makeDirectories {directory : List String} {way : Way}
    (hway : trace top [] directory = .ok way) (hbase : top.HasDirectory way.names)
    (hdir : ∀ segment ∈ directory, segment ≠ "" ∧ segment ≠ ".")
    (hpath : segments path = directory ++ made) (hmade : ".." ∉ made) :
    Edit way.names (fun _ => False) made top (top.makeDirectories path).2 := by
  have hstart : Way.Leads top [] := trivial
  have hleads := leads_trace hstart hway
  have htop : top.HasDirectory [] :=
    HasDirectory.of_append (show top.HasDirectory ([] ++ way.names) from hbase)
  have hnone := confined_makeDirectories htop path
  refine ⟨fun hord => ordered_makeDirectories hord path,
    hnone.mono fun _ => False.elim, fun names hnames => ?_, ?_⟩
  · unfold makeDirectories at hnames
    split at hnames
    · exact .inl hnames
    · rw [hpath, ← reverse_nil, show ([] : List String) = Way.names [] from rfl,
        makeBelow_of_trace hstart hway (hleads.hasDirectory_iff.mp hbase) hdir] at hnames
      have hrev : top.HasDirectory way.names.reverse.reverse := by
        rw [reverse_reverse]
        exact hbase
      have hres := hasDirectory_of_makeBelow hrev hmade hnames
      rwa [reverse_reverse] at hres
  · rintro names ⟨content, modified, hfile⟩
    exact .inl ⟨content, modified, (hnone.files names id content modified).mp hfile⟩

theorem hasFile_of_place (h : top.place path = .ok p)
    (hfile : ∀ entries, p.node ≠ some (directory entries)) :
    top.HasFile p.names ∨ (p.names.getLastD "").utf8ByteSize ≤ maxNameSize := by
  rw [Place.names, getLastD_concat]
  cases hnode : p.node with
  | none =>
    obtain ⟨_, _, -, -, -, -, -, hsize⟩ := place_eq_ok h
    exact .inr (hsize hnode)
  | some node =>
    cases node with
    | directory entries => exact absurd hnode (hfile entries)
    | file content modified => exact .inl ⟨content, modified, (node_of_place h).trans hnode⟩

/-- Setting a file at a place below a directory, or taking it away. -/
theorem edit_alter {change : Option FileTree → Option FileTree} (hp : top.place path = .ok p)
    (hfile : ∀ entries, p.node ≠ some (directory entries))
    (hchange : ∀ node entries, change node ≠ some (directory entries))
    (hord : top.Ordered → (top.alter change p.names).Ordered)
    (hplace : ∃ below, places below ∧ p.names = base ++ below) :
    Edit base places made top (top.alter change p.names) := by
  have hconf : Confined (· = p.names) top (top.alter change p.names) :=
    confined_place hp hfile fun node e entries => hchange node (e :: entries)
  refine ⟨hord, hconf.mono fun _ hself => hself ▸ hplace, fun names hother => ?_,
    fun names hother => ?_⟩
  · exact .inl (hasDirectory_of_alter (hasDirectory_of_place hp) hchange hother)
  · by_cases hself : names = p.names
    · exact hself ▸ hasFile_of_place hp hfile
    · rcases hother with ⟨content, modified, hnode⟩
      exact .inl ⟨content, modified, (hconf.files names hself content modified).mp hnode⟩

/-- Writing a file below a directory. -/
theorem edit_writeFile {content : ByteArray} {now : Int64}
    (h : top.writeFile path content now = .ok after)
    (hplace : ∀ p, top.place path = .ok p → ∃ below, places below ∧ p.names = base ++ below) :
    Edit base places made top after := by
  rcases writeFile_eq_ok h with ⟨p, hp, hfile, rfl⟩
  refine edit_alter hp hfile (fun _ _ hnode => ?_) (fun hord => ?_) (hplace p hp)
  · cases hnode
  · exact ordered_writeFile hord h

theorem removeFile_eq_ok (h : top.removeFile path = .ok after) : ∃ p, top.place path = .ok p ∧
    (∀ entries, p.node ≠ some (directory entries)) ∧ after = top.alter (fun _ => none) p.names := by
  obtain ⟨p, hp, h⟩ := ok_of_bind h
  split at h
  · cases h
  · cases h
  next content modified hnode =>
    cases h
    refine ⟨p, hp, fun entries hents => ?_, rfl⟩
    rw [hnode] at hents
    cases hents

/-- Removing a file below a directory. -/
theorem edit_removeFile (h : top.removeFile path = .ok after)
    (hplace : ∀ p, top.place path = .ok p → ∃ below, places below ∧ p.names = base ++ below) :
    Edit base places made top after := by
  rcases removeFile_eq_ok h with ⟨p, hp, hfile, rfl⟩
  refine edit_alter hp hfile (fun _ _ hnode => ?_) (fun hord => ?_) (hplace p hp)
  · cases hnode
  · exact hord.alter (isName_of_place hp) fun _ _ hnone => by cases hnone

/-- Moving a file below a directory. -/
theorem edit_moveFile {source target : String} (h : top.moveFile source target = .ok after)
    (hsrc : ∀ p, top.place source = .ok p → ∃ below, places below ∧ p.names = base ++ below)
    (htgt : ∀ p, top.place target = .ok p → ∃ below, places below ∧ p.names = base ++ below) :
    Edit base places made top after := by
  obtain ⟨p, q, node, hp, hq, hnode, hfile, hover, hafter⟩ := moveFile_eq_ok h
  obtain ⟨hconf, -⟩ := confined_moveFile h hp hq
  have htaken : Confined (· = p.names) top (top.alter (fun _ => none) p.names) :=
    confined_place hp hfile fun _ _ _ hnode => by cases hnode
  refine ⟨fun hord => ordered_moveFile hord h, hconf.mono ?_, fun names hother => ?_,
    fun names hother => ?_⟩
  · rintro names (rfl | rfl)
    · exact hsrc p hp
    · exact htgt q hq
  · -- No directory comes when the file is set, nor when it is taken away.
    rw [hafter] at hother
    refine .inl (hasDirectory_of_alter (hasDirectory_of_place hp) (fun _ _ hnone => ?_)
      (hasDirectory_of_alter (htaken.directories _ (hasDirectory_of_place hq))
        (fun _ entries hset => ?_) hother))
    · cases hnone
    · exact hfile entries (hnode.trans hset)
  · by_cases hfst : names = p.names
    · exact hfst ▸ hasFile_of_place hp hfile
    · by_cases hsnd : names = q.names
      · exact hsnd ▸ hasFile_of_place hq hover
      · rcases hother with ⟨content, modified, hnode⟩
        exact .inl ⟨content, modified,
          (hconf.files names (not_or.mpr ⟨hfst, hsnd⟩) content modified).mp hnode⟩

end Edits

end Ripple.FileTree
