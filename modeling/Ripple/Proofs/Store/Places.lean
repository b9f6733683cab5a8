import Ripple.Proofs.FileTree.Made
import Ripple.Proofs.Store.Retentive

/-!
# Where the Values of a Store Are

In memory each key has a value of its own. In a directory a value is a file,
and what counts is where the file is: keys that differ by empty segments or
single dots mean one file, and a value lies for a moment at another place
before it is moved to its own. Apart from this a write is not seen under other
keys, though directories are made for it and stay.

A store in a directory is well-formed if the directory is there, in a tree as a
file system has them, and if every file in it can be looked for. Writes keep it
so.

## Theorems

* `DirectoryStore.Base.blob_eq_some_iff`: The value of a key is the file at its segments.
-/

namespace Ripple

open List Path Store FileTree

namespace DirectoryStore

variable {s after : DirectoryStore} {key other : String} {bytes : ByteArray}

variable {base : Way} {places : List String → Prop}

/-- The directory of a store. -/
def tree (s : DirectoryStore) : FileTree := (s.disk.at? s.root).toOption.getD .empty

/-- A directory that can serve as a store. -/
structure WellFormed (s : DirectoryStore) : Prop where
  ordered : s.disk.Ordered
  opened : ∃ entries, s.disk.at? s.root = .ok (.directory entries)
  /-- What tells unfinished files apart can stand in a name. -/
  writer : '/' ∉ s.writer.toList
  /-- Every file in the directory can be looked for. -/
  reachable : ∀ names content modified, s.tree.node? names = some (.file content modified) →
    Reachable (join s.root (ofSegments names))

/-- A text that a store takes as a key. -/
def IsKey (key : String) : Prop := key ≠ "" ∧ ".." ∉ splitText '/' key ∧ isAbsolute key = false

/-- A key under which a value can be found. -/
structure Usable (s : DirectoryStore) (key : String) : Prop where
  isKey : IsKey key
  /-- It does not mean a directory. -/
  endsInName : EndsInName key
  /-- Its path can be looked for. -/
  reachable : Reachable (join s.root key)

/-- Where a value is written before it is moved to its place. -/
def unfinished (s : DirectoryStore) (key : String) : List String :=
  (segments key).dropLast ++ [stem ((segments key).getLastD "") ++ unfinishedMark ++ s.writer]

theorem pathOf_eq_ok_iff {path : String} :
    s.pathOf key = .ok path ↔ IsKey key ∧ path = join s.root key := by
  unfold pathOf IsKey
  rw [isAbsolute_eq_beginsWith]
  by_cases hempty : key = ""
  · simp [hempty]
  by_cases hdots : ".." ∈ splitText '/' key
  · simp [hdots]
  cases hslash : beginsWith key "/" with
  | true => simp
  | false => simp [hempty, hdots, eq_comm]

theorem IsKey.isName (h : IsKey key) : ∀ name ∈ segments key, IsName name :=
  fun _ => isName_of_mem_segments h.2.1

theorem segments_ne_nil (h : EndsInName key) : segments key ≠ [] := by
  obtain ⟨parts, last, hlast⟩ := (eq_nil_or_concat' _).resolve_left (splitText_ne_nil key)
  rw [EndsInName, hlast] at h
  have hkeep : (last ≠ "" && last ≠ ".") = true := by simpa using h
  rw [segments, hlast, filter_append, filter_cons, hkeep]
  exact append_ne_nil_of_right_ne_nil _ (cons_ne_nil _ _)

/-- The way to the directory of a store. -/
structure Base (s : DirectoryStore) (base : Way) : Prop where
  /-- The root is followed along it. -/
  trace : trace s.disk [] (segments s.root) = .ok base
  /-- The directory of the store is at its end. -/
  node : base.node s.disk = s.tree
  /-- There is a directory. -/
  hasDirectory : s.disk.HasDirectory base.names

theorem Base.leads (h : Base s base) : base.Leads s.disk :=
  leads_trace (show Way.Leads s.disk [] from trivial) h.trace

theorem Base.top (h : Base s base) : s.disk.HasDirectory [] :=
  HasDirectory.of_append (show s.disk.HasDirectory ([] ++ base.names) from h.hasDirectory)

theorem base_of_opened {entries : List (String × FileTree)}
    (h : s.disk.at? s.root = .ok (.directory entries)) : ∃ base, Base s base := by
  obtain ⟨-, base, htrace, hnode⟩ := at_directory_iff.mp h
  have hleads : base.Leads s.disk := leads_trace (show Way.Leads s.disk [] from trivial) htrace
  refine ⟨base, htrace, ?_, hleads.hasDirectory_iff.mpr ⟨entries, hnode⟩⟩
  rw [hnode, tree, h]
  rfl

/-- A name that is passed over because it looks like that of an unfinished value. -/
def IsHidden (name : String) : Prop := unfinishedMark.toList <:+: name.toList

/-- A directory in which all but unfinished values can be found. -/
structure Serves (s : DirectoryStore) : Prop where
  ordered : s.disk.Ordered
  opened : ∃ entries, s.disk.at? s.root = .ok (.directory entries)
  /-- What tells unfinished files apart can stand in a name. -/
  writer : '/' ∉ s.writer.toList
  /-- Every file in the directory can be looked for, unless it looks like an unfinished one. -/
  reachable : ∀ names name content modified,
    s.tree.node? (names ++ [name]) = some (.file content modified) → ¬ IsHidden name →
      FileTree.Reachable (join s.root (ofSegments (names ++ [name])))

theorem WellFormed.serves (h : s.WellFormed) : s.Serves where
  ordered := h.ordered
  opened := h.opened
  writer := h.writer
  reachable _ _ content modified hnode _ := h.reachable _ content modified hnode

theorem Serves.exists_base (h : s.Serves) : ∃ base, Base s base := by
  obtain ⟨entries, hents⟩ := h.opened
  exact base_of_opened hents

theorem Base.node_tree (h : Base s base) (names : List String) :
    s.tree.node? names = s.disk.node? (base.names ++ names) := by
  rw [node_append, h.leads.node_names, Option.bind_some, h.node]

theorem Base.trace_join {last : Way} (h : Base s base) (hkey : IsKey key) :
    FileTree.trace s.disk [] (segments (join s.root key)) = .ok last ↔
      FileTree.trace s.disk base (segments key) = .ok last := by
  rw [segments_join s.root hkey.2.2, trace_append, h.trace]
  rfl

theorem Base.node_segments (h : Base s base) (hkey : IsKey key) {node : FileTree} :
    s.tree.node? (segments key) = some node ↔
      ∃ last, FileTree.trace s.disk base (segments key) = .ok last ∧ last.node s.disk = node := by
  have hnode := node_trace s.disk hkey.isName base
  rw [h.node] at hnode
  rw [← hnode]
  cases FileTree.trace s.disk base (segments key) with
  | error fault => simp [Except.toOption]
  | ok last => simp [Except.toOption]

theorem Base.at_iff (h : Base s base) (hkey : IsKey key) {content : ByteArray} {modified : Int64} :
    s.disk.at? (join s.root key) = .ok (.file content modified) ↔
      s.Usable key ∧ s.tree.node? (segments key) = some (.file content modified) := by
  rw [FileTree.at_file_iff h.top, h.node_segments hkey, endsInName_join s.root hkey.2.2]
  simp only [h.trace_join hkey]
  constructor
  · rintro ⟨⟨hreach, hends⟩, hlast⟩
    exact ⟨⟨hkey, hends, hreach⟩, hlast⟩
  · rintro ⟨⟨-, hends, hreach⟩, hlast⟩
    exact ⟨⟨hreach, hends⟩, hlast⟩

/-- What is found at the path of a key that leads to a directory. -/
theorem Base.at_directory_iff (h : Base s base) (hkey : IsKey key)
    {entries : List (String × FileTree)} :
    s.disk.at? (join s.root key) = .ok (.directory entries) ↔
      Reachable (join s.root key) ∧ s.tree.node? (segments key) = some (.directory entries) := by
  have hne : join s.root key ≠ "" := by
    obtain ⟨front, -, hfront⟩ := join_eq_append s.root
    rw [hfront key hkey.2.2]
    exact fun hempty => hkey.1 (String.append_eq_empty_iff.mp hempty).2
  rw [FileTree.at_directory_iff, h.node_segments hkey]
  simp only [h.trace_join hkey, hne, ne_eq, not_false_eq_true, and_true]

theorem blob_eq_some_iff_at : blob? s key = some bytes ↔
    IsKey key ∧ ∃ modified, s.disk.at? (join s.root key) = .ok (.file bytes modified) := by
  have hget : BlobStore.get s key = s.get key := rfl
  rw [blob?, hget, get]
  cases hpath : s.pathOf key with
  | error e =>
    have hkey : ¬ IsKey key := fun hkey => by
      rw [pathOf_eq_ok_iff.mpr ⟨hkey, rfl⟩] at hpath
      cases hpath
    simp [bind, Except.bind, hkey]
  | ok path =>
    obtain ⟨hkey, rfl⟩ := pathOf_eq_ok_iff.mp hpath
    simp only [bind, Except.bind, hkey, true_and, FileTree.read]
    cases s.disk.at? (join s.root key) with
    | error fault => cases fault <;> simp [pure, Except.pure]
    | ok node =>
      cases node with
      | file content modified => simp [pure, Except.pure]
      | directory entries => simp

theorem Base.blob_eq_some_iff (h : Base s base) : blob? s key = some bytes ↔
      s.Usable key ∧ ∃ modified, s.tree.node? (segments key) = some (.file bytes modified) := by
  rw [blob_eq_some_iff_at]
  constructor
  · rintro ⟨hkey, modified, hat⟩
    obtain ⟨husable, hnode⟩ := (h.at_iff hkey).mp hat
    exact ⟨husable, modified, hnode⟩
  · rintro ⟨husable, modified, hnode⟩
    exact ⟨husable.isKey, modified, (h.at_iff husable.isKey).mpr ⟨husable, hnode⟩⟩

theorem Serves.blob_eq_some_iff {key : String} (h : s.Serves) : blob? s key = some bytes ↔
    s.Usable key ∧ ∃ modified, s.tree.node? (segments key) = some (.file bytes modified) := by
  obtain ⟨base, hbase⟩ := h.exists_base
  exact hbase.blob_eq_some_iff

theorem not_mem_stem {name : String} (h : '/' ∉ name.toList) : '/' ∉ (stem name).toList := by
  unfold stem
  split
  · exact h
  · exact h
  next front hparts =>
    split
    · exact h
    · intro hslash
      rcases mem_intercalate hslash with hdot | ⟨part, hpart, hmem⟩
      · exact absurd hdot (by decide)
      · have hcut : part ∈ splitText '.' name := by
          rw [← mem_reverse, hparts]
          exact mem_cons_of_mem _ (mem_reverse.mp hpart)
        exact h (of_mem_splitText hcut hmem).1

theorem isName_unfinished {name : String} (hwriter : '/' ∉ s.writer.toList)
    (h : '/' ∉ name.toList) : IsName (stem name ++ unfinishedMark ++ s.writer) := by
  refine isName_of_length ?_ ?_
  · rw [String.length_append, String.length_append, show unfinishedMark.length = 5 from rfl]
    omega
  · rw [String.toList_append, String.toList_append, mem_append, mem_append]
    rintro ((hstem | hmark) | hslash)
    · exact not_mem_stem h hstem
    · exact absurd hmark (by decide)
    · exact hwriter hslash

/-- Every name on the way to the place where a value is written first can stand in a path. -/
theorem isName_of_mem_unfinished (hwriter : '/' ∉ s.writer.toList) (hkey : IsKey key)
    {name : String} (h : name ∈ s.unfinished key) : IsName name := by
  rcases mem_append.mp h with hname | hname
  · exact hkey.isName name (dropLast_subset _ hname)
  · rw [mem_singleton.mp hname]
    refine isName_unfinished hwriter ?_
    rcases eq_nil_or_concat' (segments key) with hnil | ⟨others, last, hlast⟩
    · rw [hnil]
      exact not_mem_nil
    · have hmem : last ∈ segments key := hlast ▸ mem_append_right _ mem_cons_self
      rw [hlast, getLastD_concat]
      exact (hkey.isName last hmem).no_slash

/-- The segments of the path at which a value is written before it is moved. -/
theorem segments_unfinishedPath (hwriter : '/' ∉ s.writer.toList) (hkey : IsKey key)
    (hends : EndsInName key) : segments (s.unfinishedPath (join s.root key)) =
      segments s.root ++ s.unfinished key := by
  obtain ⟨others, last, hlast⟩ :=
    (eq_nil_or_concat' (segments key)).resolve_left (segments_ne_nil hends)
  have hpath : segments (join s.root key) = segments s.root ++ others ++ [last] := by
    rw [segments_join s.root hkey.2.2, hlast, append_assoc]
  have hname : IsName last := hkey.isName last (hlast ▸ mem_append_right _ mem_cons_self)
  have hfile : fileName? (join s.root key) = some last := by
    rw [fileName?, hpath, getLast?_concat]
    split
    next hdots => exact absurd (Option.some.inj hdots) hname.ne_dots
    · rfl
  have hnew := isName_unfinished hwriter hname.no_slash
  have hrel : isAbsolute (stem last ++ unfinishedMark ++ s.writer) = false := by
    rw [isAbsolute, decide_eq_false_iff_not]
    exact fun hhead => hnew.no_slash (mem_of_mem_head? hhead)
  simp only [unfinishedPath, hfile, unfinished, segments_join _ hrel, segments_parentOf, hpath,
    segments_of_isName hnew, hlast, dropLast_concat, getLastD_concat]
  rw [append_assoc]

/-- A write that goes through makes directories, writes a file and moves it. -/
theorem put_eq_ok (h : s.put key bytes = (.ok (), after)) : IsKey key ∧ ∃ written final,
    (s.disk.makeDirectories (parentOf (join s.root key))).2.writeFile
      (s.unfinishedPath (join s.root key)) bytes s.now = .ok written ∧
    written.moveFile (s.unfinishedPath (join s.root key)) (join s.root key) = .ok final ∧
    after = { s with disk := final } := by
  unfold put at h
  split at h
  · cases h
  next path hpath =>
    obtain ⟨hkey, rfl⟩ := pathOf_eq_ok_iff.mp hpath
    refine ⟨hkey, ?_⟩
    unfold putAt at h
    split at h
    next made disk hmade =>
      dsimp only at h
      split at h
      · cases h
      · split at h
        · cases h
        next written hwrite =>
          split at h
          · cases h
          next final hmove =>
            cases h
            rw [hmade]
            exact ⟨written, final, hwrite, hmove, rfl⟩

/-- The directory of a store is still there, at the same names, after a change that takes no
    directory away. -/
theorem Base.of_confined {disk : FileTree} (h : Base s base)
    (hconf : Confined places s.disk disk) :
    ∃ base', FileTree.trace disk [] (segments s.root) = .ok base' ∧ base'.names = base.names :=
  trace_of_hasDirectory hconf.directories
    (show Way.Leads s.disk [] from trivial) (show Way.Leads disk [] from trivial)
    rfl h.trace (h.leads.hasDirectory_iff.mp h.hasDirectory)

/-- Where a path below the directory of a store leads, after such a change. -/
theorem Base.names_of_place {disk : FileTree} (h : Base s base)
    (hconf : Confined places s.disk disk) {path : String} {names : List String}
    {p : Place} (hp : disk.place path = .ok p)
    (hpath : segments path = segments s.root ++ names) (hne : names ≠ [])
    (hnames : ∀ name ∈ names, IsName name) : p.names = base.names ++ names := by
  obtain ⟨middle, hmid, hsame⟩ := h.of_confined hconf
  rw [← hsame]
  exact FileTree.names_of_place hp hmid hpath hne hnames

/-- A change of the tree around a store, seen from the directory of the store. -/
theorem opened_of_confined {disk : FileTree}
    (hopened : ∃ entries, s.disk.at? s.root = .ok (.directory entries)) (hbase : Base s base)
    (hconf : FileTree.Confined
      (fun names => ∃ below, places below ∧ names = base.names ++ below) s.disk disk) :
    (∃ entries, disk.at? s.root = .ok (.directory entries)) ∧
      (∀ names, { s with disk := disk : DirectoryStore }.tree.node? names =
        disk.node? (base.names ++ names)) ∧
      Confined places s.tree { s with disk := disk : DirectoryStore }.tree := by
  obtain ⟨entries, hopened⟩ := hopened
  obtain ⟨base', htrace, hnames⟩ := hbase.of_confined hconf
  have hleads : base'.Leads disk := leads_trace (show Way.Leads disk [] from trivial) htrace
  obtain ⟨entries', hents'⟩ := hleads.hasDirectory_iff.mp
    (hnames ▸ hconf.directories _ hbase.hasDirectory)
  have hat : disk.at? s.root = .ok (.directory entries') :=
    at_directory_iff.mpr
      ⟨(at_directory_iff.mp hopened).1, base', htrace, hents'⟩
  obtain ⟨base'', hbase''⟩ := base_of_opened (s := { s with disk := disk }) hat
  obtain rfl : base' = base'' := Except.ok.inj (htrace.symm.trans hbase''.trace)
  have hnode : ∀ names, { s with disk := disk : DirectoryStore }.tree.node? names =
      disk.node? (base.names ++ names) := hnames ▸ hbase''.node_tree
  refine ⟨⟨entries', hat⟩, hnode, fun names => ?_, fun names hplace content modified => ?_⟩
  · rw [HasDirectory, HasDirectory, hnode, hbase.node_tree]
    exact hconf.directories _
  · rw [hnode, hbase.node_tree]
    refine hconf.files _ ?_ content modified
    rintro ⟨below, hbelow, heq⟩
    exact hplace (append_cancel_left heq ▸ hbelow)

/-- What a write or a removal may do to the directory of a store: it touches the files at certain
    places, and it makes directories only on one way. -/
structure Altered (s : DirectoryStore) (places : List String → Prop) (made : List String)
    (after : DirectoryStore) : Prop where
  root : after.root = s.root
  /-- Unfinished files are told apart in the same way. -/
  writer : after.writer = s.writer
  ordered : after.disk.Ordered
  /-- The directory is there. -/
  opened : ∃ entries, after.disk.at? after.root = .ok (.directory entries)
  confined : FileTree.Confined places s.tree after.tree
  /-- New directories are on the way. -/
  directories : ∀ names, after.tree.HasDirectory names → s.tree.HasDirectory names ∨ names <+: made
  /-- New files have names that fit. -/
  files : ∀ names name, after.tree.HasFile (names ++ [name]) →
    s.tree.HasFile (names ++ [name]) ∨ name.utf8ByteSize ≤ FileTree.maxNameSize

/-- An edit of the tree around a store, seen from the directory of the store. -/
theorem altered_of_edit (hs : s.Serves) {base : FileTree.Way} (hbase : Base s base)
    {disk : FileTree} (h : FileTree.Edit base.names places made s.disk disk) :
    s.Altered places made { s with disk := disk } := by
  rcases opened_of_confined hs.opened hbase h.confined with ⟨hopened, hnode, hconf⟩
  refine ⟨rfl, rfl, h.ordered hs.ordered, hopened, hconf, fun names hnames => ?_,
    fun names name hfile => ?_⟩
  · rw [FileTree.HasDirectory, hnode] at hnames
    rw [FileTree.HasDirectory, hbase.node_tree]
    rcases h.directories _ hnames with hold | ⟨front, hfront, heq⟩
    · exact .inl hold
    · exact .inr (append_cancel_left heq ▸ hfront)
  · rw [FileTree.HasFile, hnode] at hfile
    rw [FileTree.HasFile, hbase.node_tree]
    have hnew := h.files _ hfile
    rwa [← append_assoc, getLastD_concat, append_assoc] at hnew

theorem altered_refl (hs : s.Serves) (places : List String → Prop) (made : List String) :
    s.Altered places made s := by
  rcases hs.exists_base with ⟨base, hbase⟩
  exact altered_of_edit hs hbase (.refl _ _ _ _)

theorem edit_makeParents {base : FileTree.Way} (hbase : Base s base) (hkey : IsKey key)
    (hends : EndsInName key) : FileTree.Edit base.names (fun _ => False) (segments key).dropLast
      s.disk (s.disk.makeDirectories (FileTree.parentOf (join s.root key))).2 := by
  refine FileTree.edit_makeDirectories hbase.trace hbase.hasDirectory (fun segment hmem => ?_) ?_
    fun hdots => (hkey.isName _ (dropLast_subset _ hdots)).ne_dots rfl
  · simpa using (mem_filter.mp hmem).2
  · rw [segments_parentOf, segments_join s.root hkey.2.2,
      dropLast_append_of_ne_nil (segments_ne_nil hends)]

/-- A write that does not go through leaves an unfinished file at most, and one that does puts a
    value at its place. -/
theorem altered_put (hs : s.Serves) (hends : EndsInName key) {result : Except Error Unit}
    (h : s.put key bytes = (result, after)) :
    s.Altered (fun names => names = s.unfinished key ∨ result = .ok () ∧ names = segments key)
      (segments key).dropLast after := by
  rcases hs.exists_base with ⟨base, hbase⟩
  unfold put at h
  split at h
  · cases h
    exact altered_refl hs _ _
  next path hpath =>
    rcases pathOf_eq_ok_iff.mp hpath with ⟨hkey, rfl⟩
    -- Whatever was done before, the unfinished file is below the directory of the store.
    have hplace : ∀ disk, FileTree.Edit base.names (· = s.unfinished key) (segments key).dropLast
        s.disk disk → ∀ p, disk.place (s.unfinishedPath (join s.root key)) = .ok p →
          p.names = base.names ++ s.unfinished key := fun disk hedit p hp =>
      hbase.names_of_place hedit.confined hp (segments_unfinishedPath hs.writer hkey hends)
        (append_ne_nil_of_right_ne_nil _ (cons_ne_nil _ _))
        fun name => isName_of_mem_unfinished hs.writer hkey
    have hmade : FileTree.Edit base.names (· = s.unfinished key) (segments key).dropLast s.disk
        (s.disk.makeDirectories (FileTree.parentOf (join s.root key))).2 :=
      (edit_makeParents hbase hkey hends).mono fun _ => False.elim
    unfold putAt at h
    generalize s.disk.makeDirectories (FileTree.parentOf (join s.root key)) = ended at *
    rcases ended with ⟨answer, disk⟩
    dsimp only at h hmade
    split at h
    · cases h
      exact altered_of_edit hs hbase (hmade.mono fun _ => .inl)
    · split at h
      · cases h
        exact altered_of_edit hs hbase (hmade.mono fun _ => .inl)
      next written hwrite =>
        have hwritten := hmade.trans (FileTree.edit_writeFile hwrite fun p hp =>
          ⟨_, rfl, hplace _ hmade p hp⟩)
        split at h
        · cases h
          exact altered_of_edit hs hbase (hwritten.mono fun _ => .inl)
        next final hmove =>
          cases h
          refine altered_of_edit hs hbase ((hwritten.mono fun _ => .inl).trans ?_)
          refine FileTree.edit_moveFile hmove (fun p hp => ?_) fun p hp => ?_
          · exact ⟨_, .inl rfl, hplace _ hwritten p hp⟩
          · exact ⟨_, .inr ⟨rfl, rfl⟩, hbase.names_of_place hwritten.confined hp
              (segments_join s.root hkey.2.2) (segments_ne_nil hends) hkey.isName⟩

theorem usable_congr (h : after.root = s.root) : after.Usable key ↔ s.Usable key :=
  ⟨fun ⟨hkey, hends, hreach⟩ => ⟨hkey, hends, h ▸ hreach⟩,
    fun ⟨hkey, hends, hreach⟩ => ⟨hkey, hends, h.symm ▸ hreach⟩⟩

theorem Altered.blob_eq (h : s.Altered places made after) (hs : s.Serves)
    (hplace : ¬ places (segments other)) : blob? after other = blob? s other := by
  rcases h.opened with ⟨entries, hents⟩
  rcases base_of_opened hents with ⟨base, hbase⟩
  refine Option.ext fun content => ?_
  rw [hbase.blob_eq_some_iff, hs.blob_eq_some_iff, usable_congr h.root]
  refine and_congr_right fun _ => exists_congr fun modified => ?_
  exact h.confined.files _ hplace content modified

/-- What a write does to the directory of a store. -/
structure Placed (s : DirectoryStore) (key : String) (bytes : ByteArray)
    (after : DirectoryStore) : Prop where
  usable : s.Usable key
  root : after.root = s.root
  /-- Unfinished files are told apart in the same way. -/
  writer : after.writer = s.writer
  ordered : after.disk.Ordered
  opened : ∃ entries, after.disk.at? after.root = .ok (.directory entries)
  confined : Confined (fun names => names = segments key ∨ names = s.unfinished key) s.tree
    after.tree
  /-- The value is at its place. -/
  found : ∃ modified, after.tree.node? (segments key) = some (.file bytes modified)
  /-- It is no longer at the place where it was written first. -/
  moved : s.unfinished key ≠ segments key → ∀ content modified,
    after.tree.node? (s.unfinished key) ≠ some (.file content modified)

/-- A write puts a value at its place, by way of another place, and touches nothing else. -/
theorem placed_of_put (hs : s.WellFormed) (h : s.put key bytes = (.ok (), after)) :
    s.Placed key bytes after := by
  obtain ⟨base, hbase⟩ := hs.serves.exists_base
  obtain ⟨hkey, written, final, hwrite, hmove, rfl⟩ := put_eq_ok h
  obtain ⟨p, q, -, hp, hq, -⟩ := moveFile_eq_ok hmove
  have hends : EndsInName key := (endsInName_join s.root hkey.2.2).mp (segments_of_place hq).1.2
  have hput := altered_put hs.serves hends h
  obtain ⟨entries, hents⟩ := hput.opened
  obtain ⟨base', hbase'⟩ := base_of_opened hents
  obtain ⟨husable, hfound⟩ := hbase'.blob_eq_some_iff.mp (RetentiveStore.blob_of_put h)
  refine ⟨⟨hkey, hends, husable.reachable⟩, rfl, rfl, hput.ordered, hput.opened,
    hput.confined.mono fun _ hplace => hplace.symm.imp_left And.right, hfound, fun hne => ?_⟩
  -- The file was moved away from where it was written, which is below the directory.
  obtain ⟨hmoves, hsrc⟩ := confined_moveFile hmove hp hq
  have hmakes := confined_makeDirectories hbase.top (parentOf (join s.root key))
  obtain ⟨first, hfst, hfree, hwritten⟩ := writeFile_eq_ok hwrite
  have hwrites : Confined (fun _ => True) s.disk written := by
    refine (hmakes.mono fun _ => False.elim).trans ?_
    rw [hwritten]
    exact (confined_place hfst hfree fun _ _ _ hnode => by cases hnode).mono fun _ _ => trivial
  have hpnames : p.names = base.names ++ s.unfinished key :=
    hbase.names_of_place hwrites hp (segments_unfinishedPath hs.writer hkey hends)
      (append_ne_nil_of_right_ne_nil _ (cons_ne_nil _ _))
      fun name => isName_of_mem_unfinished hs.writer hkey
  have hqnames : q.names = base.names ++ segments key :=
    hbase.names_of_place hwrites hq (segments_join s.root hkey.2.2) (segments_ne_nil hends)
      hkey.isName
  obtain ⟨base'', htrace, hnames⟩ := hbase.of_confined
    (hwrites.trans (hmoves.mono fun _ _ => trivial))
  obtain rfl := Except.ok.inj (htrace.symm.trans hbase'.trace)
  intro content modified
  rw [hbase'.node_tree, hnames, ← hpnames]
  refine hsrc (fun heq => hne ?_) content modified
  rw [hpnames, hqnames] at heq
  exact append_cancel_left heq

variable {other : String}

/-- A path without its empty segments and single dots can be looked for as well. -/
theorem Usable.reachable_segments (h : s.Usable key) :
    Reachable (join s.root (ofSegments (segments key))) := by
  have hshort : (ofSegments (segments key)).toList.Sublist key.toList := by
    have hsub := sublist_ofSegments (filter_sublist (l := splitText '/' key)
      (p := fun part => part ≠ "" && part ≠ "."))
    rw [ofSegments_splitText] at hsub
    exact hsub
  obtain ⟨front, -, hfront⟩ := join_eq_append s.root
  have hrel : isAbsolute (ofSegments (segments key)) = false :=
    isAbsolute_ofSegments fun name hname =>
      ⟨(h.isKey.isName name hname).ne_empty, (h.isKey.isName name hname).no_slash⟩
  refine h.reachable.of_sublist ?_
  rw [hfront _ hrel, hfront _ h.isKey.2.2, String.toList_append, String.toList_append]
  exact (List.Sublist.refl _).append hshort

theorem Placed.wellFormed (hs : s.WellFormed) (h : s.Placed key bytes after) :
    after.WellFormed where
  ordered := h.ordered
  opened := h.opened
  writer := h.writer.symm ▸ hs.writer
  reachable names content modified hnode := by
    rw [h.root]
    by_cases hkey : names = segments key
    · exact hkey ▸ h.usable.reachable_segments
    · by_cases hplace : names = s.unfinished key
      · subst hplace
        exact absurd hnode (h.moved hkey content modified)
      · exact hs.reachable names content modified ((h.confined.files names
          (fun hor => hor.elim hkey hplace) content modified).mp hnode)

/-- What is found after a write was written, if it is at the same place, and was there otherwise. -/
theorem Placed.eq_of_blob (hs : s.WellFormed) (h : s.Placed key bytes after) {content : ByteArray}
    (hblob : blob? after other = some content) :
    segments other = segments key ∧ content = bytes ∨
      segments other ≠ segments key ∧ blob? s other = some content := by
  obtain ⟨husable, modified, hnode⟩ := (h.wellFormed hs).serves.blob_eq_some_iff.mp hblob
  by_cases hkey : segments other = segments key
  · obtain ⟨time, hfound⟩ := h.found
    rw [hkey, hfound] at hnode
    cases hnode
    exact .inl ⟨hkey, rfl⟩
  · refine .inr ⟨hkey, hs.serves.blob_eq_some_iff.mpr
      ⟨(usable_congr h.root).mp husable, modified, ?_⟩⟩
    by_cases hplace : segments other = s.unfinished key
    · rw [hplace] at hnode hkey
      exact absurd hnode (h.moved hkey content modified)
    · exact (h.confined.files _ (fun hor => hor.elim hkey hplace) content modified).mp hnode

end DirectoryStore

namespace EitherStore

variable {store after : EitherStore} {key other : String} {bytes : ByteArray}

/-- A store of either kind that can serve. -/
def WellFormed : EitherStore → Prop
  | memory _ => True
  | directory s => s.WellFormed

/-- Keys that mean one place. -/
def SamePlace : EitherStore → String → String → Prop
  | memory _, key, other => other = key
  | directory _, key, other => segments other = segments key

/-- A key under which what is written under another one is never seen. -/
def Apart : EitherStore → String → String → Prop
  | memory _, key, other => other ≠ key
  | directory s, key, other => segments other ≠ segments key ∧ segments other ≠ s.unfinished key

/-- Keys are apart if they mean different places and no unfinished value of the one has the name of
    the other. -/
theorem apart_of_not_isPrefix (hkey : segments other ≠ segments key)
    (hname : ¬ (DirectoryStore.stem ((segments key).getLastD "") ++
      DirectoryStore.unfinishedMark).toList <+: ((segments other).getLastD "").toList) :
    store.Apart key other := by
  cases store with
  | memory s =>
    rintro rfl
    exact hkey rfl
  | directory s =>
    refine ⟨hkey, fun hplace => hname ?_⟩
    rw [hplace, DirectoryStore.unfinished, getLastD_concat, String.toList_append (t := s.writer)]
    exact prefix_append _ _

/-- What a write that goes through does to a store of either kind. -/
structure Stored (store : EitherStore) (key : String) (bytes : ByteArray)
    (after : EitherStore) : Prop where
  wellFormed : after.WellFormed
  /-- Keys mean the same places. -/
  samePlace : after.SamePlace = store.SamePlace
  /-- The same keys are apart. -/
  apart : after.Apart = store.Apart
  /-- The value is found under its key. -/
  found : blob? after key = some bytes
  /-- What is found was written, if it is at the same place, and was there otherwise. -/
  eq_of_blob : ∀ {other content}, blob? after other = some content →
    store.SamePlace key other ∧ content = bytes ∨
      ¬ store.SamePlace key other ∧ blob? store other = some content
  /-- The write is not seen under keys that are apart. -/
  blob_of_apart : ∀ {other}, store.Apart key other → blob? after other = blob? store other

/-- A write that goes through sets the value at one place. -/
theorem stored_of_put (hs : store.WellFormed)
    (h : BlobStore.put store key bytes = (.ok (), after)) : store.Stored key bytes after := by
  have hfound := RetentiveStore.blob_of_put h
  cases store with
  | memory s =>
    obtain ⟨-, rfl⟩ := Prod.mk.inj h
    have hput : (Store.put key bytes).Runs s () _ := rfl
    have hblob : ∀ other, blob? (memory ⟨s.blobs.insert key bytes⟩) other =
        if other = key then some bytes else blob? (memory s) other :=
      fun other => (Job.blob_of_put hput other :)
    refine ⟨trivial, rfl, rfl, hfound, fun {other content} hcont => ?_, fun {other} hother => ?_⟩
    · have hafter : blob? (memory ⟨s.blobs.insert key bytes⟩) other = some content := hcont
      rw [hblob] at hafter
      by_cases hkey : other = key
      · rw [if_pos hkey] at hafter
        exact .inl ⟨hkey, (Option.some.inj hafter).symm⟩
      · rw [if_neg hkey] at hafter
        exact .inr ⟨hkey, hafter⟩
    · exact (hblob other).trans (if_neg hother)
  | directory s =>
    obtain ⟨hdone, rfl⟩ := Prod.mk.inj h
    have hrun : s.put key bytes = (.ok (), _) := Prod.ext hdone rfl
    have hput := DirectoryStore.placed_of_put hs hrun
    have haltered := DirectoryStore.altered_put hs.serves hput.usable.endsInName hrun
    refine ⟨hput.wellFormed hs, rfl, ?_, hfound, fun hcont => hput.eq_of_blob hs hcont,
      fun hapart => haltered.blob_eq hs.serves fun hplace =>
        hplace.elim hapart.2 fun h => hapart.1 h.2⟩
    funext written other
    have hplace : (s.put key bytes).2.unfinished written = s.unfinished written := by
      rw [DirectoryStore.unfinished, hput.writer]
      rfl
    exact congrArg
      (fun place => segments other ≠ segments written ∧ segments other ≠ place) hplace

end EitherStore

end Ripple
