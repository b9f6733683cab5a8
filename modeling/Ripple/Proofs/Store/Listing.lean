import Ripple.Proofs.Store.Keys
import Ripple.Proofs.Store.Places

/-!
# What a Store Lists

In memory all keys are listed that begin with a text. In a directory the files
of one directory are listed, so a key with a further slash in it is not, and
neither is one that looks like the name of an unfinished value. What is listed
has a value in both.

An unfinished value may have been left behind, and it need not be one that can
be looked for, so a directory serves as long as the other files in it can.
-/

namespace Ripple

open List Path Store

namespace DirectoryStore

theorem occursIn_eq_true_iff {part text : List Char} :
    occursIn part text = true ↔ part <:+: text := by
  induction text with
  | nil => rw [occursIn, List.isEmpty_iff, infix_nil]
  | cons c cs ih =>
    rw [occursIn, Bool.or_eq_true, isPrefixOf_iff_prefix, ih, infix_cons_iff]

variable {s : DirectoryStore} {directory name : String} {keys : List String} {bytes : ByteArray}

theorem splitText_below (directory : String) (h : '/' ∉ name.toList) :
    splitText '/' (directory ++ "/" ++ name) = splitText '/' directory ++ [name] := by
  rw [splitText_slash, splitText_of_not_mem h]

theorem splitKey_slash (directory : String) : splitKey (directory ++ "/") = (directory, "") := by
  have hparts := splitText_slash directory ""
  rw [String.append_empty, show splitText '/' "" = [""] from rfl] at hparts
  rw [splitKey, hparts]
  simp only [dropLast_concat, getLastD_concat, ofSegments_splitText]

/-- A path that is made of names alone. -/
def IsPlain (directory : String) : Prop := ∀ part ∈ splitText '/' directory, IsName part

theorem IsPlain.segments_eq (h : IsPlain directory) :
    segments directory = splitText '/' directory :=
  List.filter_eq_self.mpr fun part hpart => by simp [(h part hpart).ne_empty, (h part hpart).ne_dot]

theorem IsPlain.isKey (h : IsPlain directory) : IsKey directory := by
  refine ⟨?_, fun hdots => (h _ hdots).ne_dots rfl, ?_⟩
  · rintro rfl
    exact (h "" mem_cons_self).ne_empty rfl
  · have hrel := isAbsolute_ofSegments fun part hpart =>
      ⟨(h part hpart).ne_empty, (h part hpart).no_slash⟩
    rwa [ofSegments_splitText] at hrel

theorem IsPlain.below (h : IsPlain directory) (hname : IsName name) :
    IsPlain (directory ++ "/" ++ name) := by
  intro part hpart
  rw [splitText_below directory hname.no_slash] at hpart
  rcases mem_append.mp hpart with hpart | hpart
  · exact h part hpart
  · exact mem_singleton.mp hpart ▸ hname

/-- A file in a directory is the value of its key. -/
theorem blob_below (hs : s.Serves) (hplain : IsPlain directory) (hname : IsName name)
    (hhidden : ¬ IsHidden name) {modified : Int64}
    (h : s.tree.node? (segments directory ++ [name]) = some (.file bytes modified)) :
    blob? s (directory ++ "/" ++ name) = some bytes := by
  have hbelow := hplain.below hname
  have hparts : splitText '/' (directory ++ "/" ++ name) = segments directory ++ [name] := by
    rw [splitText_below directory hname.no_slash, hplain.segments_eq]
  have hsegs : segments (directory ++ "/" ++ name) = segments directory ++ [name] := by
    rw [hbelow.segments_eq, hparts]
  refine hs.blob_eq_some_iff.mpr ⟨⟨hbelow.isKey, ?_, ?_⟩, modified, hsegs ▸ h⟩
  · rw [EndsInName, hparts, getLastD_concat]
    exact ⟨hname.ne_empty, hname.ne_dot⟩
  · have hreach := hs.reachable _ _ _ _ h hhidden
    rwa [← hparts, ofSegments_splitText] at hreach

theorem node_of_blob_below (hs : s.Serves) (hslash : '/' ∉ name.toList)
    (h : blob? s (directory ++ "/" ++ name) = some bytes) : IsName name ∧
      ∃ modified, s.tree.node? (segments directory ++ [name]) = some (.file bytes modified) := by
  obtain ⟨⟨hkey, hends, -⟩, modified, hnode⟩ := hs.blob_eq_some_iff.mp h
  have hparts := splitText_below directory hslash
  rw [EndsInName, hparts, getLastD_concat] at hends
  have hname : IsName name := by
    refine ⟨hends.1, hends.2, ?_, hslash⟩
    rintro rfl
    exact hkey.2.1 (hparts ▸ mem_append_right _ mem_cons_self)
  rw [segments_slash, segments_of_isName hname] at hnode
  exact ⟨hname, modified, hnode⟩

/-- The names in a directory that are listed. -/
def shown (entries : List (String × FileTree)) : List String :=
  ((entries.filter fun e => e.2.isFile).map Prod.fst).filter fun name =>
    !occursIn unfinishedMark.toList name.toList

theorem mem_shown_iff {entries : List (String × FileTree)} : name ∈ shown entries ↔
    (∃ content modified, (name, FileTree.file content modified) ∈ entries) ∧ ¬ IsHidden name := by
  rw [shown, mem_filter, Bool.not_eq_true', IsHidden, ← occursIn_eq_true_iff, Bool.not_eq_true]
  refine and_congr_left fun _ => ?_
  rw [mem_map]
  constructor
  · rintro ⟨⟨name', node⟩, hmem, rfl⟩
    obtain ⟨hentry, hfile⟩ := mem_filter.mp hmem
    cases node with
    | file content modified => exact ⟨content, modified, hentry⟩
    | directory below => cases hfile
  · rintro ⟨content, modified, hentry⟩
    exact ⟨_, mem_filter.mpr ⟨hentry, rfl⟩, rfl⟩

/-- A directory that is there is listed, and one that is missing counts as empty. -/
theorem list_eq_ok_iff (hplain : IsPlain directory) : s.list (directory ++ "/") = .ok keys ↔
    s.disk.at? (join s.root directory) = .error .missing ∧ keys = [] ∨
      ∃ entries, s.disk.at? (join s.root directory) = .ok (.directory entries) ∧
        keys = (shown entries).map (directory ++ "/" ++ ·) := by
  have hpath : s.pathOf directory = .ok (join s.root directory) :=
    pathOf_eq_ok_iff.mpr ⟨hplain.isKey, rfl⟩
  have hbeg : ∀ name, beginsWith name "" = true := fun _ => rfl
  simp only [list, splitKey_slash, if_neg hplain.isKey.1, hpath, bind, Except.bind,
    FileTree.fileNames, hbeg, Bool.and_true]
  cases s.disk.at? (join s.root directory) with
  | error fault => cases fault <;> simp [pure, Except.pure, eq_comm]
  | ok node =>
    cases node with
    | file content modified => simp
    | directory entries => simp [pure, Except.pure, shown, eq_comm]

theorem at_directory_of_blob (hs : s.Serves) (hplain : IsPlain directory)
    (h : blob? s (directory ++ "/" ++ name) = some bytes) :
    ∃ entries, s.disk.at? (join s.root directory) = .ok (.directory entries) := by
  obtain ⟨base, hbase⟩ := hs.exists_base
  obtain ⟨⟨hkey, hends, hreach⟩, modified, hnode⟩ := hs.blob_eq_some_iff.mp h
  obtain ⟨first, rest, hname⟩ := exists_cons_of_ne_nil
    (segments_ne_nil ((endsInName_slash directory name).mp hends))
  rw [segments_slash, hname, FileTree.node_append] at hnode
  obtain ⟨node, habove, hbelow⟩ := Option.bind_eq_some_iff.mp hnode
  have hshort : FileTree.Reachable (join s.root directory) := by
    obtain ⟨front, -, hfront⟩ := join_eq_append s.root
    have hlong : front ++ (directory ++ "/" ++ name) = front ++ directory ++ ("/" ++ name) := by
      simp only [String.append_assoc]
    refine hreach.of_sublist ?_
    rw [hfront _ hplain.isKey.2.2, hfront _ hkey.2.2, hlong,
      String.toList_append (t := "/" ++ name)]
    exact sublist_append_left _ _
  cases node with
  | file content modified => cases hbelow
  | directory entries => exact ⟨entries, (hbase.at_directory_iff hplain.isKey).mpr ⟨hshort, habove⟩⟩

/-- What a directory lists: its files, unless their names look like those of unfinished values. -/
theorem mem_list_iff (hs : s.Serves) (hplain : IsPlain directory)
    (h : s.list (directory ++ "/") = .ok keys) : directory ++ "/" ++ name ∈ keys ↔
      ('/' ∉ name.toList ∧ ¬ IsHidden name) ∧ (blob? s (directory ++ "/" ++ name)).isSome := by
  obtain ⟨base, hbase⟩ := hs.exists_base
  rcases (list_eq_ok_iff hplain).mp h with ⟨hmissing, rfl⟩ | ⟨entries, hents, rfl⟩
  · -- A directory with a value in it is not missing.
    refine iff_of_false not_mem_nil ?_
    rintro ⟨-, hsome⟩
    obtain ⟨bytes, hblob⟩ := Option.isSome_iff_exists.mp hsome
    obtain ⟨entries, hents⟩ := at_directory_of_blob hs hplain hblob
    rw [hmissing] at hents
    cases hents
  · obtain ⟨-, habove⟩ := (hbase.at_directory_iff hplain.isKey).mp hents
    have hord : (FileTree.directory entries).Ordered := by
      rw [hbase.node_tree] at habove
      exact hs.ordered.node habove
    have hfind : s.tree.node? (segments directory ++ [name]) =
        (entries.find? fun e => e.1 = name).map Prod.snd := by
      rw [FileTree.node_append, habove, Option.bind_some, FileTree.node_directory_cons]
      cases entries.find? fun e => e.1 = name with
      | none => rfl
      | some e => rfl
    have hmem : directory ++ "/" ++ name ∈ (shown entries).map (directory ++ "/" ++ ·) ↔
        name ∈ shown entries := by
      rw [mem_map]
      refine ⟨?_, fun hname => ⟨name, hname, rfl⟩⟩
      rintro ⟨other, hother, heq⟩
      exact (String.append_right_inj _).mp heq ▸ hother
    rw [hmem, mem_shown_iff]
    constructor
    · rintro ⟨⟨content, modified, hentry⟩, hhidden⟩
      have hname : IsName name := by
        cases hord with
        | directory names _ _ => exact names _ hentry
      rw [hord.find_of_mem hentry] at hfind
      refine ⟨⟨hname.no_slash, hhidden⟩, ?_⟩
      rw [blob_below hs hplain hname hhidden hfind]
      rfl
    · rintro ⟨⟨hslash, hhidden⟩, hsome⟩
      obtain ⟨bytes, hblob⟩ := Option.isSome_iff_exists.mp hsome
      obtain ⟨-, modified, hnode⟩ := node_of_blob_below hs hslash hblob
      rw [hfind] at hnode
      obtain ⟨⟨name', node⟩, hentry, rfl⟩ := Option.map_eq_some_iff.mp hnode
      obtain rfl : name' = name := by simpa using find?_some hentry
      exact ⟨⟨bytes, modified, mem_of_find?_eq_some hentry⟩, hhidden⟩

theorem exists_list_of_blob (hs : s.Serves) (hplain : IsPlain directory)
    (h : blob? s (directory ++ "/" ++ name) = some bytes) :
    ∃ keys, s.list (directory ++ "/") = .ok keys := by
  obtain ⟨entries, hents⟩ := at_directory_of_blob hs hplain h
  exact ⟨_, (list_eq_ok_iff hplain).mpr (.inr ⟨entries, hents, rfl⟩)⟩

end DirectoryStore

namespace EitherStore

variable {store : EitherStore} {directory name : String} {keys : List String} {bytes : ByteArray}

/-- A store of either kind in which all but unfinished values can be found. -/
def Serves : EitherStore → Prop
  | .memory _ => True
  | .directory s => s.Serves

theorem WellFormed.serves (h : store.WellFormed) : store.Serves := by
  cases store with
  | memory s => exact trivial
  | directory s => exact DirectoryStore.WellFormed.serves h

/-- A name under which a value is listed. -/
def Shows : EitherStore → String → Prop
  | .memory _, _ => True
  | .directory _, name => '/' ∉ name.toList ∧ ¬ DirectoryStore.IsHidden name

theorem mem_list_iff (hs : store.Serves) (hplain : DirectoryStore.IsPlain directory)
    (h : BlobStore.list store (directory ++ "/") = .ok keys) : directory ++ "/" ++ name ∈ keys ↔
      store.Shows name ∧ (blob? store (directory ++ "/" ++ name)).isSome := by
  cases store with
  | memory s =>
    obtain ⟨listed, hlist, hmem⟩ := LawfulStore.list_eq s (directory ++ "/")
    obtain rfl : keys = listed := Except.ok.inj (h.symm.trans hlist)
    rw [hmem, beginsWith_append, and_comm]
    exact and_congr_left' (iff_of_true rfl trivial)
  | directory s => exact DirectoryStore.mem_list_iff hs hplain h

theorem exists_list_of_blob (hs : store.Serves) (hplain : DirectoryStore.IsPlain directory)
    (h : blob? store (directory ++ "/" ++ name) = some bytes) :
    ∃ keys, BlobStore.list store (directory ++ "/") = .ok keys := by
  cases store with
  | memory s => exact ⟨_, rfl⟩
  | directory s => exact DirectoryStore.exists_list_of_blob hs hplain h

end EitherStore

end Ripple
