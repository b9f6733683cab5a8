import Ripple.Proofs.Store.Listing

/-!
# What Writes and Removals Leave Behind

A write that fails in a directory may have made directories and may leave an
unfinished file, and one that goes through puts a file at its place. Whatever
happens, no other file is touched, the new directories are those above the
place, and the directory serves as before.

A key without a value can be asked for if its name fits and if no directory has
its name: only then is it found to be missing.

## Theorems

* `DirectoryStore.altered_put`, `DirectoryStore.altered_delete`: What writes and removals may do,
  whether they go through or not.
-/

namespace Ripple

open List Path Store

namespace DirectoryStore

variable {s after : DirectoryStore} {key other : String} {bytes : ByteArray}
  {places : List String → Prop} {made : List String}

/-- A removal takes a file from its place, or it does nothing. -/
theorem altered_delete (hs : s.Serves) {result : Except Error Bool}
    (h : s.delete key = (result, after)) : s.Altered (· = segments key) [] after ∧
      (after = s ∨ ¬ after.tree.HasFile (segments key)) := by
  rcases hs.exists_base with ⟨base, hbase⟩
  have hnothing : s.Altered (· = segments key) [] s ∧ (s = s ∨ ¬ s.tree.HasFile (segments key)) :=
    ⟨altered_refl hs _ _, .inl rfl⟩
  unfold delete at h
  split at h
  · cases h
    exact hnothing
  next path hpath =>
    rcases pathOf_eq_ok_iff.mp hpath with ⟨hkey, rfl⟩
    split at h
    next disk hremove =>
      cases h
      have hnames : ∀ p, s.disk.place (join s.root key) = .ok p →
          p.names = base.names ++ segments key := by
        intro p hp
        have hends := (endsInName_join s.root hkey.2.2).mp (FileTree.segments_of_place hp).1.2
        exact hbase.names_of_place (.refl (fun _ => False) _) hp (segments_join s.root hkey.2.2)
          (segments_ne_nil hends) hkey.isName
      have hedit : FileTree.Edit base.names (· = segments key) [] s.disk disk :=
        FileTree.edit_removeFile hremove fun p hp => ⟨_, rfl, hnames p hp⟩
      refine ⟨altered_of_edit hs hbase hedit, .inr ?_⟩
      rcases opened_of_confined hs.opened hbase hedit.confined with ⟨-, hnode, -⟩
      rcases FileTree.removeFile_eq_ok hremove with ⟨p, hp, -, hafter⟩
      rintro ⟨content, modified, hfile⟩
      rw [hnode, hafter, ← hnames p hp, FileTree.Place.names,
        FileTree.node_alter_self (FileTree.hasDirectory_of_place hp)] at hfile
      cases hfile
    · cases h
      exact hnothing
    · cases h
      exact hnothing

/-- A directory serves after a change if it makes no file that cannot be looked for. -/
theorem Altered.serves (h : s.Altered places made after) (hs : s.Serves)
    (hreach : ∀ names name, places (names ++ [name]) → after.tree.HasFile (names ++ [name]) →
      ¬ IsHidden name → FileTree.Reachable (join s.root (ofSegments (names ++ [name])))) :
    after.Serves where
  ordered := h.ordered
  opened := h.opened
  writer := h.writer.symm ▸ hs.writer
  reachable names name content modified hnode hhidden := by
    rw [h.root]
    by_cases hplace : places (names ++ [name])
    · exact hreach names name hplace ⟨content, modified, hnode⟩ hhidden
    · exact hs.reachable names name content modified
        ((h.confined.files _ hplace content modified).mp hnode) hhidden

theorem isHidden_unfinished {names : List String} {name : String}
    (h : names ++ [name] = s.unfinished key) : IsHidden name := by
  have hlast := congrArg (List.getLastD · "") h
  simp only [unfinished, getLastD_concat] at hlast
  rw [hlast, IsHidden, String.toList_append, String.toList_append]
  exact infix_append _ _ _

/-- A directory serves after a write, whether it went through or not. -/
theorem serves_put (hs : s.Serves) (hends : EndsInName key) {result : Except Error Unit}
    (h : s.put key bytes = (result, after)) : after.Serves := by
  have hput := altered_put hs hends h
  refine hput.serves hs fun names name hplace hfile hhidden => ?_
  rcases hplace with hplace | ⟨rfl, hplace⟩
  · exact absurd (isHidden_unfinished hplace) hhidden
  · -- The write went through, so its key leads to the value.
    rcases hput.opened with ⟨entries, hents⟩
    rcases base_of_opened hents with ⟨base, hbase⟩
    rcases hbase.blob_eq_some_iff.mp (RetentiveStore.blob_of_put h) with ⟨husable, -⟩
    rw [hplace]
    exact ((usable_congr hput.root).mp husable).reachable_segments

section Missing

open FileTree

variable {directory name longer : String}

/-- What is at a name in a directory is looked for among its entries, if there is a value with a
    longer name. -/
theorem at_below_of_blob (hs : s.Serves) (hplain : IsPlain directory) (hname : IsName name)
    (hlonger : name.toList.Sublist longer.toList)
    (h : blob? s (directory ++ "/" ++ longer) = some bytes) :
    ∃ entries, s.disk.at? (join s.root (directory ++ "/" ++ name)) = entry? entries name := by
  rcases at_directory_of_blob hs hplain h with ⟨entries, hents⟩
  rcases hs.blob_eq_some_iff.mp h with ⟨husable, -⟩
  have hkey : IsKey (directory ++ "/" ++ name) := (hplain.below hname).isKey
  rcases join_eq_append s.root with ⟨front, -, hfront⟩
  have hpath : join s.root (directory ++ "/" ++ name) = join s.root directory ++ "/" ++ name := by
    rw [hfront _ hkey.2.2, hfront _ hplain.isKey.2.2]
    simp only [String.append_assoc]
  have hreach : Reachable (join s.root (directory ++ "/" ++ name)) := by
    refine husable.reachable.of_sublist ?_
    rw [hfront _ hkey.2.2, hfront _ husable.isKey.2.2]
    simp only [String.toList_append]
    exact (List.Sublist.refl _).append ((List.Sublist.refl _).append hlonger)
  rw [hpath] at hreach ⊢
  exact ⟨entries, at_below hents hname hreach⟩

/-- A value that is not there is found to be missing if its name fits and is not that of a
    directory, and if there is a value with a longer name. -/
theorem get_below_eq_none (hs : s.Serves) (hplain : IsPlain directory) (hname : IsName name)
    (hlonger : name.toList.Sublist longer.toList)
    (h : blob? s (directory ++ "/" ++ longer) = some bytes)
    (hfits : name.utf8ByteSize ≤ maxNameSize)
    (hdir : ¬ s.tree.HasDirectory (segments directory ++ [name]))
    (hnone : blob? s (directory ++ "/" ++ name) = none) :
    BlobStore.get s (directory ++ "/" ++ name) = .ok none := by
  rcases hs.exists_base with ⟨base, hbase⟩
  have hkey : IsKey (directory ++ "/" ++ name) := (hplain.below hname).isKey
  rcases at_below_of_blob hs hplain hname hlonger h with ⟨entries, hat⟩
  -- There is no entry: it would be a file or a directory, and neither is there.
  have hmissing : entry? entries name = .error .missing := by
    cases hentry : entry? entries name with
    | error fault =>
      unfold entry? at hentry
      split at hentry
      · cases hentry
      · rwa [if_neg (Nat.not_lt.mpr hfits), eq_comm] at hentry
    | ok node =>
      rw [hentry] at hat
      cases node with
      | file content modified =>
        rw [blob_eq_some_iff_at.mpr ⟨hkey, modified, hat⟩] at hnone
        cases hnone
      | directory below =>
        rcases (hbase.at_directory_iff hkey).mp hat with ⟨-, hnode⟩
        rw [segments_slash, segments_of_isName hname] at hnode
        exact absurd ⟨below, hnode⟩ hdir
  change s.get (directory ++ "/" ++ name) = .ok none
  rw [get, pathOf_eq_ok_iff.mpr ⟨hkey, rfl⟩]
  simp only [bind, Except.bind, FileTree.read, hat, hmissing]
  rfl

end Missing

end DirectoryStore

/-- A write leaves values apart from it alone, whether it goes through or not. -/
theorem EitherStore.serves_put {store : EitherStore} {key : String} (hs : store.Serves)
    (hends : EndsInName key) (bytes : ByteArray) : (BlobStore.put store key bytes).2.Serves ∧
      ∀ other, store.Apart key other →
        blob? (BlobStore.put store key bytes).2 other = blob? store other := by
  cases store with
  | memory s =>
    have hput : (Store.put key bytes).Runs s () ⟨s.blobs.insert key bytes⟩ := rfl
    exact ⟨trivial, fun other hapart => (Job.blob_of_put hput other).trans (if_neg hapart)⟩
  | directory s =>
    refine ⟨DirectoryStore.serves_put hs hends rfl, fun other hapart => ?_⟩
    refine (DirectoryStore.altered_put hs hends rfl).blob_eq hs fun hplace => ?_
    exact hplace.elim hapart.2 fun h => hapart.1 h.2

end Ripple
