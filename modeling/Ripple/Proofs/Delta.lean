import Ripple.Proofs.Dict
import Ripple.Snapshot.Delta

/-!
# Deltas Reconstruct Their Target

A delta keeps the new state of each file that changed and the names of the
files that are gone. Applied to the snapshot that it starts from, it has to
give back the snapshot that it leads to, whatever the two are.

The records and the outlines of a snapshot are separate maps, and a path may
be in one of them only. So the state of a path is a pair of optional values,
and applying a delta sets or removes each of the two on its own. Both maps
are rebuilt by the same run, which `rebuilt` names once for either part; the
argument is then about one path at a time. A path is in the second snapshot
or not, in the first or not, and in the same state or not, and
`get_rebuilt` goes through these cases.

`delta_isEmpty_iff` is the minimality half: a delta has entries only for
paths whose state differs, so nothing is kept exactly when nothing changed.

## Theorems

* `Snapshot.entry_of_not_mem_paths`: A path that is not listed has no state.
* `mem_added_keys`, `mem_modified_keys`, `mem_removed`: Where a delta puts a
  path.
* `delta_exact_disjoint_minimal`: The three properties together.
-/

namespace Ripple

open List

namespace Snapshot

theorem mem_paths_iff (s : Snapshot) (path : String) :
    path ∈ s.paths ↔ (s.files.get? path).isSome ∨ (s.outlines.get? path).isSome := by
  unfold paths
  rw [mem_sortedSet, mem_append, Dict.mem_keys_iff, Dict.mem_keys_iff]

theorem entry_of_not_mem_paths {s : Snapshot} {path : String} (h : path ∉ s.paths) :
    s.entry path = ⟨none, none⟩ := by
  rw [mem_paths_iff, not_or, Option.not_isSome_iff_eq_none, Option.not_isSome_iff_eq_none] at h
  rw [entry, h.1, h.2]

theorem get_entries (s : Snapshot) (paths : List String) (path : String) :
    (s.entries paths).get? path = if path ∈ paths then some (s.entry path) else none :=
  Dict.get_ofList_tabulate paths s.entry path

theorem mem_entries_keys (s : Snapshot) (paths : List String) (path : String) :
    path ∈ (s.entries paths).keys ↔ path ∈ paths := by
  rw [Dict.mem_keys_iff, get_entries]
  by_cases h : path ∈ paths
  · simp
  · simp

/-- Two snapshots in which every path has the same state have the same
    records and outlines. -/
theorem parts_eq_of_entry_eq {s t : Snapshot} (h : ∀ path, s.entry path = t.entry path) :
    s.files = t.files ∧ s.outlines = t.outlines :=
  ⟨Dict.ext_get fun path => congrArg FileEntry.record (h path),
    Dict.ext_get fun path => congrArg FileEntry.outline (h path)⟩

end Snapshot

section Runs

variable {α : Type}

theorem get_assign (d : Dict String α) (key other : String) (value : Option α) :
    (d.assign key value).get? other = if other = key then value else d.get? other := by
  cases value with
  | none => exact Dict.get_erase d key other
  | some value => exact Dict.get_insert d key other value

/-- Setting some paths, each to a state that depends on the path alone,
    leaves the others as they were. -/
theorem get_foldl_assign {β : Type} (part : β → Option α) (state : String → β)
    (entries : List (String × β)) (hstate : ∀ e ∈ entries, e.2 = state e.1)
    (d : Dict String α) (path : String) :
    (entries.foldl (fun d e => d.assign e.1 (part e.2)) d).get? path
      = if path ∈ entries.map Prod.fst then part (state path) else d.get? path := by
  induction entries generalizing d with
  | nil => simp
  | cons head rest ih =>
    have hhead := hstate head mem_cons_self
    rw [foldl_cons, ih (fun e he => hstate e (mem_cons_of_mem _ he)), get_assign, map_cons, hhead]
    by_cases hrest : path ∈ rest.map Prod.fst
    · rw [if_pos hrest, if_pos (mem_cons_of_mem _ hrest)]
    · rw [if_neg hrest]
      by_cases hkey : path = head.1
      · rw [if_pos hkey, if_pos (by rw [hkey]; exact mem_cons_self), hkey]
      · rw [if_neg hkey, if_neg (by
          rw [mem_cons, not_or]
          exact ⟨hkey, hrest⟩)]

theorem get_foldl_erase (paths : List String) (d : Dict String α) (path : String) :
    (paths.foldl Dict.erase d).get? path = if path ∈ paths then none else d.get? path := by
  have h := get_foldl_assign (fun _ => none) (fun _ => ()) (paths.map (·, ())) (by simp) d path
  rw [foldl_map] at h
  exact h.trans (by simp)

end Runs

section Classes

variable (first second : Snapshot)

theorem mem_added_keys (path : String) :
    path ∈ (first.delta second).added.keys ↔ path ∈ second.paths ∧ path ∉ first.paths := by
  simp only [Snapshot.delta, Snapshot.mem_entries_keys, mem_filter, contains_eq_mem,
    Bool.not_eq_eq_eq_not, Bool.not_true, decide_eq_false_iff_not]

theorem mem_modified_keys (path : String) : path ∈ (first.delta second).modified.keys ↔
      path ∈ second.paths ∧ path ∈ first.paths ∧ first.entry path ≠ second.entry path := by
  simp only [Snapshot.delta, Snapshot.mem_entries_keys, mem_filter, contains_eq_mem,
    Bool.and_eq_true, decide_eq_true_eq]

theorem mem_removed (path : String) :
    path ∈ (first.delta second).removed ↔ path ∈ first.paths ∧ path ∉ second.paths := by
  simp only [Snapshot.delta, mem_filter, contains_eq_mem, Bool.not_eq_eq_eq_not,
    Bool.not_true, decide_eq_false_iff_not]

/-- Every entry that a delta keeps is the state in the second snapshot. -/
theorem delta_entry_eq (e : String × FileEntry)
    (h : e ∈ (first.delta second).added.toList ++ (first.delta second).modified.toList) :
    e.2 = second.entry e.1 := by
  have hone : ∀ paths, e ∈ (second.entries paths).toList → e.2 = second.entry e.1 := by
    intro paths hmem
    have hget := Dict.mem_toList_iff.mp (show (e.1, e.2) ∈ _ from hmem)
    rw [Snapshot.get_entries] at hget
    by_cases hpath : e.1 ∈ paths
    · rw [if_pos hpath, Option.some.injEq] at hget
      exact hget.symm
    · rw [if_neg hpath] at hget
      exact absurd hget (by simp)
  rcases mem_append.mp h with hadd | hmod
  · exact hone _ hadd
  · exact hone _ hmod

end Classes

/-- One part of the files after a delta was applied to a base. -/
def Delta.rebuilt {α : Type} (d : Delta) (part : FileEntry → Option α) (base : Dict String α) :
    Dict String α :=
  (d.added.toList ++ d.modified.toList).foldl (fun files e => files.assign e.1 (part e.2))
    (d.removed.foldl Dict.erase base)

/-- Every path ends in the state that it has in the second snapshot. The
    cases are those of the two path lists: a path of the second snapshot is
    set unless its state is the same already, and any other path is removed
    unless it was never there. -/
theorem get_rebuilt {α : Type} (first second : Snapshot) (part : FileEntry → Option α)
    (base : Dict String α) (hnone : part ⟨none, none⟩ = none)
    (hbase : ∀ path, base.get? path = part (first.entry path)) (path : String) :
    ((first.delta second).rebuilt part base).get? path = part (second.entry path) := by
  unfold Delta.rebuilt
  rw [get_foldl_assign part second.entry _ (delta_entry_eq first second), get_foldl_erase,
    map_append, hbase]
  have hkeys : path ∈ (first.delta second).added.toList.map Prod.fst ++
      (first.delta second).modified.toList.map Prod.fst ↔
      path ∈ (first.delta second).added.keys ∨ path ∈ (first.delta second).modified.keys :=
    mem_append
  by_cases hset : path ∈ (first.delta second).added.keys ∨ path ∈ (first.delta second).modified.keys
  · rw [if_pos (hkeys.mpr hset)]
  · rw [if_neg (fun hc => hset (hkeys.mp hc))]
    rw [mem_added_keys, mem_modified_keys, not_or] at hset
    have hrem := mem_removed first second path
    by_cases hafter : path ∈ second.paths
    · -- The path is in both snapshots and its state did not change.
      have hpre : path ∈ first.paths := by
        by_contra hc
        exact hset.1 ⟨hafter, hc⟩
      have hsame : first.entry path = second.entry path := by
        by_contra hc
        exact hset.2 ⟨hafter, hpre, hc⟩
      rw [if_neg (fun hc => (hrem.mp hc).2 hafter), hsame]
    · rw [Snapshot.entry_of_not_mem_paths hafter, hnone]
      by_cases hpre : path ∈ first.paths
      · rw [if_pos (hrem.mpr ⟨hpre, hafter⟩)]
      · rw [if_neg (fun hc => hpre (hrem.mp hc).1),
          Snapshot.entry_of_not_mem_paths hpre, hnone]

theorem applyTo_eq (d : Delta) (base : Snapshot) (h : base.id = d.fromId) : d.applyTo? base = some
      { id := d.toId
        timestamp := d.timestamp
        files := d.rebuilt FileEntry.record base.files
        outlines := d.rebuilt FileEntry.outline base.outlines
        graph := d.graph.getD base.graph } := by
  unfold Delta.applyTo?
  rw [if_neg (fun hc => hc h)]
  rfl

theorem delta_graph_getD (first second : Snapshot) :
    (first.delta second).graph.getD first.graph = second.graph := by
  simp only [Snapshot.delta]
  by_cases h : first.graph = second.graph
  · rw [if_pos h, Option.getD_none, h]
  · rw [if_neg h, Option.getD_some]

/-- Applying a delta to the snapshot it starts from gives the snapshot it
    leads to. -/
theorem applyTo_delta (first second : Snapshot) :
    (first.delta second).applyTo? first = some second := by
  have hfiles : (first.delta second).rebuilt FileEntry.record first.files = second.files :=
    Dict.ext_get (get_rebuilt first second FileEntry.record first.files rfl (fun _ => rfl))
  have houts : (first.delta second).rebuilt FileEntry.outline first.outlines
      = second.outlines :=
    Dict.ext_get (get_rebuilt first second FileEntry.outline first.outlines rfl (fun _ => rfl))
  rw [applyTo_eq _ first rfl, hfiles, houts, delta_graph_getD]
  rfl

/-- A delta counts no change iff every path has the same state on both
    sides. -/
theorem changeCount_eq_zero_iff (first second : Snapshot) : (first.delta second).changeCount = 0 ↔
      ∀ path, first.entry path = second.entry path := by
  unfold Delta.changeCount
  rw [Nat.add_eq_zero_iff, Nat.add_eq_zero_iff, Dict.size_eq_zero_iff, Dict.size_eq_zero_iff,
    length_eq_zero_iff, eq_nil_iff_forall_not_mem]
  simp only [mem_added_keys, mem_modified_keys, mem_removed, not_and, not_not]
  constructor
  · rintro ⟨⟨hadd, hmod⟩, hrem⟩ path
    by_cases hafter : path ∈ second.paths
    · exact hmod path hafter (hadd path hafter)
    · have hpre : path ∉ first.paths := fun hc => hafter (hrem path hc)
      rw [Snapshot.entry_of_not_mem_paths hafter, Snapshot.entry_of_not_mem_paths hpre]
  · intro hsame
    -- A path with the same state is listed on both sides or on neither.
    have hpaths : ∀ path, path ∈ first.paths ↔ path ∈ second.paths := by
      intro path
      have h := hsame path
      rw [Snapshot.entry, Snapshot.entry, FileEntry.mk.injEq] at h
      rw [Snapshot.mem_paths_iff, Snapshot.mem_paths_iff, h.1, h.2]
    exact ⟨⟨fun path h => (hpaths path).mpr h, fun path _ _ => hsame path⟩,
      fun path h => (hpaths path).mp h⟩

/-- A delta is empty iff the two snapshots have the same records, outlines
    and graph. -/
theorem delta_isEmpty_iff (first second : Snapshot) : (first.delta second).isEmpty = true ↔
      first.files = second.files ∧ first.outlines = second.outlines ∧
        first.graph = second.graph := by
  have hgraph : (first.delta second).graph.isNone = true ↔ first.graph = second.graph := by
    simp only [Snapshot.delta]
    by_cases h : first.graph = second.graph
    · rw [if_pos h]
      exact ⟨fun _ => h, fun _ => rfl⟩
    · rw [if_neg h]
      exact ⟨fun hc => absurd hc (by simp), fun hc => absurd hc h⟩
  unfold Delta.isEmpty
  rw [Bool.and_eq_true, decide_eq_true_eq, changeCount_eq_zero_iff, hgraph]
  constructor
  · rintro ⟨hents, hg⟩
    have hparts := Snapshot.parts_eq_of_entry_eq hents
    exact ⟨hparts.1, hparts.2, hg⟩
  · rintro ⟨hfiles, houts, hg⟩
    refine ⟨fun path => ?_, hg⟩
    rw [Snapshot.entry, Snapshot.entry, hfiles, houts]

/-- A delta reconstructs its target exactly, puts no path in two of its three
    classes, and is empty only if there is nothing to reconstruct. -/
theorem delta_exact_disjoint_minimal (first second : Snapshot) :
    (first.delta second).applyTo? first = some second ∧
    (List.Disjoint (first.delta second).added.keys (first.delta second).modified.keys ∧
      List.Disjoint (first.delta second).added.keys (first.delta second).removed ∧
      List.Disjoint (first.delta second).modified.keys (first.delta second).removed) ∧
    ((first.delta second).isEmpty = true ↔
      first.files = second.files ∧ first.outlines = second.outlines ∧
        first.graph = second.graph) := by
  refine ⟨applyTo_delta first second, ⟨?_, ?_, ?_⟩, delta_isEmpty_iff first second⟩
  · intro path hadded hmodified
    rw [mem_added_keys] at hadded
    rw [mem_modified_keys] at hmodified
    exact hadded.2 hmodified.2.1
  · intro path hadded hremoved
    rw [mem_added_keys] at hadded
    rw [mem_removed] at hremoved
    exact hremoved.2 hadded.1
  · intro path hmodified hremoved
    rw [mem_modified_keys] at hmodified
    rw [mem_removed] at hremoved
    exact hremoved.2 hmodified.1

end Ripple
