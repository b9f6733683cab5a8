import Mathlib.Data.Finset.Max
import Mathlib.Data.List.Cycle
import Mathlib.Data.String.Basic
import Ripple.Graph.Cycles
import Ripple.Proofs.Dict

/-!
# The Cycles of a Graph

The search for cycles finds each cycle of a bounded number of files, as far as
the files on it are concerned, and nothing else.

The search is a loop over a stack. What it does is a recursion over the number
of files that the way may still grow by: `branch` lists the cycles that come of
one dependency, and `run_frame` says that the loop takes a file from the stack
after it has found what `branch` lists for the dependencies that were left to
look at. Everything else is about `branch`, and the stack is not mentioned
again.

A way that `branch` completes goes from the start through greater files, none
of them twice, and back to the start. So it is a cycle that begins at its
smallest file. Conversely every cycle can be turned until it begins at its
smallest file, without another file on it, and then the way is one of those
that are searched.
-/

namespace Ripple

open List

/-- Files that do not repeat, each of which imports the next and the last one the first. -/
structure ImportGraph.IsCycle (g : ImportGraph) (files : List String) : Prop where
  nonempty : files ≠ []
  nodup : files.Nodup
  /-- Each file imports the next, and the last one the first. -/
  chain : Cycle.Chain (fun a b => b ∈ g.dependenciesOf a) (files : Cycle String)

/-- The first file of a list is its smallest one. -/
def BeginsSmallest (files : List String) : Prop :=
  ∀ first rest, files = first :: rest → ∀ file ∈ rest, first < file

/-- All cycles of a graph with a bounded number of files, one for each set of files. -/
structure ImportGraph.CyclesUpTo (g : ImportGraph) (maxFiles : Nat) (cycles : List (List String)) :
    Prop where
  isCycle : ∀ cycle ∈ cycles, g.IsCycle cycle
  length_le : ∀ cycle ∈ cycles, cycle.length ≤ maxFiles
  beginsSmallest : ∀ cycle ∈ cycles, BeginsSmallest cycle
  /-- No two cycles go through the same files. -/
  distinct : cycles.Pairwise fun first second => ¬ ∀ file, file ∈ first ↔ file ∈ second
  /-- For every cycle that does not have too many files there is one through the same files. -/
  complete : ∀ cycle, g.IsCycle cycle → cycle.length ≤ maxFiles →
    ∃ found ∈ cycles, ∀ file, file ∈ cycle ↔ file ∈ found

namespace CycleSearch

variable {g : ImportGraph} {start : String} {maxFiles : Nat}

/-- The cycles that come of one dependency of the last file of a way, which is given with its last
    file first and may still grow by a number of files. -/
def branch (g : ImportGraph) (start : String) : Nat → List String → String → List (List String)
  | more, path, next =>
    if next = start then [path.reverse]
    else
      match more with
      | 0 => []
      | more + 1 =>
        if start < next ∧ next ∉ path then
          (g.dependenciesOf next).flatMap (branch g start more (next :: path))
        else []

theorem branch_start (more : Nat) (path : List String) :
    branch g start more path start = [path.reverse] := by
  unfold branch
  rw [if_pos rfl]

theorem branch_stop {more : Nat} {path : List String} {next : String} (hne : next ≠ start)
    (h : ¬ (start < next ∧ next ∉ path ∧ 0 < more)) : branch g start more path next = [] := by
  unfold branch
  rw [if_neg hne]
  cases more with
  | zero => rfl
  | succ more =>
    have hstop : ¬ (start < next ∧ next ∉ path) := by
      rintro ⟨hlt, hnot⟩
      exact h ⟨hlt, hnot, Nat.succ_pos more⟩
    exact if_neg hstop

theorem branch_go {more : Nat} {path : List String} {next : String} (hlt : start < next)
    (hnot : next ∉ path) : branch g start (more + 1) path next =
      (g.dependenciesOf next).flatMap (branch g start more (next :: path)) := by
  rw [branch, if_neg (ne_of_gt hlt)]
  exact if_pos ⟨hlt, hnot⟩

section Loop

theorem run_step {s : CycleSearch} (h : s.stack ≠ []) :
    run g start maxFiles s = run g start maxFiles (s.step g start maxFiles) := by
  rw [run, dif_neg h]

/-- A run is a number of steps that leave nothing to look at. -/
theorem exists_iterate_eq_run (s : CycleSearch) :
    ∃ n, (step g start maxFiles)^[n] s = run g start maxFiles s ∧
      (run g start maxFiles s).stack = [] := by
  induction s using run.induct g start maxFiles with
  | case1 s hempty =>
    rw [run, dif_pos hempty]
    exact ⟨0, rfl, hempty⟩
  | case2 s hsome ih =>
    obtain ⟨n, hn, hend⟩ := ih
    rw [run_step hsome]
    exact ⟨n + 1, hn, hend⟩

theorem run_congr {h : ImportGraph} (hnodes : g.nodes = h.nodes) (s : CycleSearch) :
    s.run g start maxFiles = s.run h start maxFiles := by
  have hdeps : g.dependenciesOf = h.dependenciesOf := by
    funext path
    rw [ImportGraph.dependenciesOf, ImportGraph.dependenciesOf, hnodes]
  have hstep : ∀ s : CycleSearch, s.step g start maxFiles = s.step h start maxFiles := by
    intro s
    unfold step look
    rw [hdeps]
  fun_induction run g start maxFiles s with
  | case1 s hend => rw [run, dif_pos hend]
  | case2 s hmore ih => rw [ih, hstep, run_step hmore]

theorem run_cons (file next : String) (others : List String)
    (below : List (String × List String)) (found : List (List String)) :
    run g start maxFiles ⟨(file, next :: others) :: below, found⟩ =
      run g start maxFiles (look g start maxFiles ⟨(file, others) :: below, found⟩ next) :=
  run_step (cons_ne_nil _ _)

variable (g start maxFiles) in
/-- What looking at a dependency can do. -/
theorem look_cases (s : CycleSearch) (next : String) :
    (next = start ∧ s.look g start maxFiles next = ⟨s.stack, s.path.reverse :: s.found⟩) ∨
      (start < next ∧ next ∉ s.path ∧ s.path.length < maxFiles ∧
        s.look g start maxFiles next = ⟨(next, g.dependenciesOf next) :: s.stack, s.found⟩) ∨
      (next ≠ start ∧ ¬ (start < next ∧ next ∉ s.path ∧ s.path.length < maxFiles) ∧
        s.look g start maxFiles next = s) := by
  unfold look
  by_cases hstart : next = start
  · exact Or.inl ⟨hstart, if_pos hstart⟩
  · rw [if_neg hstart]
    by_cases hgo : start < next ∧ next ∉ s.path ∧ s.path.length < maxFiles
    · refine Or.inr (Or.inl ⟨hgo.1, hgo.2.1, hgo.2.2, if_pos ?_⟩)
      simpa [and_assoc] using hgo
    · refine Or.inr (Or.inr ⟨hstart, hgo, if_neg ?_⟩)
      simpa [and_assoc] using hgo

/-- The loop takes a file from the stack after it has found the cycles that come of the
    dependencies that were left to look at. The induction is on the number of files by which the
    way may grow, and for each number on the dependencies that are left. -/
theorem run_frame (more : Nat) (file : String) (rest : List String)
    (below : List (String × List String)) (found : List (List String))
    (hmore : maxFiles - (below.length + 1) = more) :
    run g start maxFiles ⟨(file, rest) :: below, found⟩ =
      run g start maxFiles ⟨below,
        (rest.flatMap (branch g start more (file :: below.map Prod.fst))).reverse ++ found⟩ := by
  induction more using Nat.strong_induction_on generalizing file rest below found with
  | _ more ihmore =>
  induction rest generalizing found with
  | nil => exact run_step (cons_ne_nil _ _)
  | cons next others ih =>
    have hlen : (file :: below.map Prod.fst).length = below.length + 1 := by
      rw [length_cons, length_map]
    rw [run_cons, flatMap_cons]
    rcases look_cases g start maxFiles ⟨(file, others) :: below, found⟩ next with
      ⟨rfl, hlook⟩ | ⟨hlt, hnot, hshort, hlook⟩ | ⟨hne, hstop, hlook⟩
    · rw [hlook, ih, branch_start]
      simp [path]
    · -- The file that was entered is done with first, then the present one goes on.
      obtain ⟨less, rfl⟩ : ∃ less, more = less + 1 := by
        simp only [path, map_cons, hlen] at hshort
        exact ⟨more - 1, by omega⟩
      have hless : maxFiles - (((file, others) :: below).length + 1) = less := by
        rw [length_cons]
        omega
      have hnew : next ∉ file :: below.map Prod.fst := hnot
      rw [hlook, ihmore less (Nat.lt_succ_self less) _ _ _ _ hless, ih, branch_go hlt hnew]
      simp
    · have hstop' : ¬ (start < next ∧ next ∉ file :: below.map Prod.fst ∧ 0 < more) := by
        rintro ⟨hlt, hnot, hpos⟩
        refine hstop ⟨hlt, hnot, ?_⟩
        simp only [path, map_cons, hlen]
        omega
      rw [hlook, ih, branch_stop hne hstop']
      rfl

end Loop

/-- The ways that are completed: from the last file through greater files that are not on the way
    yet, none of them twice, and on to the start. -/
theorem mem_flatMap_branch_iff {more : Nat} {last : String} {before files : List String} :
    files ∈ (g.dependenciesOf last).flatMap (branch g start more (last :: before)) ↔
      ∃ tail, files = (last :: before).reverse ++ tail ∧ tail.length ≤ more ∧
        (∀ file ∈ tail, start < file ∧ file ∉ last :: before) ∧ tail.Nodup ∧
        (last :: (tail ++ [start])).IsChain fun a b => b ∈ g.dependenciesOf a := by
  -- Going on with a dependency uses up one of the files by which the way may grow.
  induction more using Nat.strong_induction_on generalizing last before with
  | _ more ih =>
  constructor
  · intro h
    obtain ⟨next, hnext, hmem⟩ := mem_flatMap.mp h
    by_cases hstart : next = start
    · rw [hstart, branch_start, mem_singleton] at hmem
      refine ⟨[], by simp [hmem], Nat.zero_le _, by simp, nodup_nil, ?_⟩
      simpa [hstart] using hnext
    · by_cases hgo : start < next ∧ next ∉ last :: before ∧ 0 < more
      · obtain ⟨hlt, hnot, hpos⟩ := hgo
        obtain ⟨less, rfl⟩ := Nat.exists_eq_succ_of_ne_zero (Nat.ne_of_gt hpos)
        rw [branch_go hlt hnot] at hmem
        obtain ⟨tail, rfl, hlen, hall, hnd, hchain⟩ :=
          (ih less (Nat.lt_succ_self less)).mp hmem
        refine ⟨next :: tail, by simp, Nat.succ_le_succ hlen, ?_, ?_, ?_⟩
        · intro file hfile
          rcases mem_cons.mp hfile with rfl | hfile
          · exact ⟨hlt, hnot⟩
          · exact ⟨(hall file hfile).1, not_mem_of_not_mem_cons (hall file hfile).2⟩
        · refine nodup_cons.mpr ⟨fun hc => ?_, hnd⟩
          exact (hall next hc).2 mem_cons_self
        · exact List.isChain_cons_cons.mpr ⟨hnext, hchain⟩
      · rw [branch_stop hstart hgo] at hmem
        exact absurd hmem not_mem_nil
  · rintro ⟨tail, rfl, hlen, hall, hnd, hchain⟩
    cases tail with
    | nil =>
      refine mem_flatMap.mpr ⟨start, ?_, ?_⟩
      · simpa using hchain
      · rw [branch_start, append_nil, mem_singleton]
    | cons next tail =>
      obtain ⟨hnext, hchain⟩ := List.isChain_cons_cons.mp hchain
      obtain ⟨hfresh, hnd⟩ := nodup_cons.mp hnd
      obtain ⟨hlt, hnot⟩ := hall next mem_cons_self
      obtain ⟨less, rfl⟩ : ∃ less, more = less + 1 := by
        rw [length_cons] at hlen
        exact ⟨more - 1, by omega⟩
      refine mem_flatMap.mpr ⟨next, hnext, ?_⟩
      rw [branch_go hlt hnot]
      refine (ih less (Nat.lt_succ_self less)).mpr ⟨tail, by simp, ?_, ?_, hnd, hchain⟩
      · exact Nat.le_of_succ_le_succ hlen
      · intro file hfile
        obtain ⟨hgreater, hother⟩ := hall file (mem_cons_of_mem _ hfile)
        refine ⟨hgreater, not_mem_cons_of_ne_of_not_mem ?_ hother⟩
        rintro rfl
        exact hfresh hfile

end CycleSearch

section Cycles

variable {g : ImportGraph} {maxFiles : Nat}

variable {files : List String}

/-- The search from a file finds the cycles that begin with it as their smallest file. -/
theorem mem_cyclesThrough_iff (hmax : 1 ≤ maxFiles) {start : String} :
    files ∈ cyclesThrough g maxFiles start ↔ g.IsCycle files ∧ BeginsSmallest files ∧
      files.length ≤ maxFiles ∧ files.head? = some start := by
  have hrun : cyclesThrough g maxFiles start =
      (g.dependenciesOf start).flatMap (CycleSearch.branch g start (maxFiles - 1) [start]) := by
    rw [cyclesThrough, CycleSearch.opening, CycleSearch.run_frame (maxFiles - 1) _ _ _ _ rfl,
      CycleSearch.run, dif_pos rfl, append_nil, reverse_reverse]
    rfl
  rw [hrun, CycleSearch.mem_flatMap_branch_iff]
  constructor
  · rintro ⟨tail, rfl, hlen, hall, hnd, hchain⟩
    refine ⟨⟨cons_ne_nil _ _, ?_, (Cycle.chain_coe_cons _ _ _).mpr hchain⟩, ?_, ?_, rfl⟩
    · exact nodup_cons.mpr ⟨fun hc => (hall start hc).2 mem_cons_self, hnd⟩
    · intro first rest heq
      obtain ⟨rfl, rfl⟩ := List.cons.inj heq
      exact fun file hfile => (hall file hfile).1
    · simp only [reverse_singleton, singleton_append, length_cons]
      omega
  · rintro ⟨hcycle, hmin, hlen, hhead⟩
    obtain ⟨rest, rfl⟩ : ∃ rest, files = start :: rest := head?_eq_some_iff.mp hhead
    have hnd := nodup_cons.mp hcycle.nodup
    refine ⟨rest, rfl, ?_, fun file hfile => ⟨hmin _ _ rfl file hfile, ?_⟩, hnd.2,
      (Cycle.chain_coe_cons _ _ _).mp hcycle.chain⟩
    · rw [length_cons] at hlen
      omega
    · rw [mem_singleton]
      rintro rfl
      exact hnd.1 hfile

theorem ImportGraph.IsCycle.turned {other : List String} (h : g.IsCycle files)
    (hrot : files ~r other) : g.IsCycle other where
  nonempty := by
    rintro rfl
    exact h.nonempty (List.isRotated_nil_iff.mp hrot)
  nodup := hrot.nodup_iff.mp h.nodup
  chain := Cycle.coe_eq_coe.mpr hrot ▸ h.chain

/-- Every cycle can be turned so that it begins at its smallest file. -/
theorem ImportGraph.IsCycle.exists_turned (h : g.IsCycle files) :
    ∃ other, files ~r other ∧ g.IsCycle other ∧ BeginsSmallest other := by
  obtain ⟨some, hsome⟩ := exists_mem_of_ne_nil files h.nonempty
  obtain ⟨first, hfst, hleast⟩ :=
    files.toFinset.exists_min_image id ⟨some, mem_toFinset.mpr hsome⟩
  obtain ⟨front, back, rfl⟩ := append_of_mem (mem_toFinset.mp hfst)
  -- What comes before the smallest file goes to the end.
  have hrot : front ++ first :: back ~r first :: back ++ front := isRotated_append
  have hcycle := h.turned hrot
  refine ⟨_, hrot, hcycle, ?_⟩
  intro first' rest heq file hfile
  obtain ⟨rfl, rfl⟩ := List.cons.inj heq
  have hne : first ≠ file := by
    rintro rfl
    exact (nodup_cons.mp hcycle.nodup).1 hfile
  have hmem : file ∈ front ++ first :: back := hrot.mem_iff.mpr (mem_cons_of_mem _ hfile)
  exact lt_of_le_of_ne (hleast file (mem_toFinset.mpr hmem)) hne

theorem ImportGraph.IsCycle.mem_keys (h : g.IsCycle files) {start : String}
    (hhead : files.head? = some start) : start ∈ g.nodes.keys := by
  obtain ⟨rest, rfl⟩ : ∃ rest, files = start :: rest := head?_eq_some_iff.mp hhead
  have hchain := (Cycle.chain_coe_cons _ _ _).mp h.chain
  obtain ⟨next, hnext⟩ : ∃ next, next ∈ g.dependenciesOf start := by
    cases rest with
    | nil => exact ⟨start, hchain.rel⟩
    | cons next rest => exact ⟨next, hchain.rel⟩
  rw [Dict.mem_keys_iff]
  unfold ImportGraph.dependenciesOf at hnext
  split at hnext
  case h_1 node hnode => exact Option.isSome_iff_exists.mpr ⟨node, hnode⟩
  case h_2 => exact absurd hnext not_mem_nil

/-- Before cycles through the same files are left out, all cycles that begin at their smallest file
    are there. -/
theorem mem_flatMap_cyclesThrough_iff (hmax : 1 ≤ maxFiles) :
    files ∈ g.nodes.keys.flatMap (cyclesThrough g maxFiles) ↔
      g.IsCycle files ∧ BeginsSmallest files ∧ files.length ≤ maxFiles := by
  rw [mem_flatMap]
  constructor
  · rintro ⟨start, -, hfiles⟩
    obtain ⟨hcycle, hmin, hlen, -⟩ := (mem_cyclesThrough_iff hmax).mp hfiles
    exact ⟨hcycle, hmin, hlen⟩
  · rintro ⟨hcycle, hmin, hlen⟩
    obtain ⟨start, rest, rfl⟩ := exists_cons_of_ne_nil hcycle.nonempty
    exact ⟨start, hcycle.mem_keys rfl,
      (mem_cyclesThrough_iff hmax).mpr ⟨hcycle, hmin, hlen, rfl⟩⟩

end Cycles

section Distinct

/-- What is kept of some lists: lists with different members, and one for each of them. -/
structure Kept (done : List (List String)) (kept : List (List String × List String)) : Prop where
  /-- Each list comes after its members. -/
  key : ∀ entry ∈ kept, entry.1 = sortedSet entry.2
  distinct : (kept.map Prod.fst).Nodup
  /-- Nothing else is kept. -/
  listed : ∀ entry ∈ kept, entry.2 ∈ done
  /-- Something with the same members is kept for each list. -/
  covered : ∀ cycle ∈ done, ∃ entry ∈ kept, entry.1 = sortedSet cycle

theorem kept_addDistinct {done : List (List String)} {kept : List (List String × List String)}
    (h : Kept done kept) (cycle : List String) :
    Kept (done ++ [cycle]) (addDistinct kept cycle) := by
  have hlist : ∀ entry ∈ kept, entry.2 ∈ done ++ [cycle] :=
    fun entry hentry => mem_append_left _ (h.listed entry hentry)
  unfold addDistinct
  by_cases hany : ∃ entry ∈ kept, entry.1 = sortedSet cycle
  · rw [if_pos (by simpa using hany)]
    refine ⟨h.key, h.distinct, hlist, fun other hother => ?_⟩
    rcases mem_append.mp hother with hdone | hlast
    · exact h.covered other hdone
    · rw [mem_singleton.mp hlast]
      exact hany
  · rw [if_neg (by simpa using hany)]
    refine ⟨?_, ?_, ?_, fun other hother => ?_⟩
    · exact forall_mem_cons.mpr ⟨rfl, h.key⟩
    · refine nodup_cons.mpr ⟨fun hc => ?_, h.distinct⟩
      exact hany (mem_map.mp hc)
    · exact forall_mem_cons.mpr ⟨mem_append_right _ mem_cons_self, hlist⟩
    · rcases mem_append.mp hother with hdone | hlast
      · obtain ⟨entry, hentry, hkey⟩ := h.covered other hdone
        exact ⟨entry, mem_cons_of_mem _ hentry, hkey⟩
      · rw [mem_singleton.mp hlast]
        exact ⟨_, mem_cons_self, rfl⟩

theorem kept_foldl_addDistinct (cycles : List (List String)) {done : List (List String)}
    {kept : List (List String × List String)} (h : Kept done kept) :
    Kept (done ++ cycles) (cycles.foldl addDistinct kept) := by
  induction cycles generalizing done kept with
  | nil => simpa using h
  | cons cycle rest ih => simpa using ih (kept_addDistinct h cycle)

theorem kept_distinctMembers (cycles : List (List String)) :
    Kept cycles (cycles.foldl addDistinct []) := by
  have hnone : Kept [] [] := by
    refine ⟨?_, nodup_nil, ?_, ?_⟩ <;> simp
  exact kept_foldl_addDistinct cycles hnone

theorem mem_of_mem_distinctMembers {cycles : List (List String)} {cycle : List String}
    (h : cycle ∈ distinctMembers cycles) : cycle ∈ cycles := by
  obtain ⟨entry, hentry, rfl⟩ := mem_map.mp (mem_reverse.mp h)
  exact (kept_distinctMembers cycles).listed entry hentry

theorem exists_mem_distinctMembers {cycles : List (List String)} {cycle : List String}
    (h : cycle ∈ cycles) : ∃ other ∈ distinctMembers cycles, ∀ a, a ∈ cycle ↔ a ∈ other := by
  obtain ⟨entry, hentry, hkey⟩ := (kept_distinctMembers cycles).covered cycle h
  refine ⟨entry.2, mem_reverse.mpr (mem_map.mpr ⟨entry, hentry, rfl⟩), ?_⟩
  rw [(kept_distinctMembers cycles).key entry hentry] at hkey
  exact sortedSet_eq_iff.mp hkey.symm

theorem pairwise_distinctMembers (cycles : List (List String)) :
    (distinctMembers cycles).Pairwise fun xs ys => ¬ ∀ a, a ∈ xs ↔ a ∈ ys := by
  have hkept := kept_distinctMembers cycles
  unfold distinctMembers
  rw [pairwise_reverse, pairwise_map]
  refine List.Pairwise.imp_of_mem ?_ (pairwise_map.mp hkept.distinct)
  intro xs ys hxs hys hne hsame
  refine hne ?_
  rw [hkept.key xs hxs, hkept.key ys hys]
  exact (sortedSet_eq_iff.mpr hsame).symm

end Distinct

/-- The cycles depend on the nodes of a graph only. -/
theorem cyclesWithin_congr {g h : ImportGraph} (hnodes : g.nodes = h.nodes) (maxFiles : Nat) :
    cyclesWithin g maxFiles = cyclesWithin h maxFiles := by
  have hthrough : cyclesThrough g maxFiles = cyclesThrough h maxFiles := by
    funext start
    rw [cyclesThrough, cyclesThrough, CycleSearch.run_congr hnodes, CycleSearch.opening,
      CycleSearch.opening, ImportGraph.dependenciesOf, ImportGraph.dependenciesOf, hnodes]
  rw [cyclesWithin, cyclesWithin, hthrough, hnodes]

/-- The search from each file ends after a number of steps with the cycles through it, and what is
    found in all of them are the cycles of at most the given number of files. -/
theorem cyclesWithin_sound_complete (g : ImportGraph) (maxFiles : Nat) (hmax : 1 ≤ maxFiles) :
    (∀ start, ∃ n search, (CycleSearch.step g start maxFiles)^[n] (.opening g start) = search ∧
        search.stack = [] ∧ search.found.reverse = cyclesThrough g maxFiles start) ∧
      g.CyclesUpTo maxFiles (cyclesWithin g maxFiles) := by
  have hfound : ∀ cycle ∈ cyclesWithin g maxFiles,
      g.IsCycle cycle ∧ BeginsSmallest cycle ∧ cycle.length ≤ maxFiles :=
    fun cycle hmem => (mem_flatMap_cyclesThrough_iff hmax).mp (mem_of_mem_distinctMembers hmem)
  refine ⟨fun start => ?_, fun cycle hmem => (hfound cycle hmem).1,
    fun cycle hmem => (hfound cycle hmem).2.2, fun cycle hmem => (hfound cycle hmem).2.1,
    pairwise_distinctMembers _, fun cycle hcycle hlength => ?_⟩
  · obtain ⟨n, hn, hend⟩ := CycleSearch.exists_iterate_eq_run (CycleSearch.opening g start)
    exact ⟨n, _, hn, hend, rfl⟩
  · -- The cycle may begin anywhere, while those that are found begin at their smallest file.
    obtain ⟨turned, hrotated, hturned, hsmallest⟩ := hcycle.exists_turned
    have hshort : turned.length ≤ maxFiles := hrotated.perm.length_eq ▸ hlength
    obtain ⟨found, hmem, hsame⟩ := exists_mem_distinctMembers
      ((mem_flatMap_cyclesThrough_iff hmax).mpr ⟨hturned, hsmallest, hshort⟩)
    exact ⟨found, hmem, fun file => hrotated.mem_iff.trans (hsame file)⟩

/-- Three files that import each other in a ring, one of them also itself, twice, and another one
    a file that is missing. -/
def tangle : ImportGraph :=
  .ofEdges [] [("c", "a"), ("a", "b"), ("b", "b"), ("b", "c"), ("b", "b"), ("c", "missing")]

/-- The ring is found if it does not have too many files. -/
theorem cyclesWithin_sound_complete_tangle : 1 ≤ 3 ∧ tangle.CyclesUpTo 3 (cyclesWithin tangle 3) ∧
      ∃ found ∈ cyclesWithin tangle 3, ∀ file, file ∈ ["b", "c", "a"] ↔ file ∈ found := by
  have hall := (cyclesWithin_sound_complete tangle 3 (by decide)).2
  have hring : tangle.IsCycle ["b", "c", "a"] := by
    refine ⟨by decide, by decide, (Cycle.chain_coe_cons _ _ _).mpr ?_⟩
    refine .cons_cons (by decide) (.cons_cons (by decide) (.cons_cons (by decide) ?_))
    exact isChain_singleton _
  exact ⟨by decide, hall, hall.complete _ hring (by decide)⟩

end Ripple
