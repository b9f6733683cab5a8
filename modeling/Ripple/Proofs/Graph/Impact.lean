import Mathlib.Order.Bounds.Basic
import Ripple.Graph.Impact
import Ripple.Proofs.Dict

/-!
# Impact Is Exact in Both Orders of Search

What the search along the dependents knows when it ends, and why the order in
which it takes up files does not matter.

A number of steps is noted for a file only when there is a walk of that many
steps, so the numbers are never too small. That they are not too large is a
matter of what is left to do. Whenever a number is noted, the file is put on
the frontier with it; so a file whose present number is not on the frontier
was taken up with that number, and then its dependents have a number that is
larger by at most one. Once the frontier is empty this holds of all files
below the limit, and an induction over a walk bounds the number of its last
file by the number of its steps.

Neither half mentions where on the frontier a file is put, which is all that
distinguishes the two orders. The least number of steps to a file is one
number, so both orders end with the same map, and everything that is computed
from it is the same.

The order in which files are found does depend on it. In a search by breadth
the numbers on the frontier never fall and never differ by more than one, so
no number is ever improved, and files are found by growing number.

While a file is taken up its dependents are looked at one after another, and
in between the invariant does not hold of it. `Spread.Sound` therefore has a
file that is left out of account.

## Theorems

* `Spread.run_of_step`: What a step keeps, a run keeps.
* `impact_exact_in_both_orders`: What a change affects.
-/

namespace Ripple

open List Dict

/-- There is a walk along the dependents with a number of steps. -/
inductive ImportGraph.Walk (g : ImportGraph) (source : String) : Nat → String → Prop
  | /-- The walk without a step. -/
    here : g.Walk source 0 source
  | /-- A walk with one more step. -/
    next {n : Nat} {file dependent : String} (walk : g.Walk source n file)
      (h : dependent ∈ g.dependentsOf file) : g.Walk source (n + 1) dependent

/-- A file is reached from one of the changed files by at least one step and
    within the limit. -/
def ImportGraph.ReachedIn (g : ImportGraph) (maxDepth : Nat) (changed : List String)
    (file : String) (n : Nat) : Prop :=
  1 ≤ n ∧ n ≤ maxDepth ∧ ∃ source ∈ changed, g.Walk source n file

namespace Spread

variable {g : ImportGraph} {depthFirst : Bool} {maxDepth : Nat} {seeds : List String}

variable {s : Spread}

@[simp] theorem mem_push {frontier : List (String × Nat)} {entry other : String × Nat} :
    other ∈ push depthFirst frontier entry ↔ other = entry ∨ other ∈ frontier := by
  unfold push
  cases depthFirst with
  | true => rw [if_pos rfl, mem_cons]
  | false =>
    rw [if_neg Bool.false_ne_true, mem_append, mem_singleton]
    exact or_comm

/-- What looking at a file can do. -/
theorem look_cases (depthFirst : Bool) (depth : Nat) (s : Spread) (file : String) :
    (∃ known, s.best.get? file = some known ∧ known ≤ depth ∧ s.look depthFirst depth file = s) ∨
      (s.best.get? file = none ∧ s.look depthFirst depth file =
        ⟨s.best.insert file depth, file :: s.found, push depthFirst s.frontier (file, depth)⟩) ∨
      (∃ known, s.best.get? file = some known ∧ depth < known ∧ s.look depthFirst depth file =
        ⟨s.best.insert file depth, s.found, push depthFirst s.frontier (file, depth)⟩) := by
  unfold look
  split
  case h_1 hnone => exact .inr (.inl ⟨hnone, rfl⟩)
  case h_2 known hknown =>
    by_cases hlt : depth < known
    · exact .inr (.inr ⟨known, hknown, hlt, if_pos hlt⟩)
    · exact .inl ⟨known, hknown, Nat.le_of_not_lt hlt, if_neg hlt⟩

/-- A file keeps its number when it is looked at, unless it gets a smaller one or its first one. -/
theorem look_eq_or_noted (depthFirst : Bool) (depth : Nat) (s : Spread) (file : String) :
    (∃ known, s.best.get? file = some known ∧ known ≤ depth ∧ s.look depthFirst depth file = s) ∨
      (∀ known, s.best.get? file = some known → depth < known) ∧
        ∃ found, s.look depthFirst depth file =
          ⟨s.best.insert file depth, found, push depthFirst s.frontier (file, depth)⟩ := by
  refine (look_cases depthFirst depth s file).imp_right ?_
  rintro (⟨hnone, heq⟩ | ⟨known, hknown, hlt, heq⟩)
  · exact ⟨fun known hknown => by simp [hnone] at hknown, _, heq⟩
  · exact ⟨fun other hother => Option.some.inj (hknown.symm.trans hother) ▸ hlt, _, heq⟩

/-- Looking at files keeps the numbers that are no larger than the present one. -/
theorem get_foldl_look (depthFirst : Bool) {depth n : Nat} (files : List String) {file : String}
    (h : s.best.get? file = some n) (hn : n ≤ depth) :
    (files.foldl (look depthFirst depth) s).best.get? file = some n := by
  induction files generalizing s with
  | nil => exact h
  | cons other rest ih =>
    refine ih ?_
    rcases look_eq_or_noted depthFirst depth s other with ⟨_, _, _, heq⟩ | ⟨hless, _, heq⟩
    · rw [heq]
      exact h
    · have hother : file ≠ other := by
        rintro rfl
        exact Nat.not_lt.mpr hn (hless n h)
      rw [heq, get_insert, if_neg hother]
      exact h

/-- A file was reached in no more than a number of steps. -/
def Reached (s : Spread) (file : String) (n : Nat) : Prop :=
  ∃ m, s.best.get? file = some m ∧ m ≤ n

/-- What the numbers of steps say, with a file left out of account. -/
structure Sound (g : ImportGraph) (maxDepth : Nat) (seeds : List String) (taken : Option String)
    (s : Spread) : Prop where
  /-- The search starts at the seeds. -/
  seed_reached : ∀ seed ∈ seeds, s.Reached seed 0
  /-- A number is noted when there is a walk of that many steps. -/
  walked : ∀ file n, s.best.get? file = some n → n ≤ maxDepth ∧ ∃ seed ∈ seeds, g.Walk seed n file
  /-- What is on the frontier was reached in no more steps. -/
  frontier_reached : ∀ entry ∈ s.frontier, s.Reached entry.1 entry.2
  /-- A file was taken up with its number, or is to be. -/
  closed : ∀ file n, s.best.get? file = some n → n < maxDepth →
    (file, n) ∈ s.frontier ∨ some file = taken ∨
      ∀ dependent ∈ g.dependentsOf file, s.Reached dependent (n + 1)

/-- Noting a smaller number for a file and putting it on the frontier keeps
    what the numbers say. -/
theorem sound_insert {taken : Option String} (h : Sound g maxDepth seeds taken s) {file : String}
    {depth : Nat} (hless : ∀ known, s.best.get? file = some known → depth < known)
    (hdepth : depth ≤ maxDepth) (hwalk : ∃ seed ∈ seeds, g.Walk seed depth file)
    (found : List String) :
    Sound g maxDepth seeds taken
      ⟨s.best.insert file depth, found, push depthFirst s.frontier (file, depth)⟩ := by
  -- No number rises.
  have hfalls : ∀ {other n}, s.Reached other n → Reached
      ⟨s.best.insert file depth, found, push depthFirst s.frontier (file, depth)⟩ other n := by
    rintro other n ⟨m, hm, hle⟩
    rw [Reached, get_insert]
    by_cases hother : other = file
    · rw [if_pos hother]
      exact ⟨depth, rfl, Nat.le_trans (Nat.le_of_lt (hless m (hother ▸ hm))) hle⟩
    · rw [if_neg hother]
      exact ⟨m, hm, hle⟩
  refine
    { seed_reached := fun seed hseed => hfalls (h.seed_reached seed hseed)
      walked := fun other n hn => ?_
      frontier_reached := fun entry hentry => ?_
      closed := fun other n hn hlt => ?_ }
  · rcases get_insert_eq_some hn with ⟨rfl, rfl⟩ | hn
    · exact ⟨hdepth, hwalk⟩
    · exact h.walked other n hn
  · rcases mem_push.mp hentry with rfl | hold
    · exact ⟨depth, by rw [get_insert, if_pos rfl], Nat.le_refl depth⟩
    · exact hfalls (h.frontier_reached entry hold)
  · rcases get_insert_eq_some hn with ⟨rfl, rfl⟩ | hn
    · exact .inl (mem_push.mpr (.inl rfl))
    · rcases h.closed other n hn hlt with hopen | htaken | hdone
      · exact .inl (mem_push.mpr (.inr hopen))
      · exact .inr (.inl htaken)
      · exact .inr (.inr fun dependent hdep => hfalls (hdone dependent hdep))

/-- Looking at files keeps what the numbers say, and leaves none of the files
    with a larger number. -/
theorem sound_foldl_look (depthFirst : Bool) {depth : Nat} {taken : Option String}
    (files : List String) (h : Sound g maxDepth seeds taken s) (hdepth : depth ≤ maxDepth)
    (hwalk : ∀ file ∈ files, ∃ seed ∈ seeds, g.Walk seed depth file) :
    Sound g maxDepth seeds taken (files.foldl (look depthFirst depth) s) ∧
      ∀ file ∈ files, (files.foldl (look depthFirst depth) s).Reached file depth := by
  induction files generalizing s with
  | nil => exact ⟨h, forall_mem_nil _⟩
  | cons file rest ih =>
    obtain ⟨hfile, hrest⟩ := forall_mem_cons.mp hwalk
    have hlook : Sound g maxDepth seeds taken (s.look depthFirst depth file) ∧
        (s.look depthFirst depth file).Reached file depth := by
      rcases look_eq_or_noted depthFirst depth s file with
        ⟨known, hknown, hle, heq⟩ | ⟨hless, _, heq⟩
      · rw [heq]
        exact ⟨h, known, hknown, hle⟩
      · rw [heq, Reached, get_insert, if_pos rfl]
        exact ⟨sound_insert h hless hdepth hfile _, depth, rfl, Nat.le_refl depth⟩
    obtain ⟨hsound, hothers⟩ := ih hlook.1 hrest
    refine ⟨hsound, forall_mem_cons.mpr ⟨?_, hothers⟩⟩
    obtain ⟨n, hn, hle⟩ := hlook.2
    exact ⟨n, get_foldl_look depthFirst rest hn hle, hle⟩

section Taking

variable {s : Spread} {file : String} {depth : Nat} {rest : List (String × Nat)}

/-- An entry may be taken from the frontier if its file is left out of account, unless it does not
    have the number of its file or no more steps are left. -/
theorem sound_pop (h : Sound g maxDepth seeds none s)
    (hfrontier : s.frontier = (file, depth) :: rest) {taken : Option String}
    (htaken : s.best.get? file = some depth → depth < maxDepth → some file = taken) :
    Sound g maxDepth seeds taken { s with frontier := rest } := by
  refine
    { seed_reached := h.seed_reached
      walked := h.walked
      frontier_reached := fun entry hentry => h.frontier_reached entry ?_
      closed := fun other m hm hlt => ?_ }
  · rw [hfrontier]
    exact mem_cons_of_mem _ hentry
  · rcases h.closed other m hm hlt with hmem | hnone | hdone
    · rw [hfrontier] at hmem
      rcases mem_cons.mp hmem with heq | hlater
      · obtain ⟨rfl, rfl⟩ := Prod.mk.inj heq
        exact .inr (.inl (htaken hm hlt))
      · exact .inl hlater
    · exact nomatch hnone
    · exact .inr (.inr hdone)

/-- Once its dependents were looked at, a file is taken into account again. -/
theorem sound_expand (h : Sound g maxDepth seeds (some file) s)
    (hnum : s.best.get? file = some depth) (hdepth : depth < maxDepth) :
    Sound g maxDepth seeds none ((g.dependentsOf file).foldl (look depthFirst (depth + 1)) s) := by
  have hwalks : ∀ dependent ∈ g.dependentsOf file,
      ∃ seed ∈ seeds, g.Walk seed (depth + 1) dependent := by
    intro dependent hdep
    obtain ⟨-, seed, hseed, hwalk⟩ := h.walked file depth hnum
    exact ⟨seed, hseed, hwalk.next hdep⟩
  obtain ⟨hsound, hlooked⟩ := sound_foldl_look depthFirst (g.dependentsOf file) h hdepth hwalks
  refine
    { seed_reached := hsound.seed_reached
      walked := hsound.walked
      frontier_reached := hsound.frontier_reached
      closed := fun other m hm hlt => ?_ }
  rcases hsound.closed other m hm hlt with hmem | hfile | hdone
  · exact .inl hmem
  · -- The number of the file is still the one that its dependents were looked at with.
    obtain rfl := Option.some.inj hfile
    rw [get_foldl_look depthFirst _ hnum (Nat.le_succ depth), Option.some.injEq] at hm
    exact .inr (.inr (hm ▸ hlooked))
  · exact .inr (.inr hdone)

end Taking

/-- Taking up a file keeps what the numbers say. -/
theorem sound_step (h : Sound g maxDepth seeds none s) :
    Sound g maxDepth seeds none (s.step g depthFirst maxDepth) := by
  unfold step
  split
  case h_1 => exact h
  case h_2 file depth rest hfrontier =>
    have hfst : (file, depth) ∈ s.frontier := hfrontier ▸ mem_cons_self
    obtain ⟨n, hn, hle⟩ := h.frontier_reached (file, depth) hfst
    rw [hn, Option.any_some]
    split
    case isTrue hskip =>
      rw [Bool.or_eq_true, decide_eq_true_eq, decide_eq_true_eq] at hskip
      refine sound_pop h hfrontier fun hdepth hlt => ?_
      obtain rfl := Option.some.inj (hn.symm.trans hdepth)
      omega
    case isFalse hgo =>
      rw [Bool.or_eq_true, decide_eq_true_eq, decide_eq_true_eq, not_or] at hgo
      have hnum : s.best.get? file = some depth := by
        rw [hn, Nat.le_antisymm hle (Nat.le_of_not_lt hgo.1)]
      exact sound_expand (sound_pop h hfrontier fun _ _ => rfl) hnum
        (Nat.lt_of_not_le hgo.2)

/-- What the list of found files says. -/
structure Listed (seeds : List String) (s : Spread) : Prop where
  /-- The seeds have a number from the start. -/
  seed_known : ∀ seed ∈ seeds, (s.best.get? seed).isSome
  /-- Found are the files with a number that are not seeds. -/
  found_iff : ∀ file, file ∈ s.found ↔ (s.best.get? file).isSome ∧ file ∉ seeds
  found_nodup : s.found.Nodup

theorem listed_look {depth : Nat} (h : Listed seeds s) (file : String) :
    Listed seeds (s.look depthFirst depth file) := by
  have hknown : ∀ other, ((s.best.insert file depth).get? other).isSome ↔
      other = file ∨ (s.best.get? other).isSome := by
    intro other
    rw [get_insert]
    by_cases hother : other = file <;> simp [hother]
  have hseed : ∀ seed ∈ seeds, ((s.best.insert file depth).get? seed).isSome :=
    fun seed hs => (hknown seed).mpr (Or.inr (h.seed_known seed hs))
  rcases look_cases depthFirst depth s file with
    ⟨_, _, _, heq⟩ | ⟨hnone, heq⟩ | ⟨known, hold, _, heq⟩
  · rw [heq]
    exact h
  · rw [heq]
    have hunknown : ¬ (s.best.get? file).isSome := by
      rw [hnone]
      exact Bool.false_ne_true
    refine ⟨hseed, fun other => ?_, nodup_cons.mpr ⟨fun hc => ?_, h.found_nodup⟩⟩
    · rw [mem_cons, h.found_iff, hknown]
      constructor
      · rintro (rfl | hother)
        · exact ⟨Or.inl rfl, fun hc => hunknown (h.seed_known other hc)⟩
        · exact ⟨Or.inr hother.1, hother.2⟩
      · rintro ⟨rfl | hother, hnot⟩
        · exact .inl rfl
        · exact .inr ⟨hother, hnot⟩
    · exact hunknown ((h.found_iff file).mp hc).1
  · rw [heq]
    refine ⟨hseed, fun other => ?_, h.found_nodup⟩
    rw [h.found_iff, hknown]
    refine and_congr_left fun _ => ⟨Or.inr, ?_⟩
    rintro (rfl | hother)
    · rw [hold]
      rfl
    · exact hother

theorem listed_step (h : Listed seeds s) : Listed seeds (s.step g depthFirst maxDepth) := by
  unfold step
  split
  case h_1 => exact h
  case h_2 file depth rest _ =>
    have hrest : Listed seeds { s with frontier := rest } :=
      ⟨h.seed_known, h.found_iff, h.found_nodup⟩
    split
    case isTrue => exact hrest
    case isFalse => exact List.foldlRecOn _ _ hrest fun _ ht other _ => listed_look ht other

/-- What a search by breadth keeps in order: the numbers on the frontier do
    not fall, none is more than one larger than a level, and the files were
    found by growing number. -/
structure Breadth (level : Nat) (s : Spread) : Prop where
  /-- The numbers on the frontier do not fall. -/
  frontier_sorted : s.frontier.Pairwise fun a b => a.2 ≤ b.2
  /-- They are at the level or one above it. -/
  frontier_near : ∀ entry ∈ s.frontier, level ≤ entry.2 ∧ entry.2 ≤ level + 1
  /-- No number is more than one above the level. -/
  best_le : ∀ file n, s.best.get? file = some n → n ≤ level + 1
  /-- What was found has a number. -/
  found_known : ∀ file ∈ s.found, (s.best.get? file).isSome
  /-- Files were found by growing number. -/
  found_sorted : s.found.Pairwise fun later earlier =>
    s.best.getD earlier 0 ≤ s.best.getD later 0

/-- In a search by breadth a file is only ever looked at for its first number. -/
theorem breadth_look {level : Nat} (h : Breadth level s) (file : String) :
    Breadth level (s.look false (level + 1) file) := by
  rcases look_cases false (level + 1) s file with
    ⟨_, _, _, heq⟩ | ⟨hnone, heq⟩ | ⟨known, hold, hlt, _⟩
  · rw [heq]
    exact h
  · rw [heq]
    -- The file is new, so the numbers of what was found before stay.
    have hne : ∀ other ∈ s.found, other ≠ file := by
      intro other hother hc
      have hsome := h.found_known other hother
      rw [hc, hnone] at hsome
      exact absurd hsome Bool.false_ne_true
    have hsame : ∀ other ∈ s.found, (s.best.insert file (level + 1)).getD other 0 =
        s.best.getD other 0 := by
      intro other hother
      rw [Dict.getD, get_insert, if_neg (hne other hother), Dict.getD]
    have hself : (s.best.insert file (level + 1)).getD file 0 = level + 1 := by
      rw [Dict.getD, get_insert, if_pos rfl, Option.getD_some]
    refine
      { frontier_sorted := ?_
        frontier_near := fun entry hentry => ?_
        best_le := fun other n hn => ?_
        found_known := forall_mem_cons.mpr ⟨?_, fun other hother => ?_⟩
        found_sorted := pairwise_cons.mpr ⟨fun other hother => ?_, ?_⟩ }
    · rw [push, if_neg Bool.false_ne_true, pairwise_append]
      refine ⟨h.frontier_sorted, pairwise_singleton _ _, fun a ha b hb => ?_⟩
      rw [mem_singleton.mp hb]
      exact (h.frontier_near a ha).2
    · have hmem : entry ∈ push false s.frontier (file, level + 1) := hentry
      rcases mem_push.mp hmem with hnew | hpre
      · rw [hnew]
        exact ⟨Nat.le_succ level, Nat.le_refl _⟩
      · exact h.frontier_near entry hpre
    · rcases get_insert_eq_some hn with ⟨rfl, rfl⟩ | hn
      · exact Nat.le_refl _
      · exact h.best_le other n hn
    · rw [get_insert, if_pos rfl]
      rfl
    · rw [get_insert, if_neg (hne other hother)]
      exact h.found_known other hother
    · rw [hsame other hother, hself]
      obtain ⟨n, hn⟩ := Option.isSome_iff_exists.mp (h.found_known other hother)
      rw [Dict.getD, hn]
      exact h.best_le other n hn
    · refine h.found_sorted.imp_of_mem (fun {later earlier} hlater hearlier hle => ?_)
      rw [hsame earlier hearlier, hsame later hlater]
      exact hle
  · -- No number is large enough to be improved on.
    have hle := h.best_le file known hold
    omega

theorem breadth_step (h : ∃ level, Breadth level s) :
    ∃ level, Breadth level (s.step g false maxDepth) := by
  obtain ⟨level, h⟩ := h
  unfold step
  split
  case h_1 => exact ⟨level, h⟩
  case h_2 file depth rest hfrontier =>
    have hsort := h.frontier_sorted
    rw [hfrontier, pairwise_cons] at hsort
    have hnear := h.frontier_near
    rw [hfrontier, forall_mem_cons] at hnear
    -- The number of the file is the new level.
    have hrest : Breadth depth { s with frontier := rest } :=
      { frontier_sorted := hsort.2
        frontier_near := fun entry hentry => ⟨hsort.1 entry hentry,
          Nat.le_trans (hnear.2 entry hentry).2 (Nat.succ_le_succ hnear.1.1)⟩
        best_le := fun other n hn =>
          Nat.le_trans (h.best_le other n hn) (Nat.succ_le_succ hnear.1.1)
        found_known := h.found_known
        found_sorted := h.found_sorted }
    split
    case isTrue => exact ⟨depth, hrest⟩
    case isFalse =>
      exact ⟨depth, List.foldlRecOn _ _ hrest fun _ ht other _ => breadth_look ht other⟩

/-- A run is a number of steps that leave nothing to go on from. -/
theorem exists_iterate_eq_run (s : Spread) :
    ∃ n, (step g depthFirst maxDepth)^[n] s = run g depthFirst maxDepth s ∧
      (run g depthFirst maxDepth s).frontier = [] := by
  induction s using run.induct g depthFirst maxDepth with
  | case1 s hempty =>
    rw [run, dif_pos hempty]
    exact ⟨0, rfl, hempty⟩
  | case2 s hsome ih =>
    obtain ⟨n, hn, hend⟩ := ih
    rw [run, dif_neg hsome]
    exact ⟨n + 1, hn, hend⟩

theorem run_of_step {motive : Spread → Prop}
    (hstep : ∀ s, motive s → motive (s.step g depthFirst maxDepth)) (h : motive s) :
    motive (run g depthFirst maxDepth s) := by
  obtain ⟨n, hrun, -⟩ := exists_iterate_eq_run (g := g) s
  rw [← hrun]
  exact Function.Iterate.rec motive h hstep n

/-- Before the first step the seeds have the number zero and nothing else has one. -/
theorem get_best_start (file : String) :
    (start depthFirst seeds).best.get? file = if file ∈ seeds then some 0 else none :=
  get_ofList_tabulate seeds (fun _ => 0) file

theorem mem_frontier_start {entry : String × Nat} :
    entry ∈ (start depthFirst seeds).frontier ↔ entry.1 ∈ seeds ∧ entry.2 = 0 := by
  have hfold : ∀ entries frontier : List (String × Nat),
      entry ∈ entries.foldl (push depthFirst) frontier ↔ entry ∈ entries ∨ entry ∈ frontier := by
    intro entries
    induction entries with
    | nil => intro frontier; simp
    | cons first rest ih =>
      intro frontier
      rw [foldl_cons, ih, mem_push, mem_cons, or_assoc, or_left_comm]
  unfold start
  rw [hfold, mem_map]
  constructor
  · rintro (⟨file, hfile, rfl⟩ | hc)
    · exact ⟨hfile, rfl⟩
    · exact absurd hc not_mem_nil
  · rintro ⟨hfile, hzero⟩
    exact .inl ⟨entry.1, hfile, by rw [← hzero]⟩

theorem sound_start : Sound g maxDepth seeds none (start depthFirst seeds) where
  seed_reached := fun seed hseed => ⟨0, by rw [get_best_start, if_pos hseed], Nat.le_refl 0⟩
  walked := by
    intro file n hn
    rw [get_best_start, Option.ite_none_right_eq_some, Option.some.injEq] at hn
    rw [← hn.2]
    exact ⟨Nat.zero_le _, file, hn.1, ImportGraph.Walk.here⟩
  frontier_reached := by
    intro entry hentry
    rw [mem_frontier_start] at hentry
    exact ⟨0, by rw [get_best_start, if_pos hentry.1], Nat.zero_le _⟩
  closed := by
    intro file n hn _
    rw [get_best_start, Option.ite_none_right_eq_some, Option.some.injEq] at hn
    exact .inl (mem_frontier_start.mpr ⟨hn.1, hn.2.symm⟩)

theorem listed_start : Listed seeds (start depthFirst seeds) where
  seed_known := by
    intro seed hseed
    rw [get_best_start, if_pos hseed]
    rfl
  found_iff := by
    intro file
    rw [get_best_start]
    by_cases hfile : file ∈ seeds
    · exact ⟨fun hc => absurd hc not_mem_nil, fun hc => absurd hfile hc.2⟩
    · rw [if_neg hfile]
      exact ⟨fun hc => absurd hc not_mem_nil, fun hc => absurd hc.1 Bool.false_ne_true⟩
  found_nodup := nodup_nil

theorem breadth_start : Breadth 0 (start false seeds) where
  frontier_sorted := by
    refine pairwise_of_forall_mem_list (fun a ha b hb => ?_)
    rw [(mem_frontier_start.mp ha).2, (mem_frontier_start.mp hb).2]
  frontier_near := by
    intro entry hentry
    rw [(mem_frontier_start.mp hentry).2]
    exact ⟨Nat.le_refl 0, Nat.zero_le 1⟩
  best_le := by
    intro file n hn
    rw [get_best_start, Option.ite_none_right_eq_some, Option.some.injEq] at hn
    rw [← hn.2]
    exact Nat.zero_le _
  found_known := forall_mem_nil _
  found_sorted := List.Pairwise.nil

/-- Once there is nothing to go on from, the number of a file is no larger
    than the number of steps of a walk to it. -/
theorem reached_of_walk (h : Sound g maxDepth seeds none s) (hend : s.frontier = [])
    {seed file : String} {n : Nat} (hseed : seed ∈ seeds) (hwalk : g.Walk seed n file)
    (hn : n ≤ maxDepth) : s.Reached file n := by
  induction hwalk with
  | here => exact h.seed_reached seed hseed
  | @next n file dependent walk hdep ih =>
    obtain ⟨m, hm, hle⟩ := ih (Nat.le_of_succ_le hn)
    rcases h.closed file m hm (by omega) with hopen | hnone | hdone
    · rw [hend] at hopen
      exact absurd hopen not_mem_nil
    · exact absurd hnone (by simp)
    · obtain ⟨k, hk, hkm⟩ := hdone dependent hdep
      exact ⟨k, hk, by omega⟩

end Spread

namespace ImportGraph

variable (g : ImportGraph) (depthFirst : Bool) (maxDepth : Nat) (seeds : List String)

variable {file : String}

theorem sound_spread : Spread.Sound g maxDepth seeds none (g.spread depthFirst maxDepth seeds) :=
  Spread.run_of_step (motive := Spread.Sound g maxDepth seeds none) (fun _ => Spread.sound_step)
    Spread.sound_start

theorem listed_spread : Spread.Listed seeds (g.spread depthFirst maxDepth seeds) :=
  Spread.run_of_step (motive := Spread.Listed seeds) (fun _ => Spread.listed_step)
    Spread.listed_start

/-- The search comes to an end. -/
theorem exists_iterate_eq_spread :
    ∃ n, (Spread.step g depthFirst maxDepth)^[n] (Spread.start depthFirst seeds) =
        g.spread depthFirst maxDepth seeds ∧
      (g.spread depthFirst maxDepth seeds).frontier = [] :=
  Spread.exists_iterate_eq_run _

/-- The number of a file is the least number of steps of a walk to it. -/
theorem get_best_spread_iff {n : Nat} :
    (g.spread depthFirst maxDepth seeds).best.get? file = some n ↔
      IsLeast {m | m ≤ maxDepth ∧ ∃ seed ∈ seeds, g.Walk seed m file} n := by
  have hsound := g.sound_spread depthFirst maxDepth seeds
  obtain ⟨_, _, hend⟩ := g.exists_iterate_eq_spread depthFirst maxDepth seeds
  constructor
  · intro hn
    refine ⟨hsound.walked file n hn, ?_⟩
    rintro m ⟨hm, seed, hseed, hwalk⟩
    obtain ⟨k, hk, hle⟩ := Spread.reached_of_walk hsound hend hseed hwalk hm
    rw [hn, Option.some.injEq] at hk
    exact hk ▸ hle
  · rintro ⟨⟨hn, seed, hseed, hwalk⟩, hleast⟩
    obtain ⟨k, hk, hle⟩ := Spread.reached_of_walk hsound hend hseed hwalk hn
    have hkn : n ≤ k := hleast (hsound.walked file k hk)
    rw [hk, Nat.le_antisymm hle hkn]

theorem best_spread_eq (other : Bool) :
    (g.spread depthFirst maxDepth seeds).best = (g.spread other maxDepth seeds).best := by
  refine Dict.ext_get (fun file => Option.ext fun n => ?_)
  rw [get_best_spread_iff, get_best_spread_iff]

theorem reachedIn_iff {changed : List String} (hfile : file ∉ changed) {n : Nat} :
    g.ReachedIn maxDepth changed file n ↔
      n ≤ maxDepth ∧ ∃ seed ∈ sortedSet changed, g.Walk seed n file := by
  simp only [mem_sortedSet]
  refine ⟨And.right, fun h => ⟨?_, h⟩⟩
  obtain ⟨_, seed, hseed, hwalk⟩ := h
  cases hwalk with
  | here => exact absurd hseed hfile
  | next => exact Nat.succ_le_succ (Nat.zero_le _)

variable (weights : Weights) (changed : List String) (withHeat : Bool)

/-- The distances of a change are the least numbers of steps to the files
    that were not changed. -/
theorem get_depths_impact_iff {n : Nat} :
    (g.impact weights maxDepth changed depthFirst withHeat).depths.get? file = some n ↔
      file ∉ changed ∧ IsLeast {m | g.ReachedIn maxDepth changed file m} n := by
  have hdepths : (g.impact weights maxDepth changed depthFirst withHeat).depths =
      (g.spread depthFirst maxDepth (sortedSet changed)).best.filter
        fun path _ => !(sortedSet changed).contains path := rfl
  rw [hdepths, get_filter, Option.filter_eq_some_iff, Bool.not_eq_true', and_comm]
  have hchange : (sortedSet changed).contains file = false ↔ file ∉ changed := by
    rw [← Bool.not_eq_true, contains_iff_mem, mem_sortedSet]
  rw [hchange]
  refine and_congr_right fun hfile => ?_
  rw [get_best_spread_iff]
  simp only [g.reachedIn_iff maxDepth hfile]

/-- Affected are the files that are reached and were not changed. -/
theorem mem_affectedFiles_impact_iff :
    file ∈ (g.impact weights maxDepth changed depthFirst withHeat).affectedFiles ↔
      file ∉ changed ∧ ∃ n, g.ReachedIn maxDepth changed file n := by
  have haffected : (g.impact weights maxDepth changed depthFirst withHeat).affectedFiles =
      (g.impact weights maxDepth changed depthFirst withHeat).depths.keys := rfl
  rw [haffected, mem_keys_iff, Option.isSome_iff_exists]
  simp only [get_depths_impact_iff]
  constructor
  · rintro ⟨n, hfile, hleast⟩
    exact ⟨hfile, n, hleast.1⟩
  · rintro ⟨hfile, hreached⟩
    classical
    exact ⟨Nat.find hreached, hfile, Nat.find_spec hreached, fun m hm => Nat.find_min' hreached hm⟩

/-- The files are found once each, and they are the affected ones. -/
theorem traversalOrder_impact_perm :
    (g.impact weights maxDepth changed depthFirst withHeat).traversalOrder.Nodup ∧
      (g.impact weights maxDepth changed depthFirst withHeat).traversalOrder.Perm
        (g.impact weights maxDepth changed depthFirst withHeat).affectedFiles := by
  have hlist := g.listed_spread depthFirst maxDepth (sortedSet changed)
  have hnd : (g.impact weights maxDepth changed depthFirst withHeat).traversalOrder.Nodup :=
    nodup_reverse.mpr hlist.found_nodup
  have horder : (g.impact weights maxDepth changed depthFirst withHeat).traversalOrder =
      (g.spread depthFirst maxDepth (sortedSet changed)).found.reverse := rfl
  refine ⟨hnd, (perm_ext_iff_of_nodup hnd (increasing_keys _).nodup).mpr ?_⟩
  intro file
  rw [horder, mem_reverse, hlist.found_iff, mem_keys_iff, get_filter]
  cases (g.spread depthFirst maxDepth (sortedSet changed)).best.get? file with
  | none => simp
  | some n =>
    rw [Option.filter_some, Option.isSome_ite, Bool.not_eq_true', ← Bool.not_eq_true,
      contains_iff_mem]
    exact ⟨And.right, fun h => ⟨rfl, h⟩⟩

/-- A search by breadth finds the files by growing distance. -/
theorem traversalOrder_impact_sorted :
    (g.impact weights maxDepth changed false withHeat).traversalOrder.Pairwise fun a b =>
      (g.impact weights maxDepth changed false withHeat).depths.getD a 0 ≤
        (g.impact weights maxDepth changed false withHeat).depths.getD b 0 := by
  have hlist := g.listed_spread false maxDepth (sortedSet changed)
  obtain ⟨_, hbreadth⟩ : ∃ level,
      Spread.Breadth level (g.spread false maxDepth (sortedSet changed)) :=
    Spread.run_of_step (motive := fun s => ∃ level, Spread.Breadth level s)
      (fun _ => Spread.breadth_step) ⟨0, Spread.breadth_start⟩
  -- On the files that were found the distances are the numbers of the search.
  have hsame : ∀ file ∈ (g.spread false maxDepth (sortedSet changed)).found,
      (g.impact weights maxDepth changed false withHeat).depths.getD file 0 =
        (g.spread false maxDepth (sortedSet changed)).best.getD file 0 := by
    intro file hfile
    have hout : (!(sortedSet changed).contains file) = true := by
      rw [Bool.not_eq_true', ← Bool.not_eq_true, contains_iff_mem]
      exact ((hlist.found_iff file).mp hfile).2
    have hdepths : (g.impact weights maxDepth changed false withHeat).depths.get? file =
        ((g.spread false maxDepth (sortedSet changed)).best.get? file).filter
          fun _ => !(sortedSet changed).contains file := get_filter _ _ file
    obtain ⟨n, hn⟩ := Option.isSome_iff_exists.mp ((hlist.found_iff file).mp hfile).1
    rw [Dict.getD, hdepths, Dict.getD, hn, Option.filter_some, if_pos hout]
  refine pairwise_reverse.mpr (hbreadth.found_sorted.imp_of_mem ?_)
  intro later earlier hlater hearlier hle
  rw [hsame earlier hearlier, hsame later hlater]
  exact hle

end ImportGraph

/-- In both orders the search ends, the affected files are in ascending order
    exactly those that were not changed and that a walk along the dependents
    reaches within the limit, the distances are the least numbers of steps,
    and every affected file is found once. A search by breadth finds them by
    growing distance. All else that is told of a change is the same in both
    orders. -/
theorem impact_exact_in_both_orders (g : ImportGraph) (weights : Weights) (maxDepth : Nat)
    (changed : List String) (withHeat : Bool) :
    (∀ depthFirst : Bool,
      let told := g.impact weights maxDepth changed depthFirst withHeat
      (∃ n, (Spread.step g depthFirst maxDepth)^[n] (Spread.start depthFirst (sortedSet changed)) =
          g.spread depthFirst maxDepth (sortedSet changed) ∧
        (g.spread depthFirst maxDepth (sortedSet changed)).frontier = []) ∧
      Increasing told.affectedFiles ∧
      (∀ file, file ∈ told.affectedFiles ↔
        file ∉ changed ∧ ∃ n, g.ReachedIn maxDepth changed file n) ∧
      (∀ file n, told.depths.get? file = some n ↔
        file ∉ changed ∧ IsLeast {m | g.ReachedIn maxDepth changed file m} n) ∧
      told.traversalOrder.Nodup ∧ told.traversalOrder.Perm told.affectedFiles) ∧
    (let breadth := g.impact weights maxDepth changed false withHeat
      let depth := g.impact weights maxDepth changed true withHeat
      (breadth.traversalOrder.Pairwise fun a b =>
        breadth.depths.getD a 0 ≤ breadth.depths.getD b 0) ∧
      depth.affectedFiles = breadth.affectedFiles ∧ depth.depths = breadth.depths ∧
      depth.tiers = breadth.tiers ∧ depth.circularFiles = breadth.circularFiles ∧
      depth.heatMap = breadth.heatMap ∧ depth.impactScore = breadth.impactScore) := by
  refine ⟨fun depthFirst => ⟨g.exists_iterate_eq_spread depthFirst maxDepth _,
    increasing_keys _, fun file => g.mem_affectedFiles_impact_iff .., fun file n =>
      g.get_depths_impact_iff .., g.traversalOrder_impact_perm ..⟩,
    g.traversalOrder_impact_sorted .., ?_⟩
  simp only [ImportGraph.impact, g.best_spread_eq true maxDepth (sortedSet changed) false]
  exact ⟨rfl, rfl, rfl, rfl, rfl, rfl⟩

end Ripple
