import Ripple.Graph.Blast
import Ripple.Proofs.Graph.Impact

/-!
# Two Ways to Find the Files Hit by a Change

The files that a change hits are found by two searches of different make.
`impactSet` goes round by round, links each file to the one from which it was
first reached, and looks back along the links for circles. `ImportGraph.impact`
keeps numbers of steps and goes on from a file again when its number falls.
They find the same files.

The ways matter less than it seems. A file on a way was reached before, so
meeting it again adds nothing to the files that were reached, and it was
counted as hit when it was reached. Leaving the circles out of account, a
round adds all dependents of the files of the last round. What makes this
enough is that the files of earlier rounds have nothing to add any more: after
a number of rounds the search has reached just the files that a walk of no
more steps leads to.

A round takes up one file after another, and in between only some of the
dependents were looked at. `BlastSearch.Midway` is what holds all the time,
and `BlastSearch.Sound` what holds between rounds.
-/

namespace Ripple

open List

namespace BlastSearch

variable {g : ImportGraph} {seeds before : List String} {s : BlastSearch}

theorem mem_of_mem_wayTo {links : List (String × Option String)} {file other : String}
    (h : other ∈ wayTo links file) : other ∈ links.map Prod.fst := by
  induction links generalizing file with
  | nil => exact h
  | cons link earlier ih =>
    rw [wayTo] at h
    split at h
    next hlink =>
      rcases mem_cons.mp h with rfl | hrest
      · exact hlink ▸ mem_cons_self
      · cases hparent : link.2 with
        | none => simp [hparent] at hrest
        | some parent => exact mem_cons_of_mem _ (ih (by simpa [hparent] using hrest))
    next => exact mem_cons_of_mem _ (ih h)

/-- Looking at a dependent finds it on the way, or finds it reached, or links it. -/
theorem look_cases (seeds : List String) (last : String) (s : BlastSearch) (dependent : String) :
    ∃ hit, (∀ file, file ∈ hit ↔ file ∈ s.impacted ∨ file = dependent ∧ file ∉ seeds) ∧
      ((dependent ∈ wayTo s.links last ∧ s.look seeds last dependent =
          { s with circular := dependent :: s.circular, impacted := hit }) ∨
        (dependent ∈ s.reached ∧ s.look seeds last dependent = s) ∨
        (dependent ∉ s.reached ∧ s.look seeds last dependent =
          { s with
            links := (dependent, some last) :: s.links
            impacted := hit
            next := dependent :: s.next })) := by
  refine ⟨if seeds.contains dependent then s.impacted else dependent :: s.impacted,
    fun file => by grind, ?_⟩
  simp only [look, ← contains_iff_mem]
  by_cases hon : (wayTo s.links last).contains dependent = true
  · exact .inl ⟨hon, if_pos hon⟩
  · rw [if_neg hon]
    by_cases hknown : s.reached.contains dependent = true
    · exact .inr (.inl ⟨hknown, if_pos hknown⟩)
    · exact .inr (.inr ⟨hknown, if_neg hknown⟩)

/-- What holds in the middle of a round that began with some files reached. -/
structure Midway (seeds before : List String) (s : BlastSearch) : Prop where
  /-- Hit are the files that were reached and did not change themselves. -/
  impacted_iff : ∀ file, file ∈ s.impacted ↔ file ∈ s.reached ∧ file ∉ seeds
  reached_of_next : ∀ file ∈ s.next, file ∈ s.reached
  /-- What was reached in this round is gone on from in the next one. -/
  next_of_new : ∀ file ∈ s.reached, file ∈ before ∨ file ∈ s.next

/-- Looking at a dependent reaches it, whether it lies on the way or not. -/
theorem midway_look (h : Midway seeds before s) (last dependent : String) :
    Midway seeds before (s.look seeds last dependent) ∧
      ∀ file, file ∈ (s.look seeds last dependent).reached ↔
        file = dependent ∨ file ∈ s.reached := by
  obtain ⟨hit, hhit, ⟨hon, heq⟩ | ⟨hknown, heq⟩ | ⟨hnew, heq⟩⟩ := look_cases seeds last s dependent
  · have hknown : dependent ∈ s.reached := mem_of_mem_wayTo hon
    rw [heq]
    exact ⟨⟨by grind [h.impacted_iff, reached], h.reached_of_next, h.next_of_new⟩,
      by grind [reached]⟩
  · rw [heq]
    exact ⟨h, by grind⟩
  · rw [heq]
    refine ⟨⟨by grind [h.impacted_iff, reached], ?_, ?_⟩, fun file => mem_cons⟩
    · exact forall_mem_cons.mpr ⟨mem_cons_self, fun file hfile =>
        mem_cons_of_mem _ (h.reached_of_next file hfile)⟩
    · refine forall_mem_cons.mpr ⟨Or.inr mem_cons_self, fun file hold => ?_⟩
      exact (h.next_of_new file hold).imp_right (mem_cons_of_mem _)

theorem midway_foldl_look (last : String) (dependents : List String) (h : Midway seeds before s) :
    Midway seeds before (dependents.foldl (look seeds last) s) ∧
      ∀ file, file ∈ (dependents.foldl (look seeds last) s).reached ↔
        file ∈ dependents ∨ file ∈ s.reached := by
  induction dependents generalizing s with
  | nil => exact ⟨h, fun file => by simp⟩
  | cons dependent rest ih =>
    obtain ⟨hlook, hreached⟩ := midway_look h last dependent
    obtain ⟨hrest, hiff⟩ := ih hlook
    refine ⟨hrest, fun file => ?_⟩
    rw [foldl_cons, hiff, hreached, mem_cons, or_left_comm, or_assoc]

/-- A round reaches all files that depend on the files that it goes on from. -/
theorem midway_round (files : List String) (h : Midway seeds before s) :
    Midway seeds before (files.foldl (expand g seeds) s) ∧
      ∀ file, file ∈ (files.foldl (expand g seeds) s).reached ↔
        (∃ last ∈ files, file ∈ g.dependentsOf last) ∨ file ∈ s.reached := by
  induction files generalizing s with
  | nil => exact ⟨h, fun file => by simp⟩
  | cons last rest ih =>
    obtain ⟨hexpand, hreached⟩ := midway_foldl_look last (g.dependentsOf last) h
    obtain ⟨hrest, hiff⟩ := ih hexpand
    refine ⟨hrest, fun file => ?_⟩
    rw [foldl_cons, expand, hiff, hreached, exists_mem_cons_iff, or_left_comm, or_assoc]

/-- What holds after a number of rounds. -/
structure Sound (g : ImportGraph) (seeds : List String) (rounds : Nat) (s : BlastSearch) :
    Prop where
  /-- Reached are the files that a walk with no more steps leads to. -/
  reached_iff : ∀ file, file ∈ s.reached ↔ ∃ n ≤ rounds, ∃ seed ∈ seeds, g.Walk seed n file
  /-- Hit are the files that were reached and did not change themselves. -/
  impacted_iff : ∀ file, file ∈ s.impacted ↔ file ∈ s.reached ∧ file ∉ seeds
  reached_of_next : ∀ file ∈ s.next, file ∈ s.reached
  /-- A file is gone on from, or its dependents were reached. -/
  closed : ∀ file ∈ s.reached, file ∈ s.next ∨
    ∀ dependent ∈ g.dependentsOf file, dependent ∈ s.reached

theorem mem_reached_start {file : String} : file ∈ (start seeds).reached ↔ file ∈ seeds := by
  simp [start, reached]

theorem sound_start (g : ImportGraph) (seeds : List String) : Sound g seeds 0 (start seeds) where
  reached_iff := by
    intro file
    rw [mem_reached_start]
    constructor
    · exact fun hseed => ⟨0, Nat.le_refl 0, file, hseed, .here⟩
    · rintro ⟨n, hn, seed, hseed, hwalk⟩
      obtain rfl := Nat.le_zero.mp hn
      cases hwalk with
      | here => exact hseed
  impacted_iff := fun file => ⟨fun hc => absurd hc not_mem_nil,
    fun hc => absurd (mem_reached_start.mp hc.1) hc.2⟩
  reached_of_next := fun file hfile => mem_reached_start.mpr (mem_reverse.mp hfile)
  closed := fun file hfile => Or.inl (mem_reverse.mpr (mem_reached_start.mp hfile))

/-- A round more is a step more. -/
theorem sound_round {rounds : Nat} (h : Sound g seeds rounds s) :
    Sound g seeds (rounds + 1) (s.next.reverse.foldl (expand g seeds) { s with next := [] }) := by
  have hstart : Midway seeds s.reached { s with next := [] } :=
    ⟨h.impacted_iff, forall_mem_nil _, fun file hfile => Or.inl hfile⟩
  obtain ⟨hmidway, hreached⟩ := midway_round (g := g) s.next.reverse hstart
  -- The files of earlier rounds have nothing to add, so all dependents were reached.
  have hdependents : ∀ file ∈ s.reached, ∀ dependent ∈ g.dependentsOf file,
      dependent ∈ (s.next.reverse.foldl (expand g seeds) { s with next := [] }).reached := by
    intro file hfile dependent hdep
    rw [hreached]
    rcases h.closed file hfile with hnext | hdone
    · exact Or.inl ⟨file, mem_reverse.mpr hnext, hdep⟩
    · exact Or.inr (hdone dependent hdep)
  refine ⟨fun file => ⟨fun hfile => ?_, ?_⟩, hmidway.impacted_iff, hmidway.reached_of_next,
    fun file hfile => ?_⟩
  · rcases (hreached file).mp hfile with ⟨last, hlast, hdep⟩ | hold
    · obtain ⟨n, hn, seed, hseed, hwalk⟩ := (h.reached_iff last).mp
        (h.reached_of_next last (mem_reverse.mp hlast))
      exact ⟨n + 1, Nat.succ_le_succ hn, seed, hseed, hwalk.next hdep⟩
    · obtain ⟨n, hn, hwalk⟩ := (h.reached_iff file).mp hold
      exact ⟨n, Nat.le_succ_of_le hn, hwalk⟩
  · rintro ⟨n, hn, seed, hseed, hwalk⟩
    cases hwalk with
    | here =>
      exact (hreached _).mpr (Or.inr ((h.reached_iff _).mpr ⟨0, Nat.zero_le _, _, hseed, .here⟩))
    | next walk hdep =>
      have hlast := (h.reached_iff _).mpr ⟨_, Nat.le_of_succ_le_succ hn, seed, hseed, walk⟩
      exact hdependents _ hlast _ hdep
  · exact (hmidway.next_of_new file hfile).symm.imp_right (hdependents file)

/-- When there is nothing to go on from, all walks were followed. -/
theorem reached_of_walk {rounds : Nat} (h : Sound g seeds rounds s) (hend : s.next = [])
    {seed file : String} {n : Nat} (hseed : seed ∈ seeds) (hwalk : g.Walk seed n file) :
    file ∈ s.reached := by
  induction hwalk with
  | here => exact (h.reached_iff seed).mpr ⟨0, Nat.zero_le _, seed, hseed, .here⟩
  | next walk hdep ih =>
    refine (h.closed _ ih).elim (fun hnext => ?_) fun hdone => hdone _ hdep
    rw [hend] at hnext
    exact absurd hnext not_mem_nil

theorem mem_impacted_run (more : Nat) {rounds : Nat} (h : Sound g seeds rounds s) (file : String) :
    file ∈ (run g seeds more s).impacted ↔
      file ∉ seeds ∧ ∃ n ≤ rounds + more, ∃ seed ∈ seeds, g.Walk seed n file := by
  induction more generalizing s rounds with
  | zero =>
    rw [run, h.impacted_iff, h.reached_iff, and_comm]
    rfl
  | succ more ih =>
    rw [run]
    split
    next hend =>
      rw [h.impacted_iff, and_comm]
      refine and_congr_right fun _ => ⟨fun hfile => ?_, ?_⟩
      · obtain ⟨n, hn, hwalk⟩ := (h.reached_iff file).mp hfile
        exact ⟨n, Nat.le_add_right_of_le hn, hwalk⟩
      · rintro ⟨n, -, seed, hseed, hwalk⟩
        exact reached_of_walk h hend hseed hwalk
    next =>
      rw [ih (sound_round h), Nat.add_right_comm, Nat.add_assoc]

end BlastSearch

/-- Hit are the files that a walk within the limit leads to and that did not change themselves. -/
theorem mem_impacted_impactSet_iff {g : ImportGraph} {changed : List String} {maxDepth : Nat}
    {file : String} : file ∈ (impactSet g changed maxDepth).impacted ↔
      file ∉ changed ∧ ∃ n, g.ReachedIn maxDepth changed file n := by
  have hrun := BlastSearch.mem_impacted_run maxDepth
    (BlastSearch.sound_start g (sortedSet changed)) file
  rw [Nat.zero_add] at hrun
  rw [impactSet, mem_sortedSet, hrun, mem_sortedSet]
  refine and_congr_right fun hfile => exists_congr fun n => ?_
  rw [g.reachedIn_iff maxDepth hfile]

/-- Both searches find the same files, in the same order, whatever the graph, the limit and the
    order in which the second one takes up files: those that a walk within the limit leads to and
    that did not change themselves. -/
theorem impactSet_eq_affectedFiles (g : ImportGraph) (changed : List String) (maxDepth : Nat)
    (weights : Weights) (depthFirst withHeat : Bool) :
    (impactSet g changed maxDepth).impacted =
        (g.impact weights maxDepth changed depthFirst withHeat).affectedFiles ∧
      ∀ file, file ∈ (impactSet g changed maxDepth).impacted ↔
        file ∉ changed ∧ ∃ n, g.ReachedIn maxDepth changed file n := by
  refine ⟨?_, fun file => mem_impacted_impactSet_iff⟩
  have hleft : Increasing (impactSet g changed maxDepth).impacted := increasing_sortedSet _
  refine hleft.eq_of_mem_iff (Dict.increasing_keys _) fun file => ?_
  rw [mem_impacted_impactSet_iff]
  exact (g.mem_affectedFiles_impact_iff depthFirst maxDepth weights changed withHeat).symm

end Ripple
