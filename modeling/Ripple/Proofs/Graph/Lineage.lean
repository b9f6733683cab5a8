import Ripple.Proofs.Graph.Blast
import Ripple.Proofs.Graph.Circular

/-!
# The Way Back from a File

A search for the files hit by a change takes a file for circular if it meets it
again on the way that led to the file it comes from. The way is found by going
back along the links, from a file to the one from which it was first reached.
This comes to an end only if no links lead round in a circle.

They do not, because a file is linked when it is first reached, to one that was
reached before, and never again. So the links make up trees, whose roots are the
changed files, and each link is a step along the dependents backwards. A file
that is met again on its own way closes a cycle, and both the way to the cycle
and the way round it were within the limit.

## Theorems

* `Lineage.wayBack`, `WayBack.onCycle`: Where it leads through, and what is met again there.
* `BlastSearch.traced_of_passed`: What holds at any time of a search.
* `circular_lie_on_cycles`: The files that a search takes for circular.
-/

namespace Ripple

open List

/-- A file lies on a cycle of dependents, and a walk from a changed file to it and once round the
    cycle is within the limit. -/
def ImportGraph.OnCycleWithin (g : ImportGraph) (changed : List String) (maxDepth : Nat)
    (file : String) : Prop :=
  ∃ seed ∈ changed, ∃ n, g.Walk seed n file ∧ ∃ others, (file :: others).Nodup ∧
    (file :: others ++ [file]).IsChain (fun a b => b ∈ g.dependentsOf a) ∧
    n + (others.length + 1) ≤ maxDepth

theorem ImportGraph.OnCycleWithin.mono {g : ImportGraph} {changed : List String} {file : String}
    {depth maxDepth : Nat} (h : g.OnCycleWithin changed depth file) (hle : depth ≤ maxDepth) :
    g.OnCycleWithin changed maxDepth file := by
  obtain ⟨seed, hseed, n, hwalk, others, hnd, hchain, hlen⟩ := h
  exact ⟨seed, hseed, n, hwalk, others, hnd, hchain, hlen.trans hle⟩

/-- Links that make up trees: each file is linked once, to one that was linked before and that it
    depends on, or it is a changed file. -/
inductive Lineage (g : ImportGraph) (seeds : List String) : List (String × Option String) → Prop
  | nil : Lineage g seeds []
  | link {child : String} {parent : Option String} {earlier : List (String × Option String)}
      (h : Lineage g seeds earlier) (hnew : child ∉ earlier.map Prod.fst)
      (hroot : parent = none → child ∈ seeds)
      (hbranch : ∀ file ∈ parent, file ∈ earlier.map Prod.fst ∧ child ∈ g.dependentsOf file) :
      Lineage g seeds ((child, parent) :: earlier)

/-- A way back from a file to a changed one. -/
structure WayBack (g : ImportGraph) (seeds : List String) (file : String) (way : List String) :
    Prop where
  starts : way.head? = some file
  chain : way.IsChain fun a b => a ∈ g.dependentsOf b
  nodup : way.Nodup
  ends : ∃ seed ∈ seeds, way.getLast? = some seed

section Ways

variable {g : ImportGraph} {seeds way : List String} {file : String}
  {links earlier : List (String × Option String)}

/-- A new link does not change the way to a file that was reached before. -/
theorem wayTo_cons {child : String} (hnew : child ∉ earlier.map Prod.fst) (parent : Option String)
    (hfile : file ∈ earlier.map Prod.fst) : wayTo ((child, parent) :: earlier) file =
      wayTo earlier file := by
  rw [wayTo, if_neg]
  rintro rfl
  exact hnew hfile

theorem wayTo_self (child : String) (parent : Option String) :
    wayTo ((child, parent) :: earlier) child = child :: parent.elim [] (wayTo earlier) := by
  rw [wayTo, if_pos rfl]

theorem Lineage.mem_of_link (h : Lineage g seeds links) {parent : String}
    (hlink : (file, some parent) ∈ links) : parent ∈ links.map Prod.fst := by
  induction h with
  | nil => exact absurd hlink not_mem_nil
  | link _ _ _ hbranch ih =>
    rcases mem_cons.mp hlink with heq | hold
    · exact mem_cons_of_mem _ (hbranch parent (Prod.mk.inj heq).2.symm).1
    · exact mem_cons_of_mem _ (ih hold)

/-- The way back from a file goes on with the way back from the file that it is linked to. -/
theorem Lineage.wayTo_eq (h : Lineage g seeds links) {parent : Option String}
    (hlink : (file, parent) ∈ links) : wayTo links file = file :: parent.elim [] (wayTo links) := by
  induction h with
  | nil => exact absurd hlink not_mem_nil
  | @link child _ earlier h hnew _ hbranch ih =>
    rcases mem_cons.mp hlink with heq | hold
    · cases heq
      rw [wayTo_self]
      cases parent with
      | none => rfl
      | some parent => rw [Option.elim_some, Option.elim_some,
          wayTo_cons hnew _ (hbranch parent rfl).1]
    · rw [wayTo_cons hnew _ (mem_map_of_mem hold), ih hold]
      cases parent with
      | none => rfl
      | some parent => rw [Option.elim_some, Option.elim_some,
          wayTo_cons hnew _ (h.mem_of_link hold)]

/-- Links do not lead round in a circle, since each step makes the way back shorter. -/
theorem Lineage.acyclic (h : Lineage g seeds links) (file : String) :
    ¬ Relation.TransGen (fun a b => (a, some b) ∈ links) file file := by
  have hshorter {a b : String} (hab : Relation.TransGen (fun a b => (a, some b) ∈ links) a b) :
      (wayTo links b).length < (wayTo links a).length := by
    induction hab with
    | single hlink =>
      rw [h.wayTo_eq hlink]
      exact Nat.lt_succ_self _
    | tail _ hlink ih =>
      rw [h.wayTo_eq hlink] at ih
      exact Nat.lt_of_succ_lt ih
  exact fun hc => Nat.lt_irrefl _ (hshorter hc)

theorem Lineage.wayBack (h : Lineage g seeds links) (hfile : file ∈ links.map Prod.fst) :
    WayBack g seeds file (wayTo links file) := by
  induction h generalizing file with
  | nil => exact absurd hfile not_mem_nil
  | @link child parent earlier _ hnew hroot hbranch ih =>
    rcases mem_cons.mp hfile with rfl | hold
    · rw [wayTo_self]
      cases parent with
      | none => exact ⟨rfl, isChain_singleton _, nodup_singleton _, _, hroot rfl, rfl⟩
      | some parent =>
        obtain ⟨hparent, hdep⟩ := hbranch parent rfl
        obtain ⟨hhead, hchain, hnd, seed, hseed, hlast⟩ := ih hparent
        obtain ⟨rest, hway⟩ := head?_eq_some_iff.mp hhead
        have hfresh : file ∉ wayTo earlier parent :=
          fun hc => hnew (BlastSearch.mem_of_mem_wayTo hc)
        rw [Option.elim_some]
        rw [hway] at hchain hnd hlast hfresh ⊢
        exact ⟨rfl, .cons_cons hdep hchain, nodup_cons.mpr ⟨hfresh, hnd⟩, seed, hseed, hlast⟩
    · rw [wayTo_cons hnew parent hold]
      exact ih hold

theorem WayBack.walk {back : List String} (h : WayBack g seeds file (file :: back)) :
    ∃ seed ∈ seeds, g.Walk seed back.length file := by
  obtain ⟨-, hchain, -, seed, hseed, hlast⟩ := h
  refine ⟨seed, hseed, ?_⟩
  induction back generalizing file with
  | nil =>
    obtain rfl := Option.some.inj hlast
    exact .here
  | cons parent back ih =>
    obtain ⟨hstep, hrest⟩ := List.isChain_cons_cons.mp hchain
    exact (ih hrest hlast).next hstep

/-- A file that is met again on the way back closes a cycle. -/
theorem WayBack.onCycle (h : WayBack g seeds file way) {dependent : String}
    (hon : dependent ∈ way) (hdep : dependent ∈ g.dependentsOf file) :
    g.OnCycleWithin seeds way.length dependent := by
  obtain ⟨front, back, rfl⟩ := append_of_mem hon
  obtain ⟨hhead, hchain, hnd, seed, hseed, hlast⟩ := h
  rw [getLast?_append_of_ne_nil _ (cons_ne_nil _ _)] at hlast
  obtain ⟨seed, hseed, hwalk⟩ := WayBack.walk
    ⟨rfl, hchain.right_of_append, hnd.of_append_right, seed, hseed, hlast⟩
  rw [append_cons] at hchain hnd hhead
  have hclosed : (dependent :: (front ++ [dependent])).IsChain fun a b => a ∈ g.dependentsOf b := by
    refine hchain.left_of_append.cons fun first hfst => ?_
    rw [head?_append, hfst] at hhead
    obtain rfl := Option.some.inj hhead
    exact hdep
  refine ⟨seed, hseed, back.length, hwalk, front.reverse, ?_, ?_, ?_⟩
  · simpa using nodup_reverse.mpr hnd.of_append_left
  · simpa using List.isChain_reverse.mpr hclosed
  · simp
    omega

end Ways

namespace BlastSearch

variable {g : ImportGraph} {seeds before : List String} {s : BlastSearch} {depth : Nat}

/-- The states that a search passes through, each with the files that were reached before its round
    and the number of the round. -/
inductive Passed (g : ImportGraph) (seeds : List String) : List String → Nat → BlastSearch → Prop
  | start : Passed g seeds [] 0 (.start seeds)
  | look {before : List String} {depth : Nat} {s : BlastSearch} {file dependent : String}
      (h : Passed g seeds before depth s) (hfile : file ∈ before)
      (hdep : dependent ∈ g.dependentsOf file) :
      Passed g seeds before depth (s.look seeds file dependent)
  | round {before : List String} {depth : Nat} {s : BlastSearch}
      (h : Passed g seeds before depth s) :
      Passed g seeds s.reached (depth + 1) { s with next := [] }

/-- What holds at any time of a search. -/
structure Traced (g : ImportGraph) (seeds before : List String) (depth : Nat) (s : BlastSearch) :
    Prop where
  lineage : Lineage g seeds s.links
  /-- The ways to files of earlier rounds are shorter. -/
  old : ∀ file ∈ before, file ∈ s.reached ∧ (wayTo s.links file).length ≤ depth
  length_le : ∀ file ∈ s.reached, (wayTo s.links file).length ≤ depth + 1
  circular : ∀ file ∈ s.circular, g.OnCycleWithin seeds depth file

theorem traced_start (hseeds : seeds.Nodup) : Traced g seeds [] 0 (.start seeds) := by
  have hroots {roots : List String} (hnd : roots.Nodup) (hsub : ∀ seed ∈ roots, seed ∈ seeds) :
      Lineage g seeds (roots.map fun seed => (seed, none)) := by
    induction roots with
    | nil => exact .nil
    | cons seed rest ih =>
      obtain ⟨hnew, hrest⟩ := nodup_cons.mp hnd
      obtain ⟨hseed, hsub⟩ := forall_mem_cons.mp hsub
      exact .link (ih hrest hsub) (by simpa using hnew) (fun _ => hseed) (by simp)
  have hlineage := hroots hseeds fun _ => id
  refine ⟨hlineage, forall_mem_nil _, fun file hfile => ?_, forall_mem_nil _⟩
  have hlink := mem_map_of_mem (f := fun seed => (seed, (none : Option String)))
    (mem_reached_start.mp hfile)
  rw [start, hlineage.wayTo_eq hlink]
  exact Nat.le_refl 1

theorem traced_look (h : Traced g seeds before depth s) {file dependent : String}
    (hfile : file ∈ before) (hdep : dependent ∈ g.dependentsOf file) :
    Traced g seeds before depth (s.look seeds file dependent) := by
  obtain ⟨hreached, hlen⟩ := h.old file hfile
  obtain ⟨hit, -, ⟨hon, heq⟩ | ⟨-, heq⟩ | ⟨hnew, heq⟩⟩ := look_cases seeds file s dependent
  · have hcycle := ((h.lineage.wayBack hreached).onCycle hon hdep).mono hlen
    rw [heq]
    exact ⟨h.lineage, h.old, h.length_le, forall_mem_cons.mpr ⟨hcycle, h.circular⟩⟩
  · rw [heq]
    exact h
  · -- Files that were reached before stay reached, on the same ways.
    have hsame {other : String} (hother : other ∈ s.reached) := wayTo_cons hnew (some file) hother
    rw [heq]
    refine ⟨.link h.lineage hnew (fun hc => absurd hc (Option.some_ne_none _)) ?_,
      fun other hother => ?_, ?_, h.circular⟩
    · rintro _ ⟨⟩
      exact ⟨hreached, hdep⟩
    · obtain ⟨hold, hshort⟩ := h.old other hother
      exact ⟨mem_cons_of_mem _ hold, hsame hold ▸ hshort⟩
    · refine forall_mem_cons.mpr ⟨?_, fun other hother => hsame hother ▸ h.length_le other hother⟩
      rw [wayTo_self]
      exact Nat.succ_le_succ hlen

theorem traced_of_passed (hseeds : seeds.Nodup) (h : Passed g seeds before depth s) :
    Traced g seeds before depth s := by
  induction h with
  | start => exact traced_start hseeds
  | look _ hfile hdep ih => exact traced_look ih hfile hdep
  | round _ ih =>
    exact ⟨ih.lineage, fun file hfile => ⟨hfile, ih.length_le file hfile⟩,
      fun file hfile => Nat.le_succ_of_le (ih.length_le file hfile),
      fun file hfile => (ih.circular file hfile).mono (Nat.le_succ _)⟩

/-- A run goes on to a state that is passed through, in no more rounds than it has. -/
theorem passed_run (more : Nat) {rounds : Nat} (hsound : Sound g seeds rounds s)
    (h : Passed g seeds before depth s) : ∃ before' depth', depth' ≤ depth + more ∧
      Passed g seeds before' depth' (run g seeds more s) := by
  induction more generalizing s rounds before depth with
  | zero => exact ⟨before, depth, Nat.le_refl _, h⟩
  | succ more ih =>
    rw [run]
    split
    next => exact ⟨before, depth, Nat.le_add_right _ _, h⟩
    next =>
      have hround := List.foldlRecOn s.next.reverse (expand g seeds) h.round
        fun _ h' file hfile => List.foldlRecOn (g.dependentsOf file) (look seeds file) h'
          fun _ h' _ hdep => h'.look (hsound.reached_of_next file (mem_reverse.mp hfile)) hdep
      obtain ⟨before', depth', hle, hpass⟩ := ih (sound_round hsound) hround
      exact ⟨before', depth', by omega, hpass⟩

end BlastSearch

/-- The files that a search takes for circular lie on cycles of dependents, to which a walk from a
    changed file leads, and once round, within the limit; so they are in components if the graph is
    that of a set of outlines. At any time of the search the way back from a file goes on with the
    way back from the file that it is linked to, and no links lead round in a circle, so that every
    way back comes to an end. -/
theorem circular_lie_on_cycles (g : ImportGraph) (changed : List String) (maxDepth : Nat) :
    (∀ file ∈ (impactSet g changed maxDepth).circular, g.OnCycleWithin changed maxDepth file) ∧
      (∀ outlines maxCycleFiles, g = .build outlines maxCycleFiles →
        ∀ file ∈ (impactSet g changed maxDepth).circular,
          ∃ component ∈ g.components, file ∈ component) ∧
      (∃ before depth, BlastSearch.Passed g (sortedSet changed) before depth
        (.run g (sortedSet changed) maxDepth (.start (sortedSet changed)))) ∧
      ∀ before depth s, BlastSearch.Passed g (sortedSet changed) before depth s →
        (∀ file parent, (file, parent) ∈ s.links →
          wayTo s.links file = file :: parent.elim [] (wayTo s.links)) ∧
        ∀ file, ¬ Relation.TransGen (fun a b => (a, some b) ∈ s.links) file file := by
  have hseeds : (sortedSet changed).Nodup := (increasing_sortedSet changed).nodup
  obtain ⟨before, depth, hdepth, hpassed⟩ := BlastSearch.passed_run maxDepth
    (BlastSearch.sound_start g (sortedSet changed)) .start
  have hcircular : ∀ file ∈ (impactSet g changed maxDepth).circular,
      g.OnCycleWithin changed maxDepth file := by
    intro file hfile
    have hcycle := (BlastSearch.traced_of_passed hseeds hpassed).circular file
      (mem_sortedSet.mp hfile)
    obtain ⟨seed, hseed, hrest⟩ := hcycle.mono (Nat.zero_add maxDepth ▸ hdepth)
    exact ⟨seed, mem_sortedSet.mp hseed, hrest⟩
  refine ⟨hcircular, ?_, ⟨before, depth, hpassed⟩, fun before depth s hs => ?_⟩
  · rintro outlines maxCycleFiles rfl file hfile
    obtain ⟨-, -, -, -, others, hnodup, hchain, -⟩ := hcircular file hfile
    -- Imports lead round the other way.
    have hback : (file :: (others.reverse ++ [file])).IsChain
        fun a b => a ∈ (ImportGraph.build outlines maxCycleFiles).dependentsOf b := by
      simpa using List.isChain_reverse.mpr hchain
    have hcycle : (ImportGraph.build outlines maxCycleFiles).IsCycle (file :: others.reverse) :=
      ⟨cons_ne_nil _ _, by simpa using hnodup, (Cycle.chain_coe_cons _ _ _).mpr (hback.imp
        fun a b hdep =>
          ((ImportGraph.depicts_build outlines maxCycleFiles).mem_dependentsOf a b).mpr hdep)⟩
    exact ImportGraph.exists_component_of_mem_cycle hcycle mem_cons_self
  · have hlineage := (BlastSearch.traced_of_passed hseeds hs).lineage
    exact ⟨fun file parent => hlineage.wayTo_eq, hlineage.acyclic⟩

end Ripple
