import Mathlib.Data.List.Nodup
import Mathlib.Logic.Relation
import Ripple.Graph.Components

/-!
# The Order of the First Search

What the search along the edges leaves behind for the search against them.

The useful fact about the order in which nodes are done with is usually told
in terms of time: when a search is done with a node, everything that it still
has open lies on the way to that node. Time is not part of the state, and it
need not be. The nodes that were done with before a given one are those that
stand behind it in the list, and the list only grows at its front. So what
holds at the moment a node is done with can be said of the list alone, and
then holds for good.

`Settled` says it. A walk that starts at a node and stays among the nodes
that were done with no later than it can leave them only to nodes that were
open at that moment, and from an open node the way leads to the node. Hence
wherever such a walk comes out, there is a way back.

`reaches_back` is the form in which the second search uses this. Among the
nodes that were done with no later than some node, all that lead to the node
are also reached from it. The walk may leave and come back; each time it
leaves, it does so towards a node that stands further in front, so the
argument is an induction on the place in the list.

## Theorems

* `settled_finishOrder`, `nodup_finishOrder`, `mem_finishOrder`: The order
  that the first search gives.
-/

open List Relation

namespace Ripple

section Walks

variable (nodes : List String) (successors : String → List String)

/-- There is an edge between two listed nodes. -/
def Linked (a b : String) : Prop := a ∈ nodes ∧ b ∈ nodes ∧ b ∈ successors a

/-- There is a walk between two nodes, along edges between listed nodes. -/
def Reaches (a b : String) : Prop := ReflTransGen (Linked nodes successors) a b

/-- There is a walk between two nodes all of whose steps begin in a list. -/
def Within (inside : List String) (a b : String) : Prop :=
  ReflTransGen (fun x y => x ∈ inside ∧ Linked nodes successors x y) a b

/-- A list of nodes, the last one first, such that from wherever a walk from
    one of them leaves it and those behind it there is a way back. -/
def Settled : List String → Prop
  | [] => True
  | node :: earlier =>
    (∀ other, other ∉ earlier → Within nodes successors (node :: earlier) node other →
      Reaches nodes successors other node) ∧ Settled earlier

end Walks

variable {nodes : List String} {successors : String → List String}

variable {inside : List String}

theorem reaches_of_within {a b : String} (h : Within nodes successors inside a b) :
    Reaches nodes successors a b :=
  ReflTransGen.mono (fun _ _ hstep => hstep.2) _ _ h

theorem within_mono {outside : List String} (hsub : inside ⊆ outside) {a b : String}
    (h : Within nodes successors inside a b) : Within nodes successors outside a b :=
  ReflTransGen.mono (fun _ _ hstep => ⟨hsub hstep.1, hstep.2⟩) _ _ h

theorem settled_of_append {front back : List String}
    (h : Settled nodes successors (front ++ back)) : Settled nodes successors back := by
  induction front with
  | nil => exact h
  | cons node rest ih => exact ih h.2

/-- A walk that starts in one list and ends outside of it leaves it
    somewhere: up to there it stays inside, and from there on it is still a
    walk of the larger list. -/
theorem exit_of_within {all : List String} {a b : String} (h : Within nodes successors all a b)
    (ha : a ∈ inside) (hb : b ∉ inside) :
    ∃ z, z ∉ inside ∧ Within nodes successors inside a z ∧ Within nodes successors all z b ∧
      (z ∈ all ∨ z = b) := by
  induction h using ReflTransGen.head_induction_on with
  | refl => exact absurd ha hb
  | @head x y hstep hrest ih =>
    by_cases hy : y ∈ inside
    · rcases ih hy with ⟨z, hz, hin, hout, hmem⟩
      exact ⟨z, hz, ReflTransGen.head ⟨ha, hstep.2⟩ hin, hout, hmem⟩
    · refine ⟨y, hy, ReflTransGen.single ⟨ha, hstep.2⟩, hrest, ?_⟩
      -- The walk goes on from here, or it ends here.
      rcases ReflTransGen.cases_head hrest with heq | ⟨w, hnext, _⟩
      · exact Or.inr heq
      · exact Or.inl hnext.1

/-- The induction behind `reaches_back`, on how far behind the front a node
    stands: leaving the node and those behind it, the walk comes to one that
    stands further in front and from which there is a way back. -/
theorem reaches_back_of_split {front : String} {order : List String}
    (hset : Settled nodes successors (front :: order)) (hnd : (front :: order).Nodup) :
    ∀ (n : Nat) (between earlier : List String) (node : String), between.length = n →
      front :: order = between ++ node :: earlier →
      Within nodes successors (front :: order) node front →
      Reaches nodes successors front node := by
  intro n
  induction n using Nat.strongRecOn with
  | ind n ih =>
    intro between earlier node hlen hsplit hwalk
    cases between with
    | nil =>
      rw [nil_append, List.cons.injEq] at hsplit
      rw [hsplit.1]
      exact ReflTransGen.refl
    | cons first rest =>
      have hfst : front = first := by
        rw [cons_append, List.cons.injEq] at hsplit
        exact hsplit.1
      have hout : front ∉ node :: earlier := by
        rw [hsplit, cons_append, nodup_cons] at hnd
        intro hc
        exact hnd.1 (mem_append_right rest (hfst ▸ hc))
      rcases exit_of_within hwalk mem_cons_self hout with ⟨z, hz, hin, hon, hmem⟩
      rw [mem_cons, not_or] at hz
      -- From the place where the walk leaves there is a way back.
      have hback : Reaches nodes successors z node := by
        rw [hsplit] at hset
        exact (settled_of_append hset).1 z hz.2 hin
      have hz_mem : z ∈ first :: rest := by
        have hall : z ∈ (first :: rest) ++ node :: earlier := by
          rw [← hsplit]
          rcases hmem with h | h
          · exact h
          · rw [h]
            exact mem_cons_self
        rcases mem_append.mp hall with h | h
        · exact h
        · rcases mem_cons.mp h with h | h
          · exact absurd h hz.1
          · exact absurd h hz.2
      -- That place stands further in front.
      rcases append_of_mem hz_mem with ⟨nearer, middle, heq⟩
      have hshorter : nearer.length < n := by
        rw [← hlen, heq, length_append, length_cons]
        omega
      have hreach : Reaches nodes successors front z := by
        refine ih nearer.length hshorter nearer (middle ++ node :: earlier) z rfl ?_ hon
        rw [hsplit, heq, append_assoc, cons_append]
      exact ReflTransGen.trans hreach hback

/-- Among nodes in a settled order, what leads to the front one by a walk
    through them is reached from it. -/
theorem reaches_back {front : String} {order : List String}
    (hset : Settled nodes successors (front :: order)) (hnd : (front :: order).Nodup)
    {node : String} (hmem : node ∈ front :: order)
    (hwalk : Within nodes successors (front :: order) node front) :
    Reaches nodes successors front node := by
  rcases append_of_mem hmem with ⟨between, earlier, hsplit⟩
  exact reaches_back_of_split hset hnd between.length between earlier node rfl hsplit hwalk

namespace FinishSearch

/-- The open nodes, the present one first. -/
def opened (s : FinishSearch) : List String := s.stack.map Prod.fst

/-- What holds of a search along the edges at each step. The open nodes and
    those that are done with are the listed ones that are not fresh, each of
    them once; the open nodes lead to one another upwards; what is done with
    leads to no fresh node, and an open node leads to fresh ones only by the
    successors that are left to look at. -/
structure Sound (nodes : List String) (successors : String → List String) (s : FinishSearch) :
    Prop where
  fresh_listed : ∀ a ∈ s.fresh, a ∈ nodes
  mem_iff : ∀ a, a ∈ s.opened ++ s.finished ↔ a ∈ nodes ∧ a ∉ s.fresh
  nodup : (s.opened ++ s.finished).Nodup
  /-- What is left to look at are successors. -/
  left_successors : ∀ f ∈ s.stack, ∀ b ∈ f.2, b ∈ successors f.1
  /-- All other successors were looked at. -/
  open_closed : ∀ f ∈ s.stack, ∀ b, Linked nodes successors f.1 b → b ∈ f.2 ∨ b ∉ s.fresh
  /-- A node that is done with leads to no fresh node. -/
  finished_closed : ∀ a ∈ s.finished, ∀ b, Linked nodes successors a b → b ∉ s.fresh
  /-- The open nodes lead to those above them. -/
  chain : s.opened.Pairwise fun upper lower => Reaches nodes successors lower upper
  settled : Settled nodes successors s.finished

variable {s : FinishSearch} {fresh finished : List String} {node next : String}
  {below : List (String × List String)}

theorem closed_of_done (h : Sound nodes successors ⟨fresh, (node, []) :: below, finished⟩) :
    ∀ a ∈ node :: finished, ∀ b, Linked nodes successors a b → b ∉ fresh :=
  forall_mem_cons.mpr
    ⟨fun b hb => (h.open_closed _ mem_cons_self b hb).resolve_left not_mem_nil, h.finished_closed⟩

/-- The order stays settled when the topmost open node has nothing left to
    look at. A walk through this node and those that are done with meets no
    fresh node, so where it leaves them it comes to an open one. -/
theorem settled_cons_finished
    (h : Sound nodes successors ⟨fresh, (node, []) :: below, finished⟩) :
    Settled nodes successors (node :: finished) := by
  refine ⟨fun other hother hwalk => ?_, h.settled⟩
  have hfound : other ∈ nodes ∧ other ∉ fresh := by
    cases hwalk with
    | refl => exact (h.mem_iff node).mp mem_cons_self
    | tail _ hstep => exact ⟨hstep.2.2.1, closed_of_done h _ hstep.1 _ hstep.2⟩
  rcases mem_append.mp ((h.mem_iff other).mpr hfound) with hopen | hdone
  · rcases mem_cons.mp hopen with rfl | hbelow
    · exact ReflTransGen.refl
    · exact (pairwise_cons.mp h.chain).1 other hbelow
  · exact absurd hdone hother

theorem sound_finish (h : Sound nodes successors ⟨fresh, (node, []) :: below, finished⟩) :
    Sound nodes successors ⟨fresh, below, node :: finished⟩ where
  fresh_listed := h.fresh_listed
  mem_iff a := perm_middle.mem_iff.trans (h.mem_iff a)
  nodup := perm_middle.nodup_iff.mpr h.nodup
  left_successors f hf := h.left_successors f (mem_cons_of_mem _ hf)
  open_closed f hf := h.open_closed f (mem_cons_of_mem _ hf)
  finished_closed := closed_of_done h
  chain := (pairwise_cons.mp h.chain).2
  settled := settled_cons_finished h

/-- Having looked at some more successors of the open nodes keeps what holds
    of the search, if those successors are not fresh. -/
theorem sound_frames (h : Sound nodes successors s) {frames : List (String × List String)}
    (hnames : frames.map Prod.fst = s.opened) (hleft : ∀ f ∈ frames, ∀ b ∈ f.2, b ∈ successors f.1)
    (hclosed : ∀ f ∈ frames, ∀ b, Linked nodes successors f.1 b → b ∈ f.2 ∨ b ∉ s.fresh) :
    Sound nodes successors { s with stack := frames } := by
  have hopened : opened { s with stack := frames } = s.opened := hnames
  exact
    { fresh_listed := h.fresh_listed
      mem_iff := hopened ▸ h.mem_iff
      nodup := hopened ▸ h.nodup
      left_successors := hleft
      open_closed := hclosed
      finished_closed := h.finished_closed
      chain := hopened ▸ h.chain
      settled := h.settled }

/-- Opening a fresh node keeps what holds of the search, if every open node
    leads to it. The open nodes may count the node as looked at already. -/
theorem sound_open (h : Sound nodes successors s) (hfresh : next ∈ s.fresh)
    {frames : List (String × List String)} (hnames : frames.map Prod.fst = s.opened)
    (hleft : ∀ f ∈ frames, ∀ b ∈ f.2, b ∈ successors f.1)
    (hclosed : ∀ f ∈ frames, ∀ b, Linked nodes successors f.1 b → b ∈ f.2 ∨ b ∉ s.fresh ∨ b = next)
    (hreach : ∀ a ∈ s.opened, Reaches nodes successors a next) :
    Sound nodes successors
      ⟨s.fresh.filter (· ≠ next), (next, successors next) :: frames, s.finished⟩ := by
  have hstill : ∀ a, a ∈ s.fresh.filter (· ≠ next) ↔ a ∈ s.fresh ∧ a ≠ next := by
    intro a
    rw [mem_filter, decide_eq_true_eq]
  have hopened : opened ⟨s.fresh.filter (· ≠ next), (next, successors next) :: frames,
      s.finished⟩ = next :: s.opened := by
    rw [opened, map_cons, hnames]
  refine
    { fresh_listed := fun a ha => h.fresh_listed a ((hstill a).mp ha).1
      mem_iff := fun a => ?_
      nodup := ?_
      left_successors := forall_mem_cons.mpr ⟨fun b hb => hb, hleft⟩
      open_closed := forall_mem_cons.mpr ⟨fun b hb => Or.inl hb.2.2, fun f hf b hb => ?_⟩
      finished_closed := fun a ha b hb hc => h.finished_closed a ha b hb ((hstill b).mp hc).1
      chain := ?_
      settled := h.settled }
  · rw [hopened, cons_append, mem_cons, h.mem_iff, hstill, not_and_not_right]
    constructor
    · rintro (rfl | ⟨ha, hfound⟩)
      · exact ⟨h.fresh_listed a hfresh, fun _ => rfl⟩
      · exact ⟨ha, fun hc => absurd hc hfound⟩
    · rintro ⟨ha, hopen⟩
      exact (em (a ∈ s.fresh)).imp hopen fun hfound => ⟨ha, hfound⟩
  · rw [hopened]
    exact nodup_cons.mpr ⟨fun hc => ((h.mem_iff next).mp hc).2 hfresh, h.nodup⟩
  · rcases hclosed f hf b hb with hin | hfound | heq
    · exact Or.inl hin
    · exact Or.inr (fun hc => hfound ((hstill b).mp hc).1)
    · exact Or.inr (fun hc => ((hstill b).mp hc).2 heq)
  · rw [hopened, pairwise_cons]
    exact ⟨hreach, h.chain⟩

/-- A step keeps what holds of the search. -/
theorem sound_step (h : Sound nodes successors s) : Sound nodes successors (s.step successors) := by
  rcases s with ⟨fresh, _ | ⟨⟨node, _ | ⟨next, others⟩⟩, below⟩, finished⟩
  · exact h
  · exact sound_finish h
  · have hleft : ∀ f ∈ (node, others) :: below, ∀ b ∈ f.2, b ∈ successors f.1 :=
      forall_mem_cons.mpr
        ⟨fun b hb => h.left_successors _ mem_cons_self b (mem_cons_of_mem _ hb),
          fun f hf => h.left_successors f (mem_cons_of_mem _ hf)⟩
    -- The frame on top no longer counts the successor that was looked at.
    have hlooked : ∀ f ∈ (node, others) :: below, ∀ b, Linked nodes successors f.1 b →
        b ∈ f.2 ∨ b ∉ fresh ∨ b = next := by
      refine forall_mem_cons.mpr ⟨fun b hb => ?_, fun f hf b hb => ?_⟩
      · rcases h.open_closed _ mem_cons_self b hb with hin | hfound
        · exact (mem_cons.mp hin).symm.imp_right Or.inr
        · exact Or.inr (Or.inl hfound)
      · exact (h.open_closed f (mem_cons_of_mem _ hf) b hb).imp_right Or.inl
    dsimp only [step]
    by_cases hfresh : next ∈ fresh
    · rw [if_pos (contains_iff_mem.mpr hfresh)]
      refine sound_open h hfresh rfl hleft hlooked ?_
      -- Every open node leads to the topmost one, and that one to the successor.
      have hlink : Linked nodes successors node next :=
        ⟨((h.mem_iff node).mp mem_cons_self).1, h.fresh_listed next hfresh,
          h.left_successors _ mem_cons_self next mem_cons_self⟩
      exact forall_mem_cons.mpr ⟨ReflTransGen.single hlink,
        fun a ha => ReflTransGen.tail ((pairwise_cons.mp h.chain).1 a ha) hlink⟩
    · rw [if_neg (fun hc => hfresh (contains_iff_mem.mp hc))]
      refine sound_frames h rfl hleft (fun f hf b hb => ?_)
      rcases hlooked f hf b hb with hin | hfound | heq
      · exact Or.inl hin
      · exact Or.inr hfound
      · exact Or.inr (heq ▸ hfresh)

/-- A run keeps what holds of the search, and leaves no node open. -/
theorem sound_run (h : Sound nodes successors s) :
    Sound nodes successors (run successors s) ∧ (run successors s).stack = [] := by
  induction s using run.induct successors with
  | case1 s hempty =>
    rw [run, dif_pos hempty]
    exact ⟨h, hempty⟩
  | case2 s hsome ih =>
    rw [run, dif_neg hsome]
    exact ih (sound_step h)

theorem fresh_of_step {a : String} (h : a ∈ (s.step successors).fresh) : a ∈ s.fresh := by
  unfold step at h
  split at h
  · exact h
  · exact h
  · split at h
    · exact mem_of_mem_filter h
    · exact h

theorem fresh_of_run {a : String} (h : a ∈ (run successors s).fresh) : a ∈ s.fresh := by
  induction s using run.induct successors with
  | case1 s hempty =>
    rwa [run, dif_pos hempty] at h
  | case2 s hsome ih =>
    rw [run, dif_neg hsome] at h
    exact fresh_of_step (ih h)

/-- Going on from a node finds it, makes no node fresh, and keeps what holds
    of a search without open nodes. -/
theorem sound_visit (h : Sound nodes successors s) (hstack : s.stack = []) (start : String) :
    Sound nodes successors (s.visit successors start) ∧ (s.visit successors start).stack = [] ∧
      ∀ a ∈ (s.visit successors start).fresh, a ∈ s.fresh ∧ a ≠ start := by
  unfold visit
  by_cases hfresh : start ∈ s.fresh
  · rw [if_pos (contains_iff_mem.mpr hfresh)]
    have hopened : s.opened = [] := by
      rw [opened, hstack, map_nil]
    have hopen : Sound nodes successors
        ⟨s.fresh.filter (· ≠ start), [(start, successors start)], s.finished⟩ := by
      refine sound_open h hfresh ?_ (forall_mem_nil _) (forall_mem_nil _) ?_
      · rw [hopened, map_nil]
      · rw [hopened]
        exact forall_mem_nil _
    have hrun := sound_run hopen
    refine ⟨hrun.1, hrun.2, fun a ha => ?_⟩
    simpa using fresh_of_run ha
  · rw [if_neg (fun hc => hfresh (contains_iff_mem.mp hc))]
    exact ⟨h, hstack, fun a ha => ⟨ha, fun heq => hfresh (heq ▸ ha)⟩⟩

/-- Going on from each of some nodes finds them all. -/
theorem sound_foldl_visit (starts : List String) (h : Sound nodes successors s)
    (hstack : s.stack = []) :
    Sound nodes successors (starts.foldl (visit successors) s) ∧
      (starts.foldl (visit successors) s).stack = [] ∧
      ∀ a ∈ (starts.foldl (visit successors) s).fresh, a ∈ s.fresh ∧ a ∉ starts := by
  induction starts generalizing s with
  | nil => exact ⟨h, hstack, fun a ha => ⟨ha, not_mem_nil⟩⟩
  | cons start rest ih =>
    obtain ⟨hsound, hempty, hshrink⟩ := sound_visit h hstack start
    obtain ⟨hsound', hempty', hshrink'⟩ := ih hsound hempty
    refine ⟨hsound', hempty', fun a ha => ?_⟩
    have hpre := hshrink a (hshrink' a ha).1
    exact ⟨hpre.1, not_mem_cons_of_ne_of_not_mem hpre.2 (hshrink' a ha).2⟩

theorem sound_initial : Sound nodes successors ⟨nodes, [], []⟩ where
  fresh_listed := fun _ ha => ha
  mem_iff := fun _ => iff_of_false not_mem_nil fun hfound => hfound.2 hfound.1
  nodup := nodup_nil
  left_successors := forall_mem_nil _
  open_closed := forall_mem_nil _
  finished_closed := forall_mem_nil _
  chain := List.Pairwise.nil
  settled := trivial

end FinishSearch

section

variable (nodes : List String) (successors : String → List String)

/-- The order is settled. -/
theorem settled_finishOrder : Settled nodes successors (finishOrder nodes successors) :=
  (FinishSearch.sound_foldl_visit nodes FinishSearch.sound_initial rfl).1.settled

/-- The order has exactly the listed nodes, each of them once. -/
theorem nodup_finishOrder : (finishOrder nodes successors).Nodup :=
  (FinishSearch.sound_foldl_visit nodes FinishSearch.sound_initial rfl).1.nodup.of_append_right

theorem mem_finishOrder {a : String} : a ∈ finishOrder nodes successors ↔ a ∈ nodes := by
  have hinitial : FinishSearch.Sound nodes successors ⟨nodes, [], []⟩ := FinishSearch.sound_initial
  obtain ⟨hsound, hempty, hshrink⟩ := FinishSearch.sound_foldl_visit nodes hinitial rfl
  have hmem := hsound.mem_iff a
  rw [FinishSearch.opened, hempty, map_nil] at hmem
  exact hmem.trans (and_iff_left_of_imp fun ha hfresh => (hshrink a hfresh).2 ha)

end

end Ripple
