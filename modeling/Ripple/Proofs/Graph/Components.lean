import Mathlib.Order.Minimal
import Ripple.Proofs.Dict
import Ripple.Proofs.Graph.FinishOrder

/-!
# Components Are the Maximal Joined Sets

The second search finds what lies in front of a node without meeting an
earlier group, and calls that the group of the node. This module says why
that is right, and what `components` makes of the groups.

The search for one group knows nothing of the order in which it is started.
It finds exactly the nodes that have a walk to its start through nodes that
are in no group yet. The order enters only where the starts are taken one
after another: at that moment the nodes in no group stand behind the start in
the order, so `reaches_back` turns a walk to the start into a way back. In
the other direction no walk between two nodes that belong together can meet
an earlier group, since all nodes on it belong together as well and would
have been taken along.

What is left is bookkeeping about sorting. A group of one node is left out,
so a node that leads back to itself only by its own edge is in no component.

## Theorems

* `GroupSearch.sound_step`, `GroupSearch.mem_members_run`: The search for one
  group finds what leads to its start.
* `components_maximal_ascending`: The components are the maximal joined sets,
  each listed once and in order.
-/

namespace Ripple

open List

section Walks

variable (nodes : List String) (successors : String → List String)

/-- Two nodes reach each other. -/
def Together (a b : String) : Prop := Reaches nodes successors a b ∧ Reaches nodes successors b a

/-- A set of two or more listed nodes that reach each other. -/
structure Joined (members : Set String) : Prop where
  listed : ∀ a ∈ members, a ∈ nodes
  together : ∀ a ∈ members, ∀ b ∈ members, Together nodes successors a b
  nontrivial : members.Nontrivial

/-- A table of the edges that come from listed nodes, to be read against
    their direction. -/
def Reverses (before : String → List String) : Prop :=
  ∀ a b, a ∈ before b ↔ a ∈ nodes ∧ b ∈ successors a

end Walks

variable {nodes : List String} {successors before : String → List String}

variable {a : String} {component : List String}

theorem together_refl (a : String) : Together nodes successors a a :=
  ⟨Relation.ReflTransGen.refl, Relation.ReflTransGen.refl⟩

theorem Together.symm {b : String} (h : Together nodes successors a b) :
    Together nodes successors b a :=
  ⟨h.2, h.1⟩

theorem Together.trans {b c : String} (hab : Together nodes successors a b)
    (hbc : Together nodes successors b c) : Together nodes successors a c :=
  ⟨Relation.ReflTransGen.trans hab.1 hbc.1, Relation.ReflTransGen.trans hbc.2 hab.2⟩

theorem Reaches.listed {b : String} (h : Reaches nodes successors a b) (ha : a ∈ nodes) :
    b ∈ nodes := by
  rcases Relation.ReflTransGen.cases_tail h with heq | ⟨c, _, hstep⟩
  · rw [heq]
    exact ha
  · exact hstep.2.1

theorem reverses_predecessors :
    Reverses nodes successors (predecessors (nodes.map fun node => (node, successors node))) := by
  intro a b
  unfold predecessors
  rw [filter_map, map_map, mem_map]
  constructor
  · rintro ⟨c, hc, rfl⟩
    rw [mem_filter] at hc
    exact ⟨hc.1, contains_iff_mem.mp hc.2⟩
  · rintro ⟨ha, hb⟩
    exact ⟨a, mem_filter.mpr ⟨ha, contains_iff_mem.mpr hb⟩, rfl⟩

namespace GroupSearch

/-- What taking some nodes does: those that were fresh become members to go
    on from. -/
theorem foldl_take (items : List String) (s : GroupSearch) :
    (∀ a, a ∈ (items.foldl take s).fresh ↔ a ∈ s.fresh ∧ a ∉ items) ∧
      (∀ a, a ∈ (items.foldl take s).stack ↔ a ∈ s.stack ∨ a ∈ s.fresh ∧ a ∈ items) ∧
      (∀ a, a ∈ (items.foldl take s).members ↔ a ∈ s.members ∨ a ∈ s.fresh ∧ a ∈ items) := by
  induction items generalizing s with
  | nil => simp
  | cons item rest ih =>
    have htake : (∀ a, a ∈ (s.take item).fresh ↔ a ∈ s.fresh ∧ a ≠ item) ∧
        (∀ a, a ∈ (s.take item).stack ↔ a ∈ s.stack ∨ a ∈ s.fresh ∧ a = item) ∧
        (∀ a, a ∈ (s.take item).members ↔ a ∈ s.members ∨ a ∈ s.fresh ∧ a = item) := by
      unfold take
      by_cases h : item ∈ s.fresh
      · rw [if_pos (contains_iff_mem.mpr h)]
        grind
      · grind
    grind

variable {s : GroupSearch}

theorem nodup_foldl_take (items : List String) (hnd : s.members.Nodup)
    (hapart : ∀ a ∈ s.members, a ∉ s.fresh) : (items.foldl take s).members.Nodup := by
  induction items generalizing s with
  | nil => exact hnd
  | cons item rest ih =>
    rw [foldl_cons]
    by_cases h : item ∈ s.fresh
    · have htake : s.take item =
          ⟨s.fresh.filter (· ≠ item), item :: s.stack, item :: s.members⟩ := by
        rw [take, if_pos (contains_iff_mem.mpr h)]
      rw [htake]
      refine ih (nodup_cons.mpr ⟨fun hc => hapart item hc h, hnd⟩) ?_
      simp only [mem_cons, mem_filter, decide_eq_true_eq]
      rintro a (rfl | ha) hc
      · exact hc.2 rfl
      · exact hapart a ha hc.1
    · have htake : s.take item = s := by
        rw [take, if_neg (fun hc => h (contains_iff_mem.mp hc))]
      rw [htake]
      exact ih hnd hapart

/-- What holds of the search for the group of `start` at each step, where
    `all` are the nodes that were in no group before it. -/
structure Sound (nodes : List String) (successors : String → List String) (all : List String)
    (start : String) (s : GroupSearch) : Prop where
  /-- The nodes in no group before are fresh or members. -/
  covered : ∀ a, a ∈ all ↔ a ∈ s.fresh ∨ a ∈ s.members
  apart : ∀ a ∈ s.members, a ∉ s.fresh
  members_nodup : s.members.Nodup
  start_member : start ∈ s.members
  /-- The members lead to the start without meeting an earlier group. -/
  leads : ∀ a ∈ s.members, Within nodes successors all a start
  stack_members : ∀ a ∈ s.stack, a ∈ s.members
  /-- In front of the other members nothing is fresh. -/
  closed : ∀ b ∈ s.members, b ∈ s.stack ∨ ∀ a, Linked nodes successors a b → a ∉ s.fresh

variable {all : List String} {start : String}

/-- A step keeps what holds of the search. -/
theorem sound_step (h : Sound nodes successors all start s)
    (hbefore : Reverses nodes successors before) (hlist : ∀ a ∈ all, a ∈ nodes) :
    Sound nodes successors all start (s.step before) := by
  unfold step
  split
  case h_1 => exact h
  case h_2 node rest hstack =>
    have hnode : node ∈ s.members := by
      refine h.stack_members node ?_
      rw [hstack]
      exact mem_cons_self
    have hrest : ∀ a ∈ rest, a ∈ s.stack := by
      intro a ha
      rw [hstack]
      exact mem_cons_of_mem _ ha
    obtain ⟨hfresh, hgoing, hmems⟩ := foldl_take (before node) { s with stack := rest }
    simp only [hbefore _ node] at hfresh hgoing hmems
    refine
      { covered := fun a => ?_
        apart := fun a ha hc => ?_
        members_nodup := nodup_foldl_take (before node) h.members_nodup h.apart
        start_member := (hmems start).mpr (Or.inl h.start_member)
        leads := fun a ha => ?_
        stack_members := fun a ha => ?_
        closed := fun b hb => ?_ }
    · rw [h.covered, hfresh, hmems]
      tauto
    · rw [hfresh] at hc
      rw [hmems] at ha
      rcases ha with hold | hnew
      · exact h.apart a hold hc.1
      · exact hc.2 hnew.2
    · rw [hmems] at ha
      rcases ha with hold | hnew
      · exact h.leads a hold
      · -- A new member has an edge to the node, which leads to the start.
        have hin : a ∈ all := (h.covered a).mpr (Or.inl hnew.1)
        have hlink : Linked nodes successors a node :=
          ⟨hnew.2.1, hlist node ((h.covered node).mpr (Or.inr hnode)), hnew.2.2⟩
        exact Relation.ReflTransGen.head ⟨hin, hlink⟩ (h.leads node hnode)
    · rw [hgoing] at ha
      rw [hmems]
      exact ha.imp_left fun hold => h.stack_members a (hrest a hold)
    · rw [hmems] at hb
      rcases hb with hold | hnew
      · rcases h.closed b hold with hopen | hdone
        · rw [hstack] at hopen
          rcases mem_cons.mp hopen with rfl | hlater
          · -- Everything in front of the node was just taken.
            refine Or.inr fun a hlink hc => ?_
            rw [hfresh] at hc
            exact hc.2 ⟨hlink.1, hlink.2.2⟩
          · exact Or.inl ((hgoing b).mpr (Or.inl hlater))
        · exact Or.inr fun a hlink hc => hdone a hlink ((hfresh a).mp hc).1
      · exact Or.inl ((hgoing b).mpr (Or.inr hnew))

/-- A run keeps what holds of the search, and leaves nothing to go on from. -/
theorem sound_run (h : Sound nodes successors all start s)
    (hbefore : Reverses nodes successors before) (hlist : ∀ a ∈ all, a ∈ nodes) :
    Sound nodes successors all start (run before s) ∧ (run before s).stack = [] := by
  induction s using run.induct before with
  | case1 s hempty =>
    rw [run, dif_pos hempty]
    exact ⟨h, hempty⟩
  | case2 s hsome ih =>
    rw [run, dif_neg hsome]
    exact ih (sound_step h hbefore hlist)

/-- When there is nothing left to go on from, the members are what leads to
    the start without meeting an earlier group. -/
theorem mem_members_iff (h : Sound nodes successors all start s) (hempty : s.stack = [])
    {a : String} (ha : a ∈ all) :
    a ∈ s.members ↔ Within nodes successors all a start := by
  refine ⟨h.leads a, fun hwalk => ?_⟩
  -- From the end of the walk, which is the start, back to its beginning.
  induction hwalk using Relation.ReflTransGen.head_induction_on with
  | refl => exact h.start_member
  | @head x y hstep hrest ih =>
    have hy : y ∈ all := by
      rcases Relation.ReflTransGen.cases_head hrest with heq | ⟨z, hnext, _⟩
      · rw [heq]
        exact (h.covered start).mpr (Or.inr h.start_member)
      · exact hnext.1
    rcases h.closed y (ih hy) with hopen | hdone
    · rw [hempty] at hopen
      exact absurd hopen not_mem_nil
    · exact ((h.covered x).mp ha).resolve_left (hdone x hstep.2)

theorem sound_initial (hstart : start ∈ all) :
    Sound nodes successors all start ⟨all.filter (· ≠ start), [start], [start]⟩ where
  covered := by
    intro a
    simp only [mem_filter, decide_eq_true_eq, mem_singleton]
    by_cases h : a = start
    · simp only [h, hstart, or_true]
    · simp only [h, not_false_eq_true, and_true, or_false, ne_eq]
  apart := by
    intro a ha hc
    simp only [mem_filter, decide_eq_true_eq] at hc
    exact hc.2 (mem_singleton.mp ha)
  members_nodup := nodup_singleton start
  start_member := mem_singleton_self start
  leads := by
    intro a ha
    rw [mem_singleton.mp ha]
    exact Relation.ReflTransGen.refl
  stack_members := fun _ ha => ha
  closed := fun _ hb => Or.inl hb

end GroupSearch

/-- What holds of the groups after the nodes of a list were taken. -/
structure Grouping.Sound (nodes : List String) (successors : String → List String)
    (taken : List String) (g : Grouping) : Prop where
  /-- In no group are the nodes that belong together with none that was taken. -/
  fresh_iff : ∀ a, a ∈ g.fresh ↔ a ∈ nodes ∧ ∀ b ∈ taken, ¬ Together nodes successors a b
  /-- A group is what belongs together with a node that was taken. -/
  group_class : ∀ members ∈ g.groups, members.Nodup ∧
    ∃ a ∈ taken, ∀ b, b ∈ members ↔ Together nodes successors a b
  /-- Every node that was taken is in a group. -/
  covered : ∀ a ∈ taken, ∃ members ∈ g.groups, a ∈ members
  disjoint : g.groups.Pairwise List.Disjoint

namespace Grouping

variable {g : Grouping} {taken later : List String} {start : String}

theorem mem_fresh_of_together (h : Sound nodes successors taken g) (hstart : start ∈ g.fresh)
    (ha : Together nodes successors a start) : a ∈ g.fresh := by
  rw [h.fresh_iff] at hstart ⊢
  refine ⟨Reaches.listed ha.2 hstart.1, fun c hc hac => ?_⟩
  exact hstart.2 c hc (ha.symm.trans hac)

/-- All nodes on a walk between two nodes that belong together belong
    together with them, so the walk meets no earlier group. -/
theorem within_fresh (h : Sound nodes successors taken g) (hstart : start ∈ g.fresh)
    (ha : Together nodes successors a start) : Within nodes successors g.fresh a start := by
  obtain ⟨hto, hfrom⟩ := ha
  induction hto using Relation.ReflTransGen.head_induction_on with
  | refl => exact Relation.ReflTransGen.refl
  | @head x y hstep hrest ih =>
    have hy : Reaches nodes successors start y := Relation.ReflTransGen.tail hfrom hstep
    have hx : Together nodes successors x start := ⟨Relation.ReflTransGen.head hstep hrest, hfrom⟩
    exact Relation.ReflTransGen.head ⟨mem_fresh_of_together h hstart hx, hstep⟩ (ih hy)

/-- A node that is in no group leads to the next start only if it belongs
    together with it, since it stands behind it in the order. -/
theorem together_of_within (h : Sound nodes successors taken g)
    (horder : finishOrder nodes successors = taken ++ start :: later) (ha : a ∈ g.fresh)
    (hwalk : Within nodes successors g.fresh a start) :
    Together nodes successors a start := by
  have hbehind : g.fresh ⊆ start :: later := by
    intro b hb
    rw [h.fresh_iff] at hb
    have hmem : b ∈ taken ++ start :: later := by
      rw [← horder]
      exact (mem_finishOrder nodes successors).mpr hb.1
    rcases mem_append.mp hmem with htaken | hlater
    · exact absurd (together_refl b) (hb.2 b htaken)
    · exact hlater
  have hset : Settled nodes successors (start :: later) := by
    have hall := settled_finishOrder nodes successors
    rw [horder] at hall
    exact settled_of_append hall
  have hnd : (start :: later).Nodup := by
    have hall := nodup_finishOrder nodes successors
    rw [horder] at hall
    exact hall.of_append_right
  exact ⟨reaches_of_within hwalk, reaches_back hset hnd (hbehind ha) (within_mono hbehind hwalk)⟩

theorem forall_mem_taken {p : String → Prop} :
    (∀ b ∈ taken ++ [start], p b) ↔ (∀ b ∈ taken, p b) ∧ p start := by
  rw [forall_mem_append, forall_mem_singleton]

/-- The search from a start that is in no group. -/
def searched (before : String → List String) (g : Grouping) (start : String) : GroupSearch :=
  GroupSearch.run before ⟨g.fresh.filter (· ≠ start), [start], [start]⟩

section Fresh

variable (h : Sound nodes successors taken g) (hbefore : Reverses nodes successors before)
  (hfresh : start ∈ g.fresh)

include h hbefore hfresh

theorem sound_searched :
    GroupSearch.Sound nodes successors g.fresh start (searched before g start) ∧
      (searched before g start).stack = [] :=
  GroupSearch.sound_run (GroupSearch.sound_initial hfresh) hbefore
    fun a ha => ((h.fresh_iff a).mp ha).1

variable (horder : finishOrder nodes successors = taken ++ start :: later)

include horder

theorem mem_searched_iff (a : String) :
    a ∈ (searched before g start).members ↔ Together nodes successors start a := by
  obtain ⟨hsound, hempty⟩ := sound_searched h hbefore hfresh
  constructor
  · intro ha
    have hin : a ∈ g.fresh := (hsound.covered a).mpr (Or.inr ha)
    exact (together_of_within h horder hin (hsound.leads a ha)).symm
  · intro ha
    have hin : a ∈ g.fresh := mem_fresh_of_together h hfresh ha.symm
    exact (GroupSearch.mem_members_iff hsound hempty hin).mpr (within_fresh h hfresh ha.symm)

theorem mem_fresh_searched_iff (a : String) : a ∈ (searched before g start).fresh ↔
    a ∈ g.fresh ∧ ¬ Together nodes successors a start := by
  obtain ⟨hsound, -⟩ := sound_searched h hbefore hfresh
  have hsymm : Together nodes successors a start ↔ Together nodes successors start a :=
    ⟨Together.symm, Together.symm⟩
  have hapart := hsound.apart a
  rw [hsound.covered a, hsymm, ← mem_searched_iff h hbefore hfresh horder a]
  tauto

theorem sound_of_fresh : Sound nodes successors (taken ++ [start])
      ⟨(searched before g start).fresh, (searched before g start).members :: g.groups⟩ := by
  obtain ⟨hsound, -⟩ := sound_searched h hbefore hfresh
  have hgroup := mem_searched_iff h hbefore hfresh horder
  refine
    { fresh_iff := fun a => ?_
      group_class := forall_mem_cons.mpr
        ⟨⟨hsound.members_nodup, start, mem_append_right _ (mem_singleton_self _),
          hgroup⟩, fun members hm => ?_⟩
      covered := forall_mem_taken.mpr ⟨fun a ha => ?_, ?_⟩
      disjoint := pairwise_cons.mpr ⟨fun members hm a ha hb => ?_, h.disjoint⟩ }
  · rw [mem_fresh_searched_iff h hbefore hfresh horder, h.fresh_iff, forall_mem_taken, and_assoc]
  · obtain ⟨hnd, b, hb, hclass⟩ := h.group_class members hm
    exact ⟨hnd, b, mem_append_left _ hb, hclass⟩
  · obtain ⟨members, hm, hin⟩ := h.covered a ha
    exact ⟨members, mem_cons_of_mem _ hm, hin⟩
  · exact ⟨_, mem_cons_self, hsound.start_member⟩
  · -- A node of both groups would join the start with a node that was taken before.
    obtain ⟨_, b, hbt, hclass⟩ := h.group_class members hm
    have hstart := ((h.fresh_iff start).mp hfresh).2 b hbt
    exact hstart (((hgroup a).mp ha).trans ((hclass a).mp hb).symm)

end Fresh

/-- A start that belongs together with a node that was taken before is in the group of that
    node. -/
theorem sound_of_together (h : Sound nodes successors taken g) {b : String} (hb : b ∈ taken)
    (hstart : Together nodes successors start b) :
    Sound nodes successors (taken ++ [start]) g := by
  refine
    { fresh_iff := fun a => ?_
      group_class := fun members hm => ?_
      covered := forall_mem_taken.mpr ⟨h.covered, ?_⟩
      disjoint := h.disjoint }
  · rw [h.fresh_iff, forall_mem_taken]
    constructor
    · rintro ⟨hlist, hapart⟩
      exact ⟨hlist, hapart, fun hc => hapart b hb (hc.trans hstart)⟩
    · rintro ⟨hlist, hapart, -⟩
      exact ⟨hlist, hapart⟩
  · obtain ⟨hnd, c, hc, hclass⟩ := h.group_class members hm
    exact ⟨hnd, c, mem_append_left _ hc, hclass⟩
  · obtain ⟨members, hm, hin⟩ := h.covered b hb
    obtain ⟨_, c, _, hclass⟩ := h.group_class members hm
    exact ⟨members, hm, (hclass start).mpr (((hclass b).mp hin).trans hstart.symm)⟩

/-- Taking the next node of the order keeps what holds of the groups. -/
theorem sound_visit (h : Sound nodes successors taken g)
    (hbefore : Reverses nodes successors before)
    (horder : finishOrder nodes successors = taken ++ start :: later) :
    Sound nodes successors (taken ++ [start]) (g.visit before start) := by
  unfold visit
  by_cases hfresh : start ∈ g.fresh
  · rw [if_pos (contains_iff_mem.mpr hfresh)]
    exact sound_of_fresh h hbefore hfresh horder
  · rw [if_neg (fun hc => hfresh (contains_iff_mem.mp hc))]
    have hlist : start ∈ nodes := by
      rw [← mem_finishOrder nodes successors, horder]
      exact mem_append_right _ mem_cons_self
    have hold : ∃ b ∈ taken, Together nodes successors start b := by
      by_contra hc
      exact hfresh ((h.fresh_iff start).mpr ⟨hlist, fun b hb hsb => hc ⟨b, hb, hsb⟩⟩)
    obtain ⟨b, hb, hsb⟩ := hold
    exact sound_of_together h hb hsb

/-- Taking the rest of the order keeps what holds of the groups. -/
theorem sound_foldl_visit (later taken : List String)
    (h : Sound nodes successors taken g) (hbefore : Reverses nodes successors before)
    (horder : finishOrder nodes successors = taken ++ later) :
    Sound nodes successors (finishOrder nodes successors) (later.foldl (visit before) g) := by
  induction later generalizing taken g with
  | nil =>
    rw [horder, append_nil]
    exact h
  | cons start rest ih =>
    refine ih (taken ++ [start]) (sound_visit h hbefore horder) ?_
    rw [horder, append_assoc, singleton_append]

theorem sound_initial : Sound nodes successors [] ⟨nodes, []⟩ where
  fresh_iff := fun _ => ⟨fun ha => ⟨ha, forall_mem_nil _⟩, fun ha => ha.1⟩
  group_class := forall_mem_nil _
  covered := forall_mem_nil _
  disjoint := List.Pairwise.nil

end Grouping

theorem sound_groups : ∃ fresh, Grouping.Sound nodes successors (finishOrder nodes successors)
    ⟨fresh, groups nodes successors⟩ :=
  ⟨_, Grouping.sound_foldl_visit (finishOrder nodes successors) [] Grouping.sound_initial
    reverses_predecessors (nil_append _).symm⟩

/-- A group is what belongs together with a listed node. -/
theorem mem_groups {members : List String} (h : members ∈ groups nodes successors) :
    members.Nodup ∧ ∃ a ∈ nodes, ∀ b, b ∈ members ↔ Together nodes successors a b := by
  obtain ⟨_, hsound⟩ := sound_groups
  obtain ⟨hnd, a, ha, hclass⟩ := hsound.group_class members h
  exact ⟨hnd, a, (mem_finishOrder nodes successors).mp ha, hclass⟩

theorem exists_group (h : a ∈ nodes) : ∃ members ∈ groups nodes successors, a ∈ members := by
  obtain ⟨_, hsound⟩ := sound_groups
  exact hsound.covered a ((mem_finishOrder nodes successors).mpr h)

/-- No node is in two groups. -/
theorem pairwise_disjoint_groups : (groups nodes successors).Pairwise List.Disjoint := by
  obtain ⟨_, hsound⟩ := sound_groups
  exact hsound.disjoint

section Sorting

variable {κ : Type} [Ord κ]

@[simp] theorem mem_sortAscending {items : List κ} {item : κ} :
    item ∈ sortAscending items ↔ item ∈ items :=
  mem_mergeSort

variable [Std.TransOrd κ] [Std.LawfulEqOrd κ]

/-- Sorting a list without repetitions leaves no two items in the wrong
    order, and none of them twice. -/
theorem increasing_sortAscending {items : List κ} (h : items.Nodup) :
    Increasing (sortAscending items) := by
  have htrans : ∀ a b c : κ, (compare a b).isLE → (compare b c).isLE → (compare a c).isLE :=
    fun a b c hab hbc => Std.TransCmp.isLE_trans hab hbc
  have htotal : ∀ a b : κ, (compare a b).isLE || (compare b a).isLE := by
    intro a b
    have hswap : compare b a = (compare a b).swap := Std.OrientedCmp.eq_swap
    rw [hswap]
    cases compare a b <;> decide
  have hsort := pairwise_mergeSort htrans htotal items
  have hnd : (sortAscending items).Nodup := (mergeSort_perm items _).nodup_iff.mpr h
  refine (hsort.and hnd).imp (fun {a b} hab => ?_)
  rcases Ordering.isLE_iff_eq_lt_or_eq_eq.mp hab.1 with hlt | heq
  · exact hlt
  · exact absurd (Std.LawfulEqOrd.eq_of_compare heq) hab.2

end Sorting

theorem mem_components : component ∈ components nodes successors ↔
      ∃ members ∈ groups nodes successors, 1 < members.length ∧
        sortAscending members = component := by
  unfold components
  rw [mem_sortAscending, mem_map]
  simp only [mem_filter, decide_eq_true_eq, and_assoc]

theorem increasing_of_mem_components (h : component ∈ components nodes successors) :
    Increasing component := by
  obtain ⟨members, hm, _, rfl⟩ := mem_components.mp h
  exact increasing_sortAscending (mem_groups hm).1

theorem pairwise_disjoint_components :
    (components nodes successors).Pairwise List.Disjoint ∧ (components nodes successors).Nodup := by
  have hsub : ((groups nodes successors).filter fun members => 1 < members.length).Pairwise
      List.Disjoint := pairwise_disjoint_groups.filter _
  have hlong : ∀ members ∈ ((groups nodes successors).filter fun members => 1 < members.length),
      1 < members.length := by
    intro members hm
    exact of_decide_eq_true (mem_filter.mp hm).2
  have hmap : (((groups nodes successors).filter fun members => 1 < members.length).map
      sortAscending).Pairwise fun a b => List.Disjoint a b ∧ a ≠ b := by
    rw [pairwise_map]
    refine hsub.imp_of_mem (fun {a b} ha _ hab => ?_)
    have hdisj : List.Disjoint (sortAscending a) (sortAscending b) := by
      intro node hna hnb
      exact hab (mem_sortAscending.mp hna) (mem_sortAscending.mp hnb)
    refine ⟨hdisj, fun heq => ?_⟩
    obtain ⟨node, hnode⟩ := exists_mem_of_length_pos (Nat.lt_trans Nat.one_pos (hlong a ha))
    exact hab hnode (mem_sortAscending.mp (heq ▸ mem_sortAscending.mpr hnode))
  have hsymm : ∀ {a b : List String}, List.Disjoint a b ∧ a ≠ b → List.Disjoint b a ∧ b ≠ a :=
    fun h => ⟨fun _ hb ha => h.1 ha hb, h.2.symm⟩
  have hperm := (mergeSort_perm (((groups nodes successors).filter fun members =>
    1 < members.length).map sortAscending) fun a b => (compare a b).isLE).symm
  have hall := hmap.perm hperm hsymm
  exact ⟨hall.imp And.left, hall.imp And.right⟩

/-- A set that belongs together with one of its nodes is joined when it has a
    second node. -/
theorem joined_of_class {members : Set String} (ha : a ∈ nodes)
    (hclass : ∀ b, b ∈ members ↔ Together nodes successors a b) (hmany : members.Nontrivial) :
    Joined nodes successors members where
  listed := fun b hb => Reaches.listed ((hclass b).mp hb).1 ha
  together := fun b hb c hc => ((hclass b).mp hb).symm.trans ((hclass c).mp hc)
  nontrivial := hmany

theorem maximal_of_mem_components (h : component ∈ components nodes successors) :
    Maximal (Joined nodes successors) {a | a ∈ component} := by
  obtain ⟨members, hm, hlong, rfl⟩ := mem_components.mp h
  obtain ⟨hnd, a, ha, hclass⟩ := mem_groups hm
  have hset : ∀ b, b ∈ {b | b ∈ sortAscending members} ↔ Together nodes successors a b := by
    intro b
    rw [Set.mem_ofPred_eq, mem_sortAscending, hclass]
  have hmany : {b | b ∈ sortAscending members}.Nontrivial := by
    obtain ⟨first, second, rest, rfl⟩ : ∃ first second rest, members = first :: second :: rest := by
      match members, hlong with
      | first :: second :: rest, _ => exact ⟨first, second, rest, rfl⟩
    rw [nodup_cons] at hnd
    refine ⟨first, mem_sortAscending.mpr mem_cons_self, second,
      mem_sortAscending.mpr (mem_cons_of_mem _ mem_cons_self), ?_⟩
    intro heq
    exact hnd.1 (heq ▸ mem_cons_self)
  refine ⟨joined_of_class ha hset hmany, fun larger hlarger hsub b hb => ?_⟩
  exact (hset b).mpr (hlarger.together a (hsub ((hset a).mpr (together_refl a))) b hb)

theorem exists_component_of_maximal {members : Set String}
    (h : Maximal (Joined nodes successors) members) :
    ∃ component ∈ components nodes successors, members = {a | a ∈ component} := by
  obtain ⟨a, ha, b, hb, hne⟩ := h.prop.nontrivial
  obtain ⟨group, hg, hag⟩ := exists_group (h.prop.listed a ha)
  obtain ⟨_, c, hc, hclass⟩ := mem_groups hg
  -- The set lies in the group of any of its nodes, and the group is joined.
  have hsub : members ⊆ {x | x ∈ group} := by
    intro x hx
    exact (hclass x).mpr (((hclass a).mp hag).trans (h.prop.together a ha x hx))
  have hjoined : Joined nodes successors {x | x ∈ group} :=
    joined_of_class hc hclass (h.prop.nontrivial.mono hsub)
  have hlong : 1 < group.length := by
    by_contra hshort
    obtain ⟨only, rfl⟩ := List.length_eq_one_iff.mp
      (Nat.le_antisymm (Nat.le_of_not_lt hshort) (length_pos_of_mem hag))
    exact hne ((mem_singleton.mp hag).trans (mem_singleton.mp (hsub hb)).symm)
  refine ⟨sortAscending group, mem_components.mpr ⟨group, hg, hlong, rfl⟩, ?_⟩
  refine Set.Subset.antisymm (fun x hx => mem_sortAscending.mpr (hsub hx)) (fun x hx => ?_)
  exact h.le_of_ge hjoined hsub (mem_sortAscending.mp hx)

/-- The components are exactly the maximal sets of two or more listed nodes
    that reach each other. Each set is listed once, the nodes of a component
    are in ascending order, and so are the components. No node is in two of
    them, and none is a node that belongs together with itself only. -/
theorem components_maximal_ascending (nodes : List String) (successors : String → List String) :
    (∀ members : Set String, Maximal (Joined nodes successors) members ↔
        ∃! component, component ∈ components nodes successors ∧ members = {a | a ∈ component}) ∧
      (∀ component ∈ components nodes successors, Increasing component) ∧
      Increasing (components nodes successors) ∧
      (components nodes successors).Pairwise List.Disjoint ∧
      ∀ a, (∀ b, Together nodes successors a b → b = a) →
        ∀ component ∈ components nodes successors, a ∉ component := by
  refine ⟨fun members => ⟨fun hmax => ?_, ?_⟩, fun _ => increasing_of_mem_components, ?_,
    pairwise_disjoint_components.1, fun a halone component hc ha => ?_⟩
  · obtain ⟨component, hc, heq⟩ := exists_component_of_maximal hmax
    refine ⟨component, ⟨hc, heq⟩, ?_⟩
    rintro other ⟨ho, hoeq⟩
    refine (increasing_of_mem_components ho).eq_of_mem_iff (increasing_of_mem_components hc) ?_
    intro a
    exact Set.ext_iff.mp (hoeq.symm.trans heq) a
  · rintro ⟨component, ⟨hc, rfl⟩, _⟩
    exact maximal_of_mem_components hc
  · unfold components
    refine increasing_sortAscending ?_
    exact (mergeSort_perm _ _).nodup_iff.mp pairwise_disjoint_components.2
  · obtain ⟨b, hb, hne⟩ := (maximal_of_mem_components hc).prop.nontrivial.exists_ne a
    exact hne (halone b ((maximal_of_mem_components hc).prop.together a ha b hb))

end Ripple
