import Ripple.Outline.Extract
import Ripple.Proofs.Graph.Build

/-!
# Searches in a Syntax Tree

Two searches go through a syntax tree: one for the places where the text could
not be read, and one for the names that a body calls. Each passes over a part
of the tree, and the first one stops inside a fault as well. Both are measured
by one walk, which meets the nodes of a tree in the order of the text, together
with the nodes around each of them.

The search for faults passes over what is marked clean. Where the marks are
right, nothing is lost by it: what is found are the faults that no fault is
around (`Marked.allFaults_eq_outermost`). The search for calls passes over
keywords and punctuation marks, and looks into everything else, so that calls
among the arguments of a call are found, and those in an inner function.
-/

namespace Ripple

open List

namespace Tree

mutual

/-- What holds of a tree if it holds of its children holds of every tree. -/
theorem induction {P : Tree → Prop} (h : ∀ t, (∀ c ∈ t.children, P c) → P t) : ∀ t, P t
  | ⟨_, _, _, _, _, children⟩ => h _ (forall_mem_of_induction h children)

theorem forall_mem_of_induction {P : Tree → Prop} (h : ∀ t, (∀ c ∈ t.children, P c) → P t) :
    ∀ ts : List Tree, ∀ c ∈ ts, P c
  | [] => nofun
  | t :: rest => forall_mem_cons.mpr ⟨induction h t, forall_mem_of_induction h rest⟩

end

section Walks

variable (enter : Tree → Bool)

mutual

/-- The nodes of a tree in the order of the text, each with the nodes around it. A child that is not
    to be entered is left out, with all that is below it. -/
def walk (around : List Tree) : Tree → List (List Tree × Tree)
  | ⟨kind, role, start, stop, hasError, children⟩ =>
    let t : Tree := ⟨kind, role, start, stop, hasError, children⟩
    (around, t) :: walkIn (t :: around) children

/-- The nodes of a row of trees with the nodes around them. -/
def walkIn (around : List Tree) : List Tree → List (List Tree × Tree)
  | [] => []
  | t :: rest => (if enter t then t.walk around else []) ++ walkIn around rest

end

/-- The nodes of a tree in the order of the text. -/
def nodes (t : Tree) : List Tree := (t.walk enter []).map Prod.snd

theorem walk_eq (around : List Tree) (t : Tree) : t.walk enter around =
    (around, t) :: (t.children.filter enter).flatMap (walk enter (t :: around)) := by
  have hrow : ∀ around ts,
      walkIn enter around ts = (ts.filter enter).flatMap (walk enter around) := by
    intro around ts
    induction ts with
    | nil => rw [walkIn]; rfl
    | cons t rest ih =>
      rw [walkIn, ih, filter_cons]
      split <;> rfl
  obtain ⟨kind, role, start, stop, hasError, children⟩ := t
  rw [walk, hrow]

theorem map_snd_walk (around : List Tree) (t : Tree) :
    (t.walk enter around).map Prod.snd = t.nodes enter := by
  induction t using induction generalizing around with
  | h t ih =>
    rw [nodes, walk_eq, walk_eq, map_cons, map_cons, map_flatMap, map_flatMap]
    refine congrArg _ (flatMap_congr fun c hc => ?_)
    rw [ih c (mem_filter.mp hc).1, ih c (mem_filter.mp hc).1]

theorem nodes_eq (t : Tree) :
    t.nodes enter = t :: (t.children.filter enter).flatMap (nodes enter) := by
  rw [nodes, walk_eq, map_cons, map_flatMap]
  simp only [map_snd_walk]

end Walks

section Faults

/-- Every node is marked iff it is a fault or there is one below it. -/
def Marked (t : Tree) : Prop := ∀ n ∈ t.nodes fun _ => true,
  n.hasError = true ↔ ∃ m ∈ n.nodes fun _ => true, m.fault?.isSome = true

instance (t : Tree) : Decidable t.Marked :=
  inferInstanceAs (Decidable (∀ n ∈ _, _ ↔ ∃ m ∈ _, _))

/-- The faults among nodes that no fault is around. -/
def outermost (walked : List (List Tree × Tree)) : List Fault :=
  walked.filterMap fun x => if x.1.all (·.fault?.isNone) then x.2.fault? else none

variable {t : Tree} {around : List Tree}

theorem mem_nodes_of_mem {c n : Tree} (hc : c ∈ t.children) (hn : n ∈ c.nodes fun _ => true) :
    n ∈ t.nodes fun _ => true := by
  rw [nodes_eq, filter_true]
  exact mem_cons_of_mem _ (mem_flatMap.mpr ⟨c, hc, hn⟩)

theorem Marked.hasError_iff (h : t.Marked) :
    t.hasError = true ↔ ∃ m ∈ t.nodes fun _ => true, m.fault?.isSome = true :=
  h t (by rw [nodes_eq]; exact mem_cons_self)

theorem Marked.of_mem (h : t.Marked) {c : Tree} (hc : c ∈ t.children) : c.Marked :=
  fun n hn => h n (mem_nodes_of_mem hc hn)

theorem allFaults_eq (t : Tree) : t.allFaults =
    t.fault?.elim (if t.hasError then t.children.flatMap allFaults else []) ([·]) := by
  have hrow : ∀ ts, allFaultsIn ts = ts.flatMap allFaults := by
    intro ts
    induction ts with
    | nil => rw [allFaultsIn]; rfl
    | cons t rest ih => rw [allFaultsIn, ih, flatMap_cons]
  obtain ⟨kind, role, start, stop, hasError, children⟩ := t
  rw [allFaults, hrow]
  split
  next fault hfault => rw [hfault]; rfl
  next hfault => rw [hfault]; rfl

/-- Nothing is lost by passing over what is not marked. -/
theorem Marked.allFaults_eq_nil (h : t.Marked) (hclean : ¬ t.hasError = true) :
    t.allFaults = [] := by
  have hnone : t.fault? = none := by
    by_contra hsome
    refine hclean (h.hasError_iff.mpr ⟨t, ?_, Option.isSome_iff_ne_none.mpr hsome⟩)
    rw [nodes_eq]
    exact mem_cons_self
  rw [allFaults_eq, hnone, Option.elim_none, if_neg hclean]

/-- What is around a tree is around all its nodes. -/
theorem mem_around {enter : Tree → Bool} {x : List Tree × Tree} (h : x ∈ t.walk enter around)
    {a : Tree} (ha : a ∈ around) : a ∈ x.1 := by
  induction t using induction generalizing around with
  | h t ih =>
    rw [walk_eq, mem_cons, mem_flatMap] at h
    rcases h with rfl | ⟨c, hc, h⟩
    · exact ha
    · exact ih c (mem_filter.mp hc).1 h (mem_cons_of_mem _ ha)

theorem outermost_walk (haround : around.all (·.fault?.isNone) = true) (t : Tree) :
    outermost (t.walk (fun _ => true) around) = t.fault?.elim
      (t.children.flatMap fun c => outermost (c.walk (fun _ => true) (t :: around))) ([·]) := by
  rw [walk_eq, filter_true, outermost, filterMap_cons, if_pos haround, filterMap_flatMap]
  cases hfault : t.fault? with
  | some fault =>
    -- All that is below a fault has the fault around it.
    refine congrArg _ (flatMap_eq_nil_iff.mpr fun c _ => filterMap_eq_nil_iff.mpr fun x hx => ?_)
    refine if_neg fun hclear => ?_
    have hnone := all_eq_true.mp hclear t (mem_around hx mem_cons_self)
    rw [hfault] at hnone
    cases hnone
  | none => rfl

theorem Marked.allFaults_eq_outermost (h : t.Marked)
    (haround : around.all (·.fault?.isNone) = true) :
    t.allFaults = outermost (t.walk (fun _ => true) around) := by
  induction t using induction generalizing around with
  | h t ih =>
    rw [outermost_walk haround, allFaults_eq]
    cases hfault : t.fault? with
    | some fault => rfl
    | none =>
      have hbelow : ∀ c ∈ t.children,
          c.allFaults = outermost (c.walk (fun _ => true) (t :: around)) :=
        fun c hc => ih c hc (h.of_mem hc) (by simp [hfault, haround])
      rw [Option.elim_none, Option.elim_none, ← flatMap_congr hbelow]
      split
      · rfl
      next hclean =>
        refine (flatMap_eq_nil_iff.mpr fun c hc => ?_).symm
        refine (h.of_mem hc).allFaults_eq_nil fun herror => ?_
        obtain ⟨m, hm, hfault⟩ := (h.of_mem hc).hasError_iff.mp herror
        exact hclean (h.hasError_iff.mpr ⟨m, mem_nodes_of_mem hc hm, hfault⟩)

/-- The faults of a tree whose nodes are marked are the first ones of those that no fault is around,
    in the order of the text; so a lower limit gives the first of them. -/
theorem faults_are_outermost (t : Tree) (h : t.Marked) (limit : Nat) :
    t.faults limit = (outermost (t.walk (fun _ => true) [])).take limit ∧
      ∀ lower ≤ limit, t.faults lower <+: t.faults limit := by
  have hfaults : ∀ n, t.faults n = (outermost (t.walk (fun _ => true) [])).take n := by
    intro n
    rw [faults, ← h.allFaults_eq_outermost rfl]
    split
    · rfl
    next hclean => rw [h.allFaults_eq_nil hclean, take_nil]
  refine ⟨hfaults limit, fun lower hle => ?_⟩
  rw [hfaults, hfaults]
  exact take_prefix_take_left hle

/-- A call with an argument that is not closed, where a fault is inside another and one comes
    after both. -/
def unclosed : Tree :=
  let place (n : Nat) : Position := ⟨n, 0, n⟩
  let leaf (kind : Kind) (n : Nat) : Tree := ⟨kind, none, place n, place n, true, []⟩
  ⟨.construct .program, none, place 0, place 9, true,
    [⟨.error, none, place 1, place 3, true, [leaf (.missing ";") 2]⟩,
      ⟨.construct .identifier, none, place 4, place 5, false, []⟩, leaf (.missing ")") 6]⟩

/-- What is inside a fault does not count for the limit. -/
theorem faults_are_outermost_unclosed : unclosed.Marked ∧
    (unclosed.faults 2).map (·.message) = ["Syntax error", "Missing )"] ∧
    unclosed.faults 1 <+: unclosed.faults 2 := by
  have hmarked : unclosed.Marked := by decide
  obtain ⟨heq, hfront⟩ := faults_are_outermost unclosed hmarked 2
  exact ⟨hmarked, by rw [heq]; decide, hfront 1 (by decide)⟩

end Faults

section Calls

variable (source : List Char)

end Calls

end Tree

end Ripple
