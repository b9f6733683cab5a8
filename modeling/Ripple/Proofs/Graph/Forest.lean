import Ripple.Graph.Forest
import Ripple.Proofs.Dict

/-!
# Joined Places Have One Root

What a forest says is which places have one root. `root` follows the places
without changing anything, and all that is done with a forest is described by
what it does to the roots. Making a place point two steps ahead changes none
of them. So a search leaves the roots as they are, however much it changes
what the places point to, and it ends at the root it started below. Only
joining two groups changes roots: those of the group with the later root.

After some pairs of places were joined, two places have one root iff they are
equivalent by the relation that the pairs generate. This is kept by each join,
and nothing else has to be known about the order of the pairs or the shape of
the forest.
-/

namespace Ripple

open List

theorem eq_of_eqvGen {α β : Type} {related : α → α → Prop} {value : α → β}
    (h : ∀ a b, related a b → value a = value b) {a b : α} (hab : Relation.EqvGen related a b) :
    value a = value b :=
  (eq_equivalence.comap value).eqvGen_iff.mp (Relation.EqvGen.mono h a b hab)

namespace Forest

variable {size : Nat} {f : Forest size}

/-- The root of a place. -/
def root (f : Forest size) (place : Fin size) : Fin size :=
  if _h : f.parent place = place then place else f.root (f.parent place)
termination_by place.val
decreasing_by exact lt_of_le_of_ne (f.parent_le place) fun heq => _h (Fin.ext heq)

theorem root_of_parent_eq {place : Fin size} (h : f.parent place = place) :
    f.root place = place := by
  rw [root, dif_pos h]

theorem root_parent (f : Forest size) (place : Fin size) :
    f.root (f.parent place) = f.root place := by
  by_cases h : f.parent place = place
  · rw [h]
  · conv_rhs => rw [root, dif_neg h]

theorem parent_root (f : Forest size) (place : Fin size) :
    f.parent (f.root place) = f.root place := by
  induction place using root.induct f with
  | case1 place h => rw [root_of_parent_eq h, h]
  | case2 place h ih => rwa [root_parent] at ih

/-- A place may point to any place with the same root, as long as a root stays one and no other
    place becomes one. -/
theorem root_redirect {place target : Fin size} (h : target ≤ place)
    (hroot : target = place ↔ f.parent place = place) (hsame : f.root target = f.root place)
    (other : Fin size) : (f.redirect place target h).root other = f.root other := by
  -- The forest after the change is followed. It differs at one place, which has the root it had.
  induction other using root.induct (f.redirect place target h) with
  | case1 other hself =>
    rw [root_of_parent_eq hself]
    rw [parent_redirect] at hself
    split at hself
    · next heq => rw [heq, root_of_parent_eq (hroot.mp (hself.trans heq))]
    · rw [root_of_parent_eq hself]
  | case2 other hself ih =>
    rw [← root_parent, ih, parent_redirect]
    split
    · next heq => rw [heq, hsame]
    · exact f.root_parent other

/-- If a root is made to point to another one, then the places below it have the other one as their
    root, and no others. -/
theorem root_redirect_of_roots {a b : Fin size} (ha : f.parent a = a) (hb : f.parent b = b)
    (h : a < b) (place : Fin size) :
    (f.redirect b a h.le).root place = if f.root place = b then a else f.root place := by
  induction place using root.induct (f.redirect b a h.le) with
  | case1 place hself =>
    rw [root_of_parent_eq hself]
    rw [parent_redirect] at hself
    split at hself
    · next heq => exact absurd (hself.trans heq) h.ne
    · next hne => rw [root_of_parent_eq hself, if_neg hne]
  | case2 place hself ih =>
    rw [← root_parent, ih, parent_redirect]
    split
    · next heq => rw [heq, root_of_parent_eq ha, root_of_parent_eq hb, if_pos rfl, ite_self]
    · rw [root_parent]

end Forest

namespace RootSearch

variable {size : Nat}

theorem root_step (s : RootSearch size) (place : Fin size) :
    s.step.forest.root place = s.forest.root place := by
  refine Forest.root_redirect s.ahead_le ⟨fun h => ?_, fun h => ?_⟩ ?_ place
  · -- A place that is two steps ahead of itself is also one step ahead of itself.
    exact le_antisymm (s.forest.parent_le _) (h.symm.le.trans (s.forest.parent_le _))
  · rw [ahead, h, h]
  · rw [ahead, Forest.root_parent, Forest.root_parent]

/-- A search for a root ends after some steps, of which there are no more than places before the one
    that it started from. -/
theorem exists_iterate_eq_run (s : RootSearch size) :
    ∃ turns ≤ s.place.val, step^[turns] s = s.run ∧ s.run.atRoot = true := by
  induction s using run.induct with
  | case1 s h =>
    rw [run, dif_pos h]
    exact ⟨0, Nat.zero_le _, rfl, h⟩
  | case2 s h ih =>
    obtain ⟨turns, hle, hturns, hend⟩ := ih
    rw [run, dif_neg h]
    exact ⟨turns + 1, Nat.lt_of_le_of_lt hle (step_decreases h), hturns, hend⟩

/-- A search ends at the root of the place that it started from, and leaves all roots as they
    are. -/
theorem run_spec (s : RootSearch size) : s.run.place = s.forest.root s.place ∧
    ∀ place, s.run.forest.root place = s.forest.root place := by
  induction s using run.induct with
  | case1 s h =>
    rw [run, dif_pos h, Forest.root_of_parent_eq (of_decide_eq_true h)]
    exact ⟨rfl, fun _ => rfl⟩
  | case2 s h ih =>
    rw [run, dif_neg h]
    refine ⟨?_, fun place => (ih.2 place).trans (root_step s place)⟩
    rw [ih.1, root_step]
    exact (Forest.root_parent _ _).trans (Forest.root_parent _ _)

end RootSearch

namespace Forest

variable {size : Nat} {f : Forest size}

theorem place_find (f : Forest size) (place : Fin size) : (f.find place).place = f.root place :=
  (RootSearch.run_spec _).1

theorem root_find (f : Forest size) (place other : Fin size) :
    (f.find place).forest.root other = f.root other :=
  (RootSearch.run_spec _).2 other

/-- Places have one root after a join iff they had one before, or had those of the two places that
    were joined. -/
theorem root_join_eq_iff (f : Forest size) (a b p q : Fin size) :
    (f.join a b).root p = (f.join a b).root q ↔ f.root p = f.root q ∨
      (f.root p = f.root a ∧ f.root q = f.root b) ∨
      (f.root p = f.root b ∧ f.root q = f.root a) := by
  have hroots : ∀ place, ((f.find a).forest.find b).forest.root place = f.root place :=
    fun place => (root_find _ b place).trans (root_find f a place)
  have hself : ∀ place, ((f.find a).forest.find b).forest.parent (f.root place) = f.root place := by
    intro place
    rw [← hroots]
    exact parent_root _ place
  -- Both searches leave the roots alone, so that it is roots of `f` that are compared and changed.
  unfold join
  simp only [place_find, root_find]
  split
  · next hlt =>
    rw [root_redirect_of_roots (hself a) (hself b) hlt,
      root_redirect_of_roots (hself a) (hself b) hlt]
    grind
  · split
    · next hlt =>
      rw [root_redirect_of_roots (hself b) (hself a) hlt,
        root_redirect_of_roots (hself b) (hself a) hlt]
      grind
    · next hnotless hnotgreater =>
      have hsame : f.root a = f.root b := le_antisymm (not_lt.mp hnotgreater) (not_lt.mp hnotless)
      grind

/-- Places have one root iff a relation makes them equivalent. -/
def Matches (f : Forest size) (related : Fin size → Fin size → Prop) : Prop :=
  ∀ p q, f.root p = f.root q ↔ Relation.EqvGen related p q

theorem matches_alone : (alone size).Matches fun _ _ => False := by
  refine fun p q => ⟨fun h => ?_, eq_of_eqvGen fun _ _ => False.elim⟩
  rw [root_of_parent_eq (parent_alone p), root_of_parent_eq (parent_alone q)] at h
  rw [h]
  exact .refl q

theorem Matches.join {related : Fin size → Fin size → Prop} (h : f.Matches related)
    (a b : Fin size) : (f.join a b).Matches fun p q => related p q ∨ (p, q) = (a, b) := by
  have hmono : ∀ {p q}, Relation.EqvGen related p q →
      Relation.EqvGen (fun p q => related p q ∨ (p, q) = (a, b)) p q :=
    fun hpq => Relation.EqvGen.mono (fun _ _ => .inl) _ _ hpq
  have hpair : Relation.EqvGen (fun p q => related p q ∨ (p, q) = (a, b)) a b := .rel _ _ (.inr rfl)
  intro p q
  constructor
  · intro hpq
    -- A chain through the new pair goes from one of the joined groups to the other.
    rcases (root_join_eq_iff f a b p q).mp hpq with hsame | ⟨hp, hq⟩ | ⟨hp, hq⟩
    · exact hmono ((h p q).mp hsame)
    · exact ((hmono ((h p a).mp hp)).trans _ _ _ hpair).trans _ _ _
        ((hmono ((h q b).mp hq)).symm)
    · exact ((hmono ((h p b).mp hp)).trans _ _ _ hpair.symm).trans _ _ _
        ((hmono ((h q a).mp hq)).symm)
  · refine eq_of_eqvGen fun p q hpq => (root_join_eq_iff f a b p q).mpr ?_
    rcases hpq with hpq | hpq
    · exact .inl ((h p q).mpr (.rel p q hpq))
    · obtain ⟨rfl, rfl⟩ := Prod.mk.inj hpq
      exact .inr (.inl ⟨rfl, rfl⟩)

theorem matches_joinAll (pairs : List (Fin size × Fin size)) :
    ((alone size).joinAll pairs).Matches fun p q => (p, q) ∈ pairs := by
  -- The pairs are joined in front of others, so a relation for what was joined before is kept.
  have hrun : ∀ (pairs : List (Fin size × Fin size)) (f : Forest size)
      (related : Fin size → Fin size → Prop), f.Matches related →
      (f.joinAll pairs).Matches fun p q => related p q ∨ (p, q) ∈ pairs := by
    intro pairs
    induction pairs with
    | nil =>
      intro f related h
      simp only [not_mem_nil, or_false]
      exact h
    | cons pair rest ih =>
      intro f related h
      simp only [mem_cons, ← or_assoc]
      exact ih _ _ (h.join pair.1 pair.2)
  simpa using hrun pairs _ _ matches_alone

/-- The groups after some of the places, where the roots are those of a forest. -/
structure Gathered (f : Forest size) (places : List (Fin size))
    (state : Forest size × Dict Nat (List (Fin size))) : Prop where
  /-- The roots are as they were. -/
  roots : ∀ place, state.1.root place = f.root place
  /-- A group has the places with its root. -/
  group : ∀ r members, state.2.get? r = some members ↔
    members ≠ [] ∧ members = places.filter fun place => (f.root place).val = r

theorem Gathered.collect {places : List (Fin size)}
    {state : Forest size × Dict Nat (List (Fin size))} (h : f.Gathered places state)
    (place : Fin size) : f.Gathered (places ++ [place]) (Forest.collect state place) where
  roots other := (root_find _ _ _).trans (h.roots other)
  group r members := by
    have hplace : (state.1.find place).place = f.root place :=
      (place_find _ _).trans (h.roots place)
    have hpre : (state.2.get? (f.root place).val).getD [] =
        places.filter fun other => (f.root other).val = (f.root place).val := by
      cases hget : state.2.get? (f.root place).val with
      | some found => exact ((h.group _ _).mp hget).2
      | none =>
        by_contra hne
        have hget' := (h.group _ _).mpr ⟨fun hnil => hne hnil.symm, rfl⟩
        exact Option.some_ne_none _ (hget'.symm.trans hget)
    simp only [Forest.collect, Dict.alter, Dict.get_insert, hplace, hpre, filter_append]
    by_cases hr : r = (f.root place).val
    · subst hr
      simp only [if_true, Option.some.injEq, filter_cons_of_pos, decide_true, filter_nil]
      constructor
      · rintro rfl
        exact ⟨append_ne_nil_of_right_ne_nil _ (cons_ne_nil _ _), rfl⟩
      · exact fun hmems => hmems.2.symm
    · rw [if_neg hr, h.group]
      simp [Ne.symm hr]

theorem get_gather (f : Forest size) (r : Nat) (members : List (Fin size)) :
    f.gather.get? r = some members ↔ members ≠ [] ∧
      members = (List.finRange size).filter fun place => (f.root place).val = r := by
  -- The places are collected one by one; a group has those so far.
  have hrun : ∀ (rest places : List (Fin size)) (state : Forest size × Dict Nat (List (Fin size))),
      f.Gathered places state → f.Gathered (places ++ rest) (rest.foldl Forest.collect state) := by
    intro rest
    induction rest with
    | nil => exact fun places state h => by simpa using h
    | cons place rest ih =>
      intro places state h
      simpa using ih _ _ (h.collect place)
  have hstart : f.Gathered [] (f, .empty) :=
    ⟨fun _ => rfl, fun r members => by simp [Dict.get_empty]⟩
  exact (hrun (List.finRange size) [] _ hstart).group r members

/-- The groups are the places with one root, each in order. -/
theorem mem_values_gather (f : Forest size) (members : List (Fin size)) :
    members ∈ f.gather.values ↔
      ∃ p, members = (List.finRange size).filter fun q => f.root q = f.root p := by
  rw [Dict.values, mem_map]
  constructor
  · rintro ⟨⟨r, members⟩, hmem, rfl⟩
    obtain ⟨hne, heq⟩ := (get_gather f r members).mp (Dict.mem_toList_iff.mp hmem)
    obtain ⟨p, hp⟩ := exists_mem_of_ne_nil members hne
    rw [heq, mem_filter, decide_eq_true_eq] at hp
    refine ⟨p, ?_⟩
    rw [heq, ← hp.2]
    simp only [Fin.ext_iff]
  · rintro ⟨p, rfl⟩
    refine ⟨((f.root p).val, _), Dict.mem_toList_iff.mpr ((get_gather f _ _).mpr ⟨?_, ?_⟩), rfl⟩
    · exact ne_nil_of_mem (mem_filter.mpr ⟨mem_finRange p, decide_eq_true rfl⟩)
    · simp only [Fin.ext_iff]

/-- No place is in two groups. -/
theorem pairwise_disjoint_gather (f : Forest size) : f.gather.values.Pairwise List.Disjoint := by
  rw [Dict.values, pairwise_map]
  refine f.gather.ascending.imp_of_mem fun {first second} hfst hsnd hlt p hp hp' => ?_
  rw [((get_gather f _ _).mp (Dict.mem_toList_iff.mp hfst)).2, mem_filter,
    decide_eq_true_eq] at hp
  rw [((get_gather f _ _).mp (Dict.mem_toList_iff.mp hsnd)).2, mem_filter,
    decide_eq_true_eq] at hp'
  rw [← hp.2, hp'.2] at hlt
  exact compare_self_ne_lt _ hlt

end Forest

end Ripple
