import Ripple.Proofs.Outline.Alignment
import Ripple.Proofs.Outline.Diff

/-!
# The Drift of Two Versions

Drift compares the keys of two versions of a file as two sequences. Each key
stands once in its sequence, in the order of kinds and then of names, which is
not the order of the written forms. The written forms do as well for the
comparison, since a key can be told from its written form: the kinds have words
that begin with different letters.

The distance is the least number of changes that lead from one sequence to the
other, and the changes that are listed are so many, and account for every key
that is not kept. A declaration that appears or vanishes has to be one of these
changes. Since both sequences have one order, the keys that both versions have
stay where they are, and nothing else has to change.

## Theorems

* `DeclarationKey.text_injective`: A key can be told from its written form.
* `Outline.drift_is_best_alignment`: A drift is a best alignment.
-/

namespace Ripple

open List

namespace DeclarationKey

theorem kind_eq_of_head {k k' : DeclarationKind}
    (h : k.text.toList.head? = k'.text.toList.head?) : k = k' := by
  cases k <;> cases k' <;> first | rfl | exact absurd h (by decide)

theorem head_text (key : DeclarationKey) : key.text.toList.head? = key.kind.text.toList.head? := by
  rw [text, String.toList_append]
  cases key.kind <;> rfl

theorem text_injective : Function.Injective text := by
  intro key other h
  have hkind : key.kind = other.kind := kind_eq_of_head (by rw [← head_text, ← head_text, h])
  have hname : key.name = other.name := by
    rw [text, hkind] at h
    exact (String.append_right_inj _).mp h
  cases other
  cases hkind
  cases hname
  rfl

end DeclarationKey

/-- A drift says how to come from one sequence of keys to another, by their written forms. -/
structure Drift.Accounts (d : Drift) (old new : List String) : Prop where
  distance : IsDistance d.distance old new
  /-- So many changes are listed. -/
  counts : d.inserted.length + d.deleted.length + d.substituted.length = d.distance
  /-- Both sequences have a part in common. The rest of the old one is what is deleted and what is
      substituted by something, and the rest of the new one is what is inserted and what is
      substituted for something, all of it in order. -/
  common : ∃ kept gone come, Interleaved kept gone old ∧ Interleaved kept come new ∧
    Interleaved (d.deleted.map (·.text)) (d.substituted.map (·.1.text)) gone ∧
    Interleaved (d.inserted.map (·.text)) (d.substituted.map (·.2.text)) come

namespace Outline

variable {old new : Outline} {weight : UInt32}

/-- The keys of a version in their order. -/
structure IsKeySequence (o : Outline) (keys : List DeclarationKey) : Prop where
  increasing : Increasing keys
  mem_iff : ∀ key, key ∈ keys ↔ ∃ d ∈ o.declarations, d.key = key

theorem mem_keys_index {o : Outline} {key : DeclarationKey} :
    key ∈ o.index.keys ↔ (o.find? key).isSome := by
  rw [Dict.mem_keys_iff, get_index]

theorem isKeySequence_index (o : Outline) : o.IsKeySequence o.index.keys where
  increasing := o.index.increasing_keys
  mem_iff key := by
    rw [mem_keys_index, Option.isSome_iff_exists, ← mem_keys_iff_find, mem_map]

theorem distance_drift (old new : Outline) (weight : UInt32) : (old.drift new weight).distance =
    leastCost old.index.keys.reverse new.index.keys.reverse := by
  have hsize (o : Outline) : o.index.size = o.index.keys.length := by
    rw [Dict.size, Dict.keys, length_map]
  rw [← costAt_costTable_last, ← hsize, ← hsize]
  rfl

theorem isDistance_keys (old new : Outline) (weight : UInt32) :
    IsDistance (old.drift new weight).distance old.index.keys new.index.keys := by
  rw [distance_drift]
  exact isDistance_leastCost _ _

/-- The distance of a drift is that of the written forms of the keys. -/
theorem isDistance_texts (old new : Outline) (weight : UInt32) :
    IsDistance (old.drift new weight).distance (old.index.keys.map (·.text))
      (new.index.keys.map (·.text)) := by
  rw [distance_drift, ← leastCost_map DeclarationKey.text_injective, map_reverse, map_reverse]
  exact isDistance_leastCost _ _

/-- The steps of a drift, the first one first. -/
def driftEdits (old new : Outline) : List (Edit DeclarationKey) :=
  (old.driftTrace new).edits.reverse

theorem leads_driftEdits (old new : Outline) :
    Leads (old.driftEdits new) old.index.keys new.index.keys := by
  have hleads := (retraces_costTable old.index.keys new.index.keys).leads.reverse
  rw [reverse_reverse, reverse_reverse] at hleads
  exact hleads

theorem countP_driftEdits (old new : Outline) (weight : UInt32) :
    (old.driftEdits new).countP Edit.isChange = (old.drift new weight).distance := by
  rw [driftEdits, countP_reverse, distance_drift]
  exact (retraces_costTable old.index.keys new.index.keys).cost

/-- The keys that both versions have stand in the same order in both. -/
theorem filter_keys_comm (old new : Outline) :
    old.index.keys.filter (· ∈ new.index.keys) = new.index.keys.filter (· ∈ old.index.keys) := by
  refine Increasing.eq_of_mem_iff (old.index.increasing_keys.filter _)
    (new.index.increasing_keys.filter _) fun key => ?_
  simp only [mem_filter, decide_eq_true_eq, and_comm]

section Counts

variable (hhash : old.hash ≠ new.hash)

include hhash

theorem length_removed_diff :
    (old.diff new).removed.length = (old.index.keys.filter (· ∉ new.index.keys)).length := by
  rw [← length_map (f := Declaration.key)]
  congr 1
  refine Increasing.eq_of_mem_iff (increasing_removed_diff hhash)
    (old.index.increasing_keys.filter _) fun key => ?_
  rw [mem_keys_removed_diff hhash, mem_filter, mem_keys_index, decide_eq_true_eq,
    mem_keys_index, Option.not_isSome_iff_eq_none, Option.isSome_iff_exists]
  exact exists_and_right

theorem length_added_diff :
    (old.diff new).added.length = (new.index.keys.filter (· ∉ old.index.keys)).length := by
  rw [← (reverses_diff hhash).removed]
  exact length_removed_diff hhash.symm

/-- Every declaration that appears and every one that vanishes is a change. -/
theorem max_le_distance (weight : UInt32) :
    max (old.diff new).added.length (old.diff new).removed.length ≤
      (old.drift new weight).distance := by
  rw [length_added_diff hhash, length_removed_diff hhash]
  exact (isDistance_keys old new weight).max_le

/-- Nothing changes but the declarations that appear and those that vanish. -/
theorem distance_le_add (weight : UInt32) : (old.drift new weight).distance ≤
    (old.diff new).added.length + (old.diff new).removed.length := by
  rw [length_added_diff hhash, length_removed_diff hhash]
  exact (isDistance_keys old new weight).le_add (filter_keys_comm old new)

end Counts

/-- Let two versions of a file be given by the written forms of their keys. The steps of a drift are
    read off to the end, so that no key is left in either version. Its distance is the least number
    of keys that have to be inserted, deleted or substituted, and the keys that it lists are so
    many, and are all keys but those of a sequence that both versions have in common. -/
theorem drift_is_best_alignment (old new : Outline) (weight : UInt32) :
    ∃ oldKeys newKeys, old.IsKeySequence oldKeys ∧ new.IsKeySequence newKeys ∧
      (old.driftTrace new).stop = (0, 0) ∧
      (old.drift new weight).Accounts (oldKeys.map (·.text)) (newKeys.map (·.text)) := by
  refine ⟨_, _, isKeySequence_index old, isKeySequence_index new,
    (retraces_costTable old.index.keys new.index.keys).stop, isDistance_texts old new weight,
    ?_, ?_⟩
  · exact (countP_isChange (old.driftEdits new)).symm.trans (countP_driftEdits old new weight)
  · have hleads := leads_driftEdits old new
    have hgone := (interleaved_gone (old.driftEdits new)).map DeclarationKey.text
    have hcome := (interleaved_come (old.driftEdits new)).map DeclarationKey.text
    rw [map_map] at hgone hcome
    exact ⟨_, _, _, hleads.interleaved_old.map _, hleads.interleaved_new.map _, hgone, hcome⟩

end Outline

end Ripple
