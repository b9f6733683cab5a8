import Ripple.Proofs.Dict
import Ripple.Proofs.Path
import Ripple.Tracker

/-!
# Lines Are Counted Alike

The index counts the line breaks among the bytes of a file. A preview reads the
bytes as text first, with replacements for what is not the encoding of a
character, and counts the lines of the text.

A byte below 128 is read on its own. Every other character, a replacement or
not, is read from a row of bytes that are 128 or more, whether the row is the
encoding of a character, the start of one, or neither. So no line break is read
from such a row and none is swallowed by one, and a text ends with a line break
iff its bytes do.
-/

namespace Ripple

open List

/-- Characters are read from bytes, one from each byte below 128 and one from each row of others. -/
inductive Reads : List UInt8 → List Char → Prop
  | nil : Reads [] []
  | single {a : UInt8} {bytes : List UInt8} {chars : List Char} (ha : a < 0x80)
      (h : Reads bytes chars) : Reads (a :: bytes) (Char.ofNat a.toNat :: chars)
  | row {a : UInt8} {bytes : List UInt8} {c : Char} {chars : List Char} (ha : ¬ a < 0x80)
      (more : List UInt8) (hmore : ∀ b ∈ more, 0x80 ≤ b) (hc : c ≠ '\n') (h : Reads bytes chars) :
      Reads (a :: (more ++ bytes)) (c :: chars)

theorem ofNat_eq_newline_iff {n : Nat} : Char.ofNat n = '\n' ↔ n = 10 := by
  refine ⟨fun h => ?_, fun h => h ▸ rfl⟩
  by_cases hvalid : n.isValidChar
  · have heq : Char.ofNat n = Char.ofNatAux n hvalid := dif_pos hvalid
    exact congrArg Char.toNat (heq.symm.trans h)
  · have heq : Char.ofNat n = Char.ofNat 0 := dif_neg hvalid
    exact absurd (heq.symm.trans h) (by decide)

theorem byteIn_iff {low high b : UInt8} :
    byteIn low high b = true ↔ low.toNat ≤ b.toNat ∧ b.toNat ≤ high.toNat := by
  simp only [byteIn, Bool.and_eq_true, decide_eq_true_eq, UInt8.le_iff_toNat_le]

/-- A second byte is not below 128, and adds something after a first byte that adds nothing. -/
theorem bounds_of_continues {a b : UInt8} (h : continues a b = true) :
    0x80 ≤ b ∧ (a.toNat = 0xe0 ∨ a.toNat = 0xf0 → lowBits b ≠ 0) := by
  rw [UInt8.le_iff_toNat_le, lowBits]
  simp only [continues, secondRange, ← UInt8.toNat_inj, UInt8.reduceToNat] at h
  repeat' split at h
  all_goals
    obtain ⟨hlow, hhigh⟩ := byteIn_iff.mp h
    simp only [UInt8.reduceToNat] at *
    omega

/-- Whatever the bytes are, they are read in this way. -/
theorem reads_lossyChars (bytes : List UInt8) : Reads bytes (lossyChars bytes) := by
  have hcont : ∀ {b}, isContinuation b = true → 0x80 ≤ b :=
    fun h => UInt8.le_iff_toNat_le.mpr (byteIn_iff.mp h).1
  have hsecond : ∀ {first a b}, (first && continues a b) = true → 0x80 ≤ b :=
    fun h => (bounds_of_continues (Bool.and_eq_true_iff.mp h).2).1
  have hreplaced : replacementChar ≠ '\n' := by decide
  fun_induction lossyChars bytes with
  | case1 => exact .nil
  | case2 a =>
    split
    next ha => exact .single ha .nil
    next ha => exact .row ha [] nofun hreplaced .nil
  | case3 a b rest ha ih => exact .single ha ih
  | case4 a b rest ha hfirst hb ih =>
    refine .row ha [b] (by simp [hcont hb]) ?_ ih
    have := byteIn_iff.mp hfirst
    rw [ne_eq, ofNat_eq_newline_iff]
    grind
  | case5 a b rest ha _ _ ih => exact .row ha [] nofun hreplaced ih
  | case6 a b ha _ h => exact .row ha [b] (by simp [hsecond h]) hreplaced .nil
  | case7 a b ha _ h c tail hc ih =>
    refine .row ha [b, c] (by simp [hsecond h, hcont hc]) ?_ ih
    obtain ⟨hfirst, h⟩ := Bool.and_eq_true_iff.mp h
    have := byteIn_iff.mp hfirst
    have := (bounds_of_continues h).2
    rw [ne_eq, ofNat_eq_newline_iff]
    grind
  | case8 a b ha _ h c tail _ ih => exact .row ha [b] (by simp [hsecond h]) hreplaced ih
  | case9 a b ha _ _ h => exact .row ha [b] (by simp [hsecond h]) hreplaced .nil
  | case10 a b ha _ _ h c hc =>
    exact .row ha [b, c] (by simp [hsecond h, hcont hc]) hreplaced .nil
  | case11 a b ha _ _ h c hc d tail hd ih =>
    refine .row ha [b, c, d] (by simp [hsecond h, hcont hc, hcont hd]) ?_ ih
    obtain ⟨hfirst, h⟩ := Bool.and_eq_true_iff.mp h
    have := byteIn_iff.mp hfirst
    have := (bounds_of_continues h).2
    rw [ne_eq, ofNat_eq_newline_iff]
    grind
  | case12 a b ha _ _ h c hc d tail _ ih =>
    exact .row ha [b, c] (by simp [hsecond h, hcont hc]) hreplaced ih
  | case13 a b ha _ _ h c tail _ ih => exact .row ha [b] (by simp [hsecond h]) hreplaced ih
  | case14 a b rest ha _ _ _ ih => exact .row ha [] nofun hreplaced ih

/-- Line breaks are neither swallowed nor made, and a text ends like its bytes, with a line break or
    not; if there is nothing to be read then what comes before it decides. -/
theorem Reads.breaks {bytes : List UInt8} {chars : List Char} (h : Reads bytes chars) :
    chars.count '\n' = bytes.count 10 ∧ ∀ (a : UInt8) (c : Char), (c = '\n' ↔ a = 10) →
      (chars.getLastD c = '\n' ↔ bytes.getLastD a = 10) := by
  induction h with
  | nil => exact ⟨rfl, fun _ _ => id⟩
  | @single a bytes chars ha h ih =>
    have hbreak : Char.ofNat a.toNat = '\n' ↔ a = 10 :=
      ofNat_eq_newline_iff.trans (UInt8.toNat_inj (b := 10))
    simp only [count_cons, ih.1, beq_iff_eq, hbreak, getLastD_cons, true_and]
    exact fun _ _ _ => ih.2 a _ hbreak
  | @row a bytes c chars ha more hmore hc h ih =>
    have hrow : ∀ b ∈ a :: more, b ≠ 10 := by
      rintro b hb rfl
      rcases mem_cons.mp hb with rfl | hb
      · exact ha (by decide)
      · exact absurd (hmore _ hb) (by decide)
    have hzero : (a :: more).count 10 = 0 := count_eq_zero_of_not_mem fun hmem => hrow _ hmem rfl
    rw [← cons_append, count_append, hzero, count_cons_of_ne hc, ih.1, Nat.zero_add]
    refine ⟨rfl, fun b _ _ => ?_⟩
    have hlast : (a :: (more ++ bytes)).getLastD b = bytes.getLastD (more.getLastD a) := by
      simp [getLast?_cons, getLast?_append]
    rw [cons_append, hlast, getLastD_cons]
    exact ih.2 _ c (iff_of_false hc (hrow _ getLastD_mem_cons))

/-- There is one part more than there are line breaks, and the last one is empty iff nothing comes
    after the last line break. -/
theorem splitOn_newline (chars : List Char) :
    (chars.splitOn '\n').length = chars.count '\n' + 1 ∧
      ((chars.splitOn '\n').getLast? = some [] ↔ chars.getLastD '\n' = '\n') := by
  induction chars with
  | nil => simp
  | cons c chars ih =>
    obtain ⟨part, parts, hparts⟩ := exists_cons_of_ne_nil (splitOn_ne_nil '\n' chars)
    rw [splitOn_cons_eq_if_modifyHead, count_cons, getLastD_cons]
    rw [hparts] at ih ⊢
    by_cases hc : c = '\n'
    · simpa [hc] using ih
    · simp only [beq_iff_eq, hc, if_false, modifyHead_cons]
      refine ⟨ih.1, ?_⟩
      cases parts with
      | nil =>
        have hnot : '\n' ∉ chars := count_eq_zero.mp (Nat.succ.inj ih.1).symm
        have hlast : chars.getLastD c ≠ '\n' := by
          intro heq
          rcases mem_cons.mp (heq ▸ getLastD_mem_cons) with h | h
          · exact hc h.symm
          · exact hnot h
        simpa using hlast
      | cons next parts =>
        have hne : chars ≠ [] := by rintro rfl; simp at hparts
        simpa [getLastD_eq_getLast?, getLast?_eq_some_getLast hne] using ih.2

theorem length_textLines (text : String) : (textLines text).length =
    text.toList.count '\n' + if text.toList.getLastD '\n' = '\n' then 0 else 1 := by
  obtain ⟨hlength, hlast⟩ := splitOn_newline text.toList
  rw [textLines, splitText_eq_splitOn]
  obtain ⟨parts, last, hparts⟩ := (eq_nil_or_concat' (text.toList.splitOn '\n')).resolve_left
    (splitOn_ne_nil _ _)
  rw [hparts, length_append, length_singleton, Nat.succ_inj] at hlength
  rw [hparts, getLast?_concat, Option.some.injEq] at hlast
  rw [hparts, map_append, map_singleton, reverse_concat, ← hlength, ← if_congr hlast rfl rfl]
  split
  next heq =>
    obtain ⟨hempty, hlines⟩ := cons.inj heq
    simp [← hlines, String.ofList_eq_empty_iff.mp hempty]
  next hfirst heq =>
    obtain ⟨rfl, rfl⟩ := cons.inj heq
    have hne : last ≠ [] := fun hnil => hfirst (hnil ▸ rfl)
    simp [hne]
  next heq => cases heq

theorem lineCount_eq (content : ByteArray) : lineCount content =
    content.data.toList.count 10 + if content.data.toList.getLastD 10 = 10 then 0 else 1 := by
  rw [lineCount, getLastD_eq_getLast?]
  cases hlast : content.data.toList.getLast? with
  | none => simp [getLast?_eq_none_iff.mp hlast]
  | some last => rfl

theorem Dict.map_insertAll {α : Type} (f : α → α) (entries : List (String × α))
    (d : Dict String α) : (d.insertAll entries).map (fun _ => f) =
      (d.map fun _ => f).insertAll (entries.map (Prod.map id f)) := by
  induction entries generalizing d with
  | nil => rfl
  | cons entry rest ih =>
    have hinsert : (d.insert entry.1 entry.2).map (fun _ => f) =
        (d.map fun _ => f).insert entry.1 (f entry.2) := by
      refine Dict.ext_get fun key => ?_
      simp only [Dict.get_map, Dict.get_insert, apply_ite (Option.map f), Option.map_some]
    exact (ih _).trans (congrArg (Dict.insertAll · _) hinsert)

/-- The lines of a text are as many as the lines of its bytes, whatever the bytes are, so that a
    preview has the files of an index that was just made, except for the times of their changes. -/
theorem lines_are_counted_alike :
    (∀ content, textLineCount content = lineCount content) ∧
      ∀ (ix : Indexer) (scene : Scene), Tracker.previewFiles ix scene =
        (ix.scanned scene.tree scene.now).files.map fun _ r => { r with lastModified := 0 } := by
  have hlines : ∀ content, textLineCount content = lineCount content := by
    intro content
    obtain ⟨hcount, hlast⟩ := (reads_lossyChars content.data.toList).breaks
    rw [textLineCount, lossyText, length_textLines, String.toList_ofList, lineCount_eq, hcount,
      if_congr (hlast 10 '\n' (iff_of_true rfl rfl)) rfl rfl]
  refine ⟨hlines, fun ix scene => ?_⟩
  rw [Indexer.scanned, Dict.ofList, Dict.map_insertAll, map_map, map_map]
  simp only [Tracker.previewFiles, hlines]
  rfl

end Ripple
