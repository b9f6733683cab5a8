import Ripple.Json.Parser
import Ripple.Json.Printer

/-!
# Reading What Was Written

A stored value comes back as it was. The statement is about the text over
several lines, which is what stores hold.

The reader knows where a value ends only by what follows it: a run of digits
goes on as long as there are digits. So what is proved of a written value is
always proved in front of some further text, and the further text has to
begin with something that ends a value. In a written value nothing else ever
follows one.

Numbers that are no integers are left out. They are written by the fewest
digits that tell them apart, which is another matter; nothing that is stored
for the history of a project holds one.

## Theorems

* `Json.number_toString`: A written integer is read back.
* `Json.parse_pretty`: The value of a written value is the value.
-/

namespace Ripple

open List

namespace Json

/-- A text that ends the value in front of it. -/
def Ends (rest : List Char) : Prop :=
  rest = [] ∨ ∃ c tail, rest = c :: tail ∧ (c = ',' ∨ c = '\n' ∨ c = ']' ∨ c = '\x7d')

/-- The values that a store holds, nested up to a depth. -/
inductive Stored : Nat → Json → Prop
  | null {depth : Nat} : Stored depth null
  | bool {depth : Nat} (b : Bool) : Stored depth (bool b)
  | int {depth : Nat} {n : Int} (hlow : Int64.minValue.toInt ≤ n) (hhigh : n < UInt64.size) :
      Stored depth (int n)
  | text {depth : Nat} (s : String) : Stored depth (text s)
  | list {depth : Nat} {items : List Json} (h : ∀ j ∈ items, Stored depth j) :
      Stored (depth + 1) (list items)
  | object {depth : Nat} {fields : List (String × Json)} (h : ∀ f ∈ fields, Stored depth f.2) :
      Stored (depth + 1) (object fields)

section Blanks

/-- Whether a character is passed over between values. -/
def isBlank (c : Char) : Bool := c = ' ' || c = '\n' || c = '\t' || c = '\r'

theorem skipSpace_blank {c : Char} (h : isBlank c) (cs : List Char) :
    skipSpace (c :: cs) = skipSpace cs :=
  dropWhile_cons_of_pos h

theorem skipSpace_of_not_blank {c : Char} (h : ¬ isBlank c) (cs : List Char) :
    skipSpace (c :: cs) = c :: cs :=
  dropWhile_cons_of_neg h

/-- A text that begins with something that is not passed over. -/
def Inked (cs : List Char) : Prop := ∃ c rest, cs = c :: rest ∧ ¬ isBlank c

theorem Inked.skipSpace_append {line : List Char} (h : Inked line) (rest : List Char) :
    skipSpace (line ++ rest) = line ++ rest := by
  obtain ⟨c, cs, rfl, hc⟩ := h
  rw [cons_append, skipSpace_of_not_blank hc]

theorem skipSpace_indent (level : Nat) (cs : List Char) :
    skipSpace ((indent level).toList ++ cs) = skipSpace cs := by
  unfold indent
  rw [String.toList_ofList]
  induction 2 * level with
  | zero => rfl
  | succ n ih =>
    exact ih

end Blanks

section Texts

theorem hexValue_hexDigit {n : Nat} (h : n < 16) : hexValue? (hexDigit n) = some n := by
  revert n
  decide

theorem unicodeEscape_control {c : Char} (h : c.toNat < 0x20) (rest : List Char) :
    unicodeEscape? ('0' :: '0' :: hexDigit (c.toNat / 16) :: hexDigit (c.toNat % 16) :: rest) =
      some (c, rest) := by
  have hzero : hexValue? '0' = some 0 := by decide
  have hhigh : hexValue? (hexDigit (c.toNat / 16)) = some (c.toNat / 16) :=
    hexValue_hexDigit (by omega)
  have hlow : hexValue? (hexDigit (c.toNat % 16)) = some (c.toNat % 16) :=
    hexValue_hexDigit (by omega)
  have hsum : ((0 * 16 + 0) * 16 + c.toNat / 16) * 16 + c.toNat % 16 = c.toNat := by omega
  have hfour : hexFour? ('0' :: '0' :: hexDigit (c.toNat / 16) :: hexDigit (c.toNat % 16) :: rest) =
      some (c.toNat, rest) := by
    simp only [hexFour?, hzero, hhigh, hlow, hsum]
  unfold unicodeEscape?
  rw [hfour]
  simp only [Bool.and_eq_true, decide_eq_true_eq]
  rw [if_neg (by omega), if_neg (by omega), Char.ofNat_toNat]

theorem textBody_escapeChar (fuel : Nat) (found : List Char) (c : Char) (rest : List Char) :
    textBody? (fuel + 1) found (escapeChar c ++ rest) = textBody? fuel (c :: found) rest := by
  unfold escapeChar
  split
  case h_8 hquote hslash _ _ _ _ _ =>
    by_cases hcontrol : c.toNat < 0x20
    · rw [if_pos hcontrol]
      simp only [cons_append, nil_append, textBody?, escape?, unicodeEscape_control hcontrol]
    · rw [if_neg hcontrol, singleton_append, textBody?]
      · rw [if_neg hcontrol]
      · exact hquote
      · exact hslash
  all_goals rfl

/-- The characters of a text are read back. -/
theorem textBody_escape (cs rest : List Char) {fuel : Nat} (hfuel : cs.length < fuel)
    (found : List Char) :
    textBody? fuel found (cs.flatMap escapeChar ++ '\x22' :: rest) =
      some (String.ofList (found.reverse ++ cs), rest) := by
  induction cs generalizing fuel found with
  | nil =>
    obtain ⟨more, rfl⟩ := Nat.exists_eq_add_of_lt hfuel
    simp only [flatMap_nil, nil_append, length_nil, Nat.zero_add, textBody?, append_nil]
  | cons c cs ih =>
    obtain ⟨more, rfl⟩ := Nat.exists_eq_add_of_lt hfuel
    rw [flatMap_cons, append_assoc, length_cons, textBody_escapeChar,
      ih (by omega), reverse_cons, append_assoc, singleton_append]

theorem length_le_length_flatMap_escapeChar (cs : List Char) :
    cs.length ≤ (cs.flatMap escapeChar).length := by
  induction cs with
  | nil => exact Nat.le_refl 0
  | cons c cs ih =>
    have hpos : 0 < (escapeChar c).length := by
      unfold escapeChar
      split
      case h_8 =>
        by_cases hcontrol : c.toNat < 0x20
        · rw [if_pos hcontrol]
          exact Nat.zero_lt_succ _
        · rw [if_neg hcontrol]
          exact Nat.zero_lt_one
      all_goals exact Nat.zero_lt_succ _
    rw [flatMap_cons, length_append, length_cons]
    omega

theorem toList_quote (s : String) :
    (quote s).toList = '\x22' :: (s.toList.flatMap escapeChar ++ ['\x22']) := by
  rw [quote, String.toList_ofList, cons_append]

theorem inked_quote_append (s : String) (rest : List Char) : Inked ((quote s).toList ++ rest) := by
  rw [toList_quote]
  exact ⟨'\x22', _, rfl, by decide⟩

end Texts

section Numbers

variable {rest : List Char}

/-- What ends a value begins with nothing that goes on with a number. -/
theorem Ends.not_number (h : Ends rest) :
    rest.takeWhile Char.isDigit = [] ∧ rest.dropWhile Char.isDigit = rest ∧
      fractionPart? rest = some (none, rest) ∧ exponentPart? rest = some (none, rest) := by
  rcases h with rfl | ⟨c, tail, rfl, rfl | rfl | rfl | rfl⟩
  all_goals exact ⟨rfl, rfl, rfl, rfl⟩

theorem digitRun_append {digits : List Char} (hdig : ∀ c ∈ digits, c.isDigit) (h : Ends rest) :
    digitRun (digits ++ rest) = (digits, rest) := by
  unfold digitRun
  rw [takeWhile_append_of_pos hdig, dropWhile_append_of_pos hdig,
    h.not_number.1, h.not_number.2.1, append_nil]

theorem head_toDigits {n : Nat} (h : 0 < n) : ∃ c cs, Nat.toDigits 10 n = c :: cs ∧ c ≠ '0' := by
  induction n using Nat.strongRecOn with
  | ind n ih =>
    rw [Nat.toDigits_eq_if (by decide)]
    by_cases hsmall : n < 10
    · rw [if_pos hsmall]
      have hne : ∀ k : Fin 10, 0 < k.val → Nat.digitChar k ≠ '0' := by decide
      exact ⟨_, [], rfl, hne ⟨n, hsmall⟩ h⟩
    · rw [if_neg hsmall]
      obtain ⟨c, cs, heq, hc⟩ := ih (n / 10) (by omega) (by omega)
      exact ⟨c, cs ++ [Nat.digitChar (n % 10)], by rw [heq, cons_append], hc⟩

theorem wholePart_toDigits (n : Nat) (h : Ends rest) :
    wholePart? (Nat.toDigits 10 n ++ rest) = some (Nat.toDigits 10 n, rest) := by
  have hdig : ∀ c ∈ Nat.toDigits 10 n, c.isDigit := fun c hc =>
    Nat.isDigit_of_mem_toDigits (by decide) (by decide) hc
  unfold wholePart?
  rw [digitRun_append hdig h]
  rcases Nat.eq_zero_or_pos n with rfl | hpos
  · rfl
  · obtain ⟨c, cs, heq, hc⟩ := head_toDigits hpos
    rw [heq]
    split
    case h_1 hnil =>
      exact absurd hnil (by simp)
    case h_2 hzero => exact absurd (List.cons.inj (Prod.mk.inj hzero).1).1 hc
    case h_3 hzero => exact absurd (List.cons.inj (Prod.mk.inj hzero).1).1 hc
    case h_4 hpair => rw [← (Prod.mk.inj hpair).1, ← (Prod.mk.inj hpair).2]

theorem decimalValue_toDigits (n : Nat) : decimalValue (Nat.toDigits 10 n) = n := by
  have heq : decimalValue (Nat.toDigits 10 n) = Nat.ofDigitChars 10 (Nat.toDigits 10 n) 0 := by
    unfold decimalValue
    congr 1
    funext sofar c
    rw [Nat.mul_comm]
  rw [heq, Nat.ofDigitChars_ten_toDigits]

theorem toDigits_eq_cons (n : Nat) : ∃ c cs, Nat.toDigits 10 n = c :: cs ∧ c.isDigit := by
  obtain ⟨c, cs, heq⟩ := exists_cons_of_ne_nil (Nat.toDigits_ne_nil (n := n) (b := 10))
  refine ⟨c, cs, heq, Nat.isDigit_of_mem_toDigits (by decide) (by decide) (n := n) (b := 10) ?_⟩
  rw [heq]
  exact mem_cons_self

theorem toDigits_append_ne_minus (n : Nat) (rest tail : List Char) :
    Nat.toDigits 10 n ++ rest ≠ '-' :: tail := by
  obtain ⟨c, cs, heq, hdigit⟩ := toDigits_eq_cons n
  rw [heq]
  rintro ⟨rfl, -⟩
  exact absurd hdigit (by decide)

theorem number_toString {n : Int} (hlow : Int64.minValue.toInt ≤ n) (hhigh : n < UInt64.size)
    (h : Ends rest) :
    number? ((toString n).toList ++ rest) = some (int n, rest) := by
  have hends := h.not_number
  cases n with
  | ofNat m =>
    have htext : (toString (Int.ofNat m)).toList = Nat.toDigits 10 m := Nat.toList_repr
    have hsmall : m < UInt64.size := Int.ofNat_lt.mp hhigh
    unfold number?
    rw [htext]
    split
    rename_i negative cs hsign
    split at hsign
    case h_1 tail heq => exact absurd heq (toDigits_append_ne_minus m rest tail)
    case h_2 =>
      rw [← (Prod.mk.inj hsign).1, ← (Prod.mk.inj hsign).2]
      simp only [wholePart_toDigits m h, hends.2.2.1, hends.2.2.2, numberOf?,
        decimalValue_toDigits, Bool.false_eq_true, if_false, if_pos hsmall, Option.map_some,
        Int.ofNat_eq_natCast]
  | negSucc m =>
    have htext : (toString (Int.negSucc m)).toList = '-' :: Nat.toDigits 10 (m + 1) := by
      have heq : toString (Int.negSucc m) = "-" ++ Nat.repr (m + 1) := rfl
      rw [heq, String.toList_append, Nat.toList_repr]
      rfl
    have hsmall : Int64.minValue.toInt ≤ -((m + 1 : Nat) : Int) := hlow
    unfold number?
    rw [htext, cons_append]
    simp only [wholePart_toDigits (m + 1) h, hends.2.2.1, hends.2.2.2, numberOf?,
      decimalValue_toDigits, if_true, Nat.succ_ne_zero, if_false, if_pos hsmall,
      Option.map_some]
    rfl

end Numbers

section Lines

/-- What follows the first of some lines between brackets. -/
def moreLines (level : Nat) (closing : Char) (rest : List Char) : List (List Char) → List Char
  | [] => '\n' :: ((indent level).toList ++ closing :: rest)
  | line :: lines =>
    ',' :: '\n' :: ((indent (level + 1)).toList ++ (line ++ moreLines level closing rest lines))

variable (level : Nat)

theorem ends_moreLines (closing : Char) (rest : List Char)
    (lines : List (List Char)) : Ends (moreLines level closing rest lines) := by
  cases lines with
  | nil => exact Or.inr ⟨_, _, rfl, Or.inr (Or.inl rfl)⟩
  | cons line lines => exact Or.inr ⟨_, _, rfl, Or.inl rfl⟩

/-- Lines that are joined by commas, in front of the closing bracket. -/
theorem toList_intercalate_lines (closing : Char) (rest : List Char) (line : String)
    (lines : List String) :
    (String.intercalate ",\n" ((line :: lines).map (indent (level + 1) ++ ·))).toList ++
        ('\n' :: ((indent level).toList ++ closing :: rest)) =
      (indent (level + 1)).toList ++
        (line.toList ++ moreLines level closing rest (lines.map String.toList)) := by
  induction lines generalizing line with
  | nil =>
    simp only [map_cons, map_nil, String.intercalate_singleton, String.toList_append,
      append_assoc, moreLines]
  | cons second lines ih =>
    have hsnd := ih second
    have hne : (indent (level + 1) ++ second) :: lines.map (indent (level + 1) ++ ·) ≠ [] :=
      cons_ne_nil _ _
    simp only [map_cons] at hsnd ⊢
    rw [String.intercalate_cons_of_ne_nil hne, String.toList_append, String.toList_append,
      String.toList_append, append_assoc, append_assoc, append_assoc, hsnd]
    rfl

variable (opening closing : Char)

/-- What is written between brackets, in front of a text. -/
theorem toList_bracket_cons (line : String) (lines : List String) (rest : List Char) :
    (bracket (.singleton opening) (.singleton closing) level (line :: lines)).toList ++ rest =
      opening :: '\n' :: ((indent (level + 1)).toList ++
        (line.toList ++ moreLines level closing rest (lines.map String.toList))) := by
  have hbreak : "\n".toList = ['\n'] := rfl
  rw [← toList_intercalate_lines]
  simp only [bracket, String.toList_append, String.toList_singleton, hbreak, append_assoc,
    cons_append, nil_append]

theorem toList_bracket_nil (rest : List Char) :
    (bracket (.singleton opening) (.singleton closing) level []).toList ++ rest =
      opening :: closing :: rest := by
  simp only [bracket, String.toList_append, String.toList_singleton, cons_append, nil_append]

/-- Whatever stands between brackets, the opening one comes first. -/
theorem head_bracket (lines : List String) :
    ∃ cs, (bracket (.singleton opening) (.singleton closing) level lines).toList =
      opening :: cs := by
  cases lines with
  | nil =>
    have hnil := toList_bracket_nil level opening closing []
    rw [append_nil] at hnil
    exact ⟨_, hnil⟩
  | cons line lines =>
    have hcons := toList_bracket_cons level opening closing line lines []
    rw [append_nil] at hcons
    exact ⟨_, hcons⟩

variable {closing} in
/-- After the last line there is only space in front of the closing bracket. -/
theorem skipSpace_closing (h : ¬ isBlank closing) (rest : List Char) :
    skipSpace (moreLines level closing rest []) = closing :: rest := by
  rw [moreLines, skipSpace_blank (by decide), skipSpace_indent, skipSpace_of_not_blank h]

/-- The lines are not longer than what follows the first of them. -/
theorem length_lt_length_moreLines (rest : List Char) (lines : List (List Char)) :
    lines.length < (moreLines level closing rest lines).length ∧
      ∀ line ∈ lines, line.length < (moreLines level closing rest lines).length := by
  induction lines with
  | nil => exact ⟨Nat.zero_lt_succ _, forall_mem_nil _⟩
  | cons first lines ih =>
    simp only [moreLines, length_cons, length_append]
    refine ⟨by omega, forall_mem_cons.mpr ⟨by omega, fun line hline => ?_⟩⟩
    have hlt := ih.2 line hline
    omega

/-- The lines between brackets are not longer than what is written. -/
theorem length_lt_length_bracket (line : String) (lines : List String) {text : String}
    (htext : bracket (.singleton opening) (.singleton closing) level (line :: lines) = text) :
    lines.length < text.toList.length ∧
      ∀ other ∈ line :: lines, other.toList.length < text.toList.length := by
  have hwhole := toList_bracket_cons level opening closing line lines []
  have hmore := length_lt_length_moreLines level closing [] (lines.map String.toList)
  rw [append_nil] at hwhole
  rw [← htext, hwhole, length_cons, length_cons, length_append, length_append]
  rw [length_map] at hmore
  refine ⟨by omega, forall_mem_cons.mpr ⟨by omega, fun other hother => ?_⟩⟩
  have hlt := hmore.2 _ (mem_map_of_mem hother)
  omega

/-- Passing over the beginning of a line leads to its first character. -/
theorem skipSpace_line {line : List Char} (h : Inked line) (rest : List Char) :
    skipSpace ('\n' :: ((indent level).toList ++ (line ++ rest))) = line ++ rest := by
  rw [skipSpace_blank (by decide), skipSpace_indent, h.skipSpace_append]

section Loops

variable {α : Type} {loop : Nat → List α → Step (List α)} {write : α → String}

/-- A loop between brackets reads one written item; it goes on after a comma and ends at the
    closing bracket. -/
def ReadsLine (loop : Nat → List α → Step (List α)) (closing : Char) (write : α → String)
    (a : α) : Prop :=
  ∀ fuel found cs tail, Ends tail → skipSpace cs = (write a).toList ++ tail →
    (∀ rest, skipSpace tail = ',' :: rest →
      loop (fuel + 1) found cs = loop fuel (a :: found) rest) ∧
    ∀ rest, skipSpace tail = closing :: rest →
      loop (fuel + 1) found cs = some ((a :: found).reverse, rest)

/-- Written items are read back, if each of them is. -/
theorem loop_moreLines (hclosing : ¬ isBlank closing) (rest : List Char) (a : α)
    (others : List α) (hread : ∀ b ∈ a :: others, ReadsLine loop closing write b)
    (hinked : ∀ b ∈ a :: others, Inked (write b).toList) {fuel : Nat} (hfuel : others.length < fuel)
    (found : List α) {cs : List Char}
    (hcs : skipSpace cs =
      (write a).toList ++ moreLines level closing rest ((others.map write).map String.toList)) :
    loop fuel found cs = some (found.reverse ++ a :: others, rest) := by
  -- On what follows the first item; the fuel is counted down with it.
  induction others generalizing a fuel found cs with
  | nil =>
    obtain ⟨more, rfl⟩ := Nat.exists_eq_add_of_lt hfuel
    have hlast := hread a mem_cons_self (0 + more) found cs _
      (ends_moreLines level closing rest []) hcs
    rw [length_nil, hlast.2 rest (skipSpace_closing level hclosing rest), reverse_cons]
  | cons second others ih =>
    obtain ⟨more, rfl⟩ := Nat.exists_eq_add_of_lt hfuel
    have hfst := hread a mem_cons_self ((second :: others).length + more) found cs _
      (ends_moreLines level closing rest _) hcs
    rw [hfst.1 _ (by
      rw [map_cons, map_cons, moreLines, skipSpace_of_not_blank (by decide)])]
    have hmem : ∀ b ∈ second :: others, b ∈ a :: second :: others :=
      fun b hb => mem_cons_of_mem _ hb
    have hskip := skipSpace_line (level + 1) (hinked second (hmem second mem_cons_self))
      (moreLines level closing rest ((others.map write).map String.toList))
    rw [ih second (fun b hb => hread b (hmem b hb)) (fun b hb => hinked b (hmem b hb))
      (by rw [length_cons]; omega) (a :: found) hskip, reverse_cons, append_assoc,
      singleton_append]

/-- What is written between brackets is read back from the first line on. -/
theorem loop_bracket (hclosing : ¬ isBlank closing) (a : α) (others : List α)
    (hread : ∀ b ∈ a :: others, ReadsLine loop closing write b)
    (hinked : ∀ b ∈ a :: others, Inked (write b).toList) {budget : Nat} {text : String}
    (htext : bracket (.singleton opening) (.singleton closing) level ((a :: others).map write) =
      text) (hbudget : text.toList.length < budget) (rest : List Char) :
    ∃ cs tail, text.toList ++ rest = opening :: cs ∧ skipSpace cs = (write a).toList ++ tail ∧
      loop budget [] ((write a).toList ++ tail) = some (a :: others, rest) := by
  have hlong := Nat.lt_trans (length_lt_length_bracket level opening closing _ _ htext).1 hbudget
  rw [length_map] at hlong
  have hfst := hinked a mem_cons_self
  rw [← htext]
  refine ⟨_, _, toList_bracket_cons level opening closing _ _ rest,
    skipSpace_line (level + 1) hfst _, ?_⟩
  exact loop_moreLines level closing hclosing rest a others hread hinked hlong []
    (hfst.skipSpace_append _)

end Loops

end Lines

section Values

variable (level : Nat)

theorem prettyItems_eq_map (items : List Json) :
    prettyItems level items = items.map (prettyAt level) := by
  induction items with
  | nil => rfl
  | cons j rest ih => rw [prettyItems, ih, map_cons]

/-- The line of a field. -/
def fieldLine (f : String × Json) : String :=
  quote f.1 ++ ": " ++ prettyAt level f.2

theorem prettyFields_eq_map (fields : List (String × Json)) :
    prettyFields level fields = fields.map (fieldLine level) := by
  induction fields with
  | nil => rfl
  | cons f rest ih => rw [prettyFields, ih, map_cons, fieldLine]

theorem toList_fieldLine (f : String × Json) : (fieldLine level f).toList =
    (quote f.1).toList ++ (':' :: ' ' :: (prettyAt level f.2).toList) := by
  rw [fieldLine, String.toList_append, String.toList_append, append_assoc]
  rfl

theorem prettyAt_null : prettyAt level null = "null" := by
  simp only [prettyAt, writeAtom]

theorem prettyAt_bool (b : Bool) : prettyAt level (bool b) = if b then "true" else "false" := by
  cases b <;> simp only [prettyAt, writeAtom, Bool.false_eq_true, if_true, if_false]

theorem prettyAt_int (n : Int) : prettyAt level (int n) = toString n := by
  simp only [prettyAt, writeAtom]

theorem prettyAt_text (s : String) : prettyAt level (text s) = quote s := by
  simp only [prettyAt, writeAtom]

theorem prettyAt_list (items : List Json) : prettyAt level (list items) =
    bracket (.singleton '[') (.singleton ']') level (items.map (prettyAt (level + 1))) := by
  rw [prettyAt, prettyItems_eq_map]
  rfl

theorem prettyAt_object (fields : List (String × Json)) : prettyAt level (object fields) =
    bracket (.singleton '\x7b') (.singleton '\x7d') level (fields.map (fieldLine (level + 1))) := by
  rw [prettyAt, prettyFields_eq_map]
  rfl

theorem head_toString (n : Int) :
    ∃ c cs, (toString n).toList = c :: cs ∧ (c.isDigit ∨ c = '-') := by
  cases n with
  | ofNat m =>
    have htext : (toString (Int.ofNat m)).toList = Nat.toDigits 10 m := Nat.toList_repr
    obtain ⟨c, cs, heq, hdigit⟩ := toDigits_eq_cons m
    exact ⟨c, cs, htext.trans heq, Or.inl hdigit⟩
  | negSucc m =>
    have heq : toString (Int.negSucc m) = "-" ++ Nat.repr (m + 1) := rfl
    refine ⟨'-', (Nat.repr (m + 1)).toList, ?_, Or.inr rfl⟩
    rw [heq, String.toList_append]
    rfl

theorem value_of_number_head {c : Char} (hc : c.isDigit ∨ c = '-') (budget depth : Nat)
    (cs : List Char) : value? budget depth (c :: cs) = number? (c :: cs) := by
  have hne : c ≠ 'n' ∧ c ≠ 't' ∧ c ≠ 'f' ∧ c ≠ '\x22' ∧ c ≠ '[' ∧ c ≠ '\x7b' := by
    refine ⟨?_, ?_, ?_, ?_, ?_, ?_⟩
    all_goals
      rintro rfl
      exact absurd hc (by decide)
  unfold value?
  split
  case h_1 heq => exact absurd (List.cons.inj heq).1 hne.1
  case h_2 heq => exact absurd (List.cons.inj heq).1 hne.2.1
  case h_3 heq => exact absurd (List.cons.inj heq).1 hne.2.2.1
  case h_4 heq => exact absurd (List.cons.inj heq).1 hne.2.2.2.1
  case h_5 heq => exact absurd (List.cons.inj heq).1 hne.2.2.2.2.1
  case h_6 heq => exact absurd (List.cons.inj heq).1 hne.2.2.2.2.2
  case h_7 => rfl

variable {depth budget : Nat} {j : Json}

/-- A written value begins with something that is passed over by nobody. -/
theorem head_prettyAt (h : Stored depth j) (level : Nat) :
    ∃ c cs, (prettyAt level j).toList = c :: cs ∧ ¬ isBlank c ∧ c ≠ ']' := by
  cases h with
  | null => exact ⟨'n', ['u', 'l', 'l'], by rw [prettyAt_null]; rfl, by decide⟩
  | bool b =>
    rw [prettyAt_bool]
    cases b with
    | false => exact ⟨'f', ['a', 'l', 's', 'e'], rfl, by decide⟩
    | true => exact ⟨'t', ['r', 'u', 'e'], rfl, by decide⟩
  | @int _ n _ _ =>
    obtain ⟨c, cs, heq, hc⟩ := head_toString n
    refine ⟨c, cs, by rw [prettyAt_int, heq], ?_, ?_⟩
    · intro hblank
      simp only [isBlank, Bool.or_eq_true, decide_eq_true_eq] at hblank
      rcases hblank with ((rfl | rfl) | rfl) | rfl
      all_goals exact absurd hc (by decide)
    · rintro rfl
      exact absurd hc (by decide)
  | text s => exact ⟨'\x22', _, by rw [prettyAt_text, toList_quote], by decide⟩
  | @list _ items _ =>
    obtain ⟨cs, heq⟩ := head_bracket level '[' ']' (items.map (prettyAt (level + 1)))
    exact ⟨'[', cs, by rw [prettyAt_list, heq], by decide⟩
  | @object _ fields _ =>
    obtain ⟨cs, heq⟩ := head_bracket level '\x7b' '\x7d' (fields.map (fieldLine (level + 1)))
    exact ⟨'\x7b', cs, by rw [prettyAt_object, heq], by decide⟩

theorem inked_prettyAt (h : Stored depth j) (level : Nat) : Inked (prettyAt level j).toList := by
  obtain ⟨c, cs, heq, hc, -⟩ := head_prettyAt h level
  exact ⟨c, cs, heq, hc⟩

theorem readsLine_items {item : Step Json} {write : Json → String}
    (hitem : ∀ tail, Ends tail → item ((write j).toList ++ tail) = some (j, tail)) :
    ReadsLine (items? item) ']' write j := by
  intro fuel found cs tail htail hcs
  refine ⟨fun rest hrest => ?_, fun rest hrest => ?_⟩
  · simp only [items?, hcs, hitem tail htail, hrest]
  · simp only [items?, hcs, hitem tail htail, hrest]

/-- A written field begins with a mark, and its name is read back. -/
theorem textBody_quote (name : String) (tail : List Char)
    (hbudget : (quote name).toList.length < budget) :
    ∃ rest, (quote name).toList ++ tail = '\x22' :: rest ∧
      textBody? budget [] rest = some (name, tail) := by
  rw [toList_quote] at hbudget ⊢
  refine ⟨name.toList.flatMap escapeChar ++ '\x22' :: tail, ?_, ?_⟩
  · rw [cons_append, append_assoc, singleton_append]
  · have hlen := length_le_length_flatMap_escapeChar name.toList
    rw [length_cons, length_append] at hbudget
    rw [textBody_escape name.toList tail (by omega) [], reverse_nil, nil_append,
      String.ofList_toList]

/-- One written field is read back, if its value is. -/
theorem readsLine_fields {item : Step Json} {level : Nat} {f : String × Json}
    (hitem : ∀ tail, Ends tail → item ((prettyAt level f.2).toList ++ tail) = some (f.2, tail))
    (hinked : Inked (prettyAt level f.2).toList) (hname : (quote f.1).toList.length < budget) :
    ReadsLine (fields? budget item) '\x7d' (fieldLine level) f := by
  intro fuel found cs tail htail hcs
  rw [toList_fieldLine, append_assoc, cons_append, cons_append] at hcs
  obtain ⟨body, hbody, hread⟩ := textBody_quote f.1 _ hname
  have hcolon := skipSpace_of_not_blank (c := ':') (by decide)
    (' ' :: ((prettyAt level f.2).toList ++ tail))
  have hblank : skipSpace (' ' :: ((prettyAt level f.2).toList ++ tail)) =
      (prettyAt level f.2).toList ++ tail := by
    rw [skipSpace_blank (by decide), hinked.skipSpace_append]
  refine ⟨fun rest hrest => ?_, fun rest hrest => ?_⟩
  · rw [fields?, hcs, hbody]
    simp only [hread, hcolon, hblank, hitem tail htail, hrest]
  · rw [fields?, hcs, hbody]
    simp only [hread, hcolon, hblank, hitem tail htail, hrest]

theorem value_list_nil (budget depth : Nat) (rest : List Char) :
    value? budget (depth + 1) ('[' :: ']' :: rest) = some (list [], rest) := by
  rfl

theorem value_object_nil (budget depth : Nat) (rest : List Char) :
    value? budget (depth + 1) ('\x7b' :: '\x7d' :: rest) = some (object [], rest) := by
  rfl

/-- A list with items is read as its items. -/
theorem value_list {budget depth : Nat} {cs body : List Char} (hskip : skipSpace cs = body)
    (hne : ∀ tail, body ≠ ']' :: tail) {items : List Json} {rest : List Char}
    (hitems : items? (value? budget depth) budget [] body = some (items, rest)) :
    value? budget (depth + 1) ('[' :: cs) = some (list items, rest) := by
  unfold value?
  simp only [hskip]
  rw [hitems, Option.map_some]

/-- An object with fields is read as its fields. -/
theorem value_object {cs body : List Char} (hskip : skipSpace cs = body)
    (hne : ∀ tail, body ≠ '\x7d' :: tail) {fields : List (String × Json)} {rest : List Char}
    (hfields : fields? budget (value? budget depth) budget [] body = some (fields, rest)) :
    value? budget (depth + 1) ('\x7b' :: cs) = some (object fields, rest) := by
  unfold value?
  simp only [hskip]
  rw [hfields, Option.map_some]

/-- A written list is read back, if its items are. -/
theorem value_pretty_list {items : List Json} (hstored : ∀ j ∈ items, Stored depth j)
    (hread : ∀ j ∈ items, (prettyAt (level + 1) j).toList.length < budget → ∀ rest, Ends rest →
      value? budget depth ((prettyAt (level + 1) j).toList ++ rest) = some (j, rest))
    (hbudget : (prettyAt level (list items)).toList.length < budget) (rest : List Char) :
    value? budget (depth + 1) ((prettyAt level (list items)).toList ++ rest) =
      some (list items, rest) := by
  have htext := prettyAt_list level items
  cases items with
  | nil => rw [htext, map_nil, toList_bracket_nil, value_list_nil]
  | cons j items =>
    have hlong := length_lt_length_bracket level _ _ _ _ htext.symm
    have hfits : ∀ k ∈ j :: items, (prettyAt (level + 1) k).toList.length < budget :=
      fun k hk => Nat.lt_trans (hlong.2 _ (mem_map_of_mem hk)) hbudget
    obtain ⟨cs, tail, hwhole, hskip, hloop⟩ := loop_bracket level _ _ (by decide) j items
      (fun k hk => readsLine_items (hread k hk (hfits k hk)))
      (fun k hk => inked_prettyAt (hstored k hk) (level + 1)) htext.symm hbudget rest
    rw [hwhole]
    refine value_list hskip (fun left hc => ?_) hloop
    -- The first item is not taken for the end of an empty list.
    obtain ⟨c, cs, hfst, -, hclosing⟩ := head_prettyAt (hstored j mem_cons_self) (level + 1)
    rw [hfst, cons_append, List.cons.injEq] at hc
    exact hclosing hc.1

/-- A written object is read back, if the values of its fields are. -/
theorem value_pretty_object {fields : List (String × Json)}
    (hstored : ∀ f ∈ fields, Stored depth f.2)
    (hread : ∀ f ∈ fields, (prettyAt (level + 1) f.2).toList.length < budget → ∀ rest, Ends rest →
      value? budget depth ((prettyAt (level + 1) f.2).toList ++ rest) = some (f.2, rest))
    (hbudget : (prettyAt level (object fields)).toList.length < budget) (rest : List Char) :
    value? budget (depth + 1) ((prettyAt level (object fields)).toList ++ rest) =
      some (object fields, rest) := by
  have htext := prettyAt_object level fields
  cases fields with
  | nil => rw [htext, map_nil, toList_bracket_nil, value_object_nil]
  | cons f fields =>
    have hlong := length_lt_length_bracket level _ _ _ _ htext.symm
    -- A name and its value are parts of one line.
    have hfits : ∀ k ∈ f :: fields, (quote k.1).toList.length < budget ∧
        (prettyAt (level + 1) k.2).toList.length < budget := by
      intro k hk
      have hlt := Nat.lt_trans (hlong.2 _ (mem_map_of_mem hk)) hbudget
      rw [toList_fieldLine, length_append, length_cons, length_cons] at hlt
      omega
    obtain ⟨cs, tail, hwhole, hskip, hloop⟩ := loop_bracket level _ _ (by decide) f fields
      (fun k hk => readsLine_fields (hread k hk (hfits k hk).2)
        (inked_prettyAt (hstored k hk) (level + 1)) (hfits k hk).1)
      (fun k _ => toList_fieldLine (level + 1) k ▸ inked_quote_append k.1 _) htext.symm hbudget rest
    rw [hwhole]
    refine value_object hskip (fun left hc => ?_) hloop
    rw [toList_fieldLine, toList_quote, cons_append, cons_append, List.cons.injEq] at hc
    exact absurd hc.1 (by decide)

/-- A written value is read back, in front of a text that ends it. -/
theorem value_pretty (h : Stored depth j) (level : Nat)
    (hbudget : (prettyAt level j).toList.length < budget) {rest : List Char} (hrest : Ends rest) :
    value? budget depth ((prettyAt level j).toList ++ rest) = some (j, rest) := by
  -- On how the value is made; the items of a list are written one level deeper.
  induction h generalizing level rest with
  | null =>
    rw [prettyAt_null]
    unfold value?
    rfl
  | bool b =>
    rw [prettyAt_bool]
    unfold value?
    cases b with
    | false => rfl
    | true => rfl
  | @int depth n hlow hhigh =>
    rw [prettyAt_int]
    obtain ⟨c, cs, heq, hc⟩ := head_toString n
    have hnum := number_toString hlow hhigh hrest
    rw [heq, cons_append] at hnum ⊢
    rw [value_of_number_head hc, hnum]
  | @text depth s =>
    rw [prettyAt_text] at hbudget ⊢
    obtain ⟨body, hbody, hread⟩ := textBody_quote s rest hbudget
    rw [hbody]
    unfold value?
    simp only [hread, Option.map_some]
  | list hitems ih =>
    exact value_pretty_list level hitems
      (fun j hj hfits _ htail => ih j hj (level + 1) hfits htail) hbudget rest
  | object hfields ih =>
    exact value_pretty_object level hfields
      (fun f hf hfits _ htail => ih f hf (level + 1) hfits htail) hbudget rest

theorem parse_pretty (h : Stored maxDepth j) : parse? j.pretty = some j := by
  obtain ⟨c, cs, hhead, hblank, _⟩ := head_prettyAt h 0
  have hread := value_pretty h 0 (Nat.lt_succ_self _) (Or.inl rfl)
  rw [append_nil] at hread
  have hskip : skipSpace (prettyAt 0 j).toList = (prettyAt 0 j).toList := by
    rw [hhead, skipSpace_of_not_blank hblank]
  simp only [parse?, pretty, hskip, hread]
  rfl

end Values

end Json

end Ripple
