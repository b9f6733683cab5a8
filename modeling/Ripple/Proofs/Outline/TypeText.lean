import Ripple.Outline.Source
import Ripple.Proofs.Outline.Diff
import Ripple.Proofs.Outline.Searches

/-!
# The Text of Types

The declaration of a type is known by its tokens, each without blank ends, with
single spaces in between. This text says no more about the tokens than their
words do: what is between the spaces, whichever token it comes from. Tokens with
no blank in them are words, so that declarations made of such tokens are told
apart by this text exactly as far as their tokens differ. What stands between
quotes is one token, blanks included, and those at its ends are lost.

## Theorems

* `Tree.leafTexts_eq`: What a declaration is known by, from its tokens.
* `Tree.intercalate_trimmed_inj`: Tokens that are joined are told apart by their words.
* `Outline.visit_declares`: A declaration is found where it stands, also if it is exported.
* `Outline.type_signatures_eq_iff_words`: Types are told apart by their words.
-/

namespace Ripple

open List

namespace Tree

/-- The tokens of a tree as they stand in the source: its leaves, as far as they have a text,
    comments left out. -/
def tokens (source : List Char) (t : Tree) : List (List Char) :=
  (((t.nodes fun n => !n.is .comment).filter (·.children.isEmpty)).map (textIn source)).filter
    (· ≠ [])

/-- What is left of tokens without their blank ends. -/
def trimmed (tokens : List (List Char)) : List (List Char) := (tokens.map trim).filter (· ≠ [])

/-- The words of tokens: what is between single spaces when their blank ends are cut off. -/
def words (tokens : List (List Char)) : List (List Char) :=
  (trimmed tokens).flatMap (splitOn ' ')

/-- A token with no blank in it. -/
def Solid (token : List Char) : Prop := ∀ c ∈ token, isWhite c = false

theorem trimmed_filter (texts : List (List Char)) :
    trimmed (texts.filter (· ≠ [])) = trimmed texts := by
  rw [trimmed, trimmed, filter_map, filter_map, filter_filter]
  refine congrArg _ (filter_congr fun text _ => ?_)
  by_cases htext : text = []
  · rw [htext]
    rfl
  · simp [htext]

theorem leafTexts_eq (source : List Char) {t : Tree} (h : t.is .comment = false) :
    t.leafTexts source = trimmed (t.tokens source) := by
  have hrow : ∀ ts, leafTextsIn source ts =
      (ts.filter fun n => !n.is .comment).flatMap (leafTexts source) := by
    intro ts
    induction ts with
    | nil => rw [leafTextsIn]; rfl
    | cons t rest ih =>
      rw [leafTextsIn, ih, filter_cons]
      by_cases hcomment : t.is .comment = true
      · obtain ⟨kind, role, start, stop, hasError, children⟩ := t
        rw [leafTexts, if_pos (of_decide_eq_true hcomment)]
        simp [hcomment]
      · simp [hcomment]
  rw [tokens, trimmed_filter]
  induction t using induction with
  | h t ih =>
    rw [nodes_eq, filter_cons, filter_flatMap]
    obtain ⟨kind, role, start, stop, hasError, children⟩ := t
    rw [leafTexts, if_neg (of_decide_eq_false h), hrow]
    cases children with
    | nil =>
      generalize htext : textIn source _ = text
      by_cases htrim : trim text = [] <;> simp [trimmed, htext, htrim]
    | cons c rest =>
      have hinner : ¬ (c :: rest).isEmpty = true := Bool.false_ne_true
      rw [if_neg hinner, if_neg hinner, trimmed, map_flatMap, map_flatMap, filter_flatMap]
      refine flatMap_congr fun n hn => ?_
      obtain ⟨hmem, hcomment⟩ := mem_filter.mp hn
      exact ih n hmem (by simpa using hcomment)

theorem toList_normalizedText (source : List Char) {t : Tree} (h : t.is .comment = false) :
    (t.normalizedText source).toList = [' '].intercalate (trimmed (t.tokens source)) := by
  rw [normalizedText, String.toList_intercalate, map_map, leafTexts_eq source h]
  simp [Function.comp_def]

theorem splitOn_intercalate_flatMap {texts : List (List Char)} (h : texts ≠ []) :
    ([' '].intercalate texts).splitOn ' ' = texts.flatMap (splitOn ' ') := by
  induction texts with
  | nil => exact absurd rfl h
  | cons text rest ih =>
    by_cases hrest : rest = []
    · simp [hrest]
    · rw [List.intercalate_cons_of_ne_nil hrest, append_assoc, singleton_append,
        splitOn_append_cons_self, ih hrest, flatMap_cons]

section Words

variable {tokens others : List (List Char)}

theorem intercalate_trimmed_ne_nil (h : trimmed tokens ≠ []) :
    [' '].intercalate (trimmed tokens) ≠ [] := by
  obtain ⟨text, rest, hcons⟩ := exists_cons_of_ne_nil h
  have hmem : text ∈ trimmed tokens := hcons ▸ mem_cons_self
  have htext : text ≠ [] := of_decide_eq_true (mem_filter.mp hmem).2
  rw [hcons]
  cases rest with
  | nil => simpa using htext
  | cons next rest => simp [htext]

theorem words_ne_nil (h : trimmed tokens ≠ []) : words tokens ≠ [] := by
  rw [words, ← splitOn_intercalate_flatMap h]
  exact splitOn_ne_nil _ _

/-- Tokens that are joined by spaces are told apart by their words. -/
theorem intercalate_trimmed_inj :
    [' '].intercalate (trimmed tokens) = [' '].intercalate (trimmed others) ↔
      words tokens = words others := by
  by_cases htokens : trimmed tokens = []
  · by_cases hothers : trimmed others = []
    · simp only [words, htokens, hothers]
    · refine iff_of_false ?_ ?_
      · exact htokens ▸ (intercalate_trimmed_ne_nil hothers).symm
      · rw [words, htokens]
        exact (words_ne_nil hothers).symm
  · by_cases hothers : trimmed others = []
    · refine iff_of_false ?_ ?_
      · exact hothers ▸ intercalate_trimmed_ne_nil htokens
      · rw [words.eq_1 others, hothers]
        exact words_ne_nil htokens
    · rw [words, words, ← splitOn_intercalate_flatMap htokens,
        ← splitOn_intercalate_flatMap hothers]
      refine ⟨congrArg _, fun h => ?_⟩
      have hjoin := congrArg ([' '].intercalate ·) h
      simpa only [intercalate_splitOn] using hjoin

theorem trim_of_solid {token : List Char} (h : Solid token) : trim token = token := by
  have hdrop : ∀ cs, Solid cs → cs.dropWhile isWhite = cs := by
    intro cs hcs
    cases cs with
    | nil => rfl
    | cons c cs => rw [dropWhile_cons, hcs c mem_cons_self, if_neg Bool.false_ne_true]
  rw [trim, trimWhere, hdrop token h, hdrop _ fun c hc => h c (mem_reverse.mp hc), reverse_reverse]

/-- Tokens with no blank in them are words. -/
theorem words_of_solid (hne : [] ∉ tokens) (h : ∀ token ∈ tokens, Solid token) :
    words tokens = tokens := by
  have htrim : tokens.map trim = tokens :=
    (map_congr_left fun token htoken => trim_of_solid (h token htoken)).trans (map_id' _)
  have hkeep : trimmed tokens = tokens := by
    rw [trimmed, htrim, filter_eq_self]
    exact fun token htoken => decide_eq_true fun hnil => hne (hnil ▸ htoken)
  have hsplit : ∀ token ∈ tokens, splitOn ' ' token = [token] := fun token htoken =>
    splitOn_eq_singleton fun hspace => absurd (h token htoken ' ' hspace) (by decide)
  rw [words, hkeep, flatMap_def, map_congr_left hsplit, ← flatMap_def, flatMap_singleton']

end Words

end Tree

namespace Outline

section Visits

variable (source : List Char) {t : Tree} {kind : DeclarationKind}

/-- A part of a file that is a statement. -/
def isStatement (t : Tree) : Bool := t.isNamed && !t.is .comment

theorem visit_comment (h : t.is .comment = true) (mode : Option Mode) (d : Draft) :
    visit source mode t d = d := by
  obtain ⟨_, role, start, stop, hasError, children⟩ := t
  obtain rfl : _ = Kind.construct .comment := of_decide_eq_true h
  rfl

theorem visitNamed_eq_foldl (mode : Option Mode) (children : List Tree) (d : Draft) :
    visitNamed source mode children d =
      (children.filter isStatement).foldl (fun d t => visit source mode t d) d := by
  induction children generalizing d with
  | nil => rfl
  | cons t rest ih =>
    rw [visitNamed, ih, filter_cons, isStatement]
    by_cases hcomment : t.is .comment = true
    · simp [hcomment, visit_comment source hcomment]
    · by_cases hnamed : t.isNamed = true <;> simp [hnamed, hcomment]

theorem visitRole_eq {role : Role} {s : Tree} {children : List Tree}
    (h : (children.find? fun c => c.role = some role) = some s) (mode : Option Mode) (d : Draft) :
    visitRole source role mode children d = visit source mode s d := by
  induction children with
  | nil => cases h
  | cons c rest ih =>
    rw [find?_cons] at h
    unfold visitRole
    split
    next hrole =>
      rw [decide_eq_true hrole] at h
      exact Option.some.inj h ▸ rfl
    next hrole =>
      rw [decide_eq_false hrole] at h
      exact ih h

/-- The kind of type that a node declares. -/
def typeKind? (t : Tree) : Option DeclarationKind :=
  match t.kind with
  | .construct .interfaceDeclaration => some .interface
  | .construct .typeAliasDeclaration => some .typeAlias
  | .construct .enumDeclaration => some .enumeration
  | _ => none

theorem visit_type (h : typeKind? t = some kind) (mode : Option Mode) (d : Draft) :
    visit source mode t d = d.addDeclaration (typeAt source kind t) mode := by
  obtain ⟨_, role, start, stop, hasError, children⟩ := t
  unfold typeKind? at h
  split at h
  case h_4 => cases h
  all_goals
    rename_i hkind
    obtain rfl := Option.some.inj h
    obtain rfl : _ = _ := hkind
    rfl

/-- A statement that declares something, as it stands or exported or ambient. -/
inductive Declares (t : Tree) : Tree → Prop
  | self : Declares t t
  | exported {s e : Tree} : e.is .exportStatement = true → e.child? .declaration = some s →
      Declares t s → Declares t e
  | ambient {s a : Tree} : a.is .ambientDeclaration = true → a.children.filter isStatement = [s] →
      Declares t s → Declares t a

theorem visit_declares (h : typeKind? t = some kind) {s : Tree} (hs : Declares t s)
    (mode : Option Mode) (d : Draft) : ∃ mode',
      visit source mode s d = d.addDeclaration (typeAt source kind t) mode' := by
  induction hs generalizing mode d with
  | self => exact ⟨mode, visit_type source h mode d⟩
  | @exported s e he hchild _ ih =>
    obtain ⟨_, role, start, stop, hasError, children⟩ := e
    obtain rfl : _ = Kind.construct .exportStatement := of_decide_eq_true he
    unfold visit
    dsimp only
    rw [if_pos (Option.isSome_of_eq_some hchild), visitRole_eq source hchild]
    exact ih _ _
  | @ambient s a ha hchildren _ ih =>
    obtain ⟨_, role, start, stop, hasError, children⟩ := a
    obtain rfl : _ = Kind.construct .ambientDeclaration := of_decide_eq_true ha
    unfold visit
    dsimp only
    rw [visitNamed_eq_foldl, hchildren]
    exact ih mode d

end Visits

variable {path source path' source' : String} {t t' : Tree}

/-- A file that is nothing but the declaration of a type, comments apart. -/
structure IsTypeFile (path source : String) (t : Tree) : Prop where
  kind : (typeKind? t).isSome
  statement : ∃ top s, sourceTree? path source = some top ∧ top.children.filter isStatement = [s] ∧
    Declares t s

theorem IsTypeFile.not_comment (h : IsTypeFile path source t) : t.is .comment = false := by
  refine Bool.eq_false_iff.mpr fun hcomment => ?_
  have hkind : t.kind = .construct .comment := of_decide_eq_true hcomment
  simpa [typeKind?, hkind] using h.kind

/-- The only declaration of such a file is known by the text of the type. -/
theorem IsTypeFile.declarations_eq (h : IsTypeFile path source t) (hash : String) :
    ∃ d, (ofSource path hash source).declarations = [d] ∧
      d.signature = some (t.normalizedText source.toList) := by
  obtain ⟨kind, hkind⟩ := Option.isSome_iff_exists.mp h.kind
  obtain ⟨top, s, htop, hs, hdeclares⟩ := h.statement
  obtain ⟨mode, hvisit⟩ := visit_declares source.toList hkind hdeclares none .empty
  have hdraft : draftOf source.toList top =
      (Draft.empty.addDeclaration (typeAt source.toList kind t) mode).settleAll := by
    rw [draftOf, visitNamed_eq_foldl, hs, ← hvisit]
    rfl
  rw [ofSource, htop]
  change ∃ d, (draftOf _ _).declarations = _ ∧ _
  rw [hdraft]
  cases mode with
  | none => exact ⟨_, rfl, rfl⟩
  | some mode => exact ⟨_, rfl, rfl⟩

theorem hash_ofSource (path hash source : String) : (ofSource path hash source).hash = hash := by
  unfold ofSource
  split <;> rfl

/-- Types are told apart by the words of their tokens. -/
theorem type_signatures_eq_iff_words (h : IsTypeFile path source t)
    (h' : IsTypeFile path' source' t') (hash hash' : String) :
    ∃ d d', (ofSource path hash source).declarations = [d] ∧
      (ofSource path' hash' source').declarations = [d'] ∧
      (d.signature = d'.signature ↔
        Tree.words (t.tokens source.toList) = Tree.words (t'.tokens source'.toList)) ∧
      ((∀ token ∈ t.tokens source.toList ++ t'.tokens source'.toList, Tree.Solid token) →
        (d.signature = d'.signature ↔ t.tokens source.toList = t'.tokens source'.toList)) ∧
      (hash ≠ hash' → d.key = d'.key →
        Tree.words (t.tokens source.toList) ≠ Tree.words (t'.tokens source'.toList) →
        ⟨d.key, d, d', declarationChanges d d'⟩ ∈
          ((ofSource path hash source).diff (ofSource path' hash' source')).modified) := by
  obtain ⟨d, hd, hsignature⟩ := h.declarations_eq hash
  obtain ⟨d', hd', hsignature'⟩ := h'.declarations_eq hash'
  have hiff : d.signature = d'.signature ↔
      Tree.words (t.tokens source.toList) = Tree.words (t'.tokens source'.toList) := by
    rw [hsignature, hsignature', Option.some.injEq, ← String.toList_inj,
      Tree.toList_normalizedText _ h.not_comment, Tree.toList_normalizedText _ h'.not_comment,
      Tree.intercalate_trimmed_inj]
  refine ⟨d, d', hd, hd', hiff, fun hsolid => ?_, fun hhash hkey hwords => ?_⟩
  · obtain ⟨ht, ht'⟩ := forall_mem_append.mp hsolid
    have hne : ∀ source t, [] ∉ Tree.tokens source t := fun _ _ hmem =>
      of_decide_eq_true (mem_filter.mp hmem).2 rfl
    rw [hiff, Tree.words_of_solid (hne _ t) ht, Tree.words_of_solid (hne _ t') ht']
  · refine (mem_modified_diff_iff ?_).mpr
      ⟨?_, ?_, fun halike => hwords (hiff.mp halike.signature), rfl⟩
    · rwa [hash_ofSource, hash_ofSource]
    · simp [Outline.find?, hd]
    · simp [Outline.find?, hd', hkey]

/-- A file without exports is looked at by evaluation. -/
theorem exists_isTypeFile (path source : String) (kind : DeclarationKind) (tokens : List String)
    (h : (sourceTree? path source).map (fun top => (top.children.filter isStatement).map
      fun s => (typeKind? s, s.tokens source.toList)) =
        some [(some kind, tokens.map String.toList)]) :
    ∃ t, IsTypeFile path source t ∧ t.tokens source.toList = tokens.map String.toList := by
  obtain ⟨top, htop, hstatements⟩ := Option.map_eq_some_iff.mp h
  obtain ⟨t, hchildren, heq⟩ := map_eq_singleton_iff.mp hstatements
  obtain ⟨hkind, htokens⟩ := Prod.mk.inj heq
  exact ⟨t, ⟨Option.isSome_of_eq_some hkind, top, t, htop, hchildren, .self⟩, htokens⟩

/-- Layout and comments make no difference. -/
theorem type_signatures_eq_iff_words_commented :
    ∃ d d', (ofSource "a.ts" "h" "type A = string;").declarations = [d] ∧
      (ofSource "a.ts" "h" "type A=/* a text */string ;").declarations = [d'] ∧
      d.signature = d'.signature := by
  obtain ⟨t, ht, htokens⟩ := exists_isTypeFile "a.ts" "type A = string;" .typeAlias
    ["type", "A", "=", "string", ";"] (by decide +kernel)
  obtain ⟨t', ht', htokens'⟩ := exists_isTypeFile "a.ts" "type A=/* a text */string ;" .typeAlias
    ["type", "A", "=", "string", ";"] (by decide +kernel)
  obtain ⟨d, d', hd, hd', hiff, -⟩ := type_signatures_eq_iff_words ht ht' "h" "h"
  exact ⟨d, d', hd, hd', hiff.mpr (by rw [htokens, htokens'])⟩

/-- Neither do blanks at the ends of what stands between quotes. -/
theorem type_signatures_lose_blanks : ∃ t t', IsTypeFile "a.ts" "type A = \"a\";" t ∧
    IsTypeFile "a.ts" "type A = \" a \";" t' ∧
    t.tokens "type A = \"a\";".toList ≠ t'.tokens "type A = \" a \";".toList ∧
    (ofSource "a.ts" "g" "type A = \"a\";").declarations.map (·.signature) =
      (ofSource "a.ts" "h" "type A = \" a \";").declarations.map (·.signature) := by
  obtain ⟨t, ht, htokens⟩ := exists_isTypeFile "a.ts" "type A = \"a\";" .typeAlias
    ["type", "A", "=", "\"", "a", "\"", ";"] (by decide +kernel)
  obtain ⟨t', ht', htokens'⟩ := exists_isTypeFile "a.ts" "type A = \" a \";" .typeAlias
    ["type", "A", "=", "\"", " a ", "\"", ";"] (by decide +kernel)
  refine ⟨t, t', ht, ht', ?_, by decide +kernel⟩
  rw [htokens, htokens']
  decide

end Outline

end Ripple
