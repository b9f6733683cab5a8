import Ripple.Proofs.History.Tidy

/-!
# Outlines of Different Files Are Kept Apart

The outline of a file is stored under the path of the file, written as a single
name. A slash becomes a tilde, and what may not stand in a name is written with
a percent sign and two digits; so are the tilde and the percent sign themselves,
and the way back is clear at each character. Different files thus have
different keys, none of which is refused. In a directory a value is first put
under an unfinished name beside its key, which is no key of an outline either.

## Theorems

* `Keys.sanitize_injective`, `Keys.outline_injective`: Different paths have different keys.
* `outlines_are_kept_apart`: Storing an outline leaves the outlines of all other files.
-/

namespace Ripple

open List Path Store

namespace Keys

/-- How a character is written: a slash as a tilde, a character that is not to stand in a name with
    two digits, and any other as itself. -/
theorem sanitizeChar_cases (c : Char) : c = '/' ∧ sanitizeChar c = ['~'] ∨
    (∃ high low, c ∈ escaped ∧ sanitizeChar c = ['%', high, low]) ∨
      c ∉ '/' :: escaped ∧ sanitizeChar c = [c] := by
  unfold sanitizeChar
  split
  next hslash => exact .inl ⟨hslash, rfl⟩
  next hslash =>
    split
    next hescaped => exact .inr (.inl ⟨_, _, contains_iff_mem.mp hescaped, rfl⟩)
    next hplain => exact .inr (.inr ⟨by simpa [hslash] using hplain, rfl⟩)

theorem sanitizeChar_inj : ∀ c ∈ escaped, ∀ d ∈ escaped,
    sanitizeChar c = sanitizeChar d → c = d :=
  fun _ hc _ hd => inj_on_of_nodup_map (by decide) hc hd

theorem sanitizeChar_append_inj {c d : Char} {cs ds : List Char}
    (h : sanitizeChar c ++ cs = sanitizeChar d ++ ds) : c = d ∧ cs = ds := by
  have htilde : '~' ∈ escaped := by decide
  have hpercent : '%' ∈ escaped := by decide
  rcases sanitizeChar_cases c with ⟨hc, hcode⟩ | ⟨high, low, hc, hcode⟩ | ⟨hc, hcode⟩ <;>
    rcases sanitizeChar_cases d with ⟨hd, hcode'⟩ | ⟨high', low', hd, hcode'⟩ | ⟨hd, hcode'⟩ <;>
    have hinj := sanitizeChar_inj c <;> grind

theorem flatMap_sanitizeChar_inj {cs ds : List Char}
    (h : cs.flatMap sanitizeChar = ds.flatMap sanitizeChar) : cs = ds := by
  have hne : ∀ c cs, [] ≠ sanitizeChar c ++ cs := by
    intro c cs
    rcases sanitizeChar_cases c with ⟨-, hcode⟩ | ⟨_, _, -, hcode⟩ | ⟨-, hcode⟩ <;> simp [hcode]
  induction cs generalizing ds with
  | nil =>
    cases ds with
    | nil => rfl
    | cons d ds => exact absurd h (hne d _)
  | cons c cs ih =>
    cases ds with
    | nil => exact absurd h.symm (hne c _)
    | cons d ds =>
      obtain ⟨rfl, hrest⟩ := sanitizeChar_append_inj h
      rw [ih hrest]

theorem sanitize_injective : Function.Injective sanitize := fun _ _ h =>
  String.toList_inj.mp (flatMap_sanitizeChar_inj (String.ofList_inj.mp h))

theorem not_mem_sanitize (path : String) : '/' ∉ (sanitize path).toList := by
  have hdig : '/' ∉ escaped.flatMap sanitizeChar := by decide
  rw [sanitize, String.toList_ofList, mem_flatMap]
  rintro ⟨c, -, hslash⟩
  rcases sanitizeChar_cases c with ⟨-, hcode⟩ | ⟨_, _, hc, -⟩ | ⟨hc, hcode⟩
  · rw [hcode] at hslash
    exact absurd hslash (by decide)
  · exact hdig (mem_flatMap.mpr ⟨c, hc, hslash⟩)
  · rw [hcode, mem_singleton] at hslash
    exact hc (hslash ▸ mem_cons_self)

theorem outline_injective : Function.Injective outline := fun _ _ h =>
  sanitize_injective ((String.append_right_inj _).mp ((String.append_left_inj _).mp h))

theorem isName_outline (path : String) : IsName (sanitize path ++ ".json") := by
  refine isName_of_length ?_ ?_
  · rw [String.length_append, show ".json".length = 5 from rfl]
    omega
  · rw [String.toList_append, mem_append]
    rintro (h | h)
    · exact not_mem_sanitize path h
    · exact absurd h (by decide)

theorem outline_eq (path : String) :
    outline path = "index/ast" ++ "/" ++ (sanitize path ++ ".json") := by
  rw [outline, ← String.append_assoc]
  rfl

theorem isPlain_outline (path : String) : DirectoryStore.IsPlain (outline path) := by
  rw [outline_eq]
  exact DirectoryStore.IsPlain.below (by unfold DirectoryStore.IsPlain; decide)
    (isName_outline path)

theorem segments_outline (path : String) :
    segments (outline path) = ["index", "ast", sanitize path ++ ".json"] := by
  rw [outline_eq, segments_slash, segments_of_isName (isName_outline path)]
  rfl

end Keys

namespace EitherStore

/-- Unfinished values are told apart by the number of a process. -/
def Numbered : EitherStore → Prop
  | memory _ => True
  | directory s => ∀ c ∈ s.writer.toList, c.isDigit = true

variable {store : EitherStore} {path other : String}

/-- No outline is written where another one is, not even for a moment. -/
theorem Numbered.apart_outline (h : store.Numbered) (hne : path ≠ other) :
    store.Apart (Keys.outline path) (Keys.outline other) := by
  have hkey : Keys.outline other ≠ Keys.outline path := fun heq =>
    hne (Keys.outline_injective heq).symm
  cases store with
  | memory s => exact hkey
  | directory s =>
    refine ⟨fun heq => ?_, fun heq => ?_⟩
    · rw [Keys.segments_outline, Keys.segments_outline] at heq
      simp only [cons.injEq, true_and, and_true] at heq
      exact hne (Keys.sanitize_injective ((String.append_left_inj _).mp heq)).symm
    · -- The name of an unfinished value ends with a dash or a digit.
      have hname : Keys.sanitize other ++ ".json" =
          DirectoryStore.stem (Keys.sanitize path ++ ".json") ++ DirectoryStore.unfinishedMark ++
            s.writer := by
        simpa [DirectoryStore.unfinished, Keys.segments_outline] using heq
      have hlast : 'n' = s.writer.toList.getLastD '-' := by
        simpa [String.toList_append, getLast?_append, DirectoryStore.unfinishedMark, getLast?_cons]
          using congrArg (fun name : String => name.toList.getLast?) hname
      rcases eq_nil_or_concat' s.writer.toList with hwriter | ⟨_, c, hwriter⟩
      · rw [hwriter] at hlast
        exact absurd hlast (by decide)
      · rw [hwriter, getLastD_concat] at hlast
        subst hlast
        exact absurd (h 'n' (hwriter ▸ mem_append_right _ mem_cons_self)) (by decide)

end EitherStore

/-- Different paths have different keys without a slash in what stands for the path, and no such
    key is refused. If the outline of a file is stored then it is found, and wherever storing it
    stops the outlines of all other files are as before. -/
theorem outlines_are_kept_apart :
    Function.Injective Keys.sanitize ∧ Function.Injective Keys.outline ∧
    (∀ path, '/' ∉ (Keys.sanitize path).toList) ∧
    (∀ (s : DirectoryStore) path,
      s.pathOf (Keys.outline path) = .ok (join s.root (Keys.outline path))) ∧
    ∀ store : EitherStore, store.Serves → store.Numbered → ∀ path bytes,
      (BlobStore.put store (Keys.outline path) bytes).2.Serves ∧
      (∀ after, BlobStore.put store (Keys.outline path) bytes = (.ok (), after) →
        blob? after (Keys.outline path) = some bytes) ∧
      ∀ other, path ≠ other → blob? (BlobStore.put store (Keys.outline path) bytes).2
        (Keys.outline other) = blob? store (Keys.outline other) := by
  refine ⟨Keys.sanitize_injective, Keys.outline_injective, Keys.not_mem_sanitize, fun s path => ?_,
    fun store hserves hnumbered path bytes => ?_⟩
  · exact DirectoryStore.pathOf_eq_ok_iff.mpr ⟨(Keys.isPlain_outline path).isKey, rfl⟩
  · obtain ⟨hafter, hapart⟩ :=
      EitherStore.serves_put hserves (Keys.orderly_outline path).endsInName bytes
    exact ⟨hafter, fun after => RetentiveStore.blob_of_put,
      fun other hne => hapart _ (hnumbered.apart_outline hne)⟩

/-- A slash is told from a tilde. -/
theorem outlines_are_kept_apart_escaped : ∃ after,
    BlobStore.put (directoryWith []) (Keys.outline "a/b") .empty = (.ok (), after) ∧
      blob? after (Keys.outline "a/b") = some .empty ∧
      blob? after (Keys.outline "a~b") = blob? (directoryWith []) (Keys.outline "a~b") := by
  have hans : (BlobStore.put (directoryWith []) (Keys.outline "a/b") .empty).1 = .ok () := by
    decide +kernel
  have hnumbered : (directoryWith []).Numbered := all_eq_true.mp (by decide)
  obtain ⟨-, -, -, -, hput⟩ := outlines_are_kept_apart
  obtain ⟨-, hfound, hother⟩ :=
    hput (directoryWith []) History.wellFormed_directoryWith.serves hnumbered "a/b" .empty
  exact ⟨_, Prod.ext hans rfl, hfound _ (Prod.ext hans rfl), hother "a~b" (by decide)⟩

end Ripple
