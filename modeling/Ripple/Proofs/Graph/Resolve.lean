import Mathlib.Data.List.TakeWhile
import Ripple.Graph.Resolve
import Ripple.Proofs.Path.Segments

/-!
# Import Resolution

The name in an import is read twice, against the directory of the importing
file and against the root of the project, and each reading fails early if the
name climbs too far. What a name means is the first known file among the
places that it can stand for (`resolveImport_eq_findSome`), and these places
depend on its segments only through where they lead from a directory, slashes
in front of it apart. So segments that lead nowhere can be put in, and a name
that climbs above the root from the directory climbs above it from the root as
well.

## Theorems

* `Path.follow_insert`: Segments that lead nowhere can be put in.
* `placesFor_of_climbs`, `placesFor_insert`: The places that a name can stand for.
* `resolveImport_confined_canonical_monotone`: Imports resolve to known files,
  do not leave the project, and are not lost when more files are known.
-/

namespace Ripple

open List

namespace Path

/-- A segment that leads on to what it names. -/
def isOrdinary (segment : String) : Bool := segment ≠ "" && segment ≠ "." && segment ≠ ".."

/-- At some point there are more steps up than a depth and the names before them allow. -/
def Climbs (depth : Nat) (segments : List String) : Prop :=
  ∃ front, front <+: segments ∧ depth + front.countP isOrdinary < front.count ".."

variable {depth : Nat} {segments : List String}

theorem Climbs.mono {less : Nat} (h : Climbs depth segments) (hle : less ≤ depth) :
    Climbs less segments := by
  obtain ⟨front, hfront, hlt⟩ := h
  exact ⟨front, hfront, by omega⟩

/-- The point at which segments climb too far is after the first of them. -/
theorem Climbs.exists_cons {segment : String} (h : Climbs depth (segment :: segments)) :
    ∃ front, front <+: segments ∧
      depth + (segment :: front).countP isOrdinary < (segment :: front).count ".." := by
  obtain ⟨front, hfront, hlt⟩ := h
  cases front with
  | nil => simp at hlt
  | cons first front =>
    obtain ⟨rfl, hrest⟩ := List.cons_prefix_cons.mp hfront
    exact ⟨front, hrest, hlt⟩

/-- Segments that climb above the place where they begin cannot be followed. -/
theorem follow_of_climbs {parts : List String} (h : Climbs parts.length segments) :
    follow parts segments = none := by
  fun_induction follow parts segments with
  | case1 parts =>
    obtain ⟨front, hfront, hlt⟩ := h
    simp [List.prefix_nil.mp hfront] at hlt
  | case2 parts segment rest hblank ih =>
    obtain ⟨front, hfront, hlt⟩ := h.exists_cons
    refine ih ⟨front, hfront, ?_⟩
    rcases (by simpa using hblank : segment = "" ∨ segment = ".") with rfl | rfl <;>
      simpa [isOrdinary] using hlt
  | case3 => rfl
  | case4 rest last parts _ ih =>
    obtain ⟨front, hfront, hlt⟩ := h.exists_cons
    refine ih ⟨front, hfront, ?_⟩
    simp [isOrdinary] at hlt
    omega
  | case5 parts segment rest hblank hdots ih =>
    obtain ⟨front, hfront, hlt⟩ := h.exists_cons
    refine ih ⟨front, hfront, ?_⟩
    have hordinary : isOrdinary segment = true := by simp_all [isOrdinary]
    simp [hordinary, hdots] at hlt
    simp
    omega

theorem follow_append (parts front back : List String) :
    follow parts (front ++ back) = (follow parts front).bind (follow · back) := by
  fun_induction follow parts front <;> simp_all [follow]

/-- Segments that lead nowhere: a dot, nothing at all, or a name and back. -/
def Idle (segments : List String) : Prop :=
  segments = ["."] ∨ segments = [""] ∨ ∃ name, IsName name ∧ segments = [name, ".."]

theorem Idle.no_slash {segments : List String} (h : Idle segments) :
    ∀ s ∈ segments, '/' ∉ s.toList := by
  rcases h with rfl | rfl | ⟨name, hname, rfl⟩
  · decide
  · decide
  · simpa using hname.no_slash

theorem follow_insert {idle : List String} (h : Idle idle) (parts front back : List String) :
    follow parts (front ++ idle ++ back) = follow parts (front ++ back) := by
  have hidle : ∀ parts, follow parts idle = some parts := by
    rcases h with rfl | rfl | ⟨name, hname, rfl⟩
    · simp [follow]
    · simp [follow]
    · simp [follow, hname.ne_empty, hname.ne_dot, hname.ne_dots]
  simp [follow_append, hidle]

theorem follow_dropWhile_slash (parts : List String) (chars : List Char) :
    follow parts (splitText '/' (String.ofList (chars.dropWhile (· = '/')))) =
      follow parts (splitText '/' (String.ofList chars)) := by
  induction chars with
  | nil => rfl
  | cons c chars ih =>
    rw [dropWhile_cons]
    split
    next hslash =>
      rw [ih]
      simp [splitText, splitWhere, of_decide_eq_true hslash, follow]
    · rfl

end Path

open Path

/-- The directory of a file has the segments of its path but the last. -/
theorem filter_splitText_directoryOf (path : String) :
    (splitText '/' (directoryOf path)).filter (· ≠ "") =
      (splitText '/' path).dropLast.filter (· ≠ "") := by
  by_cases hslash : '/' ∈ path.toList.reverse
  · obtain ⟨back, front, hrev, hback⟩ := eq_append_cons_of_mem hslash
    have hpass : ∀ c ∈ back, decide (c ≠ '/') = true := fun c hc =>
      decide_eq_true fun heq => hback (heq ▸ hc)
    have hdrop : (back ++ '/' :: front).dropWhile (· ≠ '/') = '/' :: front :=
      dropWhile_append_of_pos hpass
    have hdir : directoryOf path = String.ofList front.reverse := by
      simp only [directoryOf, splitLast?, hrev, hdrop]
    have hpath : path = String.ofList front.reverse ++ "/" ++ String.ofList back.reverse := by
      rw [← String.toList_inj, ← reverse_inj, hrev]
      simp
    have hname : '/' ∉ (String.ofList back.reverse).toList := by simpa using hback
    rw [hdir, hpath, splitText_slash, splitText_of_not_mem hname, dropLast_concat]
  · have hpass : ∀ c ∈ path.toList.reverse, decide (c ≠ '/') = true := fun c hc =>
      decide_eq_true fun heq => hslash (heq ▸ hc)
    have hdir : directoryOf path = "" := by
      simp only [directoryOf, splitLast?, List.dropWhile_eq_nil_iff.mpr hpass]
    rw [hdir, splitText_of_not_mem (mt mem_reverse.mpr hslash)]
    rfl

section Resolve

variable {isKnown isKnown' : String → Bool} {importer source other : String}

/-- How far a name may climb: no further than the directory of its file is deep, and not at all
    if it is read from the root. -/
def depthFor (importer source : String) : Nat :=
  if isAbsolute source then 0 else ((splitText '/' importer).dropLast.filter (· ≠ "")).length

/-- The places where a name is looked up, each with its last segment first. -/
def placesFor (importer source : String) : List (List String) :=
  (if isAbsolute source then none
    else follow ((splitText '/' importer).dropLast.filter (· ≠ "")).reverse
      (splitText '/' source)).toList ++ (follow [] (splitText '/' source)).toList

theorem resolveImport_eq_findSome :
    resolveImport? isKnown importer source = (placesFor importer source).findSome? fun place =>
      probe? isKnown (ofSegments place.reverse) := by
  -- The second reading drops slashes in front, which only makes fewer empty segments.
  have hslashes := follow_dropWhile_slash [] source.toList
  rw [String.ofList_toList] at hslashes
  have hnear : (if source.toList.head? = some '/' then none
      else normalize? (directoryOf importer) source) = (if isAbsolute source then none
        else follow ((splitText '/' importer).dropLast.filter (· ≠ "")).reverse
          (splitText '/' source)).map fun place => ofSegments place.reverse := by
    rw [normalize?, filter_splitText_directoryOf]
    simp only [isAbsolute, decide_eq_true_eq]
    split <;> rfl
  have hfar : normalize? "" (String.ofList (source.toList.dropWhile (· = '/'))) =
      (follow [] (splitText '/' source)).map fun place => ofSegments place.reverse := by
    rw [← hslashes]
    rfl
  unfold resolveImport?
  simp only [hnear, hfar, placesFor, findSome?_append, Option.toList_map, findSome?_map,
    Function.comp_def]

theorem isKnown_of_resolveImport {target : String}
    (h : resolveImport? isKnown importer source = some target) : isKnown target = true := by
  obtain ⟨base, -, hprobe⟩ := exists_of_findSome?_eq_some h
  unfold probe? at hprobe
  split at hprobe
  · exact absurd hprobe (by simp)
  · exact find?_some hprobe

theorem isSome_resolveImport_of_imp (hknown : ∀ path, isKnown path = true → isKnown' path = true)
    (h : (resolveImport? isKnown importer source).isSome) :
    (resolveImport? isKnown' importer source).isSome := by
  have hprobe : ∀ base, (probe? isKnown base).isSome → (probe? isKnown' base).isSome := by
    intro base
    unfold probe?
    split
    · exact id
    · rw [find?_isSome, find?_isSome]
      exact fun ⟨file, hfile, hfound⟩ => ⟨file, hfile, hknown file hfound⟩
  rw [resolveImport_eq_findSome, findSome?_isSome_iff] at h ⊢
  obtain ⟨place, hplace, hfound⟩ := h
  exact ⟨place, hplace, hprobe _ hfound⟩

theorem placesFor_of_climbs (h : Climbs (depthFor importer source) (splitText '/' source)) :
    placesFor importer source = [] := by
  -- A name that climbs too far from the directory does so from the root.
  have hfar : follow [] (splitText '/' source) = none := follow_of_climbs (h.mono (Nat.zero_le _))
  unfold placesFor
  unfold depthFor at h
  split
  · rw [hfar]
    rfl
  next hrel =>
    rw [if_neg hrel, ← length_reverse] at h
    rw [hfar, follow_of_climbs h]
    rfl

/-- Segments that lead nowhere may be put in anywhere after the first segment of a name. -/
theorem placesFor_insert (hne : source ≠ "") {front back idle : List String}
    (hsrc : splitText '/' source = front ++ back) (hfront : front ≠ []) (hidle : Idle idle) :
    placesFor importer (ofSegments (front ++ idle ++ back)) = placesFor importer source := by
  have hslash : ∀ s ∈ front ++ idle ++ back, '/' ∉ s.toList := by
    have hparts : ∀ s ∈ front ++ back, '/' ∉ s.toList := fun s hs =>
      not_mem_of_mem_splitText (hsrc ▸ hs)
    have hidle := hidle.no_slash
    grind
  have hsplit : splitText '/' (ofSegments (front ++ idle ++ back)) = front ++ idle ++ back :=
    splitText_ofSegments (by simp [hfront]) hslash
  -- A name begins with a slash iff its first segment is empty and not the only one. The first
  -- segment stays, and if it is empty there are others already.
  have habsolute : isAbsolute (ofSegments (front ++ idle ++ back)) = isAbsolute source := by
    obtain ⟨first, rest, rfl⟩ := exists_cons_of_ne_nil hfront
    have hfst : '/' ∉ first.toList := hslash first (by simp)
    have hwhole : source = ofSegments (first :: (rest ++ back)) := by
      rw [← ofSegments_splitText source, hsrc]
      rfl
    have hmore : first = "" → rest ++ back ≠ [] := by
      rintro rfl hnone
      rw [hnone] at hwhole
      exact hne hwhole
    rw [hwhole]
    simp only [cons_append, isAbsolute_ofSegments_cons hfst, decide_eq_decide]
    refine and_congr_right fun hempty => iff_of_true ?_ (hmore hempty)
    simpa using fun hrest _ => by simpa [hrest] using hmore hempty
  simp only [placesFor, hsplit, habsolute, hsrc, follow_insert hidle]

/-- An import resolves to a known file, and to none if its name climbs above the root at any point.
    It means the same with segments in it that lead nowhere, and is not lost when more files are
    known. -/
theorem resolveImport_confined_canonical_monotone (importer source : String) :
    (∀ isKnown path, resolveImport? isKnown importer source = some path → isKnown path = true) ∧
    (Climbs (depthFor importer source) (splitText '/' source) →
      ∀ isKnown, resolveImport? isKnown importer source = none) ∧
    (source ≠ "" → ∀ front back idle, splitText '/' source = front ++ back → front ≠ [] →
      Idle idle → ∀ isKnown, resolveImport? isKnown importer (ofSegments (front ++ idle ++ back)) =
        resolveImport? isKnown importer source) ∧
    ∀ isKnown isKnown' : String → Bool, (∀ path, isKnown path = true → isKnown' path = true) →
      (resolveImport? isKnown importer source).isSome →
        (resolveImport? isKnown' importer source).isSome := by
  refine ⟨fun _ _ => isKnown_of_resolveImport, fun hclimbs isKnown => ?_,
    fun hne front back idle hsource hfront hidle isKnown => ?_,
    fun _ _ => isSome_resolveImport_of_imp⟩
  · rw [resolveImport_eq_findSome, placesFor_of_climbs hclimbs]
    rfl
  · rw [resolveImport_eq_findSome, resolveImport_eq_findSome,
      placesFor_insert hne hsource hfront hidle]

example : resolveImport? (["lib/x.ts", "src/x.ts"].contains ·) "src/a.ts" "./y/.././x.js" =
    some "src/x.ts" := by
  decide

end Resolve

end Ripple
