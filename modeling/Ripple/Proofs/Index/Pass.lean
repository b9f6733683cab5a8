import Ripple.Proofs.Index.InStep

/-!
# What a Pass Does

A pass looks at the files that it is told of, one after the other, and leaves
all other files alone. `Look` says once what a look at one file can do, and
what a whole pass does follows from it: the index is in step with the tree at
every file that was looked at, and everything that changed in it is accounted
for in what the pass reports.

A pass that is told of every file that came, went or has new content puts the
index in step with the tree everywhere. The other two conditions of
`Informed` are about what a pass goes by: times that move with the content,
and digests that tell contents apart.

## Theorems

* `IndexPass.accounts_foldl`: A pass accounts for what changed.
* `Indexer.inStep_passed`: A pass that is told of all changes puts an index in step with a tree.
-/

namespace Ripple

open List Ripple.Path Dict

namespace IndexPass

open Indexer

variable {tree : FileTree} {now : Int64} {path : String} {p p' : IndexPass}

/-- A pass found nothing new and knows the same files. -/
structure Untouched (p p' : IndexPass) : Prop where
  files : p'.indexer.files = p.indexer.files
  hashes : p'.indexer.registry.entries = p.indexer.registry.entries
  updated : p'.outcome.updated = p.outcome.updated
  removed : p'.outcome.removed = p.outcome.removed

/-- What a look at one file can do to what is known of files. -/
inductive Look (tree : FileTree) (path : String) (p p' : IndexPass) : Prop
  /-- There is no file, and none is known. -/
  | absent (gone : tree.file? path = none) (unknown : p.indexer.files.get? path = none)
      (untouched : Untouched p p')
  /-- The file is passed over. -/
  | ignored (found : (tree.file? path).isSome) (untracked : p.indexer.rules.tracks path = false)
      (untouched : Untouched p p')
  /-- The file is taken as unchanged, by its time or by its digest. -/
  | unchanged {content : ByteArray} {time : Int64} {r : FileRecord}
      (found : tree.file? path = some (content, time))
      (tracked : p.indexer.rules.tracks path = true) (known : p.indexer.files.get? path = some r)
      (same : p.indexer.times.get? path = some time ∨
        p.indexer.registry.entries.get? path = some (p.indexer.registry.kind.digest content))
      (noted : p'.indexer.times.get? path = some time) (untouched : Untouched p p')
  /-- The file is gone and no longer known. -/
  | dropped (gone : tree.file? path = none) (known : (p.indexer.files.get? path).isSome)
      (files : p'.indexer.files = p.indexer.files.erase path)
      (hashes : p'.indexer.registry.entries = p.indexer.registry.entries.erase path)
      (updated : p'.outcome.updated = p.outcome.updated)
      (removed : p'.outcome.removed = p.outcome.removed ++ [path])
  /-- The file is new, or has new content. -/
  | taken {content : ByteArray} {time now : Int64}
      (found : tree.file? path = some (content, time))
      (tracked : p.indexer.rules.tracks path = true)
      (differs : ∀ r, p.indexer.files.get? path = some r → p.indexer.times.get? path ≠ some time ∧
        p.indexer.registry.entries.get? path ≠ some (p.indexer.registry.kind.digest content))
      (files : p'.indexer.files = p.indexer.files.insert path
        (fileRecord p.indexer.registry.kind path content time now))
      (hashes : p'.indexer.registry.entries = p.indexer.registry.entries.insert path
        (p.indexer.registry.kind.digest content))
      (updated : p'.outcome.updated = p.outcome.updated ++ [path])
      (removed : p'.outcome.removed = p.outcome.removed)

/-- What a look at one file does: it leaves other files alone. -/
structure Visited (tree : FileTree) (path : String) (p p' : IndexPass) : Prop where
  settings : SameSettings p.indexer p'.indexer
  /-- The times of other files stay. -/
  times : ∀ other, other ≠ path → p'.indexer.times.get? other = p.indexer.times.get? other
  /-- What happens to the file. -/
  look : Look tree path p p'

theorem visited_drop (p : IndexPass) (gone : tree.file? path = none) :
    Visited tree path p (p.drop path) := by
  have htimes : ∀ other, other ≠ path →
      (p.indexer.times.erase path).get? other = p.indexer.times.get? other :=
    fun _ hne => by rw [get_erase, if_neg hne]
  unfold drop
  by_cases hknown : p.indexer.files.contains path = true
  · have hsome := mem_keys_iff.mp (contains_eq_true_iff.mp hknown)
    simp only [if_pos hknown]
    exact ⟨⟨rfl, rfl, rfl⟩, htimes, .dropped gone hsome rfl rfl rfl rfl⟩
  · have hunknown := contains_eq_false_iff.mp (Bool.eq_false_iff.mpr hknown)
    simp only [if_neg hknown]
    exact ⟨⟨rfl, rfl, rfl⟩, htimes, .absent gone hunknown ⟨rfl, rfl, rfl, rfl⟩⟩

theorem visited_take (p : IndexPass) {content : ByteArray} {time : Int64}
    (found : tree.file? path = some (content, time))
    (tracked : p.indexer.rules.tracks path = true) (now : Int64) :
    Visited tree path p (p.take path content time now) := by
  have htimes : ∀ other, other ≠ path →
      (p.indexer.times.insert path time).get? other = p.indexer.times.get? other :=
    fun _ hne => by rw [get_insert, if_neg hne]
  have hkind := HashRegistry.kind_update p.indexer.registry path
  have hhashes := HashRegistry.entries_update p.indexer.registry path
  unfold take
  by_cases hknown : p.indexer.files.contains path = true
  · obtain ⟨r, hr⟩ := Option.isSome_iff_exists.mp
      (mem_keys_iff.mp (contains_eq_true_iff.mp hknown))
    -- A file that is known is told by its time first, and only then by its digest.
    by_cases htime : p.indexer.times.get? path = some time
    · simp only [hknown, htime, decide_true, Bool.and_true, if_true]
      exact ⟨⟨rfl, rfl, rfl⟩, fun _ _ => rfl,
        .unchanged found tracked hr (.inl htime) htime ⟨rfl, rfl, rfl, rfl⟩⟩
    · simp only [hknown, htime, decide_false, Bool.and_false, Bool.false_eq_true, if_false,
        Bool.true_and]
      have hsame : ∀ hash, (!p.indexer.registry.hasChanged path hash) = true ↔
          p.indexer.registry.entries.get? path = some hash := by simp [HashRegistry.hasChanged]
      split
      next hhash =>
        have hnoted : (p.indexer.times.insert path time).get? path = some time := by
          rw [get_insert, if_pos rfl]
        exact ⟨⟨rfl, rfl, rfl⟩, htimes,
          .unchanged found tracked hr (.inr ((hsame _).mp hhash)) hnoted ⟨rfl, rfl, rfl, rfl⟩⟩
      next hchange =>
        exact ⟨⟨rfl, rfl, hkind _⟩, htimes, .taken found tracked
          (fun _ _ => ⟨htime, mt (hsame _).mpr hchange⟩) rfl (hhashes _) rfl rfl⟩
  · have hunknown := contains_eq_false_iff.mp (Bool.eq_false_iff.mpr hknown)
    simp only [hknown, Bool.false_and, Bool.false_eq_true, if_false]
    refine ⟨⟨rfl, rfl, hkind _⟩, htimes,
      .taken found tracked (fun r hr => ?_) rfl (hhashes _) rfl rfl⟩
    exact absurd (hr.symm.trans hunknown) (Option.some_ne_none r)

theorem visited_visitPath (tree : FileTree) (now : Int64) (p : IndexPass) (path : String) :
    Visited tree path p (p.visitPath tree now path) := by
  unfold visitPath
  split
  next gone => exact visited_drop p gone
  next content modified found =>
    split
    next tracked => exact visited_take p found tracked now
    next untracked =>
      exact ⟨.refl _, fun _ _ => rfl,
        .ignored (Option.isSome_iff_exists.mpr ⟨_, found⟩) (Bool.eq_false_iff.mpr untracked)
          ⟨rfl, rfl, rfl, rfl⟩⟩

theorem Visited.sameAt {other : String} (h : Visited tree path p p') (hne : other ≠ path) :
    SameAt other p.indexer p'.indexer := by
  have htimes := h.times other hne
  rcases h.look with ⟨-, -, hsame⟩ | ⟨-, -, hsame⟩ | ⟨-, -, -, -, -, hsame⟩ |
    ⟨-, -, hfiles, hhashes, -, -⟩ | ⟨-, -, -, hfiles, hhashes, -, -⟩
  · exact ⟨by rw [hsame.files], by rw [hsame.hashes], htimes⟩
  · exact ⟨by rw [hsame.files], by rw [hsame.hashes], htimes⟩
  · exact ⟨by rw [hsame.files], by rw [hsame.hashes], htimes⟩
  · exact ⟨by rw [hfiles, get_erase, if_neg hne], by rw [hhashes, get_erase, if_neg hne], htimes⟩
  · exact ⟨by rw [hfiles, get_insert, if_neg hne], by rw [hhashes, get_insert, if_neg hne], htimes⟩

theorem Untouched.inStep (h : Untouched p p') (hset : SameSettings p.indexer p'.indexer)
    (hstep : p.indexer.InStep tree path) : p'.indexer.InStep tree path :=
  hstep.congr hset (by rw [h.files]) (by rw [h.hashes])

/-- A look at a file puts an index in step with a tree, if it is not misled. -/
theorem Visited.inStep (h : Visited tree path p p') (hpath : Canonical path)
    (hready : p.indexer.Ready tree path) : p'.indexer.InStep tree path := by
  have hrules := h.settings.rules
  have hkind := h.settings.kind
  cases h.look with
  | absent gone unknown untouched =>
    refine untouched.inStep h.settings
      (inStep_of_unknown unknown (fun content time hholds => ?_) hready.registered)
    exact nomatch gone.symm.trans hholds.found
  | ignored _ untracked untouched =>
    -- An index that is not misled knows no file that is passed over.
    have hunknown : p.indexer.files.get? path = none := by
      refine Option.eq_none_iff_forall_ne_some.mpr fun r hr => ?_
      have htrack := hready.tracked (Option.isSome_iff_exists.mpr ⟨r, hr⟩)
      exact nomatch untracked.symm.trans htrack
    refine untouched.inStep h.settings
      (inStep_of_unknown hunknown (fun content time hholds => ?_) hready.registered)
    exact nomatch untracked.symm.trans hholds.tracked
  | @unchanged content time r found tracked known same _ untouched =>
    have hholds : tree.Holds p.indexer.rules path content time := ⟨tracked, hpath, found⟩
    have hsame : p.indexer.times.get? path = some time ∨
        r.hash = p.indexer.registry.kind.digest content := by
      refine same.imp_right fun hhash => ?_
      rw [hready.registered, known] at hhash
      exact Option.some.inj hhash
    obtain ⟨modified, now, rfl⟩ := hready.honest r content time known hholds hsame
    exact untouched.inStep h.settings (inStep_of_known hholds known hready.registered)
  | dropped gone _ files hashes _ _ =>
    have hnone : p'.indexer.files.get? path = none := by
      rw [files, get_erase, if_pos rfl]
    refine inStep_of_unknown hnone (fun content time hholds => ?_) ?_
    · exact nomatch gone.symm.trans hholds.found
    · rw [Registered, hnone, hashes, get_erase, if_pos rfl]
      rfl
  | @taken content time now found tracked _ files hashes _ _ =>
    have hsome : p'.indexer.files.get? path =
        some (fileRecord p'.indexer.registry.kind path content time now) := by
      rw [files, get_insert, if_pos rfl, hkind]
    refine inStep_of_known ⟨hrules ▸ tracked, hpath, found⟩ hsome ?_
    rw [Registered, hsome, hashes, get_insert, if_pos rfl, hkind]
    rfl

/-- What a pass has found, compared with the index that it started from. -/
structure Accounts (start : Indexer) (p : IndexPass) : Prop where
  /-- A file is known as before, or was found to be new or to have new content. -/
  known : ∀ path r, p.indexer.files.get? path = some r →
    path ∈ p.outcome.updated ∨ start.files.get? path = some r
  /-- If nothing was found, then the same files are known. -/
  still : p.outcome.isNoop = true → p.indexer.files = start.files

theorem accounts_start (ix : Indexer) : Accounts ix (start ix) where
  known _ _ hr := Or.inr hr
  still _ := rfl

theorem isNoop_iff {o : IndexOutcome} : o.isNoop = true ↔ o.updated = [] ∧ o.removed = [] := by
  rw [IndexOutcome.isNoop, Bool.and_eq_true, List.isEmpty_iff, List.isEmpty_iff]

theorem Accounts.untouched {ix : Indexer} (h : Accounts ix p) (hsame : Untouched p p') :
    Accounts ix p' where
  known path r hr := by
    rw [hsame.updated]
    rw [hsame.files] at hr
    exact h.known path r hr
  still hnoop := by
    rw [isNoop_iff, hsame.updated, hsame.removed, ← isNoop_iff] at hnoop
    rw [hsame.files, h.still hnoop]

theorem Accounts.visited {ix : Indexer} (h : Accounts ix p) (hvis : Visited tree path p p') :
    Accounts ix p' := by
  cases hvis.look with
  | absent _ _ untouched => exact h.untouched untouched
  | ignored _ _ untouched => exact h.untouched untouched
  | unchanged _ _ _ _ _ untouched => exact h.untouched untouched
  | dropped _ _ files _ updated removed =>
    refine ⟨fun other r hr => ?_, fun hnoop => ?_⟩
    · rw [files, get_erase] at hr
      split at hr
      · exact nomatch hr
      · rw [updated]
        exact h.known other r hr
    · rw [isNoop_iff, removed] at hnoop
      exact absurd hnoop.2 (concat_ne_nil _ _)
  | taken _ _ _ files _ updated _ =>
    refine ⟨fun other r hr => ?_, fun hnoop => ?_⟩
    · rw [updated]
      rw [files] at hr
      rcases get_insert_eq_some hr with ⟨rfl, -⟩ | hr
      · exact .inl (mem_append_right _ mem_cons_self)
      · exact (h.known other r hr).imp_left (mem_append_left _)
    · rw [isNoop_iff, updated] at hnoop
      exact absurd hnoop.1 (concat_ne_nil _ _)

/-- Looking at a candidate is looking at a file of the project, or nothing. -/
theorem visit_cases (tree : FileTree) (now : Int64) (p : IndexPass) (candidate : String) :
    (relative? p.indexer.root candidate = none ∧ p.visit tree now candidate = p) ∨
      ∃ path, relative? p.indexer.root candidate = some path ∧
        Visited tree path p (p.visit tree now candidate) := by
  unfold visit
  split
  next hnone => exact Or.inl ⟨hnone, rfl⟩
  next path hsome => exact Or.inr ⟨path, hsome, visited_visitPath tree now p path⟩

/-- What a look at a file keeps, a pass keeps. -/
theorem foldl_of_visited {motive : IndexPass → Prop} (tree : FileTree) (now : Int64)
    (changed : List String) (h : motive p)
    (hlook : ∀ path {p p' : IndexPass}, motive p → Visited tree path p p' → motive p') :
    motive (changed.foldl (visit tree now) p) := by
  refine List.foldlRecOn changed _ h fun p hp candidate _ => ?_
  rcases visit_cases tree now p candidate with ⟨-, hsame⟩ | ⟨path, -, hvis⟩
  · rw [hsame]
    exact hp
  · exact hlook path hp hvis

theorem sameSettings_foldl (tree : FileTree) (now : Int64) (changed : List String)
    (p : IndexPass) : SameSettings p.indexer (changed.foldl (visit tree now) p).indexer :=
  foldl_of_visited (motive := fun p' => SameSettings p.indexer p'.indexer) tree now changed
    (.refl _) fun _ _ _ h hvis => h.trans hvis.settings

theorem sameSettings_visit (tree : FileTree) (now : Int64) (p : IndexPass) (candidate : String) :
    SameSettings p.indexer (p.visit tree now candidate).indexer :=
  sameSettings_foldl tree now [candidate] p

theorem inStep_visit (now : Int64) {candidate : String}
    (h : relative? p.indexer.root candidate = some path)
    (hready : p.indexer.Ready tree path) :
    (p.visit tree now candidate).indexer.InStep tree path := by
  rcases visit_cases tree now p candidate with ⟨hnone, -⟩ | ⟨other, hother, hvis⟩
  · exact nomatch hnone.symm.trans h
  · obtain rfl : other = path := Option.some.inj (hother.symm.trans h)
    exact hvis.inStep (canonical_relative h) hready

theorem ready_visit (candidate : String) (hready : p.indexer.Ready tree path) :
    (p.visit tree now candidate).indexer.Ready tree path := by
  rcases visit_cases tree now p candidate with ⟨-, hsame⟩ | ⟨other, hother, hvis⟩
  · rw [hsame]
    exact hready
  · -- A look at the file itself puts the index in step, which is more.
    by_cases hne : path = other
    · exact (inStep_visit now (hne ▸ hother) hready).ready
    · exact hready.congr hvis.settings (hvis.sameAt hne)

/-- Candidates name a file of a project. -/
def Names (root : String) (changed : List String) (path : String) : Prop :=
  ∃ candidate ∈ changed, relative? root candidate = some path

theorem names_cons {root candidate : String} {rest : List String} :
    Names root (candidate :: rest) path ↔
      relative? root candidate = some path ∨ Names root rest path := by
  rw [Names, exists_mem_cons_iff]
  rfl

section Fold

variable (tree : FileTree) (now : Int64)

theorem accounts_foldl {ix : Indexer} (changed : List String) (p : IndexPass)
    (h : Accounts ix p) : Accounts ix (changed.foldl (visit tree now) p) :=
  foldl_of_visited tree now changed h fun _ _ _ => .visited

theorem sameAt_foldl (changed : List String) (p : IndexPass)
    (h : ¬ Names p.indexer.root changed path) :
    SameAt path p.indexer (changed.foldl (visit tree now) p).indexer := by
  induction changed generalizing p with
  | nil => exact .refl _ _
  | cons candidate rest ih =>
    rw [names_cons, not_or] at h
    have hroot := (sameSettings_visit tree now p candidate).root
    have hrest := ih (p.visit tree now candidate) (by rw [hroot]; exact h.2)
    rcases visit_cases tree now p candidate with ⟨-, hsame⟩ | ⟨other, hother, hvis⟩
    · rw [hsame] at hrest
      rw [foldl_cons, hsame]
      exact hrest
    · have hne : path ≠ other := by
        rintro rfl
        exact h.1 hother
      exact (hvis.sameAt hne).trans hrest

/-- A pass puts an index in step with a tree at a file that it is told of. The file may be named
    more than once; after the first look the index is in step and stays so. -/
theorem inStep_foldl (changed : List String) (p : IndexPass)
    (h : Names p.indexer.root changed path) (hready : p.indexer.Ready tree path) :
    (changed.foldl (visit tree now) p).indexer.InStep tree path := by
  induction changed generalizing p with
  | nil =>
    obtain ⟨candidate, hmem, -⟩ := h
    exact absurd hmem not_mem_nil
  | cons candidate rest ih =>
    have hroot := (sameSettings_visit tree now p candidate).root
    by_cases hrest : Names p.indexer.root rest path
    · exact ih _ (by rw [hroot]; exact hrest) (ready_visit candidate hready)
    · -- The file is looked at for the last time, and the rest of the pass leaves it alone.
      have hsame := sameAt_foldl tree now rest (p.visit tree now candidate)
        (by rw [hroot]; exact hrest)
      have hlook := (names_cons.mp h).resolve_right hrest
      exact (inStep_visit now hlook hready).congr (sameSettings_foldl tree now rest _)
        hsame.files hsame.hashes

end Fold

end IndexPass

namespace Indexer

open IndexPass

variable {ix : Indexer} {before after : FileTree} {changed : List String} {path : String}

/-- Two trees have the same content at a path, or none that is tracked. -/
def SameContent (rules : IgnoreRules) (before after : FileTree) (path : String) : Prop :=
  ∀ content, (∃ time, before.Holds rules path content time) ↔
    ∃ time, after.Holds rules path content time

/-- What a pass has to be told after a change, so that it is not misled. -/
structure Informed (ix : Indexer) (before after : FileTree) (changed : List String) : Prop where
  /-- Each file is named that came, went or has new content. -/
  named : ∀ path, ¬ SameContent ix.rules before after path → Names ix.root changed path
  /-- A file with new content has another time than the one that is known. -/
  moved : ∀ path content content' time time', before.Holds ix.rules path content time →
    after.Holds ix.rules path content' time' → content ≠ content' → ix.times.get? path ≠ some time'
  /-- Old and new content of a file have different digests. -/
  distinct : ∀ path content content' time time', before.Holds ix.rules path content time →
    after.Holds ix.rules path content' time' → content ≠ content' →
      ix.registry.kind.digest content ≠ ix.registry.kind.digest content'

theorem InStep.of_sameContent (h : ix.InStep before path)
    (hsame : SameContent ix.rules before after path) : ix.InStep after path where
  known r hr := by
    obtain ⟨content, time, modified, now, hholds, hrec⟩ := h.known r hr
    obtain ⟨time', hholds'⟩ := (hsame content).mp ⟨time, hholds⟩
    exact ⟨content, time', modified, now, hholds', hrec⟩
  held content time hholds := by
    obtain ⟨time', hholds'⟩ := (hsame content).mpr ⟨time, hholds⟩
    exact h.held content time' hholds'
  registered := h.registered

/-- An index that was in step with a tree is not misled about the tree after the change. -/
theorem Informed.ready (h : ix.Informed before after changed) (hstep : ix.InStep before path) :
    ix.Ready after path where
  tracked := hstep.ready.tracked
  registered := hstep.registered
  honest r content' time' hr hholds' hsame := by
    obtain ⟨content, time, modified, now, hholds, hrec⟩ := hstep.known r hr
    by_cases hcont : content = content'
    · exact ⟨modified, now, hcont ▸ hrec⟩
    · -- Neither the time nor the digest can be the old one.
      rcases hsame with htime | hhash
      · exact absurd htime (h.moved path content content' time time' hholds hholds' hcont)
      · rw [hrec] at hhash
        exact absurd hhash (h.distinct path content content' time time' hholds hholds' hcont)

theorem inStep_passed (h : ix.Informed before after changed) (hstep : ∀ path, ix.InStep before path)
    (now : Int64) (path : String) : (ix.passed after now changed).indexer.InStep after path := by
  by_cases hnamed : Names ix.root changed path
  · exact inStep_foldl after now changed (.start ix) hnamed (h.ready (hstep path))
  · have hsame : SameContent ix.rules before after path := by
      by_contra hdiff
      exact hnamed (h.named path hdiff)
    have hkept := sameAt_foldl after now changed (.start ix) hnamed
    exact ((hstep path).of_sameContent hsame).congr (sameSettings_foldl after now changed _)
      hkept.files hkept.hashes

/-- A file with one record before and after has the same content before and after. -/
theorem Informed.holds_of_known (h : ix.Informed before after changed)
    (hstep : ix.InStep before path) {ix' : Indexer} (hset : SameSettings ix ix')
    (hstep' : ix'.InStep after path) {r : FileRecord} (hr : ix.files.get? path = some r)
    (hr' : ix'.files.get? path = some r) : ∃ content time time',
      before.Holds ix.rules path content time ∧ after.Holds ix.rules path content time' := by
  obtain ⟨content, time, _, _, hholds, hrec⟩ := hstep.known r hr
  obtain ⟨content', time', _, _, hholds', hrec'⟩ := hstep'.known r hr'
  rw [hset.rules] at hholds'
  rw [hset.kind] at hrec'
  have hhash := congrArg FileRecord.hash (hrec.symm.trans hrec')
  by_cases hcont : content = content'
  · exact ⟨content, time, time', hholds, hcont ▸ hholds'⟩
  · exact absurd hhash (h.distinct path content content' time time' hholds hholds' hcont)

end Indexer

end Ripple
