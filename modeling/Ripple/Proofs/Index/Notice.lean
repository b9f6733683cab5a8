import Ripple.Proofs.Index.Pass

/-!
# What a Pass Notices

A pass compares the files that it is told of with the index, and with nothing
else. It notices a file if the tree has it with another digest than the index,
or only one of the two has it at all. Two things can keep it from noticing:
a file that is passed over is not looked at, and one that is known is not read
if its time is the one that is known.

What was noticed once is not noticed again, since the look at it puts the
index right. So a file that is named twice is looked at like one that is named
once, and what a pass finds can be said of the index that it starts from:
exactly the files that are named and noticed. This holds of every index whose
digests are those of the files that it knows, and no scan or pass leaves
another one.

## Theorems

* `IndexPass.Visited.tells`: A look at a file tells of it if it is noticed.
* `Indexer.tells_passed`: A pass tells of the files that are named and noticed.
* `Indexer.registered_passed`: A pass keeps the digests of the files that are known.
-/

namespace Ripple

open List Ripple.Path

/-- The digest of the file that a tree has at a path. -/
def FileTree.hash? (tree : FileTree) (kind : DigestKind) (path : String) : Option String :=
  (tree.file? path).map fun file => kind.digest file.1

theorem FileTree.hash?_of_none {tree : FileTree} {path : String} (h : tree.file? path = none)
    (kind : DigestKind) : tree.hash? kind path = none := by
  rw [hash?, h]
  rfl

theorem FileTree.hash?_of_some {tree : FileTree} {path : String} {content : ByteArray}
    {time : Int64} (h : tree.file? path = some (content, time)) (kind : DigestKind) :
    tree.hash? kind path = some (kind.digest content) := by
  rw [hash?, h]
  rfl

namespace Indexer

variable {ix ix' : Indexer} {tree : FileTree} {path : String}

/-- The digest with which an index knows a file. -/
def hash? (ix : Indexer) (path : String) : Option String :=
  (ix.files.get? path).map FileRecord.hash

/-- A look at a file finds it changed. -/
structure Notices (ix : Indexer) (tree : FileTree) (path : String) : Prop where
  /-- The tree has the file with another digest, or only one of the two has it. -/
  differs : ix.hash? path ≠ tree.hash? ix.registry.kind path
  /-- A file that is there is not passed over. -/
  tracked : (tree.file? path).isSome → ix.rules.tracks path = true
  /-- A file that is there and known has another time than the one that is known. -/
  moved : ∀ content time, tree.file? path = some (content, time) → (ix.files.get? path).isSome →
    ix.times.get? path ≠ some time

theorem Notices.congr (hset : SameSettings ix ix') (hsame : SameAt path ix ix')
    (h : ix.Notices tree path) : ix'.Notices tree path where
  differs := by
    rw [hash?, hsame.files, hset.kind]
    exact h.differs
  tracked := by
    rw [hset.rules]
    exact h.tracked
  moved := by
    rw [hsame.files, hsame.times]
    exact h.moved

end Indexer

namespace IndexPass

open Indexer

variable {tree : FileTree} {now : Int64} {path other : String} {p p' p'' : IndexPass}
  {news news' : Prop}

/-- What a pass says about a file, compared with where it started, if there is news of it or not. -/
structure Tells (tree : FileTree) (path : String) (news : Prop) (p p' : IndexPass) : Prop where
  /-- A file that is there is found changed if there is news. -/
  updated : path ∈ p'.outcome.updated ↔ path ∈ p.outcome.updated ∨ news ∧ (tree.file? path).isSome
  /-- A file that is not there is found gone if there is news. -/
  removed : path ∈ p'.outcome.removed ↔ path ∈ p.outcome.removed ∨ news ∧ tree.file? path = none
  /-- If there is news then the index has the digest that the tree has. -/
  present : news → p'.indexer.hash? path = tree.hash? p.indexer.registry.kind path
  /-- If there is none then it has the digest that it had. -/
  still : ¬ news → p'.indexer.hash? path = p.indexer.hash? path

theorem Untouched.tells (h : Untouched p p') (hnews : ¬ news) : Tells tree path news p p' where
  updated := by simp only [h.updated, hnews, false_and, or_false]
  removed := by simp only [h.removed, hnews, false_and, or_false]
  present hnow := absurd hnow hnews
  still _ := by rw [hash?, h.files, hash?]

theorem Tells.congr (hiff : news ↔ news') (h : Tells tree path news p p') :
    Tells tree path news' p p' :=
  propext hiff ▸ h

theorem Tells.trans (h : Tells tree path news p p') (h' : Tells tree path news' p' p'')
    (hkind : p'.indexer.registry.kind = p.indexer.registry.kind) :
    Tells tree path (news ∨ news') p p'' where
  updated := by rw [h'.updated, h.updated, or_assoc, ← or_and_right]
  removed := by rw [h'.removed, h.removed, or_assoc, ← or_and_right]
  present hnews := by
    by_cases hlater : news'
    · rw [h'.present hlater, hkind]
    · rw [h'.still hlater, h.present (hnews.resolve_right hlater)]
  still hnone := by
    rw [h'.still fun hlater => hnone (.inr hlater), h.still fun hearlier => hnone (.inl hearlier)]

theorem Visited.tells_other (h : Visited tree other p p') (hne : path ≠ other) :
    Tells tree path False p p' := by
  have hstill : p'.indexer.hash? path = p.indexer.hash? path := by
    rw [hash?, (h.sameAt hne).files, hash?]
  have hconcat : ∀ found : List String, path ∈ found ++ [other] ↔ path ∈ found := by
    intro found
    rw [mem_append, mem_singleton, or_iff_left hne]
  cases h.look with
  | absent _ _ untouched => exact untouched.tells not_false
  | ignored _ _ untouched => exact untouched.tells not_false
  | unchanged _ _ _ _ _ untouched => exact untouched.tells not_false
  | dropped _ _ _ _ updated removed =>
    refine ⟨?_, ?_, False.elim, fun _ => hstill⟩
    · rw [updated, false_and, or_false]
    · rw [removed, hconcat, false_and, or_false]
  | taken _ _ _ _ _ updated removed =>
    refine ⟨?_, ?_, False.elim, fun _ => hstill⟩
    · rw [updated, hconcat, false_and, or_false]
    · rw [removed, false_and, or_false]

theorem Visited.tells (h : Visited tree path p p') (hreg : p.indexer.Registered path) :
    Tells tree path (p.indexer.Notices tree path) p p' := by
  cases h.look with
  | absent gone unknown untouched =>
    refine untouched.tells fun hnotices => hnotices.differs ?_
    rw [hash?, unknown, FileTree.hash?_of_none gone]
    rfl
  | ignored found untracked untouched =>
    exact untouched.tells fun hnotices => nomatch untracked.symm.trans (hnotices.tracked found)
  | @unchanged content time r found _ known same _ untouched =>
    -- It was told by its time, or by the digest in the registry, which is the one in the record.
    refine untouched.tells fun hnotices => ?_
    rcases same with htime | hhash
    · exact hnotices.moved content time found (Option.isSome_iff_exists.mpr ⟨r, known⟩) htime
    · refine hnotices.differs ?_
      rw [FileTree.hash?_of_some found, ← hhash, hreg]
      rfl
  | dropped gone known files _ updated removed =>
    have hnotices : p.indexer.Notices tree path := by
      refine ⟨?_, fun hsome => ?_, fun content time hfound => nomatch gone.symm.trans hfound⟩
      · obtain ⟨r, hr⟩ := Option.isSome_iff_exists.mp known
        rw [hash?, hr, FileTree.hash?_of_none gone]
        exact nofun
      · rw [gone] at hsome
        exact nomatch hsome
    refine ⟨?_, ?_, fun _ => ?_, fun hnot => absurd hnotices hnot⟩
    · rw [updated, gone]
      simp
    · rw [removed, mem_append, mem_singleton]
      simp only [hnotices, gone, and_self]
    · rw [hash?, files, Dict.get_erase, if_pos rfl, FileTree.hash?_of_none gone]
      rfl
  | @taken content time now found tracked differs files _ updated removed =>
    have hnotices : p.indexer.Notices tree path := by
      refine ⟨?_, fun _ => tracked, fun content' time' hfound hknown => ?_⟩
      · rw [FileTree.hash?_of_some found]
        cases hr : p.indexer.files.get? path with
        | none =>
          rw [hash?, hr]
          exact nofun
        | some r =>
          have hhash := (differs r hr).2
          rw [hreg] at hhash
          exact hhash
      · obtain ⟨r, hr⟩ := Option.isSome_iff_exists.mp hknown
        rw [← (Prod.mk.inj (Option.some.inj (found.symm.trans hfound))).2]
        exact (differs r hr).1
    refine ⟨?_, ?_, fun _ => ?_, fun hnot => absurd hnotices hnot⟩
    · rw [updated, mem_append, mem_singleton]
      simp only [hnotices, found, Option.isSome_some, and_self]
    · rw [removed, found]
      simp
    · rw [hash?, files, Dict.get_insert, if_pos rfl, FileTree.hash?_of_some found]
      rfl

theorem Visited.not_notices (h : Visited tree path p p') : ¬ p'.indexer.Notices tree path := by
  intro hnotices
  cases h.look with
  | absent gone unknown untouched =>
    refine hnotices.differs ?_
    rw [hash?, untouched.files, unknown, FileTree.hash?_of_none gone]
    rfl
  | ignored found untracked _ =>
    have htrack := hnotices.tracked found
    rw [h.settings.rules, untracked] at htrack
    exact nomatch htrack
  | @unchanged content time r found _ known _ noted untouched =>
    -- Whatever it was told by, its time is known now.
    refine hnotices.moved content time found ?_ noted
    rw [untouched.files, known]
    rfl
  | dropped gone _ files _ _ _ =>
    refine hnotices.differs ?_
    rw [hash?, files, Dict.get_erase, if_pos rfl, FileTree.hash?_of_none gone]
    rfl
  | taken found _ _ files _ _ _ =>
    refine hnotices.differs ?_
    rw [hash?, files, Dict.get_insert, if_pos rfl, FileTree.hash?_of_some found, h.settings.kind]
    rfl

theorem Visited.registered (h : Visited tree path p p') (hreg : p.indexer.Registered other) :
    p'.indexer.Registered other := by
  rw [Registered] at hreg ⊢
  cases h.look with
  | absent _ _ untouched => rw [untouched.hashes, untouched.files, hreg]
  | ignored _ _ untouched => rw [untouched.hashes, untouched.files, hreg]
  | unchanged _ _ _ _ _ untouched => rw [untouched.hashes, untouched.files, hreg]
  | dropped _ _ files hashes _ _ =>
    rw [hashes, files, Dict.get_erase, Dict.get_erase]
    split
    · rfl
    · exact hreg
  | taken _ _ _ files hashes _ _ =>
    rw [hashes, files, Dict.get_insert, Dict.get_insert]
    split
    · rfl
    · exact hreg

section Fold

variable (tree : FileTree) (now : Int64)

theorem registered_foldl (changed : List String) (hreg : p.indexer.Registered path) :
    (changed.foldl (visit tree now) p).indexer.Registered path :=
  foldl_of_visited (motive := fun p => p.indexer.Registered path) tree now changed hreg
    fun _ _ _ h hvis => hvis.registered h

/-- A pass tells of the files that are named and noticed. The first look at a file says it all. -/
theorem tells_foldl (changed : List String) (p : IndexPass)
    (hreg : p.indexer.Registered path) :
    Tells tree path (Names p.indexer.root changed path ∧ p.indexer.Notices tree path) p
      (changed.foldl (visit tree now) p) := by
  -- The files are taken one by one, and what was found so far is the start for the others.
  induction changed generalizing p with
  | nil => exact Untouched.tells ⟨rfl, rfl, rfl, rfl⟩ fun ⟨⟨_, hmem, _⟩, _⟩ => nomatch hmem
  | cons candidate rest ih =>
    have hset := sameSettings_visit tree now p candidate
    have hrest := ih (p.visit tree now candidate) (registered_foldl tree now [_] hreg)
    rw [hset.root] at hrest
    rw [names_cons]
    rcases visit_cases tree now p candidate with ⟨hnone, hsame⟩ | ⟨other, hother, hvis⟩
    · -- The name is one of no file of the project.
      rw [hsame] at hrest
      rw [foldl_cons, hsame]
      refine hrest.congr (and_congr_left fun _ => ?_)
      rw [hnone]
      exact ⟨.inr, fun hnamed => hnamed.resolve_left nofun⟩
    · by_cases hpath : path = other
      · -- This look settles it, and a second one does not notice the file any more.
        subst hpath
        refine ((hvis.tells hreg).trans hrest hset.kind).congr ?_
        constructor
        · rintro (hnotices | ⟨-, hnotices⟩)
          · exact ⟨.inl hother, hnotices⟩
          · exact absurd hnotices hvis.not_notices
        · exact fun hnamed => .inl hnamed.2
      · -- This look leaves the file as it was, so it is noticed later iff it is noticed now.
        refine ((hvis.tells_other hpath).trans hrest hset.kind).congr ?_
        have hsame := hvis.sameAt hpath
        have hback : SameAt path (p.visit tree now candidate).indexer p.indexer :=
          ⟨hsame.files.symm, hsame.hashes.symm, hsame.times.symm⟩
        have hset' : SameSettings (p.visit tree now candidate).indexer p.indexer :=
          ⟨hset.root.symm, hset.rules.symm, hset.kind.symm⟩
        rw [false_or, hother]
        constructor
        · exact fun ⟨hnamed, hnotices⟩ => ⟨.inr hnamed, hnotices.congr hset' hback⟩
        · rintro ⟨hnamed, hnotices⟩
          refine ⟨hnamed.resolve_left fun heq => ?_, hnotices.congr hset hsame⟩
          exact hpath (Option.some.inj heq).symm

end Fold

end IndexPass

namespace Indexer

open IndexPass

variable {ix : Indexer} {path : String} (tree : FileTree) (now : Int64) (changed : List String)

theorem registered_passed (hreg : ix.Registered path) :
    (ix.passed tree now changed).indexer.Registered path :=
  registered_foldl tree now changed hreg

theorem tells_passed (hreg : ix.Registered path) :
    Tells tree path (Names ix.root changed path ∧ ix.Notices tree path) (.start ix)
      (ix.passed tree now changed) :=
  tells_foldl tree now changed (.start ix) hreg

/-- A pass finds nothing if nothing that is named is noticed, and only then. -/
theorem isNoop_passed_iff (hreg : ∀ path, ix.Registered path) :
    (ix.passed tree now changed).outcome.isNoop = true ↔
      ∀ path, Names ix.root changed path → ¬ ix.Notices tree path := by
  rw [isNoop_iff, eq_nil_iff_forall_not_mem, eq_nil_iff_forall_not_mem, ← forall_and]
  refine forall_congr' fun path => ?_
  have htells := tells_passed tree now changed (hreg path)
  rw [htells.updated, htells.removed]
  cases hfile : tree.file? path with
  | none => simp [start]
  | some file => simp [start]

end Indexer

end Ripple
