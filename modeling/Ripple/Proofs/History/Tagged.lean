import Ripple.Proofs.History.Retention

/-!
# Tags and the Count of Kept Snapshots

Retention may let every snapshot with tags stay, and then counts the others
only. The newest snapshot is the one exception: it is kept before any tag is
looked at, and takes one place of the count whether it has tags or not. So the
snapshots without tags have the whole count for themselves iff the newest one is
among them, and one place less otherwise.

With no limit on the age, what is removed can be said without the pass: the
snapshots without tags go that have no room left, by the snapshots without tags
that come after them.
-/

namespace Ripple.History

open List Store Job

variable {σ : Type} [BlobStore σ]

/-- A snapshot has tags. -/
def Tagged (store : σ) (id : String) : Prop := (notes store id).tags ≠ []

instance (store : σ) (id : String) : Decidable (Tagged store id) :=
  inferInstanceAs (Decidable (_ ≠ _))

/-- How many of some snapshots come after a snapshot and have no tags. -/
def untaggedAfter (store : σ) (ids : List String) (id : String) : Nat :=
  ids.countP fun other => compare id other = .lt ∧ ¬ Tagged store other

/-- How many snapshots without tags may stay, if a number of snapshots is enough. -/
def room (store : σ) (count : Nat) (newest : String) : Nat :=
  if Tagged store newest then count - 1 else count

/-- What is removed, by the room that there is for snapshots without tags. -/
structure Rationed (store : σ) (count : Nat) (found gone : List String) (newest : String) :
    Prop where
  /-- A snapshot goes iff it has no tags and there is no room for it. -/
  gone_iff : ∀ id, id ∈ gone ↔
    id ∈ found ∧ ¬ Tagged store id ∧ room store count newest ≤ untaggedAfter store found id
  /-- All the room is used by what stays. -/
  exact : ∀ id ∈ gone,
    untaggedAfter store (found.filter fun other => other ∉ gone) id = room store count newest

/-- Snapshots with tags do not use up the count. -/
structure TagsAreFree (store : σ) (count : Nat) (found gone : List String) : Prop where
  /-- What is removed has tags, or has the full count of kept snapshots without tags after it. -/
  supported : ∀ id ∈ gone, ¬ Tagged store id →
    count ≤ untaggedAfter store (found.filter fun other => other ∉ gone) id
  /-- If there are no more snapshots without tags than may be kept, nothing is removed. -/
  idle : (found.countP fun id => ¬ Tagged store id) ≤ count → gone = []

/-- The newest snapshot stays, so a tag of it takes one of the count. -/
theorem room_add (store : σ) (newest : String) {count : Nat} (hpos : 1 ≤ count) :
    room store count newest + (if Tagged store newest then 1 else 0) = count := by
  unfold room
  split <;> omega

section Counting

variable {r : Retention} {count : UInt64} {now : Int64} {store : σ} {front : List String}
  {newest id : String}

theorem untaggedAfter_filter (store : σ) (found gone : List String) (id : String) :
    untaggedAfter store (found.filter fun other => other ∉ gone) id =
      found.countP fun other => compare id other = .lt ∧ other ∉ gone ∧ ¬ Tagged store other := by
  rw [untaggedAfter, countP_filter]
  refine countP_congr fun other _ => ?_
  simp only [Bool.and_eq_true, decide_eq_true_eq]
  exact ⟨fun ⟨⟨hafter, huntagged⟩, hstays⟩ => ⟨hafter, hstays, huntagged⟩,
    fun ⟨hafter, hstays, huntagged⟩ => ⟨⟨hafter, huntagged⟩, hstays⟩⟩

theorem protects_iff (htags : r.keepTagged = true) (hne : id ≠ newest) :
    r.Protects store newest id ↔ Tagged store id :=
  ⟨fun h => h.2.2, fun h => ⟨hne, htags, h⟩⟩

/-- The snapshots that count against a snapshot: those without tags that stay, and the newest one in
    any case. -/
theorem keptAfter_eq (htags : r.keepTagged = true) (h : Increasing (front ++ [newest]))
    (hid : id ∈ front) {gone : List String} (hstays : newest ∉ gone) :
    keptAfter r store (front ++ [newest]) gone newest id =
      untaggedAfter store ((front ++ [newest]).filter fun other => other ∉ gone) id +
        if Tagged store newest then 1 else 0 := by
  have hfront : (front.countP fun other =>
        compare id other = .lt ∧ other ∉ gone ∧ ¬ r.Protects store newest other) =
      front.countP fun other =>
        compare id other = .lt ∧ other ∉ gone ∧ ¬ Tagged store other := by
    refine countP_congr fun other hother => ?_
    have hne : other ≠ newest := fun heq => newest_not_mem_front h (heq ▸ hother)
    simp only [decide_eq_true_eq, protects_iff htags hne]
  have hcounts : compare id newest = .lt ∧ newest ∉ gone ∧ ¬ r.Protects store newest newest :=
    ⟨h.lt_last hid, hstays, fun hprot => hprot.1 rfl⟩
  rw [keptAfter, untaggedAfter_filter, countP_append, countP_append, hfront,
    countP_singleton, countP_singleton, if_pos (decide_eq_true hcounts)]
  by_cases htagged : Tagged store newest
  · simp only [htagged, not_true_eq_false, and_false, decide_false, Bool.false_eq_true, if_false,
      if_true, Nat.add_zero]
  · simp only [hcounts.1, hstays, htagged, not_false_eq_true, and_self, decide_true, if_true,
      if_false, Nat.add_zero]

/-- What is removed for the count alone has just enough kept snapshots after it: no more can be
    kept. -/
theorem keptAfter_of_mem_surplus (hcount : r.maxCount = some count) (hpos : 1 ≤ count.toNat)
    (hage : r.maxAgeDays = none) (h : Increasing (front ++ [newest]))
    (hid : id ∈ surplus r now store front) :
    keptAfter r store (front ++ [newest]) (surplus r now store front) newest id = count.toNat := by
  -- No more than the count stay at all, and a snapshot goes only when the count is reached.
  refine Nat.le_antisymm ?_ ?_
  · have hselected : Selected r now store (front ++ [newest]) (surplus r now store front) newest :=
      selected_surplus h
    have hbdd := hselected.bounded count hcount
    rw [Nat.max_eq_right hpos] at hbdd
    refine Nat.le_trans (countP_mono_left fun other _ hother => ?_) hbdd
    exact decide_eq_true (of_decide_eq_true hother).2
  · rcases ((mem_surplus_iff h).mp hid).reason with hold | ⟨count', hcount', hle⟩
    · rw [Retention.tooOld, hage] at hold
      cases hold
    · rw [hcount] at hcount'
      obtain rfl := Option.some.inj hcount'
      exact hle

theorem untaggedAfter_kept_le (store : σ) (found gone : List String) (id : String) :
    untaggedAfter store (found.filter fun other => other ∉ gone) id ≤
      untaggedAfter store found id :=
  filter_sublist.countP_le

theorem untaggedAfter_le_of_lt {ids : List String} {other : String} (h : compare id other = .lt) :
    untaggedAfter store ids other ≤ untaggedAfter store ids id := by
  refine countP_mono_left fun later _ hlater => ?_
  obtain ⟨hafter, huntagged⟩ := of_decide_eq_true hlater
  exact decide_eq_true ⟨Std.TransCmp.lt_trans h hafter, huntagged⟩

/-- If none of the later snapshots without tags goes, all of them stay. -/
theorem untaggedAfter_kept_eq {found gone : List String}
    (h : ∀ other ∈ found, compare id other = .lt → ¬ Tagged store other → other ∉ gone) :
    untaggedAfter store (found.filter fun other => other ∉ gone) id =
      untaggedAfter store found id := by
  rw [untaggedAfter_filter]
  refine countP_congr fun other hother => ?_
  rw [decide_eq_true_eq, decide_eq_true_eq]
  exact ⟨fun ⟨hafter, _, huntagged⟩ => ⟨hafter, huntagged⟩,
    fun ⟨hafter, huntagged⟩ => ⟨hafter, h other hother hafter huntagged, huntagged⟩⟩

theorem untaggedAfter_newest (store : σ) (h : Increasing (front ++ [newest])) :
    untaggedAfter store (front ++ [newest]) newest = 0 := by
  refine countP_eq_zero.mpr fun other hother => ?_
  rw [decide_eq_true_eq]
  rintro ⟨hafter, -⟩
  rcases mem_append.mp hother with hfront | hlast
  · exact compare_lt_asymm (h.lt_last hfront) hafter
  · obtain rfl := mem_singleton.mp hlast
    exact compare_self_ne_lt other hafter

end Counting

section Rationing

variable {r : Retention} {count : UInt64} {now : Int64} {store : σ} {front : List String}
  {newest id : String}

section Surplus

variable (htags : r.keepTagged = true) (hcount : r.maxCount = some count)
  (hpos : 1 ≤ count.toNat) (hage : r.maxAgeDays = none) (h : Increasing (front ++ [newest]))

include htags hcount hpos hage h

/-- The snapshots without tags that stay after a removed one use up all the room. -/
theorem untaggedAfter_of_mem_surplus (hid : id ∈ surplus r now store front) :
    untaggedAfter store ((front ++ [newest]).filter fun other =>
      other ∉ surplus r now store front) id = room store count.toNat newest := by
  have hkept := keptAfter_of_mem_surplus hcount hpos hage h hid
  rw [keptAfter_eq htags h (mem_front_of_mem_surplus hid) (newest_not_mem_surplus h),
    ← room_add store newest hpos] at hkept
  exact Nat.add_right_cancel hkept

/-- A snapshot goes iff it has no tags and the snapshots without tags after it leave no room. -/
theorem mem_surplus_iff_room :
    id ∈ surplus r now store front ↔ id ∈ front ++ [newest] ∧ ¬ Tagged store id ∧
      room store count.toNat newest ≤ untaggedAfter store (front ++ [newest]) id := by
  constructor
  · intro hid
    have hdue := (mem_surplus_iff h).mp hid
    refine ⟨hdue.listed, fun htagged => ?_, ?_⟩
    · exact hdue.unprotected ((protects_iff htags hdue.older).mpr htagged)
    · rw [← untaggedAfter_of_mem_surplus htags hcount hpos hage h hid]
      exact untaggedAfter_kept_le store _ _ id
  · rintro ⟨hlist, huntagged, hroom⟩
    have hne : id ≠ newest := by
      rintro rfl
      rw [room, if_neg huntagged, untaggedAfter_newest store h] at hroom
      omega
    have hfront : id ∈ front :=
      (mem_append.mp hlist).resolve_right fun hlast => hne (mem_singleton.mp hlast)
    refine (mem_surplus_iff h).mpr ⟨hlist, hne, ?_, .inr ⟨count, hcount, ?_⟩⟩
    · rw [protects_iff htags hne]
      exact huntagged
    · rw [keptAfter_eq htags h hfront (newest_not_mem_surplus h), ← room_add store newest hpos]
      refine Nat.add_le_add_right ?_ _
      -- Either all later snapshots without tags stay, or what stays after a removed one fills the
      -- room already.
      by_cases hall : ∀ other ∈ front ++ [newest], compare id other = .lt →
          ¬ Tagged store other → other ∉ surplus r now store front
      · rw [untaggedAfter_kept_eq hall]
        exact hroom
      · push Not at hall
        obtain ⟨other, -, hafter, -, hgone⟩ := hall
        rw [← untaggedAfter_of_mem_surplus htags hcount hpos hage h hgone]
        exact untaggedAfter_le_of_lt hafter

theorem rationed_surplus (now : Int64) (store : σ) :
    Rationed store count.toNat (front ++ [newest]) (surplus r now store front) newest where
  gone_iff _ := mem_surplus_iff_room htags hcount hpos hage h
  exact _ hid := untaggedAfter_of_mem_surplus htags hcount hpos hage h hid

end Surplus

/-- A removed snapshot without tags is one more than what stays after it. -/
theorem untaggedAfter_kept_lt {found gone : List String} (hlist : id ∈ found)
    (huntagged : ¬ Tagged store id) :
    untaggedAfter store (found.filter fun other => other ∉ gone) id <
      found.countP fun id => ¬ Tagged store id := by
  refine Nat.lt_of_le_of_lt (untaggedAfter_kept_le store found gone id) ?_
  obtain ⟨before, after, rfl⟩ := append_of_mem hlist
  have hle : ∀ ids : List String,
      untaggedAfter store ids id ≤ ids.countP fun id => ¬ Tagged store id :=
    fun ids => countP_mono_left fun other _ hother =>
      decide_eq_true (of_decide_eq_true hother).2
  have hpre := hle before
  have hafter := hle after
  -- The snapshot itself has no tags and does not come after itself.
  rw [untaggedAfter] at hpre hafter ⊢
  rw [countP_append, countP_cons_of_neg (by simp), countP_append,
    countP_cons_of_pos (by simpa using huntagged)]
  omega

/-- Tags are free iff the newest snapshot has none or nothing is removed. -/
theorem Rationed.tagsAreFree_iff {count : Nat} {found gone : List String} (hpos : 1 ≤ count)
    (h : Rationed store count found gone newest) :
    TagsAreFree store count found gone ↔ gone = [] ∨ ¬ Tagged store newest := by
  constructor
  · intro hfree
    refine or_iff_not_imp_left.mpr fun hsome htagged => ?_
    obtain ⟨id, hid⟩ := exists_mem_of_ne_nil gone hsome
    have hle := hfree.supported id hid ((h.gone_iff id).mp hid).2.1
    rw [h.exact id hid, room, if_pos htagged] at hle
    omega
  · rintro (rfl | huntagged)
    · exact ⟨fun _ hid => absurd hid not_mem_nil, fun _ => rfl⟩
    · -- The room is the whole count here.
      have hsupported : ∀ id ∈ gone,
          count ≤ untaggedAfter store (found.filter fun other => other ∉ gone) id := by
        intro id hid
        rw [h.exact id hid, room, if_neg huntagged]
      refine ⟨fun id hid _ => hsupported id hid, fun hfew => ?_⟩
      by_contra hsome
      obtain ⟨id, hid⟩ := exists_mem_of_ne_nil gone hsome
      obtain ⟨hlist, hid', -⟩ := (h.gone_iff id).mp hid
      exact absurd (Nat.lt_of_le_of_lt (hsupported id hid) (untaggedAfter_kept_lt hlist hid'))
        (Nat.not_lt.mpr hfew)

end Rationing

section Enforcing

variable [LawfulStore σ]

/-- Where snapshots with tags are kept, a number of snapshots is enough and there is no limit on the
    age, retention goes through and removes the snapshots without tags that have no room left. The
    room is the number itself if the newest snapshot has no tags, and one less if it has. So tags
    are free iff the newest snapshot has none or nothing is removed. -/
theorem tagsAreFree_iff_newest_untagged (r : Retention) (count : UInt64) (now : Int64) (store : σ)
    (htags : r.keepTagged = true) (hcount : r.maxCount = some count) (hpos : 1 ≤ count.toNat)
    (hage : r.maxAgeDays = none) :
    ∃ found gone after, ids store = .ok found ∧ (enforce r now).Runs store gone after ∧
      Enforced store found gone after ∧
      (∀ newest, found.getLast? = some newest → Rationed store count.toNat found gone newest) ∧
      (TagsAreFree store count.toNat found gone ↔
        gone = [] ∨ ∀ newest, found.getLast? = some newest → ¬ Tagged store newest) := by
  obtain ⟨found, hfound, hincreasing, -⟩ := ids_eq store
  rcases eq_nil_or_concat' found with rfl | ⟨front, last, rfl⟩
  · have hrun : (enforce r now).Runs store [] store :=
      runs_bind (runs_inspect hfound) (runs_pure [] store)
    refine ⟨[], [], store, hfound, hrun, enforced_of_blob hfound (fun _ hmem => hmem) fun _ => rfl,
      fun newest hlast => ?_, ?_⟩
    · cases hlast
    · exact ⟨fun _ => .inl rfl, fun _ => ⟨fun _ hid => absurd hid not_mem_nil, fun _ => rfl⟩⟩
  · obtain ⟨after, hrun, henforced, -⟩ := runs_enforce r now hfound
    have hrationed := rationed_surplus htags hcount hpos hage hincreasing now store
    refine ⟨_, _, after, hfound, hrun, henforced, fun newest hlast => ?_, ?_⟩
    · rw [getLast?_concat] at hlast
      obtain rfl := Option.some.inj hlast
      exact hrationed
    · rw [hrationed.tagsAreFree_iff hpos]
      refine or_congr_right ⟨fun huntagged newest hlast => ?_, fun hall => ?_⟩
      · rw [getLast?_concat] at hlast
        exact Option.some.inj hlast ▸ huntagged
      · exact hall last getLast?_concat

/-- One snapshot is enough, and those with tags are kept. -/
def onlyOne : Retention := ⟨some 1, none, true⟩

/-- Two snapshots, the newest of which has a tag. -/
def taggedNewest : MemoryStore := ⟨.ofList
  [(Keys.snapshot "1-a" false, .empty), (Keys.snapshot "2-b" false, .empty),
    (Keys.notes "2-b", bytesOfJson { SnapshotNotes.none "2-b" with tags := ["release"] }.toJson)]⟩

theorem ids_taggedNewest : ids taggedNewest = .ok ["1-a", "2-b"] := by decide +kernel

theorem ends_enforce_taggedNewest :
    (enforce onlyOne 10).Ends taggedNewest fun result _ => result = .ok ["1-a"] := by
  unfold Ends
  decide +kernel

/-- The tag of the newest snapshot leaves no room for the other one, so that tags are not free. -/
theorem tagsAreFree_iff_newest_untagged_taggedNewest : ∃ after,
    (enforce onlyOne 10).Runs taggedNewest ["1-a"] after ∧
      Rationed taggedNewest 1 ["1-a", "2-b"] ["1-a"] "2-b" ∧
      (TagsAreFree taggedNewest 1 ["1-a", "2-b"] ["1-a"] ↔
        ["1-a"] = [] ∨ ∀ newest, ["1-a", "2-b"].getLast? = some newest →
          ¬ Tagged taggedNewest newest) := by
  obtain ⟨found, gone, after, hfound, hrun, -, hrationed, hfree⟩ :=
    tagsAreFree_iff_newest_untagged onlyOne 1 10 taggedNewest rfl rfl (by decide) rfl
  obtain rfl := Except.ok.inj (ids_taggedNewest.symm.trans hfound)
  obtain rfl := Except.ok.inj (ends_enforce_taggedNewest.of_runs hrun)
  exact ⟨after, hrun, hrationed "2-b" rfl, hfree⟩

/-- One snapshot without tags may be kept and there is only one, and it is removed all the same. -/
theorem not_tagsAreFree_taggedNewest : ∃ found gone after, ids taggedNewest = .ok found ∧
    (enforce onlyOne 10).Runs taggedNewest gone after ∧
      ¬ TagsAreFree taggedNewest 1 found gone := by
  have hids : ids taggedNewest = .ok (["1-a"] ++ ["2-b"]) := ids_taggedNewest
  obtain ⟨after, hrun, -⟩ := runs_enforce onlyOne 10 hids
  have hgone := Except.ok.inj (ends_enforce_taggedNewest.of_runs hrun)
  rw [hgone] at hrun
  refine ⟨_, _, after, hids, hrun, fun hfree => ?_⟩
  exact absurd (hfree.idle (by decide +kernel)) (cons_ne_nil _ _)

end Enforcing

end Ripple.History
