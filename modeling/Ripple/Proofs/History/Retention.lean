import Ripple.Proofs.History.Forms

/-!
# What Retention Removes

Retention goes through the snapshots from the newest to the oldest and counts
what it keeps, so that each decision hangs on all decisions before it. What is
removed in the end can be said without the order of the steps: a snapshot goes
iff it is not the newest one, is not exempt, and is too old or has enough kept
snapshots after it.

The argument is about a list. `sift` is the same pass on a list, with its tests
as parameters, and `spared` is what it leaves. That the job removes what `sift`
tells needs one thing only: removing a snapshot takes away three keys of its
own, so that neither the notes nor the forms of any other snapshot change, and
a snapshot that is looked at later is found as it was at first.

The second pass removes nothing since a pass over what is spared makes the same
decisions: it counts the same snapshots.

## Theorems

* `sift_spared`: A second pass removes nothing.
* `History.enforce_removes_due`: Retention removes exactly what has to go.
-/

namespace Ripple

open List Store Job

section Sift

variable (exempt old : String → Bool) (full : Nat → Bool)

/-- What a pass removes from a list after a number of kept items. -/
def sift : Nat → List String → List String
  | _, [] => []
  | kept, id :: rest =>
    if exempt id then sift kept rest
    else if old id || full kept then id :: sift kept rest
    else sift (kept + 1) rest

/-- What a pass leaves of a list after a number of kept items. -/
def spared : Nat → List String → List String
  | _, [] => []
  | kept, id :: rest =>
    if exempt id then id :: spared kept rest
    else if old id || full kept then spared kept rest
    else id :: spared (kept + 1) rest

variable {exempt old full}

theorem sift_sublist (kept : Nat) (ids : List String) :
    (sift exempt old full kept ids).Sublist ids := by
  fun_induction sift exempt old full kept ids with
  | case1 => exact .slnil
  | case2 kept id rest _ ih => exact ih.cons id
  | case3 kept id rest _ _ ih => exact ih.cons_cons id
  | case4 kept id rest _ _ ih => exact ih.cons id

theorem spared_sublist (kept : Nat) (ids : List String) :
    (spared exempt old full kept ids).Sublist ids := by
  fun_induction spared exempt old full kept ids with
  | case1 => exact .slnil
  | case2 kept id rest _ ih => exact ih.cons_cons id
  | case3 kept id rest _ _ ih => exact ih.cons id
  | case4 kept id rest _ _ ih => exact ih.cons_cons id

theorem sift_congr {exempt' : String → Bool} {ids : List String}
    (h : ∀ id ∈ ids, exempt' id = exempt id) (kept : Nat) :
    sift exempt' old full kept ids = sift exempt old full kept ids := by
  induction ids generalizing kept with
  | nil => rfl
  | cons id rest ih =>
    obtain ⟨hid, hrest⟩ := forall_mem_cons.mp h
    simp only [sift, hid, ih hrest]

theorem filter_not_mem_sift {ids : List String} (hnd : ids.Nodup) (kept : Nat) :
    (ids.filter fun id => id ∉ sift exempt old full kept ids) =
      spared exempt old full kept ids := by
  induction ids generalizing kept with
  | nil => rfl
  | cons id rest ih =>
    obtain ⟨hid, hrest⟩ := nodup_cons.mp hnd
    have hnot : ∀ n, id ∉ sift exempt old full n rest :=
      fun n hmem => hid ((sift_sublist n rest).subset hmem)
    rw [sift, spared]
    split
    · rw [filter_cons_of_pos (by simpa using hnot kept), ih hrest]
    · split
      · rw [filter_cons_of_neg (by simp), ← ih hrest kept]
        refine filter_congr fun other hother => ?_
        have hne : other ≠ id := fun heq => hid (heq ▸ hother)
        simp only [mem_cons, hne, false_or]
      · rw [filter_cons_of_pos (by simpa using hnot (kept + 1)), ih hrest]

theorem sift_spared (kept : Nat) (ids : List String) :
    sift exempt old full kept (spared exempt old full kept ids) = [] := by
  fun_induction spared exempt old full kept ids with
  | case1 => rfl
  | case2 kept id rest hexempt ih => rw [sift, if_pos hexempt, ih]
  | case3 kept id rest _ _ ih => exact ih
  | case4 kept id rest hexempt hkeep ih => rw [sift, if_neg hexempt, if_neg hkeep, ih]

/-- A pass does not leave too much, exempt items apart. -/
theorem length_spared_le {limit : Nat} (hfull : ∀ n, limit ≤ n → full n = true) (kept : Nat)
    (ids : List String) :
    kept + (spared exempt old full kept ids).countP (fun id => exempt id = false) ≤
      max kept limit := by
  fun_induction spared exempt old full kept ids with
  | case1 kept => exact Nat.le_max_left kept limit
  | case2 kept id rest hexempt ih =>
    rw [countP_cons_of_neg (by simp [hexempt])]
    exact ih
  | case3 kept id rest _ _ ih => exact ih
  | case4 kept id rest hexempt hkeep ih =>
    -- One more was kept since the limit was not reached.
    have hlt : kept < limit := by
      by_contra hle
      exact hkeep (by rw [hfull kept (Nat.not_lt.mp hle), Bool.or_true])
    rw [countP_cons_of_pos (by simp [hexempt])]
    omega

variable (exempt old full) in
/-- None of the items after the greatest one counts for it. -/
theorem countP_spared_eq_zero {first : String} {rest : List String}
    (hfst : ∀ other ∈ rest, compare other first = .lt) (kept : Nat) :
    (spared exempt old full kept rest).countP
      (fun other => compare first other = .lt ∧ exempt other = false) = 0 := by
  refine countP_eq_zero.mpr fun other hother => ?_
  have hpre := hfst other ((spared_sublist kept rest).subset hother)
  simp only [compare_lt_asymm hpre, false_and, decide_false, Bool.false_eq_true,
    not_false_eq_true]

/-- What a pass over a descending list removes, without the order of its steps: an item goes iff it
    is not exempt, and is old or has enough kept items before it. -/
theorem mem_sift {ids : List String} (h : ids.Pairwise fun a b => compare b a = .lt) (kept : Nat)
    {id : String} : id ∈ sift exempt old full kept ids ↔ id ∈ ids ∧ exempt id = false ∧
      (old id = true ∨ full (kept + (spared exempt old full kept ids).countP
        fun other => compare id other = .lt ∧ exempt other = false) = true) := by
  induction ids generalizing kept with
  | nil => simp only [sift, not_mem_nil, false_and]
  | cons first rest ih =>
    obtain ⟨hfst, hrest⟩ := pairwise_cons.mp h
    have hnone := countP_spared_eq_zero exempt old full hfst
    rw [sift, spared, mem_cons]
    by_cases hexempt : exempt first = true
    · -- It is kept and does not count.
      rw [if_pos hexempt, if_pos hexempt, countP_cons_of_neg (by simp [hexempt]), ih hrest]
      constructor
      · rintro ⟨hmem, hreasons⟩
        exact ⟨.inr hmem, hreasons⟩
      · rintro ⟨rfl | hmem, hnotExempt, hreasons⟩
        · rw [hexempt] at hnotExempt
          cases hnotExempt
        · exact ⟨hmem, hnotExempt, hreasons⟩
    · have hcounted := Bool.eq_false_iff.mpr hexempt
      rw [if_neg hexempt, if_neg hexempt]
      by_cases hgoes : (old first || full kept) = true
      · -- It goes, and so it does not count either.
        rw [if_pos hgoes, if_pos hgoes, mem_cons, ih hrest]
        constructor
        · rintro (rfl | ⟨hmem, hreasons⟩)
          · rw [hnone]
            exact ⟨.inl rfl, hcounted, Bool.or_eq_true_iff.mp hgoes⟩
          · exact ⟨.inr hmem, hreasons⟩
        · rintro ⟨rfl | hmem, hreasons⟩
          · exact .inl rfl
          · exact .inr ⟨hmem, hreasons⟩
      · -- It is kept and comes after all others, so the count goes up by one for each of them.
        rw [if_neg hgoes, if_neg hgoes]
        constructor
        · intro hmem
          obtain ⟨hmem, hnotExempt, hreason⟩ := (ih hrest (kept + 1)).mp hmem
          rw [countP_cons_of_pos (by simp [hfst id hmem, hcounted]),
            ← Nat.add_assoc, Nat.add_right_comm]
          exact ⟨.inr hmem, hnotExempt, hreason⟩
        · rintro ⟨rfl | hmem, hnotExempt, hreason⟩
          · rw [countP_cons_of_neg (by simp), hnone, ← Bool.or_eq_true_iff] at hreason
            exact absurd hreason hgoes
          · rw [countP_cons_of_pos (by simp [hfst id hmem, hcounted]),
              ← Nat.add_assoc, Nat.add_right_comm] at hreason
            exact (ih hrest (kept + 1)).mpr ⟨hmem, hnotExempt, hreason⟩

end Sift

section Reasons

variable {σ : Type} [BlobStore σ]

/-- An older snapshot is exempt for its tags. -/
def Retention.Protects (r : Retention) (store : σ) (newest id : String) : Prop :=
  id ≠ newest ∧ r.keepTagged = true ∧ (History.notes store id).tags ≠ []

instance (r : Retention) (store : σ) (newest id : String) :
    Decidable (r.Protects store newest id) :=
  inferInstanceAs (Decidable (_ ∧ _ ∧ _))

/-- A snapshot is older than it may be. -/
def Retention.Outdated (r : Retention) (now : Int64) (id : String) : Prop :=
  ∃ days, r.maxAgeDays = some days ∧ days.toInt * 86400000 < ageOf now id

/-- So many snapshots are enough. -/
def Retention.Enough (r : Retention) (kept : Nat) : Prop :=
  ∃ count, r.maxCount = some count ∧ count.toNat ≤ kept

/-- No word overflows when the ages of some snapshots are looked at. -/
structure Retention.Exact (r : Retention) (now : Int64) (found : List String) : Prop where
  /-- The limit is the value of a word. -/
  limit : ∀ days, r.maxAgeDays = some days → InWord (days.toInt * 86400000)
  /-- The ages are values of words. -/
  age : ∀ id ∈ found, InWord (ageOf now id)

theorem Retention.full_iff {r : Retention} {kept : Nat} : r.full kept = true ↔ r.Enough kept := by
  unfold full Enough
  cases r.maxCount with
  | none => simp
  | some count => simp

namespace History

/-- How many of the snapshots after a snapshot count against it: those that stay and are the newest
    one or not exempt. -/
def keptAfter (r : Retention) (store : σ) (found gone : List String) (newest id : String) : Nat :=
  found.countP fun other =>
    compare id other = .lt ∧ other ∉ gone ∧ ¬ r.Protects store newest other

/-- A snapshot that has to go, by a notion of being too old. -/
structure Due (r : Retention) (tooOld : String → Prop) (store : σ) (found gone : List String)
    (newest id : String) : Prop where
  listed : id ∈ found
  older : id ≠ newest
  unprotected : ¬ r.Protects store newest id
  /-- It is too old, or enough others stay. -/
  reason : tooOld id ∨ r.Enough (keptAfter r store found gone newest id)

/-- The keys of a snapshot. -/
def keysOf (id : String) : List String :=
  [Keys.snapshot id false, Keys.snapshot id true, Keys.notes id]

/-- What retention removes, where a snapshot is the newest one. -/
structure Selected (r : Retention) (now : Int64) (store : σ) (found gone : List String)
    (newest : String) : Prop where
  /-- What has to go is removed, and nothing else. -/
  due_iff : ∀ id, id ∈ gone ↔ Due r (fun id => r.tooOld now id = true) store found gone newest id
  /-- The same in integers, if no word overflows. -/
  due_iff_of_exact : r.Exact now found → ∀ id,
    id ∈ gone ↔ Due r (r.Outdated now) store found gone newest id
  newest_stays : newest ∉ gone
  /-- What is exempt stays. -/
  protected_stays : ∀ id, r.Protects store newest id → id ∉ gone
  /-- Not too many others stay. -/
  bounded : ∀ count, r.maxCount = some count →
    (found.countP fun id => id ∉ gone ∧ ¬ r.Protects store newest id) ≤ max 1 count.toNat

/-- What retention leaves behind. -/
structure Enforced (store : σ) (found gone : List String) (after : σ) : Prop where
  listed : ∀ id ∈ gone, id ∈ found
  /-- What is not removed is still there. -/
  ids : History.ids after = .ok (found.filter fun id => id ∉ gone)
  /-- What is not removed is read as before. -/
  load : ∀ id, id ∉ gone → History.load after id = History.load store id
  /-- The notes on what is not removed are read as before. -/
  notes : ∀ id, id ∉ gone → History.notes after id = History.notes store id
  /-- The keys of what is removed are gone, and nothing else changes. -/
  blob : ∀ key, blob? after key = if key ∈ gone.flatMap keysOf then none else blob? store key

end History

end Reasons

namespace History

variable {σ : Type} [BlobStore σ]

section Keys

theorem eq_of_mem_keysOf {key id id' : String} (h : key ∈ keysOf id) (h' : key ∈ keysOf id') :
    id = id' := by
  simp only [keysOf, mem_cons, not_mem_nil, or_false] at h h'
  rcases h with rfl | rfl | rfl
  · rcases h' with heq | heq | heq
    · exact (Keys.snapshot_inj.mp heq).1
    · exact (Keys.snapshot_inj.mp heq).1
    · exact absurd heq.symm (Keys.notes_ne_snapshot id' id false)
  · rcases h' with heq | heq | heq
    · exact (Keys.snapshot_inj.mp heq).1
    · exact (Keys.snapshot_inj.mp heq).1
    · exact absurd heq.symm (Keys.notes_ne_snapshot id' id true)
  · rcases h' with heq | heq | heq
    · exact absurd heq (Keys.notes_ne_snapshot id id' false)
    · exact absurd heq (Keys.notes_ne_snapshot id id' true)
    · exact Keys.notes_injective heq

theorem snapshot_mem_keysOf (id : String) (packed : Bool) :
    Keys.snapshot id packed ∈ keysOf id := by
  cases packed with
  | false => exact mem_cons_self
  | true => exact mem_cons_of_mem _ mem_cons_self

theorem notes_mem_keysOf (id : String) : Keys.notes id ∈ keysOf id :=
  mem_cons_of_mem _ (mem_cons_of_mem _ mem_cons_self)

/-- The keys of a snapshot that is not removed are not among the removed ones. -/
theorem mem_flatMap_keysOf {gone : List String} {key id : String} (hkey : key ∈ keysOf id) :
    key ∈ gone.flatMap keysOf ↔ id ∈ gone := by
  rw [mem_flatMap]
  constructor
  · rintro ⟨other, hother, hmem⟩
    rw [eq_of_mem_keysOf hkey hmem]
    exact hother
  · exact fun hid => ⟨id, hid, hkey⟩

theorem isProtected_eq_true_iff {r : Retention} {store : σ} {newest id : String}
    (hne : id ≠ newest) : isProtected r store id = true ↔ r.Protects store newest id := by
  simp only [isProtected, Retention.Protects, Bool.and_eq_true, Bool.not_eq_true',
    isEmpty_eq_false_iff, hne, ne_eq, not_false_eq_true, true_and]

end Keys

section Removing

variable [LawfulStore σ] {r : Retention} {now : Int64}

theorem notes_congr {store after : σ} {id : String}
    (h : blob? after (Keys.notes id) = blob? store (Keys.notes id)) :
    notes after id = notes store id := by
  rw [notes, notes, readJson_congr _ h]

/-- Removing a snapshot takes its keys away and changes nothing else. -/
theorem runs_remove (id : String) (store : σ) : ∃ found after, (remove id).Runs store found after ∧
    ∀ key, blob? after key = if key ∈ keysOf id then none else blob? store key := by
  obtain ⟨plain, first, hfst, hplain⟩ := LawfulStore.delete_eq store (Keys.snapshot id false)
  obtain ⟨packed, second, hsnd, hpack⟩ := LawfulStore.delete_eq first (Keys.snapshot id true)
  obtain ⟨_, third, hthird, hnotes⟩ := LawfulStore.delete_eq second (Keys.notes id)
  refine ⟨plain || packed, third, ?_, fun key => ?_⟩
  · exact runs_bind hfst (runs_bind hsnd (runs_bind hthird (runs_pure _ third)))
  · simp only [keysOf, mem_cons, not_mem_nil, or_false]
    grind

theorem isProtected_of_remove {store after : σ} {id other : String} (hne : other ≠ id)
    (h : ∀ key, blob? after key = if key ∈ keysOf id then none else blob? store key) :
    isProtected r after other = isProtected r store other := by
  have hkey : Keys.notes other ∉ keysOf id :=
    fun hmem => hne (eq_of_mem_keysOf (notes_mem_keysOf other) hmem)
  rw [isProtected, isProtected, notes_congr ((h _).trans (if_neg hkey))]

/-- Retention removes what a pass over the list tells, and does not touch the store if that is
    nothing. -/
theorem runs_enforceFrom (r : Retention) (now : Int64) {ids : List String} (hnd : ids.Nodup)
    (kept : Nat) (store : σ) :
    ∃ after, (enforceFrom r now kept ids).Runs store
        (sift (isProtected r store) (r.tooOld now) r.full kept ids) after ∧
      (∀ key, blob? after key =
        if key ∈ (sift (isProtected r store) (r.tooOld now) r.full kept ids).flatMap keysOf
        then none else blob? store key) ∧
      (sift (isProtected r store) (r.tooOld now) r.full kept ids = [] → after = store) := by
  induction ids generalizing kept store with
  | nil => exact ⟨store, runs_pure [] store, fun _ => rfl, fun _ => rfl⟩
  | cons id rest ih =>
    obtain ⟨hid, hrest⟩ := nodup_cons.mp hnd
    have hlook : (inspect fun s => .ok (isProtected r s id)).Runs store
        (isProtected r store id) store := runs_inspect rfl
    rw [sift]
    by_cases hexempt : isProtected r store id = true
    · obtain ⟨after, hrun, hkept⟩ := ih hrest kept store
      rw [if_pos hexempt]
      refine ⟨after, runs_bind hlook ?_, hkept⟩
      rw [if_pos hexempt]
      exact hrun
    · rw [if_neg hexempt]
      by_cases hgoes : (r.tooOld now id || r.full kept) = true
      · obtain ⟨_, middle, hremove, hmid⟩ := runs_remove id store
        obtain ⟨after, hrun, hblob, -⟩ := ih hrest kept middle
        -- What is looked at later has notes of its own, which are still there.
        have hsame : ∀ other ∈ rest, isProtected r middle other = isProtected r store other := by
          intro other hother
          have hne : other ≠ id := fun heq => hid (heq ▸ hother)
          exact isProtected_of_remove hne hmid
        rw [sift_congr hsame] at hrun hblob
        rw [if_pos hgoes]
        refine ⟨after, runs_bind hlook ?_, fun key => ?_, fun hnil => absurd hnil (cons_ne_nil _ _)⟩
        · rw [if_neg hexempt, if_pos hgoes]
          exact runs_bind hremove (runs_bind hrun (runs_pure _ after))
        · rw [hblob]
          grind
      · obtain ⟨after, hrun, hkept⟩ := ih hrest (kept + 1) store
        rw [if_neg hgoes]
        refine ⟨after, runs_bind hlook ?_, hkept⟩
        rw [if_neg hexempt, if_neg hgoes]
        exact hrun

/-- What retention leaves behind, by the keys that it takes away. -/
theorem enforced_of_blob {store after : σ} {found gone : List String}
    (hfound : ids store = .ok found) (hlist : ∀ id ∈ gone, id ∈ found)
    (hblob : ∀ key, blob? after key = if key ∈ gone.flatMap keysOf then none else blob? store key) :
    Enforced store found gone after := by
  have hkept : ∀ {id key}, id ∉ gone → key ∈ keysOf id → blob? after key = blob? store key :=
    fun hid hkey => (hblob _).trans (if_neg fun hmem => hid ((mem_flatMap_keysOf hkey).mp hmem))
  have hgone : ∀ {id key}, id ∈ gone → key ∈ keysOf id → blob? after key = none :=
    fun hid hkey => (hblob _).trans (if_pos ((mem_flatMap_keysOf hkey).mpr hid))
  refine ⟨hlist, ?_, fun id hid => ?_, fun id hid => ?_, hblob⟩
  · obtain ⟨left, hleft, hinc, -⟩ := ids_eq after
    have hsame : left = found.filter fun id => id ∉ gone := by
      refine hinc.eq_of_mem_iff ((increasing_ids hfound).filter _) fun id => ?_
      rw [mem_ids_iff hleft, mem_filter, decide_eq_true_eq, mem_ids_iff hfound]
      by_cases hid : id ∈ gone
      · simp only [hgone hid (snapshot_mem_keysOf id _), Option.isSome_none, Bool.false_eq_true,
          exists_false, hid, not_true_eq_false, and_false]
      · simp only [hkept hid (snapshot_mem_keysOf id _), hid, not_false_eq_true, and_true]
    rw [hleft, hsame]
  · rw [load_eq, load_eq, hkept hid (snapshot_mem_keysOf id false),
      hkept hid (snapshot_mem_keysOf id true)]
  · exact notes_congr (hkept hid (notes_mem_keysOf id))

end Removing

section Selecting

variable {r : Retention} {now : Int64} {store : σ} {front : List String} {newest : String}

/-- What is removed of the snapshots before the newest one. -/
def surplus (r : Retention) (now : Int64) (store : σ) (front : List String) : List String :=
  sift (isProtected r store) (r.tooOld now) r.full 1 front.reverse

theorem mem_front_of_mem_surplus {id : String} (h : id ∈ surplus r now store front) : id ∈ front :=
  mem_reverse.mp ((sift_sublist 1 front.reverse).subset h)

theorem newest_not_mem_front (h : Increasing (front ++ [newest])) : newest ∉ front := by
  intro hmem
  exact compare_self_ne_lt newest (h.lt_last hmem)

theorem newest_not_mem_surplus (h : Increasing (front ++ [newest])) :
    newest ∉ surplus r now store front :=
  fun hmem => newest_not_mem_front h (mem_front_of_mem_surplus hmem)

theorem nodup_reverse_front (h : Increasing (front ++ [newest])) : front.reverse.Nodup :=
  nodup_reverse.mpr h.nodup.of_append_left

/-- Counting what stays and is not exempt: the newest snapshot, and what the pass leaves. -/
theorem countP_kept (r : Retention) (now : Int64) (store : σ) (h : Increasing (front ++ [newest]))
    (p : String → Bool) (hnew : p newest = true) :
    ((front ++ [newest]).countP fun id =>
        p id = true ∧ id ∉ surplus r now store front ∧ ¬ r.Protects store newest id) =
      1 + (spared (isProtected r store) (r.tooOld now) r.full 1 front.reverse).countP
        fun id => p id = true ∧ isProtected r store id = false := by
  have hfront : (front.countP fun id =>
      p id = true ∧ id ∉ surplus r now store front ∧ ¬ r.Protects store newest id) =
      (spared (isProtected r store) (r.tooOld now) r.full 1 front.reverse).countP
        fun id => p id = true ∧ isProtected r store id = false := by
    rw [← filter_not_mem_sift (nodup_reverse_front h), countP_filter, countP_reverse]
    refine countP_congr fun id hid => ?_
    have hne : id ≠ newest := fun heq => newest_not_mem_front h (heq ▸ hid)
    rw [decide_eq_true_eq, Bool.and_eq_true, decide_eq_true_eq, decide_eq_true_eq,
      ← isProtected_eq_true_iff hne, Bool.not_eq_true]
    exact ⟨fun ⟨hp, hstays, hexempt⟩ => ⟨⟨hp, hexempt⟩, hstays⟩,
      fun ⟨⟨hp, hexempt⟩, hstays⟩ => ⟨hp, hstays, hexempt⟩⟩
  have hlast : (p newest = true ∧ newest ∉ surplus r now store front ∧
      ¬ r.Protects store newest newest) :=
    ⟨hnew, newest_not_mem_surplus h, fun hprot => hprot.1 rfl⟩
  rw [countP_append, hfront, countP_singleton, if_pos (decide_eq_true hlast), Nat.add_comm]

/-- What is removed has to go, and nothing else has to. -/
theorem mem_surplus_iff (h : Increasing (front ++ [newest])) {id : String} :
    id ∈ surplus r now store front ↔ Due r (fun id => r.tooOld now id = true) store
      (front ++ [newest]) (surplus r now store front) newest id := by
  have hdescending : front.reverse.Pairwise fun a b => compare b a = .lt :=
    pairwise_reverse.mpr (pairwise_append.mp h).1
  have hkept : ∀ id ∈ front, keptAfter r store (front ++ [newest]) (surplus r now store front)
      newest id = 1 + (spared (isProtected r store) (r.tooOld now) r.full 1 front.reverse).countP
        fun other => compare id other = .lt ∧ isProtected r store other = false := by
    intro id hid
    have hpre := h.lt_last hid
    have hcount := countP_kept r now store h
      (fun other => compare id other = .lt) (decide_eq_true hpre)
    simp only [decide_eq_true_eq] at hcount
    exact hcount
  rw [surplus, mem_sift hdescending, mem_reverse]
  constructor
  · rintro ⟨hid, hexempt, hreason⟩
    have hne : id ≠ newest := fun heq => newest_not_mem_front h (heq ▸ hid)
    refine ⟨mem_append_left _ hid, hne, ?_, hreason.imp_right fun hfull => ?_⟩
    · rw [← isProtected_eq_true_iff hne, hexempt]
      exact Bool.false_ne_true
    · rw [← Retention.full_iff, ← surplus, hkept id hid]
      exact hfull
  · rintro ⟨hlist, hne, hunprotected, hreason⟩
    have hid : id ∈ front :=
      (mem_append.mp hlist).resolve_right fun hlast => hne (mem_singleton.mp hlast)
    refine ⟨hid, ?_, hreason.imp_right fun henough => ?_⟩
    · rw [Bool.eq_false_iff, ne_eq, isProtected_eq_true_iff hne]
      exact hunprotected
    · rw [← Retention.full_iff, ← surplus, hkept id hid] at henough
      exact henough

/-- What is too old in words is so in integers, if no word overflows. -/
theorem due_iff_of_exact {found gone : List String} (hexact : r.Exact now found) {id : String} :
    Due r (fun id => r.tooOld now id = true) store found gone newest id ↔
      Due r (r.Outdated now) store found gone newest id := by
  have hold : ∀ id ∈ found, r.tooOld now id = true ↔ r.Outdated now id :=
    fun id hid => Retention.tooOld_iff hexact.limit (hexact.age id hid)
  constructor
  · rintro ⟨hlist, hne, hunprotected, hreason⟩
    exact ⟨hlist, hne, hunprotected, hreason.imp_left (hold id hlist).mp⟩
  · rintro ⟨hlist, hne, hunprotected, hreason⟩
    exact ⟨hlist, hne, hunprotected, hreason.imp_left (hold id hlist).mpr⟩

theorem selected_surplus (h : Increasing (front ++ [newest])) :
    Selected r now store (front ++ [newest]) (surplus r now store front) newest where
  due_iff _ := mem_surplus_iff h
  due_iff_of_exact hexact _ := (mem_surplus_iff h).trans (due_iff_of_exact hexact)
  newest_stays := newest_not_mem_surplus h
  protected_stays _ hprot hmem := ((mem_surplus_iff h).mp hmem).unprotected hprot
  bounded count hcount := by
    have hkept := countP_kept r now store h (fun _ => true) rfl
    simp only [true_and] at hkept
    rw [hkept]
    refine length_spared_le (fun n hn => ?_) 1 front.reverse
    exact Retention.full_iff.mpr ⟨count, hcount, hn⟩

end Selecting

section Enforcing

variable [LawfulStore σ] {r : Retention} {now : Int64} {store : σ} {front : List String}
  {newest : String}

/-- Retention leaves the newest snapshot alone and goes through the others. -/
theorem runs_enforce (r : Retention) (now : Int64) (hfound : ids store = .ok (front ++ [newest])) :
    ∃ after, (enforce r now).Runs store (surplus r now store front) after ∧
      Enforced store (front ++ [newest]) (surplus r now store front) after ∧
      (surplus r now store front = [] → after = store) := by
  obtain ⟨after, hrun, hblob, hnothing⟩ :=
    runs_enforceFrom r now (nodup_reverse_front (increasing_ids hfound)) 1 store
  refine ⟨after, runs_bind (runs_inspect hfound) ?_,
    enforced_of_blob hfound (fun id hid => ?_) hblob, hnothing⟩
  · rw [reverse_append]
    exact hrun
  · exact mem_append_left _ (mem_front_of_mem_surplus hid)

/-- A second pass makes the decisions of the first one, and so has nothing left to remove. -/
theorem runs_enforce_again {after : σ} (hinc : Increasing (front ++ [newest]))
    (h : Enforced store (front ++ [newest]) (surplus r now store front) after) :
    (enforce r now).Runs after [] after := by
  have hstays : newest ∉ surplus r now store front := newest_not_mem_surplus hinc
  have hids : ids after =
      .ok ((front.filter fun id => id ∉ surplus r now store front) ++ [newest]) := by
    rw [h.ids, filter_append, filter_singleton, decide_eq_true hstays]
    rfl
  -- The second pass goes over what the first one spared, and finds the same notes there.
  have hspared : (front.filter fun id => id ∉ surplus r now store front).reverse =
      spared (isProtected r store) (r.tooOld now) r.full 1 front.reverse := by
    rw [← filter_reverse]
    exact filter_not_mem_sift (nodup_reverse_front hinc) 1
  have hsame : ∀ id ∈ (front.filter fun id => id ∉ surplus r now store front).reverse,
      isProtected r after id = isProtected r store id := by
    intro id hid
    have hkept := of_decide_eq_true (mem_filter.mp (mem_reverse.mp hid)).2
    rw [isProtected, isProtected, h.notes id hkept]
  have hnothing :
      surplus r now after (front.filter fun id => id ∉ surplus r now store front) = [] := by
    rw [surplus, sift_congr hsame, hspared, sift_spared]
  obtain ⟨last, hrun, -, hlast⟩ := runs_enforce r now hids
  rw [hnothing, hlast hnothing] at hrun
  exact hrun

/-- Retention goes through and removes exactly what has to go. Where a snapshot is the newest one,
    a snapshot is removed iff it is another one, is not exempt, and is too old or has enough kept
    snapshots after it, which makes the newest one and those that are exempt stay and does not
    leave too many others. What stays is read as before, and nothing but the keys of what is
    removed changes. Enforcing it once more removes nothing and changes nothing. -/
theorem enforce_removes_due (r : Retention) (now : Int64) (store : σ) :
    ∃ found gone after, ids store = .ok found ∧ (enforce r now).Runs store gone after ∧
      (∀ newest ∈ found, (∀ id ∈ found, id = newest ∨ compare id newest = .lt) →
        Selected r now store found gone newest) ∧
      Enforced store found gone after ∧ (enforce r now).Runs after [] after := by
  obtain ⟨found, hfound, hincreasing, -⟩ := ids_eq store
  rcases eq_nil_or_concat' found with rfl | ⟨front, last, rfl⟩
  · have hrun : (enforce r now).Runs store [] store :=
      runs_bind (runs_inspect hfound) (runs_pure [] store)
    refine ⟨[], [], store, hfound, hrun, fun _ hmem => absurd hmem not_mem_nil, ?_, hrun⟩
    exact enforced_of_blob hfound (fun _ hmem => hmem) fun _ => rfl
  · obtain ⟨after, hrun, henforced, -⟩ := runs_enforce r now hfound
    refine ⟨_, _, after, hfound, hrun, fun newest hmem hgreatest => ?_, henforced,
      runs_enforce_again hincreasing henforced⟩
    -- The greatest id is the last one.
    obtain ⟨front', heq⟩ := hincreasing.eq_concat hmem hgreatest
    obtain ⟨rfl, hlast⟩ := append_inj' heq rfl
    obtain rfl := List.singleton_inj.mp hlast
    exact selected_surplus hincreasing

/-- Four snapshots, the oldest of which has a tag. -/
def crowded : MemoryStore := ⟨.ofList
  [(Keys.snapshot "1-a" true, .empty), (Keys.snapshot "2-b" false, .empty),
    (Keys.snapshot "3-c" false, .empty), (Keys.snapshot "4-d" false, .empty),
    (Keys.notes "1-a", bytesOfJson { SnapshotNotes.none "1-a" with tags := ["release"] }.toJson)]⟩

/-- Two snapshots are enough, and those with tags are kept. -/
def frugal : Retention := ⟨some 2, none, true⟩

/-- Of four snapshots the second oldest goes: the oldest has a tag, and two others are enough. -/
theorem enforce_removes_due_crowded : ∃ after,
    (enforce frugal 10).Runs crowded ["2-b"] after ∧
      Selected frugal 10 crowded ["1-a", "2-b", "3-c", "4-d"] ["2-b"] "4-d" ∧
      Enforced crowded ["1-a", "2-b", "3-c", "4-d"] ["2-b"] after ∧
      (enforce frugal 10).Runs after [] after := by
  obtain ⟨found, gone, after, hfound, hrun, hselected, henforced, hagain⟩ :=
    enforce_removes_due frugal 10 crowded
  have hids : ids crowded = .ok ["1-a", "2-b", "3-c", "4-d"] := by decide +kernel
  have hanswer : (enforce frugal 10).Ends crowded fun result _ => result = .ok ["2-b"] := by
    unfold Ends
    decide +kernel
  obtain rfl := Except.ok.inj (hids.symm.trans hfound)
  obtain rfl := Except.ok.inj (hanswer.of_runs hrun)
  exact ⟨after, hrun, hselected "4-d" (by decide) (by decide), henforced, hagain⟩

end Enforcing

end History

end Ripple
