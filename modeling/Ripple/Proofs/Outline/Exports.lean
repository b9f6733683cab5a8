import Ripple.Outline.Extract
import Ripple.Proofs.Dict

/-!
# Marks and Lists of Exports

An outline says twice what a file exports: by marks on its declarations and by
a list. The two are written in different places. A declaration that is exported
where it stands is marked and listed at once; a name of an export list marks all
declarations of that name once all of them are known, and is listed then.

However exports, ambient declarations and namespaces are nested, a statement
does four things to a draft, which `Draft.Step` names. A declaration comes
without marks, and what is listed alone is not said to be a declaration. With
this what each step keeps is kept by the whole walk.

## Theorems

* `marked_step`, `marked_settle`: What keeps marks and list in agreement.
* `marks_agree_with_exports`: Marks and list agree in the outline of any tree.
-/

namespace Ripple

open List

namespace Declaration

variable {x : Declaration} {name other : String}

theorem exportNames_addExport : (x.addExport name).exportNames =
    if name ∈ x.exportNames then x.exportNames else x.exportNames ++ [name] := by
  simp only [addExport, contains_iff_mem]
  rfl

theorem kind_addExport : (x.addExport name).kind = x.kind := rfl

theorem mem_exportNames_addExport :
    other ∈ (x.addExport name).exportNames ↔ other ∈ x.exportNames ∨ other = name := by
  rw [exportNames_addExport]
  split
  next hmem => exact ⟨.inl, fun h => h.elim id (· ▸ hmem)⟩
  · simp

theorem nodup_exportNames_addExport (h : x.exportNames.Nodup) :
    (x.addExport name).exportNames.Nodup := by
  rw [exportNames_addExport]
  split
  · exact h
  next hmem => exact List.nodup_append.mpr ⟨h, nodup_singleton name, by grind⟩

end Declaration

namespace Outline

/-- What a statement does to a draft at a time. -/
inductive Draft.Step (d : Draft) : Draft → Prop
  | takes (i : Import) : Step d (d.addImport i)
  | defers (e : LocalExport) : Step d (d.addPending e)
  | declares {x : Declaration} (mode : Option Mode) (h : x.exports = none) :
      Step d (d.addDeclaration x mode)
  | offers {e : Export} (h : ∀ kind, e.kind ≠ .declared kind) : Step d (d.addExport e)

/-- A draft is made from another one by steps. -/
abbrev Draft.Grows : Draft → Draft → Prop := Relation.ReflTransGen Draft.Step

section Walk

variable (source : List Char) {d : Draft}

theorem grows_foldl {α : Type} {f : Draft → α → Draft} (h : ∀ (d : Draft) a, d.Grows (f d a))
    (items : List α) (d : Draft) : d.Grows (items.foldl f d) := by
  induction items generalizing d with
  | nil => exact .refl
  | cons a rest ih => exact (h d a).trans (ih _)

theorem grows_addVariable (keyword : String) (mode : Option Mode) (d : Draft) (declarator : Tree) :
    d.Grows (addVariable source keyword mode d declarator) := by
  have hplain (name : String) : d.Grows (if mode.isSome then
      d.addDeclaration (valueAt source keyword name declarator) mode else d) := by
    split
    · exact .single (.declares mode rfl)
    · exact .refl
  unfold addVariable
  split
  · exact .refl
  split
  · exact .refl
  dsimp only
  split
  · exact hplain _
  split
  · exact .single (.declares mode rfl)
  split
  · split
    · exact .single (.takes _)
    · exact hplain _
  · exact hplain _

theorem grows_addExportList (t : Tree) (d : Draft) : d.Grows (addExportList source t d) := by
  unfold addExportList
  split
  · exact grows_foldl (fun _ _ => .single (.defers _)) _ d
  · refine .head (.takes _) (grows_foldl (fun _ _ => .single (.offers ?_)) _ _)
    intro kind hkind
    cases hkind

theorem grows_addDefaultValue (t : Tree) (d : Draft) : d.Grows (addDefaultValue source t d) := by
  unfold addDefaultValue
  split
  · exact .refl
  split
  · exact .single (.defers _)
  split
  · exact .single (.declares _ rfl)
  split
  · exact .refl
  · refine .single (.offers ?_)
    intro kind hkind
    cases hkind

theorem grows_addRequires (t : Tree) (d : Draft) : d.Grows (addRequires source t d) := by
  refine grows_foldl (fun d call => ?_) _ d
  split
  · exact .single (.takes _)
  · exact .refl

theorem grows_addImportStatement (t : Tree) (d : Draft) :
    d.Grows (addImportStatement source t d) := by
  unfold addImportStatement
  dsimp only
  split
  · exact .refl
  · exact .single (.takes _)

mutual

/-- A statement makes a draft grow, whatever is nested in it. -/
theorem grows_visit (mode : Option Mode) : ∀ (t : Tree) (d : Draft), d.Grows (visit source mode t d)
  | ⟨kind, role, start, stop, hasError, children⟩, d => by
    unfold visit
    split
    · dsimp only
      split
      · exact grows_visitRole _ _ children d
      split
      · exact (grows_addDefaultValue source _ d).trans (grows_visitClassValue children _)
      · exact grows_addExportList source _ d
    · exact grows_visitNamed mode children d
    · exact (grows_addRequires source _ d).trans (grows_visitModules mode children _)
    · exact grows_visitBody children d
    · exact grows_visitBody children d
    · exact grows_addImportStatement source _ d
    all_goals first
      | exact .single (.declares mode rfl)
      | exact grows_foldl (grows_addVariable source _ mode) _ d
      | exact .refl

theorem grows_visitRole (role : Role) (mode : Option Mode) :
    ∀ (children : List Tree) (d : Draft), d.Grows (visitRole source role mode children d)
  | [], d => by
    unfold visitRole
    exact .refl
  | t :: rest, d => by
    unfold visitRole
    split
    · exact grows_visit mode t d
    · exact grows_visitRole role mode rest d

theorem grows_visitClassValue :
    ∀ (children : List Tree) (d : Draft), d.Grows (visitClassValue source children d)
  | [], d => by
    unfold visitClassValue
    exact .refl
  | t :: rest, d => by
    unfold visitClassValue
    split
    · split
      · exact grows_visit _ t d
      · exact .refl
    · exact grows_visitClassValue rest d

theorem grows_visitNamed (mode : Option Mode) :
    ∀ (children : List Tree) (d : Draft), d.Grows (visitNamed source mode children d)
  | [], d => by
    unfold visitNamed
    exact .refl
  | t :: rest, d => by
    unfold visitNamed
    split
    · exact (grows_visit mode t d).trans (grows_visitNamed mode rest _)
    · exact grows_visitNamed mode rest d

theorem grows_visitModules (mode : Option Mode) :
    ∀ (children : List Tree) (d : Draft), d.Grows (visitModules source mode children d)
  | [], d => by
    unfold visitModules
    exact .refl
  | t :: rest, d => by
    unfold visitModules
    split
    · exact (grows_visitModules mode rest d).trans (grows_visit mode t _)
    · exact grows_visitModules mode rest d

theorem grows_visitBody :
    ∀ (children : List Tree) (d : Draft), d.Grows (visitBody source children d)
  | [], d => by
    unfold visitBody
    exact .refl
  | ⟨_, role, _, _, _, children⟩ :: rest, d => by
    unfold visitBody
    split
    · exact grows_visitNamed none children d
    · exact grows_visitBody rest d

end

end Walk

/-- The marks of a draft agree with its list of exports. -/
structure Draft.Marked (d : Draft) : Prop where
  listed : ∀ x ∈ d.declarations, ∀ name ∈ x.exportNames, ∃ e ∈ d.exports, e.name = name
  nodup : ∀ x ∈ d.declarations, x.exportNames.Nodup
  /-- What is listed as a declaration is marked under that name. -/
  declared : ∀ e ∈ d.exports, ∀ kind, e.kind = .declared kind →
    ∃ x ∈ d.declarations, x.kind = kind ∧ e.name ∈ x.exportNames

variable {d : Draft}

theorem marked_step {d' : Draft} (hstep : d.Step d') (h : d.Marked) : d'.Marked := by
  obtain ⟨hlist, hnd, hdecl⟩ := h
  cases hstep with
  | takes i => exact ⟨hlist, hnd, hdecl⟩
  | defers e => exact ⟨hlist, hnd, hdecl⟩
  | @offers e hkind => constructor <;> grind [Draft.addExport]
  | @declares x mode hunmarked =>
    have hnone : x.exportNames = [] := by rw [Declaration.exportNames, hunmarked, Option.getD_none]
    cases mode with
    | none => constructor <;> grind [Draft.addDeclaration]
    | some mode =>
      constructor <;> grind [Draft.addDeclaration, Draft.exportOf, cases Mode,
        Declaration.kind_addExport, Declaration.mem_exportNames_addExport,
        Declaration.nodup_exportNames_addExport]

/-- A name of an export list marks all declarations that it stands for, and is listed as what the
    last of them is. -/
theorem marked_settle (h : d.Marked) (e : LocalExport) : (d.settle e).Marked where
  listed := by
    intro y hy name hname
    obtain ⟨x, hx, rfl⟩ := mem_map.mp hy
    have hold (hname : name ∈ x.exportNames) : ∃ e' ∈ (d.settle e).exports, e'.name = name := by
      obtain ⟨e', he', rfl⟩ := h.listed x hx name hname
      exact ⟨e', mem_append_left _ he', rfl⟩
    split at hname
    · rcases Declaration.mem_exportNames_addExport.mp hname with hname | rfl
      · exact hold hname
      · exact ⟨_, mem_append_right _ mem_cons_self, rfl⟩
    · exact hold hname
  nodup := by
    intro y hy
    obtain ⟨x, hx, rfl⟩ := mem_map.mp hy
    split
    · exact Declaration.nodup_exportNames_addExport (h.nodup x hx)
    · exact h.nodup x hx
  declared := by
    intro listed hlist kind hkind
    -- A declaration stays what it is, and keeps its marks.
    suffices hx : ∃ x ∈ d.declarations, x.kind = kind ∧
        (listed.name ∈ x.exportNames ∨ x.name = e.name ∧ listed.name = e.exported) by
      obtain ⟨x, hx, rfl, hname⟩ := hx
      refine ⟨_, mem_map_of_mem hx, ?_⟩
      grind [Declaration.kind_addExport, Declaration.mem_exportNames_addExport]
    rcases mem_append.mp hlist with hold | hnew
    · obtain ⟨x, hx, hsame, hname⟩ := h.declared listed hold kind hkind
      exact ⟨x, hx, hsame, .inl hname⟩
    · obtain rfl := mem_singleton.mp hnew
      split at hkind
      · cases hkind
      next x hlast =>
        split at hkind
        · cases hkind
        obtain ⟨hx, hname⟩ := mem_filter.mp (mem_of_getLast? hlast)
        exact ⟨x, hx, ExportKind.declared.inj hkind, .inr ⟨of_decide_eq_true hname, rfl⟩⟩

theorem marked_draftOf (source : List Char) (t : Tree) : (draftOf source t).Marked := by
  have hgrown {d : Draft} (h : Draft.empty.Grows d) : d.Marked := by
    induction h with
    | refl => exact ⟨forall_mem_nil _, forall_mem_nil _, forall_mem_nil _⟩
    | tail _ hstep ih => exact marked_step hstep ih
  have hsettled := List.foldlRecOn (visitNamed source none t.children .empty).pending Draft.settle
    (hgrown (grows_visitNamed source none t.children .empty)) fun d h e _ => marked_settle h e
  exact ⟨hsettled.listed, hsettled.nodup, hsettled.declared⟩

/-- In the outline of any tree, marks and list of exports agree: every name under which a
    declaration is marked is listed, so the names that the file offers are the listed ones; no
    declaration is marked twice under a name; and what is listed as a declaration of some kind is
    a name under which a declaration of this kind is marked. -/
theorem marks_agree_with_exports (path hash : String) (source : List Char) (t : Tree) :
    let o := ofTree path hash source t
    (∀ x ∈ o.declarations, ∀ name ∈ x.exportNames, ∃ e ∈ o.exports, e.name = name) ∧
      o.exportNames = sortedSet (o.exports.map (·.name)) ∧
      (∀ x ∈ o.declarations, x.exportNames.Nodup) ∧
      ∀ e ∈ o.exports, ∀ kind, e.kind = .declared kind →
        ∃ x ∈ o.declarations, x.kind = kind ∧ e.name ∈ x.exportNames := by
  obtain ⟨hlisted, hnodup, hdeclared⟩ := marked_draftOf source t
  refine ⟨hlisted, sortedSet_eq_iff.mpr fun name => ?_, hnodup, hdeclared⟩
  rw [mem_append, or_iff_left_iff_imp]
  intro hmarked
  obtain ⟨x, hx, hname⟩ := mem_flatMap.mp hmarked
  exact mem_map.mpr (hlisted x hx name hname)

end Outline

end Ripple
