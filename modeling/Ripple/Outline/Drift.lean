import Ripple.Outline.Diff
import Ripple.Risk

/-!
# Drift of Declarations

How far the declarations of a file have moved: the least number of keys to
insert, delete or substitute to come from the sorted keys of the old version
to those of the new one.

The costs of all pairs of beginnings are put in a table, row by row over the
old keys. Then the steps are read off the table backwards from its last cell,
by what can have led to the cost of a cell: keeping a key goes before
deleting, deleting before inserting, and what is left is a substitution.
-/

namespace Ripple

open Json

/-- One step from an old sequence to a new one. -/
inductive Edit (α : Type) where
  | keep (a : α)
  | delete (a : α)
  | insert (b : α)
  | substitute (a b : α)
deriving DecidableEq, Repr

namespace Edit

variable {α : Type}

def inserted? : Edit α → Option α
  | insert b => some b
  | _ => none

def deleted? : Edit α → Option α
  | delete a => some a
  | _ => none

/-- The items that a step puts one for the other. -/
def substituted? : Edit α → Option (α × α)
  | substitute a b => some (a, b)
  | _ => none

end Edit

section Table

variable {α : Type} [DecidableEq α]

/-- The costs from no old items to each beginning of the new items. -/
def firstRow (new : List α) : List Nat := List.range (new.length + 1)

/-- The cost with an old and a new item, from the costs without both, without the old, and without
the new one. -/
def cellCost (a b : α) (neither withoutOld withoutNew : Nat) : Nat :=
  min (min (withoutOld + 1) (withoutNew + 1)) (neither + if a = b then 0 else 1)

/-- The costs with one more old item, from those without it; the costs with one new item less come
first. -/
def extendRow (a : α) : Nat → Nat → List Nat → List α → List Nat
  | neither, withoutNew, withoutOld :: row, b :: bs =>
    let cost := cellCost a b neither withoutOld withoutNew
    cost :: extendRow a withoutOld cost row bs
  | _, _, _, _ => []

def nextRow (new : List α) (row : List Nat) (a : α) : List Nat :=
  match row with
  | [] => []
  | cost :: rest => (cost + 1) :: extendRow a cost (cost + 1) rest new

/-- A row of costs, with those for further old items below it. -/
def rowsFrom (new : List α) (row : List Nat) : List α → List (List Nat)
  | [] => [row]
  | a :: old => row :: rowsFrom new (nextRow new row a) old

def costTable (old new : List α) : List (List Nat) := rowsFrom new (firstRow new) old

/-- The cost in a table of some old and some new items. -/
def costAt (table : List (List Nat)) (i j : Nat) : Nat := ((table[i]?.getD [])[j]?).getD 0

/-- What is read off a table backwards. -/
structure Trace (α : Type) where
  /-- The steps, the last one first. -/
  edits : List (Edit α)
  /-- The cell at which reading ends: how many old and new items are left. -/
  stop : Nat × Nat

/-- A trace with one more step before it is read on. -/
def Trace.after (e : Edit α) (t : Trace α) : Trace α := ⟨e :: t.edits, t.stop⟩

/-- The steps that are read off a table, from the cell of some old and new items with the last item
of each first. Reading goes on until no item is left, or else ends where nothing fits. -/
def traceBack (table : List (List Nat)) : List α → List α → Trace α
  | [], [] => ⟨[], (0, 0)⟩
  | a :: old, [] =>
    if costAt table (old.length + 1) 0 = costAt table old.length 0 + 1 then
      (traceBack table old []).after (.delete a)
    else ⟨[], (old.length + 1, 0)⟩
  | [], b :: new =>
    if costAt table 0 (new.length + 1) = costAt table 0 new.length + 1 then
      (traceBack table [] new).after (.insert b)
    else ⟨[], (0, new.length + 1)⟩
  | a :: old, b :: new =>
    let cost := costAt table (old.length + 1) (new.length + 1)
    if a = b && cost = costAt table old.length new.length then
      (traceBack table old new).after (.keep a)
    else if cost = costAt table old.length (new.length + 1) + 1 then
      (traceBack table old (b :: new)).after (.delete a)
    else if cost = costAt table (old.length + 1) new.length + 1 then
      (traceBack table (a :: old) new).after (.insert b)
    else (traceBack table old new).after (.substitute a b)
termination_by old new => old.length + new.length

end Table

/-- How far the declarations of a file have moved. -/
structure Drift where
  distance : Nat
  inserted : List DeclarationKey
  deleted : List DeclarationKey
  substituted : List (DeclarationKey × DeclarationKey)
  points : Nat

def maxDriftPoints : Nat := 100

/-- The costs of all pairs of beginnings of the keys of two versions. -/
def Outline.driftTable (old new : Outline) : List (List Nat) :=
  costTable old.index.keys new.index.keys

/-- The steps from the keys of one version to those of another. -/
def Outline.driftTrace (old new : Outline) : Trace DeclarationKey :=
  traceBack (old.driftTable new) old.index.keys.reverse new.index.keys.reverse

/-- The drift between two versions of a file, with the points that each change counts. -/
def Outline.drift (old new : Outline) (weight : UInt32) : Drift :=
  let distance := costAt (old.driftTable new) old.index.size new.index.size
  let edits := (old.driftTrace new).edits.reverse
  { distance
    inserted := edits.filterMap Edit.inserted?
    deleted := edits.filterMap Edit.deleted?
    substituted := edits.filterMap Edit.substituted?
    points := min (distance * weight.toNat) maxDriftPoints }

def Drift.toJson (d : Drift) : Json :=
  .object
    [("distance", ofNat d.distance), ("inserted", ofTexts (d.inserted.map (·.text))),
      ("deleted", ofTexts (d.deleted.map (·.text))),
      ("substituted", .list (d.substituted.map fun (a, b) => ofTexts [a.text, b.text])),
      ("risk_score", (Score.points d.points).toJson)]

instance : ToJson Drift := ⟨Drift.toJson⟩

end Ripple
