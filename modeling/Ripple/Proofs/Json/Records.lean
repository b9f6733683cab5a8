import Ripple.Json.Basic
import Ripple.Proofs.Dict

/-!
# Reading Written Records

What the readers of fields answer about fields that were written by their
counterparts. A record is read by the names of its fields, and all that
matters of a list of fields is what stands in it under a name. `under` is
that part of the list; it can be read off the way in which the list was put
together, and the readers are brought into a form that asks for it alone.

A field that is left out is told from one that is there by the list of fields
under its name being empty, so a value that may be missing comes back with
the difference kept.

## Theorems

* `Json.under_cons`, `Json.under_append`, `Json.under_field`: The fields under
  a name in a list that is put together.
* `Json.uint64_ofUInt64`, `Json.int64_ofInt64`: Words come back.
* `Json.listOf_map`, `Json.texts_ofTexts`, `Json.dictOf_ofDict`: Lists and maps
  come back.
-/

namespace Ripple

namespace Json

section Words

@[simp] theorem uint64_ofUInt64 (n : UInt64) : uint64? (ofUInt64 n) = some n := by
  have hcheck : (decide ((0 : Int) ≤ n.toNat) &&
      decide ((n.toNat : Int) < UInt64.size)) = true := by
    rw [Bool.and_eq_true, decide_eq_true_eq, decide_eq_true_eq]
    exact ⟨Int.natCast_nonneg _, Int.ofNat_lt.mpr n.toNat_lt_size⟩
  simp only [ofUInt64, uint64?]
  rw [if_pos hcheck, Int.toNat_natCast, UInt64.ofNat_toNat]

@[simp] theorem int64_ofInt64 (n : Int64) : int64? (ofInt64 n) = some n := by
  simp only [ofInt64, int64?, int64OfInt_toInt]

end Words

section Lists

variable {α : Type}

theorem mapM_map_of_forall {β : Type} {write : α → β} {read : β → Option α} {items : List α}
    (h : ∀ a ∈ items, read (write a) = some a) : (items.map write).mapM read = some items := by
  induction items with
  | nil => rfl
  | cons a items ih =>
    obtain ⟨ha, hitems⟩ := List.forall_mem_cons.mp h
    rw [List.map_cons, List.mapM_cons, ha, ih hitems]
    rfl

theorem listOf_map {write : α → Json} {read : Json → Option α} (h : ∀ a, read (write a) = some a)
    (items : List α) : listOf? read (list (items.map write)) = some items := by
  have hitems : (items.map write).mapM read = some items := mapM_map_of_forall fun a _ => h a
  rw [listOf?, list?, Option.bind_some, hitems]

@[simp] theorem text_text (s : String) : text? (text s) = some s := rfl

@[simp] theorem bool_bool (b : Bool) : bool? (bool b) = some b := rfl

@[simp] theorem texts_ofTexts (items : List String) : texts? (ofTexts items) = some items :=
  listOf_map text_text items

theorem dictOf_ofDict {write : α → Json} {read : Json → Option α}
    (h : ∀ a, read (write a) = some a) (d : Dict String α) :
    dictOf? read (ofDict write d) = some d := by
  have hents : (d.toList.map fun entry => (entry.1, write entry.2)).mapM
      (fun f => (read f.2).map (Prod.mk f.1)) = some d.toList :=
    mapM_map_of_forall fun entry _ => by rw [h, Option.map_some]
  simp only [ofDict, dictOf?]
  rw [hents, Option.map_some, Dict.ofList_toList]

end Lists

section Fields

variable {α : Type}

/-- The fields under a name. -/
def under (name : String) (fields : List (String × Json)) : List (String × Json) :=
  fields.filter fun f => f.1 = name

/-- What the fields under a name say. -/
def entryOf : List (String × Json) → Entry
  | [] => .absent
  | [f] => .value f.2
  | _ => .repeated

/-- What reading a field that has to be there makes of the fields under its name. -/
def requiredIn (read : Json → Option α) (found : List (String × Json)) : Option α :=
  match entryOf found with
  | .value j => read j
  | _ => none

/-- What reading a field with a fallback makes of the fields under its name. -/
def defaultIn (read : Json → Option α) (fallback : α) (found : List (String × Json)) : Option α :=
  match entryOf found with
  | .value j => read j
  | .absent | .cut => some fallback
  | .repeated => none

variable {read : Json → Option α} {name : String}

@[simp] theorem required_named (fields : List (String × Json)) (place : Nat) :
    (Record.named fields).required place name read = requiredIn read (under name fields) := by
  rfl

@[simp] theorem withDefault_named (fields : List (String × Json)) (place : Nat) (fallback : α) :
    (Record.named fields).withDefault place name read fallback =
      defaultIn read fallback (under name fields) := by
  rfl

@[simp] theorem optional_named (fields : List (String × Json)) (place : Nat) :
    (Record.named fields).optional place name read =
      defaultIn (nullable? read) none (under name fields) :=
  withDefault_named fields place none

@[simp] theorem requiredIn_singleton (f : String × Json) : requiredIn read [f] = read f.2 := by
  simp only [requiredIn, entryOf]

@[simp] theorem defaultIn_singleton (fallback : α) (f : String × Json) :
    defaultIn read fallback [f] = read f.2 := by
  simp only [defaultIn, entryOf]

/-- A value that may be missing comes back, if no value is written as null. -/
theorem defaultIn_field {write : α → Json} (hnull : ∀ a, write a ≠ null)
    (hread : ∀ a, read (write a) = some a) (value : Option α) :
    defaultIn (nullable? read) none (field? name write value) = some value := by
  cases value with
  | none => rfl
  | some a =>
    have hvalue : nullable? read (write a) = some (some a) := by
      unfold nullable?
      split
      case h_1 heq => exact absurd heq (hnull a)
      case h_2 => rw [hread, Option.map_some]
    rw [field?, defaultIn_singleton, hvalue]

/-- A list that is left out if it is empty comes back. -/
theorem defaultIn_fieldUnlessEmpty {write : α → Json} (hread : ∀ a, read (write a) = some a)
    (items : List α) :
    defaultIn (listOf? read) [] (fieldUnlessEmpty name write items) = some items := by
  cases items with
  | nil => rfl
  | cons a items => simp only [fieldUnlessEmpty, defaultIn_singleton, listOf_map hread]

section Texts

@[simp] theorem defaultIn_text (value : Option String) :
    defaultIn (nullable? text?) none (field? name text value) = some value := by
  have hnull : ∀ s, text s ≠ null := fun _ => Json.noConfusion
  exact defaultIn_field hnull text_text value

@[simp] theorem defaultIn_texts (value : Option (List String)) :
    defaultIn (nullable? texts?) none (field? name ofTexts value) = some value := by
  have hnull : ∀ items, ofTexts items ≠ null := fun _ => Json.noConfusion
  exact defaultIn_field hnull texts_ofTexts value

@[simp] theorem defaultIn_textsUnlessEmpty (items : List String) :
    defaultIn texts? [] (fieldUnlessEmpty name text items) = some items :=
  defaultIn_fieldUnlessEmpty text_text items

end Texts

@[simp] theorem under_nil : under name [] = [] := rfl

@[simp] theorem under_append (fields more : List (String × Json)) :
    under name (fields ++ more) = under name fields ++ under name more :=
  List.filter_append ..

@[simp] theorem under_cons (other : String) (j : Json) (fields : List (String × Json)) :
    under name ((other, j) :: fields) =
      if other = name then (other, j) :: under name fields else under name fields := by
  simp only [under, List.filter_cons, decide_eq_true_eq]

@[simp] theorem under_field (other : String) (write : α → Json) (value : Option α) :
    under name (field? other write value) =
      if other = name then field? other write value else [] := by
  cases value with
  | none => simp only [field?, under_nil, ite_self]
  | some a => simp only [field?, under_cons, under_nil]

@[simp] theorem under_fieldUnlessEmpty (other : String) (write : α → Json) (items : List α) :
    under name (fieldUnlessEmpty other write items) =
      if other = name then fieldUnlessEmpty other write items else [] := by
  cases items with
  | nil => simp only [fieldUnlessEmpty, under_nil, ite_self]
  | cons a items => simp only [fieldUnlessEmpty, under_cons, under_nil]

end Fields

end Json

end Ripple
