import Ripple.Dict
import Ripple.Text.Digits

/-!
# JSON Values

A JSON value keeps the fields of an object in the order in which they are
written, because that order shows in stored text. Integers are kept apart
from other numbers: a field that asks for an integer takes no fraction.

Records are read field by field. A field is found by its name, or by its
place if the record is written as a list. A field that is read may stand
only once; fields that nobody asks for are passed over.
-/

namespace Ripple

inductive Json where
  | null
  | bool (value : Bool)
  | int (value : Int)
  | float (value : Float)
  | text (value : String)
  | list (items : List Json)
  | object (fields : List (String × Json))
deriving Inhabited

namespace Json

def bool? : Json → Option Bool
  | bool b => some b
  | _ => none

def text? : Json → Option String
  | text s => some s
  | _ => none

/-- The name of one of several alternatives: a text, or an object whose only field is null. -/
def variant? : Json → Option String
  | text s => some s
  | object [(s, null)] => some s
  | _ => none

def list? : Json → Option (List Json)
  | list items => some items
  | _ => none

def object? : Json → Option (List (String × Json))
  | object fields => some fields
  | _ => none

def int? : Json → Option Int
  | int n => some n
  | _ => none

/-- An integer without sign that fits in 64 bits. -/
def uint64? : Json → Option UInt64
  | int n => if 0 ≤ n && n < UInt64.size then some (.ofNat n.toNat) else none
  | _ => none

/-- An integer without sign that fits in 32 bits. -/
def uint32? : Json → Option UInt32
  | int n => if 0 ≤ n && n < UInt32.size then some (.ofNat n.toNat) else none
  | _ => none

/-- An integer that fits in 64 bits with its sign. -/
def int64? : Json → Option Int64
  | int n => int64OfInt? n
  | _ => none

def float? : Json → Option Float
  | float x => some x
  | int n => some (Float.ofInt n)
  | _ => none

variable {α : Type}

/-- A list whose items are all readable. -/
def listOf? (read : Json → Option α) (j : Json) : Option (List α) :=
  j.list?.bind fun items => items.mapM read

def texts? (j : Json) : Option (List String) := listOf? text? j

def nullable? (read : Json → Option α) : Json → Option (Option α)
  | null => some none
  | j => (read j).map some

/-- A map with text keys; of equal keys the last one counts. -/
def dictOf? (read : Json → Option α) (j : Json) : Option (Dict String α) :=
  match j with
  | object fields => (fields.mapM fun f => (read f.2).map (Prod.mk f.1)).map Dict.ofList
  | _ => none

def ofTexts (items : List String) : Json := list (items.map text)

def ofUInt64 (n : UInt64) : Json := int n.toNat

def ofInt64 (n : Int64) : Json := int n.toInt

def ofNat (n : Nat) : Json := int n

/-- A map with text keys. -/
def ofDict (write : α → Json) (d : Dict String α) : Json :=
  object (d.toList.map fun (key, value) => (key, write value))

def ofOption (write : α → Json) : Option α → Json
  | some a => write a
  | none => null

/-- A field that is left out if there is no value. -/
def field? (name : String) (write : α → Json) (value : Option α) : List (String × Json) :=
  match value with
  | some a => [(name, write a)]
  | none => []

def fieldUnlessEmpty (name : String) (write : α → Json) (items : List α) : List (String × Json) :=
  match items with
  | [] => []
  | _ => [(name, list (items.map write))]

/-- The fields of a record, by name or by place. -/
inductive Record where
  | named (fields : List (String × Json))
  /-- The values of the fields in their order. -/
  | placed (items : List Json)

/-- What a record says of a field. -/
inductive Entry where
  | value (j : Json)
  | absent
  /-- The list of values ends before the field. -/
  | cut
  | repeated

namespace Record

/-- What a record says of the field with a name and a place. -/
def entry (r : Record) (place : Nat) (name : String) : Entry :=
  match r with
  | named fields =>
    match fields.filter fun f => f.1 = name with
    | [] => .absent
    | [f] => .value f.2
    | _ => .repeated
  | placed items =>
    match items[place]? with
    | some j => .value j
    | none => .cut

def required {α : Type} (r : Record) (place : Nat) (name : String) (read : Json → Option α) :
    Option α :=
  match r.entry place name with
  | .value j => read j
  | _ => none

/-- A field that falls back on a value if it is not there. -/
def withDefault {α : Type} (r : Record) (place : Nat) (name : String) (read : Json → Option α)
    (fallback : α) : Option α :=
  match r.entry place name with
  | .value j => read j
  | .absent | .cut => some fallback
  | .repeated => none

/-- A field that may be missing or null. -/
def optional {α : Type} (r : Record) (place : Nat) (name : String) (read : Json → Option α) :
    Option (Option α) :=
  r.withDefault place name (nullable? read) none

end Record

/-- Reads a record with a number of fields. -/
def record? (size : Nat) (read : Record → Option α) : Json → Option α
  | object fields => read (.named fields)
  | list items => if items.length ≤ size then read (.placed items) else none
  | _ => none

/-- A record of one of several kinds, with a word for its kind. -/
def tagged (kind : String) (fields : List (String × Json)) : Json :=
  object (("type", text kind) :: fields)

/-- The word for the kind of a record, and the rest of the record. -/
def tagged? : Json → Option (String × Json)
  | object fields =>
    match fields.filter fun f => f.1 = "type" with
    | [(_, text kind)] => some (kind, object (fields.filter fun f => f.1 ≠ "type"))
    | _ => none
  | list (text kind :: items) => some (kind, list items)
  | _ => none

def get? (j : Json) (name : String) : Option Json :=
  match j with
  | object fields => (fields.reverse.find? fun f => f.1 = name).map Prod.snd
  | _ => none

/-- Sets a field in a list of fields, in the place of an earlier one. -/
def setField (name : String) (value : Json) : List (String × Json) → List (String × Json)
  | [] => [(name, value)]
  | f :: rest => if f.1 = name then (name, value) :: rest else f :: setField name value rest

mutual

/-- The value in which every object has each field once, with the last of its values. -/
def distinct : Json → Json
  | list items => list (distinctItems items)
  | object fields => object (distinctFields [] fields)
  | j => j

/-- The items of a list, each with distinct fields. -/
def distinctItems : List Json → List Json
  | [] => []
  | j :: rest => j.distinct :: distinctItems rest

/-- Fields added to others one by one. -/
def distinctFields (found : List (String × Json)) : List (String × Json) → List (String × Json)
  | [] => found
  | (name, j) :: rest => distinctFields (setField name j.distinct found) rest

end

end Json

class ToJson (α : Type) where
  toJson : α → Json

class OfJson (α : Type) where
  ofJson? : Json → Option α

def Json.of {α : Type} [ToJson α] (a : α) : Json := ToJson.toJson a

def Json.as? {α : Type} [OfJson α] (j : Json) : Option α := OfJson.ofJson? j

section Instances

variable {α β : Type}

instance : ToJson Json := ⟨id⟩

instance : ToJson String := ⟨Json.text⟩

instance : ToJson Bool := ⟨Json.bool⟩

instance : ToJson Float := ⟨Json.float⟩

instance : ToJson Nat := ⟨Json.ofNat⟩

instance : ToJson UInt64 := ⟨Json.ofUInt64⟩

instance : ToJson Int64 := ⟨Json.ofInt64⟩

instance [ToJson α] : ToJson (Option α) := ⟨Json.ofOption Json.of⟩

instance [ToJson α] : ToJson (List α) := ⟨fun items => .list (items.map Json.of)⟩

instance [ToJson α] : ToJson (Dict String α) := ⟨Json.ofDict Json.of⟩

instance : OfJson Json := ⟨some⟩

instance : OfJson String := ⟨Json.text?⟩

instance : OfJson Bool := ⟨Json.bool?⟩

instance : OfJson Float := ⟨Json.float?⟩

instance : OfJson Nat := ⟨fun j => j.uint64?.map UInt64.toNat⟩

instance : OfJson UInt32 := ⟨Json.uint32?⟩

instance : OfJson Int64 := ⟨Json.int64?⟩

instance [OfJson α] : OfJson (List α) := ⟨Json.listOf? Json.as?⟩

instance [OfJson α] : OfJson (Dict String α) := ⟨Json.dictOf? Json.as?⟩

instance [OfJson α] [OfJson β] : OfJson (α × β) where
  ofJson?
    | .list [a, b] => do return (← a.as?, ← b.as?)
    | _ => none

end Instances

end Ripple
