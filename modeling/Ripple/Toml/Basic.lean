import Ripple.Json.Basic

/-!
# TOML Values

The values of a configuration file. Points in time are kept as they are
written, because no setting is one.
-/

namespace Ripple

inductive Toml where
  | bool (value : Bool)
  | int (value : Int)
  | float (value : Float)
  | text (value : String)
  | time (written : String)
  | array (items : List Toml)
  | table (fields : List (String × Toml))
deriving Inhabited

namespace Toml

mutual

def toJson : Toml → Json
  | bool b => .bool b
  | int n => .int n
  | float x => .float x
  | text s => .text s
  | time s => .object [("time", .text s)]
  | array items => .list (itemsToJson items)
  | table fields => .object (fieldsToJson fields)

def itemsToJson : List Toml → List Json
  | [] => []
  | t :: rest => t.toJson :: itemsToJson rest

def fieldsToJson : List (String × Toml) → List (String × Json)
  | [] => []
  | (name, t) :: rest => (name, t.toJson) :: fieldsToJson rest

end

end Toml

end Ripple
