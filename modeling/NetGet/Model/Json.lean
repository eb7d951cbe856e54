import Mathlib.Data.Int.Notation
import Mathlib.Data.Nat.Notation

/-! # JSON values -/

namespace NetGet.Json

/-- `serde_json::Number`: an unsigned or a negative 64-bit integer, or the bits of a finite
float. -/
inductive Number where
  | posInt (n : ℕ)
  | negInt (n : ℤ)
  | float (bits : UInt64)
  deriving DecidableEq

/-- `serde_json::Value`. An object lists its fields in the iteration order of its map. -/
inductive Value where
  | null
  | bool (b : Bool)
  | number (n : Number)
  | string (s : String)
  | array (values : List Value)
  | object (fields : List (String × Value))

def Value.isNull : Value → Bool
  | .null => true
  | _ => false

def Value.isString : Value → Bool
  | .string _ => true
  | _ => false

def Value.asStr : Value → Option String
  | .string s => some s
  | _ => none

def Value.asObject : Value → Option (List (String × Value))
  | .object fields => some fields
  | _ => none

def getField (key : String) (fields : List (String × Value)) : Option Value :=
  (fields.find? fun field => field.1 == key).map Prod.snd

/-- `Value::get` with a string index. -/
def Value.get (key : String) (v : Value) : Option Value :=
  v.asObject.bind (getField key)

end NetGet.Json
