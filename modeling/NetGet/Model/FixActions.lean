import NetGet.Model.Basic
import NetGet.Model.Fix
import NetGet.Model.Json

/-! # The body of a FIX message as an action gives it -/

namespace NetGet.Fix

open Json Library

def sessionTags : List ℕ := [8, 9, 10, 34, 35, 43, 49, 52, 56, 97, 122]

/-- The dictionary of field names, and how the source prints a float and a quoted string. -/
structure Dict where
  fieldTag : String → Option ℕ
  fieldTag_range : ∀ name tag, fieldTag name = some tag → 1 ≤ tag ∧ tag < 10 ^ 9
  floatText : UInt64 → String
  debugText : String → String

def hasControls (s : String) : Bool := s.toList.any isControl

def fieldTagOf (dict : Dict) (f : Value) : Except String ℕ :=
  match f.get "tag", (f.get "name").bind Value.asStr with
  | some (.number (.posInt t)), _ =>
    if 1 ≤ t ∧ t ≤ 999999 then .ok t else .error "tag is 1 to 999999"
  | _, some n =>
    match dict.fieldTag n with
    | some t => .ok t
    | none => .error (dict.debugText n ++ " is not a FIX 4.4 field name; give its tag number")
  | _, none => .error "each field has a tag or a name"

def fieldText (dict : Dict) (tag : ℕ) (f : Value) : Except String String :=
  match f.get "value" with
  | some (.string s) => .ok s
  | some (.number (.posInt n)) => .ok (toString n)
  | some (.number (.negInt n)) => .ok (toString n)
  | some (.number (.float bits)) => .ok (dict.floatText bits)
  | _ => .error s!"tag {tag}: value is a string or number"

/-- The check on one entry of `fields`. -/
def bodyField (dict : Dict) (f : Value) : Except String Field := do
  let tag ← fieldTagOf dict f
  ensure (!sessionTags.contains tag) s!"tag {tag} belongs to the session header or trailer"
  let value ← fieldText dict tag f
  ensure (value != "" && decide ((utf8 value).length ≤ 4096) && !hasControls value)
    s!"tag {tag}: value is 1 to 4096 printable characters"
  return (tag, value)

def bodyFields (dict : Dict) (v : Value) : Except String (List Field) :=
  match v.get "fields" with
  | some (.array list) =>
    if list.length ≤ 500 then list.mapM (bodyField dict)
    else .error "fields is an array of at most 500 \x7bname|tag, value\x7d"
  | _ => .error "fields is an array of at most 500 \x7bname|tag, value\x7d"

end NetGet.Fix
