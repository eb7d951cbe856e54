import NetGet.Library.Arith
import NetGet.Model.Json
import Mathlib.Data.List.Infix

/-! # Credentials in JSON

Which entries hold credentials, the detector that marks a whole request private, and the
redactor that hides single values. -/

namespace NetGet.Redact

open Json
open Library

def sensitiveKeyParts : List String :=
  ["secret", "password", "passphrase", "passwd", "api_key", "apikey", "private_key",
    "privatekey", "credential", "access_token", "accesstoken", "refresh_token",
    "refreshtoken", "id_token", "idtoken", "auth_token", "authtoken", "authorization",
    "cookie", "proxy_auth", "app_key", "appkey", "nwk_key", "nwkkey", "nwk_s_key",
    "nwkskey", "app_s_key", "appskey"]

def displayOnlyKeyParts : List String := ["passcode", "community"]

def redacted : String := "<redacted>"

/-- `str::contains` with a string pattern, on characters. -/
def contains (part : String) (key : List Char) : Bool := decide (part.toList <:+: key)

/-- `str::to_ascii_lowercase`, as characters. -/
def asciiLowercase (key : String) : List Char := key.toList.map Char.toLower

def isSensitiveKey (key : String) : Bool :=
  let key := (asciiLowercase key).map fun c => if c = '-' then '_' else c
  key == "token".toList || "_token".toList.isSuffixOf key ||
    sensitiveKeyParts.any fun part => contains part key

def isSensitiveEntry (key : String) (value : Value) : Bool :=
  if value.isNull then false
  else if isSensitiveKey key then true
  else asciiLowercase key == "auth".toList && value.isString

def isShownRedacted (key : String) (value : Value) : Bool :=
  if value.isNull then false
  else if isSensitiveEntry key value then true
  else displayOnlyKeyParts.any fun part => contains part (asciiLowercase key)

def maxNodes : ℕ := 4096
def maxDepth : ℕ := 64
def maxBytes : ℕ := 256 * 1024

/-- The loop over the fields of an object: the bytes counted so far and the values still to
visit, the next one first, or `none` once the object is known to be private. -/
def visitFields (depth : ℕ) :
    List (String × Value) → ℕ → List (Value × ℕ) → Option (ℕ × List (Value × ℕ))
  | [], bytes, pending => some (bytes, pending)
  | (key, value) :: fields, bytes, pending =>
    let bytes := saturatingAdd 64 bytes key.utf8ByteSize
    if bytes > maxBytes then none
    else if isSensitiveEntry key value then none
    else visitFields depth fields bytes ((value, depth + 1) :: pending)

/-- One turn of the loop, `budget` nodes before the last one allowed: what is counted and
what is still to visit, or `none` once the request is known to be private. -/
def visit (budget bytes : ℕ) (value : Value) (depth : ℕ) (pending : List (Value × ℕ)) :
    Option (ℕ × List (Value × ℕ)) :=
  match value with
  | .string s => some (saturatingAdd 64 bytes s.utf8ByteSize, pending)
  | .array values =>
    if values.length > budget - pending.length then none
    else some (bytes, (values.map fun value => (value, depth + 1)).reverse ++ pending)
  | .object fields =>
    if fields.length > budget - pending.length then none
    else visitFields depth fields bytes pending
  | _ => some (bytes, pending)

/-- The loop of `contains_credentials`. `budget` is `MAX_NODES - nodes`; `valueSize` is the
size of a value in memory. -/
def walk (valueSize : ℕ) : ℕ → ℕ → List (Value × ℕ) → Bool
  | _, _, [] => false
  | 0, _, _ :: _ => true
  | budget + 1, bytes, (value, depth) :: pending =>
    let bytes := saturatingAdd 64 bytes valueSize
    if depth > maxDepth ∨ bytes > maxBytes then true
    else
      match visit budget bytes value depth pending with
      | none => true
      | some (bytes, pending) =>
        if bytes > maxBytes then true else walk valueSize budget bytes pending

def containsCredentials (valueSize : ℕ) (value : Value) : Bool :=
  walk valueSize maxNodes 0 [(value, 0)]

def maxRedactDepth : ℕ := 64

mutual

def redactAt : Value → ℕ → Value
  | .object fields, depth =>
    if depth > maxRedactDepth then .string redacted else .object (redactFields fields depth)
  | .array values, depth =>
    if depth > maxRedactDepth then .string redacted else .array (redactValues values depth)
  | value, depth => if depth > maxRedactDepth then .string redacted else value

def redactFields : List (String × Value) → ℕ → List (String × Value)
  | [], _ => []
  | (key, value) :: fields, depth =>
    (key, if isShownRedacted key value then .string redacted else redactAt value (depth + 1)) ::
      redactFields fields depth

def redactValues : List Value → ℕ → List Value
  | [], _ => []
  | value :: values, depth => redactAt value (depth + 1) :: redactValues values depth

end

def redactSensitive (value : Value) : Value := redactAt value 0

end NetGet.Redact
