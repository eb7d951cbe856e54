import NetGet.Model.History
import NetGet.Verification.Redact.Agreement

/-! # No credential reaches the prompt history -/

namespace NetGet.History

open Json
open Redact

structure Exchange where
  eventType : String
  request : Value
  response : List Value
  limit : ℕ

/-- Exchanges of the same type and limit that agree up to their credentials. -/
structure Exchange.LowEq (exchange exchange' : Exchange) : Prop where
  eventType : exchange.eventType = exchange'.eventType
  request : Redact.LowEq isSensitiveEntry exchange.request exchange'.request
  response : LowEqValues isSensitiveEntry exchange.response exchange'.response
  limit : exchange.limit = exchange'.limit

section

variable (compact : Value → String) (valueSize : ℕ) {action action' : Value}
  {response response' : List Value}

def recordAll (history : ExchangeHistory) (exchanges : List Exchange) : ExchangeHistory :=
  exchanges.foldl (fun history exchange =>
    history.record compact valueSize exchange.eventType exchange.request exchange.response
      exchange.limit) history

theorem isSensitiveEntry_type (value : Value) : isSensitiveEntry "type" value = false := by
  have hkey : isSensitiveKey "type" = false := by decide
  have ha : (asciiLowercase "type" == "auth".toList) = false := by decide
  simp only [isSensitiveEntry, hkey, ha, Bool.false_and, Bool.false_eq_true, if_false, ite_self]

theorem actionType_eq (h : Redact.LowEq isSensitiveEntry action action') :
    actionType action = actionType action' := by
  cases h with
  | null | bool | number | string | array => rfl
  | object hf => exact hf.getField_asStr_eq isSensitiveEntry_type

theorem redactSensitive_eq_of_lowEq {value value' : Value}
    (h : Redact.LowEq isSensitiveEntry value value') :
    redactSensitive value = redactSensitive value' :=
  h.redactAt_eq (fun _ _ => isShownRedacted_of_isSensitiveEntry) 0

theorem renderAction_eq (h : Redact.LowEq isSensitiveEntry action action') :
    renderAction compact action = renderAction compact action' := by
  simp only [renderAction, redactSensitive_eq_of_lowEq h]

theorem renderEntry_eq (eventType : String) {request request' : Value}
    (hre : Redact.LowEq isSensitiveEntry request request')
    (hr : LowEqValues isSensitiveEntry response response') :
    renderEntry compact valueSize eventType request response =
      renderEntry compact valueSize eventType request' response' := by
  have ht := hr.map_eq actionType_eq
  have hany : (response.any fun action => actionType action == some "private_handler_result") =
      response'.any fun action => actionType action == some "private_handler_result" := by
    have h := congrArg (fun types => types.any (· == some "private_handler_result")) ht
    simpa [List.any_map, Function.comp_def] using h
  have hh : response.head?.bind actionType = response'.head?.bind actionType := by
    cases hr with
    | nil => rfl
    | cons ha _ => exact actionType_eq ha
  simp only [renderEntry, hre.containsCredentials_eq, hany, hh, hr.length_eq,
    renderAction_eq compact hre, redactSensitive_eq_of_lowEq hre,
    hr.map_eq (renderAction_eq compact)]

theorem recordAll_eq (history : ExchangeHistory) {exchanges exchanges' : List Exchange}
    (h : List.Forall₂ Exchange.LowEq exchanges exchanges') :
    recordAll compact valueSize history exchanges =
      recordAll compact valueSize history exchanges' := by
  induction h generalizing history with
  | nil => rfl
  | cons he _ ih =>
    simp only [recordAll, List.foldl_cons, ExchangeHistory.record, he.eventType, he.limit,
      renderEntry_eq compact valueSize _ he.request he.response] at ih ⊢
    exact ih _

/-- Whatever credentials a connection carried, the block shown to the model is the same. -/
theorem credential_noninterference {exchanges exchanges' : List Exchange}
    (h : List.Forall₂ Exchange.LowEq exchanges exchanges') (limit : ℕ) :
    (recordAll compact valueSize .new exchanges).render limit =
      (recordAll compact valueSize .new exchanges').render limit := by
  rw [recordAll_eq compact valueSize .new h]

end

/-- The compact text of strings without escapes and of objects of such strings. -/
def plainText : Value → String
  | .string s => "\"" ++ s ++ "\""
  | .object fields => "\x7b" ++ ",".intercalate (fields.map fun field =>
      "\"" ++ field.1 ++ "\":\"" ++ field.2.asStr.getD "" ++ "\"") ++ "\x7d"
  | _ => "null"

def loginExchange (password : String) : Exchange :=
  { eventType := "login"
    request := .object [("user", .string "ada")]
    response := [.object [("type", .string "accept"), ("password", .string password)]]
    limit := 3 }

theorem loginExchange_lowEq (password password' : String) :
    (loginExchange password).LowEq (loginExchange password') where
  eventType := rfl
  request := .object (.cons (.string "ada") .nil)
  response := .cons (.object (.cons (.string "accept") (.hide rfl rfl .nil))) .nil
  limit := rfl

theorem credential_noninterference_login :
    (recordAll plainText 32 .new [loginExchange "swordfish"]).render 3 =
      (recordAll plainText 32 .new [loginExchange "hunter2"]).render 3 :=
  credential_noninterference _ 32 (.cons (loginExchange_lowEq "swordfish" "hunter2") .nil) 3

end NetGet.History
