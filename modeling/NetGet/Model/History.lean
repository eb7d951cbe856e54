import NetGet.Model.Redact
import NetGet.Model.Truncate

/-! # The exchange history shown to the model

`compact` stands for the compact JSON text of a value and `valueSize` for the size of a
value in memory; both come from outside the repository. -/

namespace NetGet.History

open Json
open Library
open Redact
open Truncate

def historyPromptBudgetChars : ℕ := 4096
def historyEntryMaxChars : ℕ := 600
def answeredWithNext : String := "answered_together_with_next"
def injectedActionEvent : String := "injected_action"

structure HistoryEntry where
  seq : ℕ
  text : String
  deriving DecidableEq

structure ExchangeHistory where
  entries : List HistoryEntry
  recorded : ℕ
  deriving DecidableEq

def ExchangeHistory.new : ExchangeHistory := { entries := [], recorded := 0 }

section

variable (compact : Value → String) (valueSize : ℕ)

def renderAction (action : Value) : String :=
  let action := redactSensitive action
  match action.asObject with
  | some fields =>
    let name := ((getField "type" fields).bind Value.asStr).getD "action"
    let rest := fields.filter fun field => field.1 != "type"
    if rest.isEmpty then name else name ++ " " ++ compact (.object rest)
  | none => compact action

/-- `action.get("type").and_then(Value::as_str)`. -/
def actionType (action : Value) : Option String := (action.get "type").bind Value.asStr

def renderEntry (eventType : String) (request : Value) (response : List Value) : String :=
  let isPrivate := containsCredentials valueSize request ||
    response.any fun action => actionType action == some "private_handler_result"
  if isPrivate then
    eventType ++ " — carried credentials; its content is not repeated here"
  else
    let text :=
      if eventType == injectedActionEvent then
        "operator sent " ++ renderAction compact request
      else if response.length == 1 &&
          (response.head?.bind actionType) == some answeredWithNext then
        eventType ++ " " ++ compact (redactSensitive request) ++
          "\n   answered together with the next"
      else
        let answers := response.map (renderAction compact)
        let answered := if answers.isEmpty then "nothing" else "; ".intercalate answers
        eventType ++ " " ++ compact (redactSensitive request) ++ "\n   answered with: " ++
          answered
    truncateWithSuffix text historyEntryMaxChars " …(cut)"

def ExchangeHistory.trim (history : ExchangeHistory) (limit : ℕ) : ExchangeHistory :=
  { history with entries := history.entries.drop (history.entries.length - limit) }

/-- Record one exchange, keeping at most `limit` entries. The count is checked: at its last
value the call panics before it changes anything. -/
def ExchangeHistory.record (history : ExchangeHistory) (eventType : String) (request : Value)
    (response : List Value) (limit : ℕ) : ExchangeHistory :=
  if limit = 0 then history
  else
    match checkedAdd 64 history.recorded 1 with
    | none => history
    | some recorded =>
      let text := renderEntry compact valueSize eventType request response
      let entries := history.entries ++ [{ seq := recorded, text }]
      { entries, recorded : ExchangeHistory }.trim limit

end

/-- The loop of `render`: take entries, newest first, while they fit the budget; the first
is always taken. -/
def choose (used : ℕ) (chosen : List HistoryEntry) : List HistoryEntry → List HistoryEntry
  | [] => chosen
  | entry :: rest =>
    let cost := entry.text.utf8ByteSize + 8
    if used + cost > historyPromptBudgetChars ∧ chosen ≠ [] then chosen
    else choose (used + cost) (entry :: chosen) rest

def ExchangeHistory.render (history : ExchangeHistory) (limit : ℕ) : Option String :=
  if limit = 0 ∨ history.entries.isEmpty then none
  else
    let chosen := choose 0 [] (history.entries.reverse.take limit)
    let omitted := history.recorded - chosen.length
    let shown :=
      if omitted > 0 then
        " (" ++ toString chosen.length ++ " shown; " ++ toString omitted ++
          " earlier not shown — keep anything that must outlive this in memory)"
      else ""
    some ("Earlier on this connection, oldest first" ++ shown ++
      ". Each was already answered; it is here for context. Answer only the event below.\n" ++
      String.join (chosen.map fun entry =>
        "#" ++ toString entry.seq ++ " " ++ entry.text ++ "\n"))

end NetGet.History
