import Mathlib.Algebra.Ring.Nat
import NetGet.Model.Json
import NetGet.Model.Truncate

/-! # Conversations with the model

`ConversationHandler` bounds the messages of one request, `ConversationState` keeps a window of
messages between requests. -/

namespace NetGet.Conversation

open Truncate

structure Message where
  role : String
  content : String
  toolCallId : Option String
  deriving DecidableEq

def Message.user (content : String) : Message := { role := "user", content, toolCallId := none }

def trimNotice : String :=
  "[Earlier turns of this conversation were omitted to bound the prompt size. " ++
    "The system message and the original request above are intact.]"

structure ConversationHandler where
  messages : List Message
  maxHistoryMessages : ℕ
  maxHistoryChars : ℕ
  trimGeneration : ℕ
  deriving DecidableEq

namespace ConversationHandler

/-- The characters of everything but the system message. -/
def historyChars (c : ConversationHandler) : ℕ :=
  ((c.messages.drop 1).map (·.content.utf8ByteSize)).sum

def overHistoryBudget (c : ConversationHandler) : Bool :=
  c.messages.length > c.maxHistoryMessages || c.historyChars > c.maxHistoryChars

/-- How many messages from the first on are never dropped. -/
def protectedCount (c : ConversationHandler) : ℕ :=
  if c.messages[1]?.any (·.role == "user") then 2 else 1

/-- The loop of `trim_history`, with the flag `removed_any`. -/
def dropOldest (count : ℕ) : ℕ → ConversationHandler → Bool → ConversationHandler × Bool
  | 0, c, removedAny => (c, removedAny)
  | rounds + 1, c, removedAny =>
    if c.messages.length > count + 2 && c.overHistoryBudget then
      dropOldest count rounds { c with messages := c.messages.eraseIdx count } true
    else (c, removedAny)

def trimHistory (c : ConversationHandler) : ConversationHandler :=
  if !c.overHistoryBudget then c
  else
    let count := c.protectedCount
    let (kept, removedAny) := dropOldest count c.messages.length c false
    if !removedAny then kept
    else
      let noticed := kept.messages.insertIdx count (.user trimNotice)
      -- the notice itself counts against the message cap
      let messages :=
        if noticed.length > c.maxHistoryMessages && noticed.length > count + 3 then
          noticed.eraseIdx (count + 1)
        else noticed
      { kept with messages, trimGeneration := kept.trimGeneration + 1 }

end ConversationHandler

inductive MessageRole where
  | user
  | assistant
  | system
  deriving DecidableEq

inductive MessageType where
  | userInput (input : String)
  | llmResponse (actionJson : Option Json.Value) (rawOutput : String)
  | retryInstruction (instruction : String)
  | toolCall (toolName description : String)

structure ConversationMessage where
  role : MessageRole
  content : String
  messageType : MessageType

structure ConversationState where
  messages : List ConversationMessage
  maxTokenSize : ℕ
  currentSize : ℕ
  truncated : Bool

def maxMessages : ℕ := 1024
def truncationMarker : String := "…(truncated)"

namespace ConversationState

def new (maxTokenSize : ℕ) : ConversationState :=
  { messages := [], maxTokenSize, currentSize := 0, truncated := false }

def boundMessage (maxTokenSize : ℕ) (content : String) : String :=
  let cap := min (max (maxTokenSize / 2) 1) maxTokenSize
  if content.utf8ByteSize ≤ cap then content
  else if cap < truncationMarker.utf8ByteSize then truncateStr content cap
  else truncateWithSuffix content (cap - truncationMarker.utf8ByteSize) truncationMarker

/-- The loop of `add_message`: the oldest messages make room for `size` more bytes. -/
def makeRoom (size : ℕ) : List ConversationMessage → ConversationState → ConversationState
  | [], s => s
  | removed :: messages, s =>
    if s.currentSize + size > s.maxTokenSize ∨ (removed :: messages).length ≥ maxMessages then
      makeRoom size messages
        { s with messages, currentSize := s.currentSize - removed.content.utf8ByteSize,
                 truncated := true }
    else s

def addMessage (s : ConversationState) (message : ConversationMessage) : ConversationState :=
  let size := message.content.utf8ByteSize
  if size = 0 then s
  else
    let s := s.makeRoom size s.messages
    { s with currentSize := s.currentSize + size, messages := s.messages ++ [message] }

/-- The calls that change the messages. `withinBudget` is the budget check on a parsed action. -/
inductive Call where
  | addUserInput (input : String)
  | addLlmResponse (response : String) (parsedAction : Option Json.Value)
  | addRetryInstruction (instruction : String)
  | addToolCall (toolName briefDescription : String)
  | clearHistory

def message (withinBudget : ℕ → Json.Value → Bool) (maxTokenSize : ℕ) :
    Call → Option ConversationMessage
  | .addUserInput input =>
    let input := boundMessage maxTokenSize input
    some ⟨.user, input, .userInput input⟩
  | .addLlmResponse response parsedAction =>
    let response := boundMessage maxTokenSize response
    some ⟨.assistant, response,
      .llmResponse (parsedAction.filter (withinBudget (maxTokenSize / 2))) response⟩
  | .addRetryInstruction instruction =>
    let instruction := boundMessage maxTokenSize instruction
    some ⟨.system, instruction, .retryInstruction instruction⟩
  | .addToolCall toolName briefDescription =>
    let toolName := truncateStr toolName (min 128 maxTokenSize)
    let description := boundMessage maxTokenSize briefDescription
    some ⟨.system,
      boundMessage maxTokenSize ("Tool Call - " ++ toolName ++ " (" ++ description ++ ")"),
      .toolCall toolName description⟩
  | .clearHistory => none

def step (withinBudget : ℕ → Json.Value → Bool) (s : ConversationState) (call : Call) :
    ConversationState :=
  match message withinBudget s.maxTokenSize call with
  | some message => s.addMessage message
  | none => { s with messages := [], currentSize := 0, truncated := false }

end ConversationState

end NetGet.Conversation
