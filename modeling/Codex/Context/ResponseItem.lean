import Mathlib
import Codex.Text.Basic

namespace Codex.Context

/-!
# Response items

The items of a thread's transcript, as the protocol crate declares them.

* `ContentItem`, `FunctionCallOutputPayload` — the contents of messages and of tool outputs.
* `ResponseItem` — one transcript item: messages, reasoning, calls and their outputs.
* `TruncationPolicy` — how much of a tool output the history keeps.

A JSON value (`serde_json::Value`) stands as its text, an unordered map as a list of pairs.
-/

inductive ImageDetail where
  | auto | low | high | original
  deriving DecidableEq

inductive ContentItem where
  | inputText (text : Text)
  | inputImage (imageUrl : Text) (detail : Option ImageDetail)
  | outputText (text : Text)
  deriving DecidableEq

inductive AgentMessageInputContent where
  | inputText (text : Text)
  | encryptedContent (encryptedContent : Text)
  deriving DecidableEq

inductive MessagePhase where
  | commentary | finalAnswer
  deriving DecidableEq

structure ResponseItemMetadata where
  turnId : Option Text
  deriving DecidableEq

inductive ReasoningItemReasoningSummary where
  | summaryText (text : Text)
  deriving DecidableEq

inductive ReasoningItemContent where
  | reasoningText (text : Text)
  | text (text : Text)
  deriving DecidableEq

inductive LocalShellStatus where
  | completed | inProgress | incomplete
  deriving DecidableEq

/-- `LocalShellAction`; running a command is its only kind. -/
structure LocalShellExecAction where
  command : List Text
  timeoutMs : Option ℕ
  workingDirectory : Option Text
  env : Option (List (Text × Text))
  user : Option Text
  deriving DecidableEq

inductive WebSearchAction where
  | search (query : Option Text) (queries : Option (List Text))
  | openPage (url : Option Text)
  | findInPage (url : Option Text) (pattern : Option Text)
  | other
  deriving DecidableEq

inductive FunctionCallOutputContentItem where
  | inputText (text : Text)
  | inputImage (imageUrl : Text) (detail : Option ImageDetail)
  | encryptedContent (encryptedContent : Text)
  deriving DecidableEq

inductive FunctionCallOutputBody where
  | text (content : Text)
  | contentItems (items : List FunctionCallOutputContentItem)
  deriving DecidableEq

structure FunctionCallOutputPayload where
  body : FunctionCallOutputBody
  success : Option Bool
  deriving DecidableEq

/-- A payload of plain text. -/
def FunctionCallOutputPayload.fromText (content : Text) : FunctionCallOutputPayload where
  body := .text content
  success := none

/-- One item of the transcript. -/
inductive ResponseItem where
  | message (id : Option Text) (role : Text) (content : List ContentItem)
      (phase : Option MessagePhase) (metadata : Option ResponseItemMetadata)
  | agentMessage (author recipient : Text) (content : List AgentMessageInputContent)
      (metadata : Option ResponseItemMetadata)
  | reasoning (id : Text) (summary : List ReasoningItemReasoningSummary)
      (content : Option (List ReasoningItemContent)) (encryptedContent : Option Text)
      (metadata : Option ResponseItemMetadata)
  | localShellCall (id callId : Option Text) (status : LocalShellStatus)
      (action : LocalShellExecAction) (metadata : Option ResponseItemMetadata)
  | functionCall (id : Option Text) (name : Text) (callNamespace : Option Text)
      (arguments callId : Text) (metadata : Option ResponseItemMetadata)
  | toolSearchCall (id callId status : Option Text) (execution arguments : Text)
      (metadata : Option ResponseItemMetadata)
  | functionCallOutput (callId : Text) (output : FunctionCallOutputPayload)
      (metadata : Option ResponseItemMetadata)
  | customToolCall (id status : Option Text) (callId name input : Text)
      (metadata : Option ResponseItemMetadata)
  | customToolCallOutput (callId : Text) (name : Option Text)
      (output : FunctionCallOutputPayload) (metadata : Option ResponseItemMetadata)
  | toolSearchOutput (callId : Option Text) (status execution : Text) (tools : List Text)
      (metadata : Option ResponseItemMetadata)
  | webSearchCall (id status : Option Text) (action : Option WebSearchAction)
      (metadata : Option ResponseItemMetadata)
  | imageGenerationCall (id status : Text) (revisedPrompt : Option Text) (result : Text)
      (metadata : Option ResponseItemMetadata)
  | compaction (encryptedContent : Text) (metadata : Option ResponseItemMetadata)
  | compactionTrigger (metadata : Option ResponseItemMetadata)
  | contextCompaction (encryptedContent : Option Text) (metadata : Option ResponseItemMetadata)
  | other
  deriving DecidableEq

/-- The budget of a tool output: a number of bytes or of (approximate) tokens. -/
inductive TruncationPolicy where
  | bytes (bytes : ℕ)
  | tokens (tokens : ℕ)

/-- `is_api_message`: the items the history records, everything but system messages, compaction
    triggers and unknown items. -/
def isApiMessage : ResponseItem → Bool
  | .message _ role _ _ _ => role != "system".toList
  | .compactionTrigger _ => false
  | .other => false
  | _ => true

end Codex.Context
