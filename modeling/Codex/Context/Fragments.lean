import Codex.Context.ResponseItem
import Codex.Data.Search

namespace Codex.Context

open Text

/-!
# Contextual fragments and turn boundaries

Messages with the role of the user or of the developer may be context the program injected
rather than something a person wrote. The text of the message tells.

* `matchesMarkedText` — a text between two markers, up to ASCII case and outer white space.
* `isContextualUserFragment`, `isContextualDevFragment` — the injected fragments.
* `isUserTurnBoundary` — the items that start an instruction turn.

`Decoders` holds what the deserialisers decide: `serde_json` for inter-agent communications and
`quick_xml` for hook prompts.
-/

/-- What third-party deserialisers make of a text. -/
structure Decoders where
  /-- Does the text deserialise to an `InterAgentCommunication`? -/
  isInterAgentCommunication : Text → Bool
  /-- The text and the hook run id of a `HookPromptXml` document. -/
  hookPromptXml : Text → Option (Text × Text)

/-! ### Markers -/

/-- `str::eq_ignore_ascii_case`. -/
def eqIgnoreAsciiCase (a b : Text) : Bool := a.map Char.toLower == b.map Char.toLower

/-- The text starts with the marker, up to ASCII case. The marker is ASCII, so that the bytes the
    source cuts off are as many characters. -/
def startsWithMarker (marker text : Text) : Bool :=
  eqIgnoreAsciiCase (text.take marker.length) marker

/-- The text ends with the marker, up to ASCII case. -/
def endsWithMarker (marker text : Text) : Bool :=
  eqIgnoreAsciiCase (text.drop (text.length - marker.length)) marker

def matchesMarkedText (startMarker endMarker text : Text) : Bool :=
  if startMarker.isEmpty || endMarker.isEmpty then false
  else
    startsWithMarker startMarker (trimStart text) && endsWithMarker endMarker (trim text)

/-! ### User fragments -/

/-- `AdditionalContextUserFragment::matches_text`: `<external_KEY>…</external_KEY>`. -/
def matchesAdditionalContext (text : Text) : Bool :=
  match stripPrefix "<external_" (trim text) with
  | none => false
  | some rest =>
    match Data.find ">" rest with
    | none => false
    | some i => ("</external_" ++ rest.take i ++ ">").isSuffixOf (rest.drop (i + 1))

def isValidSource : Text → Bool
  | [] => false
  | first :: rest => first.isLower && rest.all fun c => c.isLower || c.isDigit || c == '_'

/-- `InternalModelContextFragment::matches_text`, with the legacy goal context. -/
def matchesInternalModelContext (text : Text) : Bool :=
  let trimmed := trim text
  if "<goal_context>".toList.isPrefixOf trimmed && "</goal_context>".toList.isSuffixOf trimmed then
    true
  else
    match (stripPrefix "<codex_internal_context" trimmed).bind
        (stripPrefix " source=\"") with
    | none => false
    | some rest =>
      match Data.find "\">" rest with
      | none => false
      | some i =>
        isValidSource (rest.take i) &&
          "</codex_internal_context>".toList.isSuffixOf (rest.drop (i + 2))

/-- The registered fragments, in the order of `CONTEXTUAL_USER_FRAGMENTS`. -/
def contextualUserFragments : List (Text → Bool) :=
  [matchesMarkedText "# AGENTS.md instructions".toList "</INSTRUCTIONS>".toList,
   matchesMarkedText "<environment_context>".toList "</environment_context>".toList,
   matchesAdditionalContext, matchesMarkedText "<skill>".toList "</skill>".toList,
   matchesMarkedText "<user_shell_command>".toList "</user_shell_command>".toList,
   matchesMarkedText "<turn_aborted>".toList "</turn_aborted>".toList,
   matchesMarkedText "<subagent_notification>".toList "</subagent_notification>".toList,
   matchesInternalModelContext,
   fun text => "Warning: The maximum number of unified exec processes you can keep open is".toList
     |>.isPrefixOf (trim text),
   fun text => "Warning: apply_patch was requested via ".toList.isPrefixOf (trim text) &&
     "Use the apply_patch tool instead of exec_command.".toList.isSuffixOf (trim text),
   fun text => "Warning: Your account was flagged for potentially high-risk cyber activity".toList
     |>.isPrefixOf (trim text)]

def isStandardContextualUserText (text : Text) : Bool :=
  contextualUserFragments.any fun matchesText => matchesText text

variable (decoders : Decoders) (content : List ContentItem)

/-- A hook prompt is one with a hook run id that is not blank. -/
def parseHookPromptFragment (text : Text) : Option (Text × Text) :=
  (decoders.hookPromptXml (trim text)).filter fun fragment => !(trim fragment.2).isEmpty

def isContextualUserFragment : ContentItem → Bool
  | .inputText text =>
    (parseHookPromptFragment decoders text).isSome || isStandardContextualUserText text
  | _ => false

def isContextualUserMessageContent : Bool := content.any (isContextualUserFragment decoders)

/-- `parse_visible_hook_prompt_message(..).is_some()`: every part is a hook prompt or other
    injected context, and one is a hook prompt. -/
def isVisibleHookPromptMessage : Bool := content.all (isContextualUserFragment decoders) &&
    content.any fun
      | .inputText text => (parseHookPromptFragment decoders text).isSome
      | _ => false

/-! ### Developer fragments -/

def contextualDeveloperPrefixes : List Text :=
  ["<permissions instructions>", "<model_switch>", "<collaboration_mode>",
   "<realtime_conversation>", "<skills_instructions>", "<personality_spec>", "<token_budget>"]

def isContextualDevFragment : ContentItem → Bool
  | .inputText text =>
    contextualDeveloperPrefixes.any fun marker => startsWithMarker marker (trimStart text)
  | _ => false

def isContextualDevMessageContent : Bool := content.any isContextualDevFragment

def hasNonContextualDevMessageContent : Bool :=
  content.any fun item => !isContextualDevFragment item

/-! ### Turn boundaries -/

/-- `InterAgentCommunication::is_message_content`: a single text that holds a communication. -/
def isInterAgentInstructionContent : List ContentItem → Bool
  | [.inputText text] => decoders.isInterAgentCommunication text
  | [.outputText text] => decoders.isInterAgentCommunication text
  | _ => false

/-- The items that start an instruction turn: messages of other agents, messages of the user that
    are not injected context, and inter-agent instructions in an assistant message. -/
def isUserTurnBoundary : ResponseItem → Bool
  | .agentMessage _ _ _ _ => true
  | .message _ role content _ _ =>
    (role == "user" && !isContextualUserMessageContent decoders content) ||
      (role == "assistant" && isInterAgentInstructionContent decoders content)
  | _ => false

/-- The context updates that a rollback trims in front of a turn. -/
def isContextUpdate : ResponseItem → Bool
  | .message _ role content _ _ =>
    (role == "developer" && isContextualDevMessageContent content) ||
      (role == "user" && isContextualUserMessageContent decoders content)
  | _ => false

end Codex.Context
