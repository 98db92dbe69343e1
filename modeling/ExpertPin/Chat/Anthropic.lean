import ExpertPin.Chat.Diffs

/-!
# The event stream of a message

A partial result and the final one are formatted apart from each other.  Each is given the deltas
of its own time, and flags that say which blocks of the message have been started before.
-/

namespace ExpertPin.Chat

/-! ## Events -/

inductive ContentBlock where
  | thinking
  | text
  | toolUse (id name : Text)
deriving DecidableEq, Repr

inductive BlockDelta where
  | thinking (thinking : Text)
  | text (text : Text)
  | inputJson (partialJson : Text)
  | signature (signature : Text)
deriving DecidableEq, Repr

inductive StopReason where
  | maxTokens
  | endTurn
  | toolUse
deriving DecidableEq, Repr

inductive Event where
  | messageStart (id model : Text) (cacheReadInputTokens inputTokens : ℤ)
  | contentBlockStart (index : ℕ) (block : ContentBlock)
  | contentBlockDelta (index : ℕ) (delta : BlockDelta)
  | contentBlockStop (index : ℕ)
  | messageDelta (stopReason : StopReason) (stopSequence : Option Text) (outputTokens : ℤ)
  | messageStop
deriving DecidableEq, Repr

/-! ## Results -/

/-- What `server_task_result_cmpl_partial` has for its events. -/
structure PartialResult where
  nDecoded : ℤ
  nPromptTokens : ℤ
  nPromptTokensCache : ℤ
  oaicompatCmplId : Text
  oaicompatModel : Text
  oaicompatMsgDiffs : List MsgDiff
  anthropicHasReasoning : Bool
  anthropicThinkingBlockStarted : Bool
  anthropicTextBlockStarted : Bool
deriving DecidableEq, Repr

inductive StopType where
  | none
  | eos
  | word
  | limit
deriving DecidableEq, Repr

/-- What `server_task_result_cmpl_final` has for its events. -/
structure FinalResult where
  stop : StopType
  stoppingWord : Text
  nDecoded : ℤ
  oaicompatMsg : Msg
  oaicompatMsgDiffs : List MsgDiff
  anthropicThinkingBlockStarted : Bool
  anthropicTextBlockStarted : Bool
deriving DecidableEq, Repr

/-- A delta, after the start of its block if it is not started. -/
def blockEvents (started : Bool) (index : ℕ) (block : ContentBlock) (delta : BlockDelta) :
    List Event :=
  (if started then [] else [.contentBlockStart index block]) ++ [.contentBlockDelta index delta]

def reasoningEvents (thinkingStarted : Bool) (diff : MsgDiff) : List Event :=
  if diff.reasoningContentDelta ≠ [] then
    blockEvents thinkingStarted 0 .thinking (.thinking diff.reasoningContentDelta)
  else []

def contentEvents (textStarted : Bool) (textBlockIndex : ℕ) (diff : MsgDiff) : List Event :=
  if diff.contentDelta ≠ [] then
    blockEvents textStarted textBlockIndex .text (.text diff.contentDelta)
  else []

def argumentsEvents (index : ℕ) (arguments : Text) : List Event :=
  if arguments ≠ [] then [.contentBlockDelta index (.inputJson arguments)] else []

/-- A tool call in a partial result is started by its name. -/
def toolCallEvents (base : ℕ) (diff : MsgDiff) : List Event :=
  match diff.toolCallIndex with
  | some toolCallIndex =>
    let index := base + toolCallIndex
    (if diff.toolCallDelta.name ≠ [] then
      [.contentBlockStart index (.toolUse diff.toolCallDelta.id diff.toolCallDelta.name)]
    else []) ++
    argumentsEvents index diff.toolCallDelta.arguments
  | none => []

/-- The deltas of a partial result.  Tool calls come after the reasoning that the message has, and
after the text if that is started. -/
def partialEvents (hasReasoning : Bool) : Bool → Bool → List MsgDiff → List Event
  | _, _, [] => []
  | thinkingStarted, textStarted, diff :: diffs =>
    let thinkingStarted' := thinkingStarted || decide (diff.reasoningContentDelta ≠ [])
    let textStarted' := textStarted || decide (diff.contentDelta ≠ [])
    reasoningEvents thinkingStarted diff ++ contentEvents textStarted hasReasoning.toNat diff ++
      toolCallEvents (hasReasoning.toNat + textStarted'.toNat) diff ++
      partialEvents hasReasoning thinkingStarted' textStarted' diffs

/-- `server_task_result_cmpl_partial::to_json_anthropic_partial`. -/
def PartialResult.toJsonAnthropicPartial (r : PartialResult) : List Event :=
  (if r.nDecoded = 1 then
    [.messageStart r.oaicompatCmplId r.oaicompatModel r.nPromptTokensCache
      (r.nPromptTokens - r.nPromptTokensCache)] else []) ++
  partialEvents r.anthropicHasReasoning r.anthropicThinkingBlockStarted r.anthropicTextBlockStarted
    r.oaicompatMsgDiffs

/-- A tool call in the final result is started by its first delta there. -/
def finalToolCallEvents (msg : Msg) (toolCallsStarted : List ℕ) (base : ℕ) (diff : MsgDiff) :
    List Event :=
  match diff.toolCallIndex with
  | some toolCallIndex =>
    let index := base + toolCallIndex
    let fullToolCall := (msg.toolCalls[toolCallIndex]?).getD default
    (if toolCallIndex ∉ toolCallsStarted then
      [.contentBlockStart index (.toolUse fullToolCall.id fullToolCall.name)] else []) ++
    argumentsEvents index diff.toolCallDelta.arguments
  | none => []

/-- The deltas of the final result, and which blocks are started after them. -/
def finalEvents (msg : Msg) (textBlockIndex : ℕ) :
    Bool → Bool → List ℕ → List MsgDiff → List Event × Bool × Bool
  | thinkingStarted, textStarted, _, [] => ([], thinkingStarted, textStarted)
  | thinkingStarted, textStarted, toolCallsStarted, diff :: diffs =>
    let thinkingStarted' := thinkingStarted || decide (diff.reasoningContentDelta ≠ [])
    let textStarted' := textStarted || decide (diff.contentDelta ≠ [])
    let rest := finalEvents msg textBlockIndex thinkingStarted' textStarted'
      (toolCallsStarted ++ diff.toolCallIndex.toList) diffs
    (reasoningEvents thinkingStarted diff ++ contentEvents textStarted textBlockIndex diff ++
      finalToolCallEvents msg toolCallsStarted (thinkingStarted'.toNat + textStarted'.toNat) diff ++
      rest.1, rest.2)

/-- The blocks that have been started are stopped. -/
def stopEvents (thinkingStarted textStarted : Bool) (textBlockIndex numToolCalls : ℕ) :
    List Event :=
  (if thinkingStarted then
    [.contentBlockDelta 0 (.signature []), .contentBlockStop 0] else []) ++
  (if textStarted then [.contentBlockStop textBlockIndex] else []) ++
  (List.range numToolCalls).map fun i =>
    .contentBlockStop (thinkingStarted.toNat + textStarted.toNat + i)

def FinalResult.stopReason (r : FinalResult) : StopReason :=
  if r.stop = .word ∨ r.stop = .eos then
    if r.oaicompatMsg.toolCalls = [] then .endTurn else .toolUse
  else .maxTokens

/-- `server_task_result_cmpl_final::to_json_anthropic_stream`. -/
def FinalResult.toJsonAnthropicStream (r : FinalResult) : List Event :=
  let textBlockIndex := r.anthropicThinkingBlockStarted.toNat
  let deltas := finalEvents r.oaicompatMsg textBlockIndex r.anthropicThinkingBlockStarted
    r.anthropicTextBlockStarted [] r.oaicompatMsgDiffs
  deltas.1 ++ stopEvents deltas.2.1 deltas.2.2 textBlockIndex r.oaicompatMsg.toolCalls.length ++
    [.messageDelta r.stopReason (if r.stoppingWord = [] then none else some r.stoppingWord)
      r.nDecoded, .messageStop]

/-! ## The server -/

/-- What a slot knows of the message that it streams. -/
structure ChatSlot where
  chatMsg : Msg := {}
  anthropicThinkingBlockStarted : Bool := false
  anthropicTextBlockStarted : Bool := false
  nPromptTokens : ℤ
  oaicompatCmplId : Text
  oaicompatModel : Text

/-- `common_chat_msg::empty`. -/
def Msg.isEmpty (msg : Msg) : Bool :=
  decide (msg.content = []) && decide (msg.toolCalls = []) && decide (msg.reasoningContent = [])

/-- `update_chat_msg`, for what the generated text is parsed to. -/
def ChatSlot.updateChatMsg (slot : ChatSlot) (newMsg : Msg) :
    Except DiffError (ChatSlot × List MsgDiff) :=
  if newMsg.isEmpty then .ok (slot, [])
  else (computeDiffs slot.chatMsg newMsg).map fun diffs => ({ slot with chatMsg := newMsg }, diffs)

/-- `send_partial_response`: what it sends, and the slot with its flags. -/
def ChatSlot.sendPartialResponse (slot : ChatSlot) (nDecoded : ℤ) (newMsg : Msg) :
    Except DiffError (ChatSlot × PartialResult) :=
  (slot.updateChatMsg newMsg).map fun r =>
    ({ r.1 with
        anthropicThinkingBlockStarted := r.1.anthropicThinkingBlockStarted ||
          r.2.any fun diff => decide (diff.reasoningContentDelta ≠ [])
        anthropicTextBlockStarted := r.1.anthropicTextBlockStarted ||
          r.2.any fun diff => decide (diff.contentDelta ≠ []) },
      { nDecoded
        nPromptTokens := slot.nPromptTokens
        nPromptTokensCache := 0
        oaicompatCmplId := slot.oaicompatCmplId
        oaicompatModel := slot.oaicompatModel
        oaicompatMsgDiffs := r.2
        anthropicHasReasoning := decide (r.1.chatMsg.reasoningContent ≠ [])
        anthropicThinkingBlockStarted := r.1.anthropicThinkingBlockStarted
        anthropicTextBlockStarted := r.1.anthropicTextBlockStarted })

/-- `send_final_response`. -/
def ChatSlot.sendFinalResponse (slot : ChatSlot) (stop : StopType) (nDecoded : ℤ) (newMsg : Msg) :
    Except DiffError FinalResult :=
  (slot.updateChatMsg newMsg).map fun r =>
    { stop
      stoppingWord := []
      nDecoded
      oaicompatMsg := r.1.chatMsg
      oaicompatMsgDiffs := r.2
      anthropicThinkingBlockStarted := r.1.anthropicThinkingBlockStarted
      anthropicTextBlockStarted := r.1.anthropicTextBlockStarted }

def ChatSlot.sendPartialResponses (slot : ChatSlot) :
    List (ℤ × Msg) → Except DiffError (ChatSlot × List PartialResult)
  | [] => .ok (slot, [])
  | (nDecoded, newMsg) :: msgs => do
      let r ← slot.sendPartialResponse nDecoded newMsg
      let rs ← r.1.sendPartialResponses msgs
      return (rs.1, r.2 :: rs.2)

/-- What a generation sends, for the messages that its text is parsed to. -/
structure Generation where
  partials : List (ℤ × Msg)
  stop : StopType
  nDecoded : ℤ
  last : Msg

def Generation.results (slot : ChatSlot) (g : Generation) :
    Except DiffError (List PartialResult × FinalResult) := do
  let r ← slot.sendPartialResponses g.partials
  let final ← r.1.sendFinalResponse g.stop g.nDecoded g.last
  return (r.2, final)

/-- The events of all partial results and the final one. -/
def streamed (r : List PartialResult × FinalResult) : List Event :=
  r.1.flatMap PartialResult.toJsonAnthropicPartial ++ r.2.toJsonAnthropicStream

end ExpertPin.Chat
