import ExpertPin.Server.CommonPrefix

/-!
# The rows of a batch

In every turn of the server the slots put rows in one batch, and record at which rows the model's
output is for them.  The batch is decoded in chunks, and after each chunk the slots sample.
-/

namespace ExpertPin.Server

/-- A token of the batch, and whether there is output for it. -/
structure Row where
  token : Token
  pos : ℤ
  seqId : ℕ
  logits : Bool
deriving DecidableEq, Repr

/-- The indices that a slot passes to the sampler, and the chunk that was decoded last. -/
structure Draw where
  start : ℕ
  length : ℕ
  indices : List ℤ
deriving DecidableEq, Repr

/-- The part of `server_slot` that says which rows are its own.  `recorded` has the rows whose
indices are recorded, and `draws` what has been sampled; the code keeps neither. -/
structure OutputSlot where
  id : ℕ
  processing : Bool := false
  embedding : Bool := false
  sampled : Token := 0
  posNext : ℤ := 0
  iBatch : ℤ := -1
  iBatchDft : List ℤ := []
  drafted : List Token := []
  recorded : List Row := []
  draws : List Draw := []
deriving DecidableEq, Repr

namespace OutputSlot

/-! ## Assembly -/

/-- The rows of tokens from a position on. -/
def rows (slot : OutputSlot) : ℤ → List Token → List Row
  | _, [] => []
  | pos, token :: tokens =>
    { token, pos, seqId := slot.id, logits := true } :: slot.rows (pos + 1) tokens

/-- The rows of a slot that generates.  `draft` is what is drafted for it, if something may be, and
whether that is enough to be used. -/
def addSampledToken (batch : List Row) (slot : OutputSlot) (draft : Option (List Token × Bool)) :
    List Row × OutputSlot :=
  let root : Row := { token := slot.sampled, pos := slot.posNext, seqId := slot.id, logits := true }
  match draft with
  | some (tokens, true) =>
    let added := root :: slot.rows (slot.posNext + 1) tokens
    (batch ++ added, { slot with
        posNext := slot.posNext + 1 + tokens.length
        iBatchDft := (List.range added.length).map fun k => ((batch.length + k : ℕ) : ℤ)
        drafted := tokens
        recorded := added })
  | some (_, false) | none =>
    (batch ++ [root], { slot with
        posNext := slot.posNext + 1
        iBatch := batch.length
        drafted := []
        recorded := [root] })

/-- `add_sampled_tokens` -/
def addSampledTokens (draft : OutputSlot → Option (List Token × Bool)) :
    List Row → List OutputSlot → List Row × List OutputSlot
  | batch, [] => (batch, [])
  | batch, slot :: slots =>
    let added :=
      if slot.processing then addSampledToken batch slot (draft slot) else (batch, slot)
    let rest := addSampledTokens draft added.1 slots
    (rest.1, added.2 :: rest.2)

/-- What a slot that is not processing has left of its prompt. -/
structure PendingPrompt where
  tokens : List Token
  /-- how many tokens are left at the checkpoint that the prompt stops for -/
  checkpointAt : Option ℕ := none
  /-- `need_embd` -/
  needEmbd : Bool := false
  /-- `system_tokens.size()` -/
  nSystem : ℤ := 0

/-- The rows that are added for a prompt, and the tokens that are left. -/
def promptRows (slot : OutputSlot) (prompt : PendingPrompt) (nBatch nTokens : ℕ) (posNext : ℤ) :
    List Token → List Row × List Token
  | [] => ([], [])
  | token :: tokens =>
    if nTokens < nBatch ∧ token ≠ Token.null then
      let row : Row := {
        token, pos := prompt.nSystem + posNext, seqId := slot.id, logits := prompt.needEmbd }
      if prompt.checkpointAt = some tokens.length then ([row], tokens)
      else
        let rest := promptRows slot prompt nBatch (nTokens + 1) (posNext + 1) tokens
        (row :: rest.1, rest.2)
    else ([], token :: tokens)

/-- The rows of a prompt.  When nothing of it is left the last row of the batch is for its
output. -/
def batchPrompt (nBatch : ℕ) (batch : List Row) (slot : OutputSlot) (prompt : PendingPrompt) :
    List Row × OutputSlot :=
  let added := slot.promptRows prompt nBatch batch.length slot.posNext prompt.tokens
  let batch' := batch ++ added.1
  let slot' := { slot with posNext := slot.posNext + added.1.length }
  if added.2 = [] then
    (batch'.modify (batch'.length - 1) fun row => { row with logits := true },
      { slot' with
        processing := true
        iBatch := (batch'.length : ℤ) - 1
        recorded := added.1.getLast?.toList.map fun row => { row with logits := true } })
  else (batch', slot')

/-- A slot that is processing has no prompt left. -/
def addPrompt (nBatch : ℕ) (batch : List Row) (slot : OutputSlot) (prompt : Option PendingPrompt) :
    List Row × OutputSlot :=
  match prompt with
  | some prompt => if slot.processing then (batch, slot) else batchPrompt nBatch batch slot prompt
  | none => (batch, slot)

/-- `batch_pending_prompt` -/
def batchPendingPrompt (nBatch : ℕ) (pending : OutputSlot → Option PendingPrompt) :
    List Row → List OutputSlot → List Row × List OutputSlot
  | batch, [] => (batch, [])
  | batch, slot :: slots =>
    let added := addPrompt nBatch batch slot (pending slot)
    if added.1.length ≥ nBatch then (added.1, added.2 :: slots)
    else
      let rest := batchPendingPrompt nBatch pending added.1 slots
      (rest.1, added.2 :: rest.2)

/-! ## Sampling -/

variable (continues : OutputSlot → Bool)

/-- A slot samples from the output of its row, if that is in the chunk.  Afterwards it is released
unless it goes on. -/
def sampleOutput (start length : ℕ) (slot : OutputSlot) : OutputSlot :=
  if ¬slot.processing ∨ slot.iBatch < start ∨ slot.iBatch ≥ start + length then slot
  else if slot.embedding then { slot with processing := false, iBatch := -1 }
  else if slot.iBatchDft ≠ [] then slot
  else { slot with
    processing := continues slot
    iBatch := -1
    draws := slot.draws ++ [{ start, length, indices := [slot.iBatch - start] }] }

/-- `speculative_decoding_accept` -/
def acceptDrafts (start length : ℕ) (slot : OutputSlot) : OutputSlot :=
  if ¬slot.processing ∨ slot.iBatchDft = [] then slot
  else { slot with
    processing := continues slot
    iBatchDft := []
    drafted := []
    draws := slot.draws ++ [{ start, length, indices := slot.iBatchDft }] }

/-- All slots sample from their single rows, and then those with drafts do. -/
def sampleChunk (start length : ℕ) (slots : List OutputSlot) : List OutputSlot :=
  (slots.map (sampleOutput continues start length)).map (acceptDrafts continues start length)

def release (slot : OutputSlot) : OutputSlot := { slot with processing := false }

def releaseAll (slots : List OutputSlot) : List OutputSlot := slots.map release

/-- `process_batch_tokens`, and whether all of the batch has been decoded.  `ret` has what the
attempts to decode return. -/
def processBatchTokens (ret : ℕ → ℤ) (nTokens attempt i nBatch : ℕ) (hbatch : 0 < nBatch)
    (slots : List OutputSlot) : List OutputSlot × Bool :=
  if _hi : i < nTokens then
    let n := min nBatch (nTokens - i)
    if ret attempt ≠ 0 then
      if _hfatal : nBatch = 1 ∨ ret attempt < 0 then (releaseAll slots, false)
      else processBatchTokens ret nTokens (attempt + 1) i (nBatch / 2) (by omega) slots
    else
      processBatchTokens ret nTokens (attempt + 1) (i + nBatch) nBatch hbatch
        (sampleChunk continues i n slots)
  else (slots, true)
termination_by nTokens - i + nBatch

end OutputSlot

end ExpertPin.Server
