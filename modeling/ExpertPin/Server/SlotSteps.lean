import ExpertPin.Server.PromptReuse
import ExpertPin.Server.SlotCells

/-!
# The steps of a slot

What a slot of a text-only server does to its token list and to the cells of its sequence, from
one request to the next: a request is launched on the slot and may load a saved prompt, its
prompt is shifted and matched, tokens of the prompt or of the reply are put in the batch and
decoded, and the context is shifted when it is full.

What the model, the sampler and the cache answer belongs to a step, and so do the tokens of other
slots in the batch.
-/

namespace ExpertPin.Server

/-! ## Token lists of text -/

def textTokens (tokens : List Token) : ServerTokens where
  hasMtmd := false
  tokens := tokens
  media := []

/-- `get_common_prefix` of text. -/
def textPrefix (V : Vocab) (a b : List Token) (exact : Bool) : ℕ × ℕ :=
  let n := commonTokens a b
  prefixAdd (findCommonTextTokenPrefix V a b n exact) (n, n)

theorem getCommonPrefix_textTokens (V : Vocab) (a b : List Token) (exact : Bool) :
    (textTokens a).getCommonPrefix V (textTokens b) exact = .ok (textPrefix V a b exact) := rfl

/-- `get_common_prefix_first_n`; a negative number is a very large size. -/
def commonPrefixFirstN (V : Vocab) (a b : List Token) (n : ℤ) (exact : Bool) : ℕ × ℕ :=
  textPrefix V (if n < 0 then a else a.take n.toNat) b exact

/-- `discard_n_tokens` -/
def discardNTokens (tokens : List Token) (nKeep nDiscard : ℤ) : List Token :=
  if nDiscard ≤ 0 ∨ nKeep + nDiscard ≥ tokens.length then tokens
  else tokens.take nKeep.toNat ++ tokens.drop (nKeep + nDiscard).toNat

/-- `context_shift_find_n_tokens` -/
def contextShiftFindNTokens (V : Vocab) (a b : List Token) (nKeep nDiscard : ℤ) (exact : Bool) :
    ℤ × ℤ :=
  let keep := commonPrefixFirstN V a b nKeep exact
  let total := commonPrefixFirstN V a b (nDiscard + nKeep) exact
  let discardOffset := total.1 - (nDiscard + nKeep)
  let keepOffset := keep.1 - nKeep
  let nKept := keep.2 - keepOffset
  let nDiscarded := total.2 - keep.2 - discardOffset
  (if nKept < 0 then nKeep else nKept, if nDiscarded < 0 then nDiscard else nDiscarded)

/-! ## The state -/

/-- A prompt in the prompt cache: its tokens and the cells in its state. -/
structure SavedPrompt where
  tokens : List Token
  cells : List Cell
deriving DecidableEq

inductive Phase
  /-- without a request -/
  | idle
  /-- launched, and the prompt is not looked at yet -/
  | loading
  /-- tokens of the prompt are batched -/
  | batching
  /-- tokens of the reply are generated -/
  | processing
deriving DecidableEq, Repr

/-- The part of `server_slot` that says what its cells are for, and the prompt cache. -/
structure SlotState where
  phase : Phase := .idle
  cacheTokens : List Token := []
  cells : List Cell := []
  promptTokens : List Token := []
  nPast : ℤ := 0
  nPastPrompt : ℤ := 0
  nDiscardedPrompt : ℤ := 0
  checkpoints : List Checkpoint := []
  sampled : Token := 0
  /-- the batch: cells for the tokens of this slot, `none` for those of others -/
  batch : List (Option Cell) := []
  iBatch : ℤ := -1
  /-- the draft while it is verified -/
  drafted : Option (List Token) := none
  saved : List SavedPrompt := []

/-- What a slot is configured with. -/
structure SlotParams where
  nCtx : ℤ
  addBosToken : Bool
  /-- `params_base.ctx_shift` -/
  ctxShift : Bool
  /-- `params.n_keep` -/
  nKeep : ℤ
  /-- `params.n_discard` -/
  nDiscard : ℤ
  four_le_nCtx : 4 ≤ nCtx

namespace SlotState

/-- `pos_next` of the cached text -/
def posNext (s : SlotState) (n : ℤ) : ℤ :=
  if n < 0 then s.cacheTokens.length else n

/-- `server_slot::release` -/
def release (s : SlotState) : SlotState :=
  { s with phase := .idle, drafted := none }

/-! ## Shifting the context -/

/-- `discard_n_kv_and_cache_tokens` -/
def discardNKvAndCacheTokens (s : SlotState) (nKeep nDiscard : ℤ) : SlotState :=
  let kvKeep := s.posNext nKeep
  let kvDiscard := s.posNext (nKeep + nDiscard) - kvKeep
  let kvPast := s.posNext s.nPast
  { s with
    cells := seqAdd (seqRm s.cells (s.posNext kvKeep) (s.posNext (kvKeep + kvDiscard)))
      (kvKeep + kvDiscard) kvPast (-kvDiscard)
    cacheTokens := discardNTokens s.cacheTokens nKeep nDiscard }

/-- How much of the prompt and of the cache the shift while generating keeps and discards. -/
def shiftCounts (p : SlotParams) (s : SlotState) : ℤ × ℤ :=
  let nKeep := if p.nKeep < 0 then (s.promptTokens.length : ℤ) else p.nKeep
  let nKeep := if p.addBosToken then nKeep + 1 else nKeep
  let nKeep := min (p.nCtx - 4) nKeep
  let nLeft := s.nPast - nKeep
  (nKeep, if p.nDiscard ≠ 0 then p.nDiscard else nLeft.tdiv 2)

/-- `context_shift` -/
def contextShift (V : Vocab) (p : SlotParams) (s : SlotState) : SlotState :=
  if s.phase ≠ .idle ∧ s.nPast ≥ p.nCtx - 1 then
    if ¬p.ctxShift then s.release
    else
      let (nKeep, nDiscard) := s.shiftCounts p
      if nDiscard > 0 then
        let (nKept, nDiscardCache) :=
          contextShiftFindNTokens V s.promptTokens s.cacheTokens nKeep nDiscard false
        let s' := s.discardNKvAndCacheTokens nKept nDiscardCache
        { s' with
          nDiscardedPrompt := s.nDiscardedPrompt + nDiscard
          nPast := s.nPast - nDiscardCache }
      else s
  else s

/-- The loop of `context_shift_prompt`: how much is discarded of the prompt so that the rest
fits. -/
def discardUntilFits (nPrompt nCtx : ℤ) (nDiscard : ℤ) (hpos : 0 < nDiscard)
    (nDiscardedPrompt nDiscardPrompt : ℤ) : ℤ × ℤ :=
  if nPrompt - nDiscardedPrompt ≥ nCtx then
    discardUntilFits nPrompt nCtx nDiscard hpos (nDiscardedPrompt + nDiscard)
      (nDiscardPrompt + nDiscard)
  else (nDiscardedPrompt, nDiscardPrompt)
termination_by (nPrompt - nDiscardedPrompt - nCtx + 1).toNat

/-- What `context_shift_prompt` discards: of the prompt first, then of the prompt, and of the
cache. -/
structure PromptShift where
  nKeep : ℤ
  nDiscardedPrompt : ℤ
  nDiscardPrompt : ℤ
  nKept : ℤ
  nDiscardCache : ℤ

/-- How much of a prompt is kept, and how much is discarded at a time. -/
def promptCounts (p : SlotParams) : ℤ × ℤ :=
  let nKeep := max 0 (p.nKeep + if p.addBosToken then 1 else 0)
  let nLeft := p.nCtx - nKeep
  (nKeep, if p.nDiscard ≠ 0 then p.nDiscard else nLeft.tdiv 2)

/-- The counts of `context_shift_prompt`, `none` where it does nothing. -/
def promptShift (V : Vocab) (p : SlotParams) (s : SlotState) : Option PromptShift :=
  let nKeep := (promptCounts p).1
  let nDiscard := (promptCounts p).2
  if hpos : 0 < nDiscard then
    let (nDiscardedPrompt, nDiscardPrompt) :=
      discardUntilFits s.promptTokens.length p.nCtx nDiscard hpos s.nDiscardedPrompt 0
    let prompt := discardNTokens s.promptTokens nKeep (nDiscardedPrompt - nDiscardPrompt)
    let (nKept, nDiscardCache) :=
      if nDiscardPrompt > 0 then
        contextShiftFindNTokens V prompt s.cacheTokens nKeep nDiscard false
      else (nKeep, nDiscardPrompt)
    let nDiscardCacheMax := max (s.cacheTokens.length - nKept) 0
    some {
      nKeep, nDiscardedPrompt, nDiscardPrompt, nKept
      nDiscardCache := min nDiscardCache nDiscardCacheMax }
  else none

/-- `context_shift_prompt` -/
def contextShiftPrompt (V : Vocab) (p : SlotParams) (s : SlotState) : SlotState :=
  match s.promptShift V p with
  | none => s
  | some d =>
    let prompt := discardNTokens s.promptTokens d.nKeep (d.nDiscardedPrompt - d.nDiscardPrompt)
    let s' :=
      if d.nDiscardCache > 0 then s.discardNKvAndCacheTokens d.nKept d.nDiscardCache else s
    { s' with
      nDiscardedPrompt := d.nDiscardedPrompt
      promptTokens := discardNTokens prompt d.nKeep d.nDiscardPrompt }

/-! ## Starting a prompt -/

/-- The slot as the matching of a prompt reads it. -/
def toSlot (s : SlotState) : Slot where
  cacheTokens := textTokens s.cacheTokens
  promptTokens := textTokens s.promptTokens
  checkpoints := s.checkpoints
  cachePrompt := true
  embedding := false

/-- The checkpoint that is restored before the prompt is batched. -/
def restoredCheckpoint (V : Vocab) (s : SlotState) (q : Answers) : Option Checkpoint :=
  match matchPrompt V false s.toSlot q with
  | .error _ => none
  | .ok r =>
    let past := leaveToken s.promptTokens.length r.1 r.2
    if needsCheckpoint s.toSlot q past.1 past.1 then restored s.toSlot q past.1 else none

/-- The slot whose prompt is matched, shifted where the prompt is too long. -/
def shifted (V : Vocab) (p : SlotParams) (s : SlotState) : SlotState :=
  if (s.promptTokens.length : ℤ) ≥ p.nCtx then contextShiftPrompt V p { s with nPast := 0 }
  else { s with nPast := 0, nDiscardedPrompt := 0 }

/-- `batch_pending_prompt` up to the first token of a new prompt.  `ckptCells` are the cells
after a checkpoint is restored.  An empty prompt is answered at once, and one that is too long
only shifted if that is allowed. -/
def startPrompt (V : Vocab) (p : SlotParams) (s : SlotState) (q : Answers)
    (ckptCells : List Cell) : Option SlotState :=
  if s.promptTokens = [] ∨ ((s.promptTokens.length : ℤ) ≥ p.nCtx ∧ ¬p.ctxShift) then
    some s.release
  else
    let t := s.shifted V p
    if (s.promptTokens.length : ℤ) ≥ p.nCtx ∧ (t.promptTokens.length : ℤ) ≥ p.nCtx then none
    else match startBatching V false t.toSlot q with
      | .error _ => none
      | .ok reuse =>
        let cells := if (t.restoredCheckpoint V q).isSome then ckptCells else t.cells
        some { t with
          phase := .batching
          cacheTokens := reuse.cacheTokens.tokens
          cells := if q.trims then seqRm cells reuse.nPast (-1) else []
          nPast := reuse.nPast
          nPastPrompt := reuse.nPastPrompt
          checkpoints := reuse.checkpoints }

/-! ## The batch -/

/-- Put a token in the batch and behind the cached tokens. -/
def pushToken (s : SlotState) (t : Token) : SlotState :=
  { s with
    batch := s.batch ++ [some ⟨s.cacheTokens.length, t⟩]
    cacheTokens := s.cacheTokens ++ [t] }

/-- Tokens of other slots. -/
def pushOthers (s : SlotState) (n : ℕ) : SlotState :=
  { s with batch := s.batch ++ List.replicate n none }

/-- What `batch_pending_prompt` does to the cache whenever it comes to a prompt: only the first
`nPast` tokens are kept, and none where the cells cannot be removed. -/
def trimCache (s : SlotState) (trims : Bool) : Option SlotState :=
  let nPast := if s.nPast < 0 then 0 else s.nPast
  if nPast > s.cacheTokens.length then none
  else if trims then
    some { s with
      nPast
      cacheTokens := s.cacheTokens.take nPast.toNat
      cells := seqRm s.cells nPast (-1) }
  else some { s with nPast := 0, nPastPrompt := 0, cacheTokens := [], cells := [] }

/-- `batch_pending_prompt` for a prompt that has been started: `n` of its tokens fit. -/
def fillPrompt (s : SlotState) (n : ℕ) : SlotState :=
  let tokens := (s.promptTokens.drop s.nPastPrompt.toNat).take n
  let s' := tokens.foldl pushToken s
  let nPastPrompt := s.nPastPrompt + tokens.length
  { s' with
    nPast := s.nPast + tokens.length
    nPastPrompt
    phase := if nPastPrompt = s.promptTokens.length then .processing else .batching
    iBatch := if nPastPrompt = s.promptTokens.length then s'.batch.length - 1 else s.iBatch }

/-- `add_sampled_tokens`: the last sampled token, with a draft behind it or alone. -/
def addSampledTokens (s : SlotState) (draft : Option (List Token)) : SlotState :=
  let iBatch := s.batch.length
  let s' := match draft with
    | none => { s.pushToken s.sampled with iBatch }
    | some draft => { draft.foldl pushToken (s.pushToken s.sampled) with drafted := some draft }
  { s' with nPast := s'.cacheTokens.length }

/-! ## Decoding -/

/-- What comes of one call that decodes a view of the batch. -/
structure Decoded where
  ret : ℤ
  /-- how many tokens of the view have their cells when the call does not succeed -/
  stored : ℕ
  /-- the tokens the sampler draws, `none` where it throws -/
  samples : Option (ℕ → Token)
  /-- the reply ends with these tokens -/
  stops : Bool

/-- Cells of the slot among tokens of the batch. -/
def ownCells (view : List (Option Cell)) : List Cell :=
  view.filterMap id

def store (s : SlotState) (view : List (Option Cell)) : SlotState :=
  { s with cells := s.cells ++ ownCells view }

/-- The user cancels: what has no cell yet is forgotten. -/
def cancel (s : SlotState) : SlotState :=
  let nPast := min (seqPosMax s.cells + 1).toNat s.cacheTokens.length
  { s with nPast, cacheTokens := s.cacheTokens.take nPast }.release

/-- Sample the next token, if the slot has its logits in this view. -/
def sample (s : SlotState) (i n : ℕ) (result : Decoded) : SlotState :=
  if s.phase = .processing ∧ s.drafted = none ∧ (i : ℤ) ≤ s.iBatch ∧ s.iBatch < (i + n : ℕ) then
    match result.samples with
    | none => { s with iBatch := -1 }.release
    | some draw =>
      let s' := { s with sampled := draw 0, iBatch := -1 }
      if result.stops then s'.release else s'
  else s

/-- `common_sampler_sample_and_accept_n` -/
def sampleAndAcceptN (draw : ℕ → Token) (i : ℕ) : List Token → List Token
  | [] => [draw i]
  | d :: draft => if d ≠ draw i then [draw i] else draw i :: sampleAndAcceptN draw (i + 1) draft

/-- `speculative_decoding_accept`, whichever part of the batch was decoded. -/
def acceptDraft (s : SlotState) (result : Decoded) : SlotState :=
  match s.drafted with
  | none => s
  | some draft =>
    if s.phase ≠ .processing then s
    else match result.samples with
      | none => s.release
      | some draw =>
        let ids := sampleAndAcceptN draw 0 draft
        let base := s.cacheTokens.take (s.cacheTokens.length - draft.length)
        let cacheTokens := base ++ ids.dropLast
        let s' := { s with
          cacheTokens
          sampled := ids.getLastD 0
          nPast := cacheTokens.length
          cells := seqRm s.cells (base.length + (ids.length - 1)) (-1)
          drafted := none }
        if result.stops then s'.release else s'

/-- The loop of `process_batch_tokens`.  `none` where the results do not fit. -/
def processBatchTokens (s : SlotState) (i nBatch : ℕ) : List Decoded → Option SlotState
  | [] => if s.batch.length ≤ i then some s else none
  | result :: results =>
    if s.batch.length ≤ i then none
    else
      let view := (s.batch.drop i).take nBatch
      if result.ret ≠ 0 then
        let s := s.store (view.take result.stored)
        if nBatch = 1 ∨ result.ret < 0 then
          some (if result.ret = -3 then s.cancel else s.release)
        else s.processBatchTokens i (nBatch / 2) results
      else
        let s := ((s.store view).sample i view.length result).acceptDraft result
        s.processBatchTokens (i + nBatch) nBatch results

/-! ## Steps -/

/-- A state of the prompt cache that is loaded; where that fails the cells are left as they
are then. -/
inductive Load
  | loads (prompt : SavedPrompt)
  | fails (left : List Cell)

inductive SlotEvent
  /-- a request is launched, with what the prompt cache does for it -/
  | launch (prompt : List Token) (saves : Bool) (kept : SavedPrompt → Bool) (load : Option Load)
  /-- its prompt starts to be batched -/
  | start (q : Answers) (ckptCells : List Cell)
  /-- tokens of the prompt are decoded, between tokens of other slots -/
  | prompt (trims : Bool) (before n after nBatch : ℕ) (results : List Decoded)
  /-- sampled and drafted tokens are decoded -/
  | generate (draft : Option (List Token)) (before after nBatch : ℕ) (results : List Decoded)
  /-- only tokens of other slots are decoded -/
  | others (n nBatch : ℕ) (results : List Decoded)
  | shift
  /-- the last tokens are taken back, as they spell a banned phrase -/
  | rewind (nKeepCache : ℕ) (sampled : Token)
  | release

/-- `get_available_slot` with the prompt cache, and the launch of the request. -/
def launch (s : SlotState) (prompt : List Token) (saves : Bool) (kept : SavedPrompt → Bool)
    (load : Option Load) : Option SlotState :=
  let saved := s.saved.filter kept ++ if saves then [⟨s.cacheTokens, s.cells⟩] else []
  let s := { s with
    saved, phase := .loading, promptTokens := prompt, nPast := 0, nPastPrompt := 0
    nDiscardedPrompt := 0, drafted := none }
  match load with
  | none => some s
  | some (.fails left) => some { s with cells := left }
  | some (.loads prompt) =>
    if prompt ∈ saved then
      some { s with
        cacheTokens := prompt.tokens
        cells := prompt.cells
        saved := saved.erase prompt }
    else none

def step (V : Vocab) (p : SlotParams) (s : SlotState) : SlotEvent → Option SlotState
  | .launch prompt saves kept load =>
    if s.phase = .idle then s.launch prompt saves kept load else none
  | .start q ckptCells => if s.phase = .loading then s.startPrompt V p q ckptCells else none
  | .prompt trims before n after nBatch results =>
    if s.phase = .batching ∧ 0 < nBatch then
      (trimCache { s with batch := [] } trims).bind fun s =>
        (((s.pushOthers before).fillPrompt n).pushOthers after).processBatchTokens 0 nBatch results
    else none
  | .generate draft before after nBatch results =>
    if s.phase = .processing ∧ 0 < nBatch then
      ((({ s with batch := [] }.pushOthers before).addSampledTokens draft).pushOthers after
        ).processBatchTokens 0 nBatch results
    else none
  | .others n nBatch results =>
    if (s.phase = .idle ∨ s.phase = .loading) ∧ 0 < nBatch then
      ({ s with batch := [] }.pushOthers n).processBatchTokens 0 nBatch results
    else none
  | .shift => some (s.contextShift V p)
  | .rewind nKeepCache sampled =>
    if s.phase = .processing then
      let cacheTokens := s.cacheTokens.take nKeepCache
      some { s with
        cacheTokens
        sampled
        nPast := cacheTokens.length
        cells := seqRm s.cells cacheTokens.length (-1) }
    else none
  | .release => some s.release

end SlotState
end ExpertPin.Server
