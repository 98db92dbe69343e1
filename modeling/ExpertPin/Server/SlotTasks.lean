import Mathlib.Data.Int.Notation
import ExpertPin.Lib.Lifecycle

/-!
# The tasks of the slots

A completion task waits in the queue until a slot is free.  The slot loads its prompt in one or more
turns, generates, and is released; in every turn it passes through the same functions as all other
slots, in order.  What is done for a task is logged with its id.

How much of a prompt is in the cache already, what a chunk of media or a call of the model returns
and what is sampled are inputs of a turn.
-/

namespace ExpertPin.Server.Tasks

open Lifecycle (entries)

/-- `slot_state` -/
inductive SlotState
  | idle
  | processing
deriving DecidableEq, Repr

/-- `slot_command` -/
inductive SlotCommand
  | none
  | loadPrompt
  | release
deriving DecidableEq, Repr

/-- What is done for a task. -/
inductive Action
  | launched
  /-- a token of it is put in a batch, or decoded with its media -/
  | batched
  | sampled
  /-- a partial result -/
  | sent
  | final
  | error
  | cancelled
deriving DecidableEq, Repr

/-- The part of `server_slot` that says which task it works on and how far it is. -/
structure Slot where
  state : SlotState := .idle
  command : SlotCommand := .none
  idTask : Option ℕ := Option.none
  embedding : Bool := false
  /-- `prompt_tokens.size()` -/
  promptTokens : ℕ := 0
  /-- 0 as long as nobody has looked at the prompt -/
  nPromptTokens : ℕ := 0
  nPastPrompt : ℕ := 0
  nPast : ℕ := 0
deriving DecidableEq, Repr

/-- What a server is started with. -/
structure Params where
  nCtx : ℕ
  nBatch : ℕ
  nUbatch : ℕ
  ctxShift : Bool := true
  /-- `ga_n != 1` -/
  selfExtend : Bool := false
  contBatching : Bool := true
  /-- `system_tokens.size()` -/
  nSystem : ℕ := 0
deriving DecidableEq, Repr

/-- What a task brings to the slot that takes it. -/
structure Task where
  promptTokens : ℕ
  embedding : Bool := false
  /-- what `system_prompt_set` returns, if the task has a system prompt -/
  systemPrompt : Option Bool := Option.none
  /-- `launch_slot_with_task` -/
  accepted : Bool := true
deriving DecidableEq, Repr

namespace Slot

def available (slot : Slot) : Bool := slot.state = .idle ∧ slot.command = .none

/-- The slot has a task, and not all of its prompt is in a batch. -/
def isLoading (slot : Slot) : Bool := slot.state = .idle ∧ slot.command = .loadPrompt

def isProcessing (slot : Slot) : Bool := slot.isLoading ∨ slot.state = .processing

/-- Only a slot that generates is released. -/
def release (slot : Slot) : Slot :=
  if slot.state = .processing then { slot with command := .release, state := .idle } else slot

def reset (slot : Slot) : Slot := { slot with nPromptTokens := 0, nPast := 0, nPastPrompt := 0 }

/-- `launch_slot_with_task`, and what is done with the slot before. -/
def launch (t : ℕ) (task : Task) (slot : Slot) : Slot :=
  let slot := { slot.reset with idTask := some t, embedding := task.embedding }
  if task.accepted then { slot with command := .loadPrompt, promptTokens := task.promptTokens }
  else slot

/-- `release_slots`, for one slot. -/
def releaseSlot (slot : Slot) : Slot :=
  if slot.command = .release then { slot with state := .idle, command := .none } else slot

/-! ## The functions of a turn -/

/-- `context_shift`: the context of the slot is full.  `left` is what is left of it. -/
def contextShift (params : Params) (left : ℕ) (slot : Slot) : Slot × List Action :=
  if params.selfExtend = false ∧ slot.isProcessing ∧
      params.nCtx ≤ params.nSystem + slot.nPast + 1 then
    if params.ctxShift = false then (slot.release, [.error])
    else ({ slot with nPast := min left slot.nPast }, [])
  else (slot, [])

/-- `add_sampled_tokens`, for one slot and as many drafted tokens as are in use.  The number is
that of the tokens in the batch. -/
def addSampledTokens (drafted nTokens : ℕ) (slot : Slot) : ℕ × Slot × List Action :=
  if slot.state = .idle then (nTokens, slot, [])
  else (nTokens + (1 + drafted), { slot with nPast := slot.nPast + (1 + drafted) },
    List.replicate (1 + drafted) .batched)

/-- What the first look at a prompt finds. -/
structure Look where
  /-- the number of tokens that the shift of a prompt leaves -/
  nShifted : ℕ := 0
  /-- `n_past` and `n_past_prompt`, with what is in the cache -/
  nPast : ℕ := 0
  nPastPrompt : ℕ := 0
deriving DecidableEq, Repr

/-- The first look at a prompt, and whether the slot is done for this turn. -/
def lookAtPrompt (params : Params) (look : Look) (slot : Slot) : Bool × Slot × List Action :=
  let slot := { slot with nPast := 0, nPromptTokens := slot.promptTokens }
  if slot.promptTokens = 0 then
    (true, release { slot with state := .processing, command := .none }, [.final])
  else if slot.embedding then
    if slot.nPromptTokens > params.nUbatch then
      (true, release { slot with state := .processing, command := .none }, [.error])
    else (false, slot, [])
  else if params.selfExtend = false ∧ slot.nPromptTokens ≥ params.nCtx ∧
      params.ctxShift = false then
    (true, slot.release, [.error])
  else
    let nPromptTokens :=
      if params.selfExtend = false ∧ slot.nPromptTokens ≥ params.nCtx then look.nShifted
      else slot.nPromptTokens
    -- at least one token is evaluated, so that there are logits
    (false, { slot with
      promptTokens := nPromptTokens
      nPromptTokens
      nPast := look.nPast
      nPastPrompt := min look.nPastPrompt (nPromptTokens - 1) }, [])

/-- How a slot goes on with its prompt in a turn. -/
structure Load where
  /-- the cells that are not in the prompt can be removed -/
  trimmed : Bool := true
  /-- there is a chunk of media next: the number of its tokens, if it can be processed -/
  media : Option (Option ℕ) := Option.none
  /-- the number of tokens up to the next such chunk, or up to the place of a checkpoint -/
  text : ℕ := 0
deriving DecidableEq, Repr

/-- What is put in a batch: the number of tokens, and whether it is for embeddings if that is
decided. -/
structure Assembly where
  nTokens : ℕ := 0
  batchType : Option Bool := Option.none
deriving DecidableEq, Repr

/-- The tokens of the next part of a prompt are put in the batch.  With the last one the slot is
ready to generate. -/
def batchText (params : Params) (load : Load) (batch : Assembly) (slot : Slot) :
    Assembly × Slot × List Action :=
  let n := min load.text (min (slot.nPromptTokens - slot.nPastPrompt)
    (params.nBatch - batch.nTokens))
  let slot := { slot with nPast := slot.nPast + n, nPastPrompt := slot.nPastPrompt + n }
  ({ batch with nTokens := batch.nTokens + n }, if slot.nPastPrompt = slot.nPromptTokens then
      { slot with state := .processing, command := .none }
    else slot,
    List.replicate n .batched)

/-- The part of `batch_pending_prompt` after the first look. -/
def batchPrompt (params : Params) (load : Load) (batch : Assembly) (slot : Slot) :
    Assembly × Slot × List Action :=
  if slot.embedding ∧ batch.nTokens + slot.nPromptTokens > params.nBatch then (batch, slot, [])
  else if batch.batchType = some (!slot.embedding) then (batch, slot, [])
  else
    let batch := { batch with batchType := some slot.embedding }
    let slot := if load.trimmed then slot else { slot with nPast := 0, nPastPrompt := 0 }
    match load.media with
    | Option.none => batchText params load batch slot
    | some media =>
      if slot.nPastPrompt < slot.nPromptTokens then
        match media with
        | Option.none => (batch, slot.release, [.error])
        | some n =>
          let slot := { slot with nPast := slot.nPast + n, nPastPrompt := slot.nPastPrompt + n }
          let added := batchText params load batch slot
          (added.1, added.2.1, List.replicate n .batched ++ added.2.2)
      else batchText params load batch slot

/-- `batch_pending_prompt`, for one slot.  A full batch takes no more. -/
def batchPendingPrompt (params : Params) (look : Look) (load : Load) (batch : Assembly)
    (slot : Slot) : Assembly × Slot × List Action :=
  if batch.nTokens ≥ params.nBatch ∨ ¬slot.isLoading then (batch, slot, [])
  else if slot.promptTokens = 0 ∨ slot.nPromptTokens = 0 then
    let looked := lookAtPrompt params look slot
    if looked.1 then (batch, looked.2)
    else
      let added := batchPrompt params load batch looked.2.1
      (added.1, added.2.1, looked.2.2 ++ added.2.2)
  else batchPrompt params load batch slot

/-- How it ends when a slot samples. -/
inductive Ends
  | goesOn (nPast : ℕ)
  | stops
  | fails
deriving DecidableEq, Repr

/-- What is sampled for a slot after a chunk.  Some of its text may be held back. -/
structure Sampled where
  nSampled : ℕ := 1
  nSent : ℕ := 0
  ends : Ends
deriving DecidableEq, Repr

/-- A slot samples its next tokens, sends what it may, and is released when it stops. -/
def sample (sampled : Sampled) (slot : Slot) : Slot × List Action :=
  let acts := List.replicate sampled.nSampled .sampled ++ List.replicate sampled.nSent .sent
  match sampled.ends with
  | .goesOn nPast => ({ slot with nPast }, acts)
  | .stops => (slot.release, acts ++ [.final])
  | .fails => (slot.release, acts ++ [.error])

/-- The single row of a slot, if it is in the chunk. -/
def sampleOutput (sampled : Option Sampled) (slot : Slot) : Slot × List Action :=
  match sampled with
  | Option.none => (slot, [])
  | some sampled =>
    if slot.state ≠ .processing then (slot, [])
    else if slot.embedding then (slot.release, [.final])
    else slot.sample sampled

/-- `speculative_decoding_accept`, for one slot that may have drafts. -/
def acceptDrafts (sampled : Option Sampled) (slot : Slot) : Slot × List Action :=
  match sampled with
  | Option.none => (slot, [])
  | some sampled => if slot.state ≠ .processing then (slot, []) else slot.sample sampled

/-- The model cannot decode.  Every slot is released, and unless it was stopped an error is sent for
each. -/
def decodeFails (ret : ℤ) (slot : Slot) : Slot × List Action :=
  (release { slot with state := .processing, command := .none }, if ret = -3 then [] else [.error])

end Slot

/-! ## The server -/

/-- The slots, the ids of the tasks in the queue, and what has been done. -/
structure State where
  slots : List Slot
  waiting : List ℕ := []
  nextId : ℕ := 0
  log : List (ℕ × Action) := []
deriving DecidableEq, Repr

/-- What the model returns when it is called for a chunk, and what the slots sample after it. -/
structure Decode where
  ret : ℤ := 0
  output : ℕ → Option Slot.Sampled := fun _ => Option.none
  drafts : ℕ → Option Slot.Sampled := fun _ => Option.none

/-- The inputs of a turn. -/
structure Turn where
  left : ℕ → ℕ := fun _ => 0
  drafted : ℕ → ℕ := fun _ => 0
  look : ℕ → Slot.Look := fun _ => {}
  load : ℕ → Slot.Load := fun _ => {}
  decodes : List Decode := []

inductive Event
  /-- a task is put in the queue -/
  | post
  /-- a task is taken from the queue for a slot -/
  | take (t : ℕ) (i : ℕ) (task : Task)
  | cancel (t : ℕ)
  | update (turn : Turn)

namespace State

/-- A function of a turn, for one slot after the other.  They share what is put in the batch. -/
def pass {α : Type} (f : ℕ → α → Slot → α × Slot × List Action) :
    ℕ → α → List Slot → α × List Slot × List (ℕ × Action)
  | _, a, [] => (a, [], [])
  | i, a, slot :: slots =>
    let moved := f i a slot
    let rest := pass f (i + 1) moved.1 slots
    (rest.1, moved.2.1 :: rest.2.1, entries slot.idTask moved.2.2 ++ rest.2.2)

/-- All slots pass through a function. -/
def eachSlot {α : Type} (s : State) (f : ℕ → α → Slot → α × Slot × List Action) (a : α) :
    α × State :=
  let passed := pass f 0 a s.slots
  (passed.1, { s with slots := passed.2.1, log := s.log ++ passed.2.2 })

/-- The same for a function that puts nothing in the batch. -/
def forSlots (s : State) (f : ℕ → Slot → Slot × List Action) : State :=
  (s.eachSlot (fun i _ slot => ((), f i slot)) ()).2

def releaseSlots (s : State) : State := s.forSlots fun _ slot => (slot.releaseSlot, [])

def slotsIdle (s : State) : Bool := s.slots.all fun slot => slot.available

def contextShift (params : Params) (turn : Turn) (s : State) : State :=
  s.forSlots fun i => Slot.contextShift params (turn.left i)

def addSampledTokens (turn : Turn) (s : State) : ℕ × State :=
  s.eachSlot (fun i => Slot.addSampledTokens (turn.drafted i)) 0

def batchPendingPrompt (params : Params) (turn : Turn) (nTokens : ℕ) (s : State) :
    Slot.Assembly × State :=
  let batch := { nTokens, batchType := if nTokens > 0 then some false else Option.none }
  if params.contBatching ∨ nTokens = 0 then
    s.eachSlot (fun i => Slot.batchPendingPrompt params (turn.look i) (turn.load i)) batch
  else (batch, s)

def sampleOutput (decode : Decode) (s : State) : State :=
  s.forSlots fun i => Slot.sampleOutput (decode.output i)

def speculativeDecodingAccept (decode : Decode) (s : State) : State :=
  s.forSlots fun i => Slot.acceptDrafts (decode.drafts i)

def decodeFails (ret : ℤ) (s : State) : State := s.forSlots fun _ => Slot.decodeFails ret

/-- `process_batch_tokens`.  A smaller batch is tried as long as there is one. -/
def processBatchTokens : List Decode → ℕ → State → State
  | [], _, s => s
  | decode :: decodes, nBatch, s =>
    if decode.ret ≠ 0 then
      if nBatch = 1 ∨ decode.ret < 0 then s.decodeFails decode.ret
      else processBatchTokens decodes (nBatch / 2) s
    else
      processBatchTokens decodes nBatch ((s.sampleOutput decode).speculativeDecodingAccept decode)

/-- `update_slots` -/
def updateSlots (params : Params) (turn : Turn) (s : State) : State :=
  let s := s.releaseSlots
  if s.slotsIdle then s
  else
    let added := (s.contextShift params turn).addSampledTokens turn
    let batched := added.2.batchPendingPrompt params turn added.1
    if batched.1.nTokens = 0 then batched.2
    else batched.2.processBatchTokens turn.decodes params.nBatch

/-! ## The queue -/

/-- A task that needs a slot is deferred as long as that is not available. -/
def take (t i : ℕ) (task : Task) (s : State) : State :=
  match s.slots[i]? with
  | Option.none => s
  | some slot =>
    if t ∉ s.waiting ∨ ¬slot.available then s
    else
      let s := { s with waiting := s.waiting.filter (· ≠ t) }
      if task.systemPrompt = some false then { s with log := s.log ++ [(t, .error)] }
      else
        let s := if task.systemPrompt = some true then
            s.forSlots fun _ slot => ({ slot with nPast := 0 }, [])
          else s
        { s with
          slots := s.slots.modify i (Slot.launch t task)
          log := s.log ++ entries (some t)
            (if task.accepted then [.launched] else [.launched, .error]) }

/-- The slot that is linked with a task is released. -/
def releaseTask (t : ℕ) : List Slot → List Slot
  | [] => []
  | slot :: slots =>
    if slot.idTask = some t then slot.release :: slots else slot :: releaseTask t slots

/-- A task is cancelled, in the queue or in its slot. -/
def cancel (t : ℕ) (s : State) : State :=
  if t < s.nextId then
    { s with
      waiting := s.waiting.filter (· ≠ t)
      slots := releaseTask t s.slots
      log := s.log ++ [(t, .cancelled)] }
  else s

def step (params : Params) (s : State) : Event → State
  | .post => { s with waiting := s.waiting ++ [s.nextId], nextId := s.nextId + 1 }
  | .take t i task => s.take t i task
  | .cancel t => s.cancel t
  | .update turn => s.updateSlots params turn

end State

end ExpertPin.Server.Tasks
