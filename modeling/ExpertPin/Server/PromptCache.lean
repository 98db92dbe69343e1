import Mathlib.Algebra.GroupWithZero.Nat
import ExpertPin.Server.PromptReuse

/-!
# The prompt cache

The states of earlier prompts are kept in a list, the oldest first, each with the tokens that its
cells are for.  A slot saves its state before it is used for something else, and may be given one
that fits the new prompt better.
-/

namespace ExpertPin.Server

open ServerTokens (Failure)

/-- `discard_n_tokens`: the first `nKeep` tokens are kept, and those after them are discarded. -/
def ServerTokens.discardNTokens (T : ServerTokens) (nKeep nDiscard : ℤ) :
    Except Failure ServerTokens :=
  if nDiscard ≤ 0 ∨ nKeep + nDiscard ≥ T.size then .ok T
  else if nKeep < 0 then .error .assertion
  else do
    let kept ← T.keepFirst nKeep.toNat
    return { kept with
      tokens := kept.tokens ++ T.tokens.drop (nKeep + nDiscard).toNat
      media := kept.media ++ (T.media.filter fun (idx, _) => nKeep + nDiscard ≤ idx).map
        fun (idx, chunk) => (idx - nDiscard.toNat, chunk) }

/-- `thinking_tokens` -/
structure ThinkingTokens where
  exclude : Bool := false
  start : Text := []
  stop : Text := []
deriving DecidableEq

/-- `server_prompt`.  The cells of its state are for its tokens; what was discarded of the prompt
by context shifts is in neither. -/
structure ServerPrompt where
  tokens : ServerTokens
  nKeptPrompt : ℤ := 0
  nDiscardedPrompt : ℤ := 0
  thinkTokens : ThinkingTokens := {}
  data : List UInt8 := []
  checkpoints : List (List UInt8) := []
deriving DecidableEq

def ServerPrompt.size (prompt : ServerPrompt) : ℕ :=
  prompt.data.length + (prompt.checkpoints.map List.length).sum

/-- `server_prompt_cache` -/
structure PromptCache where
  states : List ServerPrompt := []
  /-- in bytes, 0 for no limit -/
  limitSize : ℕ := 0
deriving DecidableEq

namespace PromptCache

def totalSize (states : List ServerPrompt) : ℕ := (states.map ServerPrompt.size).sum

/-! ## Updates -/

/-- The oldest states are dropped until the rest is within the limit, and at least one is kept. -/
def dropOldest (limit : ℕ) : List ServerPrompt → List ServerPrompt
  | state :: next :: states =>
    if limit < totalSize (state :: next :: states) then dropOldest limit (next :: states)
    else state :: next :: states
  | states => states

/-- `server_prompt_cache::update` -/
def update (cache : PromptCache) : PromptCache :=
  if cache.limitSize > 0 then { cache with states := dropOldest cache.limitSize cache.states }
  else cache

/-! ## Saving -/

variable (V : Vocab)

/-- The states that are left, and whether one of them has the prompt already.  A state that the
prompt has wholly is erased. -/
def eraseObsolete (prompt : ServerPrompt) :
    List ServerPrompt → Except Failure (List ServerPrompt × Bool)
  | [] => .ok ([], false)
  | state :: states => do
      let tokensCtxShift ← prompt.tokens.discardNTokens prompt.nKeptPrompt prompt.nDiscardedPrompt
      let common ← state.tokens.getCommonPrefix V tokensCtxShift false
      if common.2 = tokensCtxShift.size then return (state :: states, true)
      else if common.1 = state.tokens.size then eraseObsolete prompt states
      else
        let rest ← eraseObsolete prompt states
        return (state :: rest.1, rest.2)

/-- `server_prompt_cache::alloc`, and whether there is a new state.  `allocates` says whether there
is memory, and `reduced` is the limit that is set if there is not. -/
def alloc (cache : PromptCache) (prompt : ServerPrompt) (stateSize : ℕ) (allocates : Bool)
    (reduced : ℕ → ℕ) : Except Failure (PromptCache × Bool) := do
  let rest ← eraseObsolete V prompt cache.states
  if rest.2 then return ({ cache with states := rest.1 }, false)
  else if !allocates then
    return (update { states := rest.1, limitSize := max 1 (reduced (totalSize rest.1)) }, false)
  else
    return ({ cache with
      states := rest.1 ++ [{ prompt with data := List.replicate stateSize 0 }] }, true)

/-- `server_slot::prompt_save`: the state of the slot is copied to where there is room for it. -/
def promptSave (cache : PromptCache) (prompt : ServerPrompt) (stateData : List UInt8)
    (allocates : Bool) (reduced : ℕ → ℕ) : Except Failure (PromptCache × Bool) := do
  let cur ← alloc V cache prompt stateData.length allocates reduced
  if cur.2 then
    return ({ cur.1 with states := cur.1.states.modify (cur.1.states.length - 1) fun state =>
      { state with data := stateData } }, true)
  else return (cur.1, false)

/-! ## Loading -/

/-- The numbers that prompts are compared by. -/
structure Measure (F : Type) where
  /-- `float(n) / size` -/
  ratio : ℕ → ℕ → F
  /-- `get_slot_similarity` -/
  slotSimilarity : ℕ → ℕ → ℕ → F
  lt : F → F → Bool

variable {F : Type} (m : Measure F)

/-- `get_tokens_similarity` -/
def tokensSimilarity (T tokens : ServerTokens) (nKeep nDiscard : ℤ) : Except Failure F :=
  if nKeep < 0 ∨ nDiscard < 0 then .error .assertion
  else if nKeep = 0 ∧ nDiscard = 0 then do
    let common ← T.getCommonPrefix V tokens false
    return m.slotSimilarity common.2 tokens.size T.size
  else do
    let tokensCtxShift ← tokens.discardNTokens nKeep nDiscard
    let common ← T.getCommonPrefix V tokensCtxShift false
    return m.slotSimilarity common.2 tokensCtxShift.size T.size

variable (excludeThink : ThinkingTokens → ServerTokens → ServerTokens)

/-- What is compared of a token list: without its thoughts, if they are excluded. -/
def compared (think : ThinkingTokens) (T : ServerTokens) : ServerTokens :=
  if think.exclude then excludeThink think T else T

/-- The state that is most similar to the new prompt, of those that are kept well enough. -/
def findBest (think : ThinkingTokens) (tokensNew : ServerTokens) (minReusable : F) :
    ℕ → F → Option ℕ → List ServerPrompt → Except Failure (Option ℕ)
  | _, _, best, [] => .ok best
  | i, simBest, best, state :: states => do
      let tokens := compared excludeThink think state.tokens
      let common ← tokens.getCommonPrefix V tokensNew false
      if m.lt (m.ratio common.1 tokens.size) minReusable then
        findBest think tokensNew minReusable (i + 1) simBest best states
      else
        let sim ← tokensSimilarity V m tokens tokensNew state.nKeptPrompt state.nDiscardedPrompt
        if m.lt simBest sim then findBest think tokensNew minReusable (i + 1) sim (some i) states
        else findBest think tokensNew minReusable (i + 1) simBest best states

/-- The state at an index is given to the slot, if all of its data can be read. -/
def restore (setData : List UInt8 → ℕ) (cache : PromptCache) (prompt : ServerPrompt) :
    Option ℕ → PromptCache × ServerPrompt × Bool
  | none => (cache, prompt, true)
  | some i =>
    match cache.states[i]? with
    | none => (cache, prompt, true)
    | some state =>
      if setData state.data ≠ state.data.length then (cache, prompt, false)
      else ({ cache with states := cache.states.eraseIdx i }, { state with data := [] }, true)

/-- `server_prompt_cache::load`: the cache, the prompt of the slot, and whether that went well.
`setData` is how much `llama_state_seq_set_data` reads. -/
def load (setData : List UInt8 → ℕ) (cache : PromptCache) (prompt : ServerPrompt)
    (tokensNew : ServerTokens) (minReusable : F) :
    Except Failure (PromptCache × ServerPrompt × Bool) := do
  let think := (cache.states.head?.map ServerPrompt.thinkTokens).getD {}
  let tokensNewEx := compared excludeThink think tokensNew
  let simBest ← tokensSimilarity V m (compared excludeThink think prompt.tokens) tokensNewEx
    prompt.nKeptPrompt prompt.nDiscardedPrompt
  let best ← findBest V m excludeThink think tokensNewEx minReusable 0 simBest none cache.states
  return restore setData cache prompt best

/-! ## Calls -/

inductive Call (F : Type)
  /-- the state of a slot is saved -/
  | save (prompt : ServerPrompt) (stateData : List UInt8) (allocates : Bool) (reduced : ℕ → ℕ)
  /-- a slot is given a state -/
  | load (setData : List UInt8 → ℕ) (prompt : ServerPrompt) (tokensNew : ServerTokens)
    (minReusable : F)
  | update

/-- What a call answers: whether there is a new state, or the prompt that the slot has. -/
inductive Answer
  | saved (new : Bool)
  | loaded (prompt : ServerPrompt) (ok : Bool)
  | updated
deriving DecidableEq

def call (cache : PromptCache) : Call F → Except Failure (PromptCache × Answer)
  | .save prompt stateData allocates reduced =>
    (promptSave V cache prompt stateData allocates reduced).map fun r => (r.1, .saved r.2)
  | .load setData prompt tokensNew minReusable =>
    (load V m excludeThink setData cache prompt tokensNew minReusable).map fun r =>
      (r.1, .loaded r.2.1 r.2.2)
  | .update => .ok (cache.update, .updated)

/-- A call in a run: the cache before it, and the cache and the answer after it. -/
structure Step (F : Type) where
  before : PromptCache
  made : Call F
  after : PromptCache
  answer : Answer

def run (cache : PromptCache) : List (Call F) → Except Failure (List (Step F))
  | [] => .ok []
  | made :: calls => do
      let r ← call V m excludeThink cache made
      let steps ← run r.1 calls
      return { before := cache, made, after := r.1, answer := r.2 } :: steps

end PromptCache

end ExpertPin.Server
