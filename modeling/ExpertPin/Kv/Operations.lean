import ExpertPin.Kv.Defrag
import Mathlib.Algebra.Ring.Int.Defs

/-!
# Operations on the cells

The functions `llama_kv_cache_*` that place, remove, copy and shift the tokens of
sequences, for a cache that is not recurrent.  A loop that treats each cell by itself is
`Cache.mapCells`; a loop that also keeps `used` and a new head is a fold over the cells.
Counters are unbounded here: `used` and `head` stay at most `size`.  `none` is a failed
assertion.
-/

namespace ExpertPin.Kv

/-- Two's complement, where the code adds two `llama_pos`. -/
def wrap32 (x : ℤ) : ℤ := x.bmod (2 ^ 32)

/-- `if (p0 < 0) p0 = 0;` -/
def rangeStart (p0 : ℤ) : ℤ := if p0 < 0 then 0 else p0

/-- `if (p1 < 0) p1 = std::numeric_limits<llama_pos>::max();` -/
def rangeEnd (p1 : ℤ) : ℤ := if p1 < 0 then 2 ^ 31 - 1 else p1

theorem rangeStart_nonneg (p0 : ℤ) : 0 ≤ rangeStart p0 := by
  rw [rangeStart]
  split
  case isTrue => exact Int.le_refl 0
  case isFalse h => exact Int.not_lt.mp h

/-- The position of the cell is in `[p0, p1)`. -/
def Cell.posIn (cell : Cell) (p0 p1 : ℤ) : Prop := rangeStart p0 ≤ cell.pos ∧ cell.pos < rangeEnd p1

instance (cell : Cell) (p0 p1 : ℤ) : Decidable (cell.posIn p0 p1) :=
  inferInstanceAs (Decidable (_ ∧ _))

/-- A token of a batch. -/
structure Token where
  pos : ℤ
  seqId : List ℤ
deriving DecidableEq, Repr

namespace Cache

/-- Every cell by itself. -/
def mapCells (cache : Cache) (f : ℕ → Cell → Cell) : Cache :=
  { cache with cells := fun i => if i < cache.size then f i (cache.cells i) else cache.cells i }

/-! ## Placing a batch -/

/-- The search for `n` free cells in a row: whether there are, and where `head` ends. -/
def slotSearch (cells : ℕ → Cell) {size n : ℕ} (h : n ≤ size) (head nTested : ℕ) : Bool × ℕ :=
  if size < head + n then slotSearch cells h 0 (nTested + (size - head))
  else
    match (List.range n).find? fun i => 0 ≤ (cells (head + i)).pos with
    | none => (true, head)
    | some i =>
      if size ≤ nTested + (i + 1) then (false, head + (i + 1))
      else slotSearch cells h (head + (i + 1)) (nTested + (i + 1))
termination_by (size - nTested, head)
decreasing_by
  · rcases Nat.eq_zero_or_pos (size - head - nTested) with _ | _
    all_goals simp only [Prod.lex_def]; omega
  · simp only [Prod.lex_def]; omega

/-- Write the tokens to the cells from `head` on. -/
def placeTokens (cells : ℕ → Cell) (head : ℕ) : List Token → ℕ → Cell
  | [] => cells
  | token :: tokens =>
    placeTokens (Function.update cells head { cells head with
      pos := token.pos
      seqId := token.seqId.foldl (fun ids id => insert id ids) (cells head).seqId })
        (head + 1) tokens

/-- `llama_kv_cache_find_slot` -/
def findSlot (cache : Cache) (batch : List Token) : Cache × Bool :=
  if h : batch.length ≤ cache.size then
    let found := slotSearch cache.cells h cache.head 0
    if found.1 then
      ({ cache with
          head := found.2
          cells := placeTokens cache.cells found.2 batch
          used := cache.used + batch.length }, true)
    else ({ cache with head := found.2 }, false)
  else (cache, false)

/-- `llama_kv_cache_clear` -/
def clear (cache : Cache) : Cache :=
  { cache.mapCells fun i cell => { cell with pos := -1, src := i, seqId := ∅ } with
    head := 0
    used := 0
    headSwa := cache.sinkRows
    posBaseSwa := 0 }

/-! ## Removing -/

def liveSwa (cache : Cache) : ℕ := cache.headSwa - cache.sinkRows

/-- What `llama_kv_cache_seq_rm` does about the compacted rows. -/
inductive CompactPlan
  | abort
  | refuse
  | keep
  | apply (head : ℕ) (base : ℤ)
deriving DecidableEq, Repr

def compactPlan (cache : Cache) (seqId p0 p1 : ℤ) : CompactPlan :=
  if cache.anyCompacted ∧ seqId ≤ 0 ∧ rangeStart p0 < rangeEnd p1 then
    if 0 < cache.liveSwa ∨ cache.posBaseSwa = 0 then
      if rangeStart p0 < cache.posBaseSwa + cache.liveSwa ∧ cache.posBaseSwa < rangeEnd p1 then
        if rangeEnd p1 < cache.posBaseSwa + cache.liveSwa then .refuse
        else if rangeStart p0 = 0 then .apply cache.sinkRows 0
        else if cache.posBaseSwa = 0 ∨ cache.posBaseSwa + cache.windowSwa ≤ rangeStart p0 then
          .apply (cache.sinkRows + (rangeStart p0 - cache.posBaseSwa).toNat) cache.posBaseSwa
        else .refuse
      else .keep
    else .abort
  else .keep

/-- The cache and `new_head` within a loop. -/
structure Sweep where
  cache : Cache
  newHead : ℕ

/-- Free cell `i`: `used` counts it no longer, and it is the new head if it is the first. -/
def Sweep.free (s : Sweep) (i : ℕ) (cell : Cell) (wasUsed : Prop) [Decidable wasUsed] : Sweep where
  cache := { s.cache.setCell i cell with
    used := if wasUsed then s.cache.used - 1 else s.cache.used }
  newHead := if s.newHead = s.cache.size then i else s.newHead

/-- `cell.src = i` where there are state slots. -/
def resetSrc (cache : Cache) (i : ℕ) (cell : Cell) : ℤ :=
  if cache.hasQnextStateStorage then i else cell.src

def seqRmCell (seqId p0 p1 : ℤ) (s : Sweep) (i : ℕ) : Sweep :=
  let cell := s.cache.cells i
  if cell.posIn p0 p1 then
    if 0 ≤ seqId ∧ ¬cell.hasSeqId seqId then s
    else
      let ids := if seqId < 0 then ∅ else cell.seqId.erase seqId
      if ids = ∅ then
        s.free i { cell with pos := -1, seqId := ∅, src := s.cache.resetSrc i cell } (0 ≤ cell.pos)
      else { s with cache := s.cache.setCell i { cell with seqId := ids } }
  else s

/-- `if (new_head != cache.size && new_head < cache.head) cache.head = new_head;` -/
def Sweep.lowerHead (s : Sweep) : Cache :=
  if s.newHead ≠ s.cache.size ∧ s.newHead < s.cache.head then { s.cache with head := s.newHead }
  else s.cache

/-- `llama_kv_cache_seq_rm` -/
def seqRm (cache : Cache) (seqId p0 p1 : ℤ) : Option (Cache × Bool) :=
  match cache.compactPlan seqId p0 p1 with
  | .abort => none
  | .refuse => some (cache, false)
  | .keep =>
    some (((List.range cache.size).foldl (seqRmCell seqId p0 p1) ⟨cache, cache.size⟩).lowerHead,
      true)
  | .apply head base =>
    some ({ ((List.range cache.size).foldl (seqRmCell seqId p0 p1)
        ⟨cache, cache.size⟩).lowerHead with headSwa := head, posBaseSwa := base }, true)

def seqKeepCell (seqId : ℤ) (s : Sweep) (i : ℕ) : Sweep :=
  let cell := s.cache.cells i
  if ¬cell.hasSeqId seqId then
    s.free i { cell with pos := -1, seqId := ∅, src := s.cache.resetSrc i cell } (0 ≤ cell.pos)
  else { s with cache := s.cache.setCell i { cell with seqId := {seqId} } }

/-- `llama_kv_cache_seq_keep` -/
def seqKeep (cache : Cache) (seqId : ℤ) : Cache :=
  ((List.range cache.size).foldl (seqKeepCell seqId) ⟨cache, cache.size⟩).lowerHead

/-! ## Copying -/

/-- `llama_kv_qnext_seq_id_in_range`, and the bound by the size. -/
def seqIdInRange (cache : Cache) (seqId : ℤ) : Prop :=
  (0 < cache.qnextStateSlots ∧ 0 ≤ seqId ∧ seqId < cache.qnextStateSlots) ∧ seqId < cache.size

instance (cache : Cache) (seqId : ℤ) : Decidable (cache.seqIdInRange seqId) :=
  inferInstanceAs (Decidable (_ ∧ _))

/-- The branch of `llama_kv_cache_seq_cp` for state slots is taken. -/
def copiesSlot (cache : Cache) (src dst : ℤ) : Prop :=
  cache.hasQnextStateStorage ∧ cache.seqIdInRange dst ∧ cache.seqIdInRange src

instance (cache : Cache) (src dst : ℤ) : Decidable (cache.copiesSlot src dst) :=
  inferInstanceAs (Decidable (_ ∧ _))

def addSeqCell (src dst p0 p1 : ℤ) (cell : Cell) : Cell :=
  if cell.hasSeqId src ∧ cell.posIn p0 p1 then { cell with seqId := insert dst cell.seqId }
  else cell

/-- The loop of `llama_kv_cache_seq_cp`. -/
def addSeq (cache : Cache) (src dst p0 p1 : ℤ) : Cache :=
  { cache.mapCells fun _ => addSeqCell src dst p0 p1 with head := 0 }

/-- `llama_kv_cache_seq_cp` -/
def seqCp (cache : Cache) (src dst p0 p1 : ℤ) : Option Cache :=
  if cache.copiesSlot src dst then
    let src' := (cache.cells src.toNat).src
    if 0 ≤ src' ∧ src' < cache.size then
      some ({ cache.setCell dst.toNat { cache.cells dst.toNat with
          src := src'
          pos := (cache.cells src'.toNat).pos } with
        doCopy := true }.addSeq src' dst p0 p1)
    else none
  else some (cache.addSeq src dst p0 p1)

/-! ## Shifting -/

def seqAddCell (seqId p0 p1 delta : ℤ) (s : Sweep) (i : ℕ) : Sweep :=
  let cell := s.cache.cells i
  if cell.hasSeqId seqId ∧ cell.posIn p0 p1 then
    let moved : Cell :=
      { cell with pos := wrap32 (cell.pos + delta), delta := wrap32 (cell.delta + delta) }
    let s := { s with cache := { s.cache with hasShift := true } }
    if moved.pos < 0 then s.free i { moved with pos := -1, seqId := ∅ } (¬cell.isEmpty)
    else { s with cache := s.cache.setCell i moved }
  else s

/-- `llama_kv_cache_seq_add` -/
def seqAdd (cache : Cache) (seqId p0 p1 delta : ℤ) : Option Cache :=
  if cache.sLPositionStrict ∨ cache.anyCompacted then none
  else if rangeStart p0 = rangeEnd p1 then some cache
  else
    let s := (List.range cache.size).foldl (seqAddCell seqId p0 p1 delta) ⟨cache, cache.size⟩
    some { s.cache with head := if s.newHead ≠ cache.size then s.newHead else 0 }

def divCell (seqId p0 p1 d : ℤ) (cell : Cell) : Cell :=
  if cell.hasSeqId seqId ∧ cell.posIn p0 p1 then
    { cell with
      pos := cell.pos.tdiv d
      delta := wrap32 (cell.delta + (cell.pos.tdiv d - cell.pos)) }
  else cell

/-- `llama_kv_cache_seq_div` -/
def seqDiv (cache : Cache) (seqId p0 p1 d : ℤ) : Option Cache :=
  if cache.sLPositionStrict ∨ cache.anyCompacted then none
  else if rangeStart p0 = rangeEnd p1 then some cache
  else some { cache.mapCells fun _ => divCell seqId p0 p1 d with
    hasShift := cache.hasShift || (List.range cache.size).any fun i =>
      (cache.cells i).hasSeqId seqId ∧ (cache.cells i).posIn p0 p1 }

/-! ## Deferred work -/

/-- `llama_kv_cache_defrag` -/
def defrag (cache : Cache) : Cache :=
  if cache.sLPositionStrict ∨ cache.anyCompacted then cache else { cache with doDefrag := true }

/-- The pending shift of the keys. -/
def updateShift (cache : Cache) : Cache :=
  { cache.mapCells fun _ cell => { cell with delta := 0 } with hasShift := false }

/-- The pending copy of the states. -/
def updateCopy (cache : Cache) : Cache :=
  if cache.hasQnextStateStorage ∧ cache.doCopy then
    { cache.mapCells fun i cell => { cell with src := i } with doCopy := false }
  else cache

/-- The pending defragmentation. -/
def updateDefrag (cache : Cache) (maxMoves : ℕ) : Option Cache :=
  if cache.doDefrag then
    (cache.defragInternal maxMoves).map fun s =>
      { cache with cells := s.cells, head := s.head, doDefrag := false }
  else some cache

/-- `llama_kv_cache_update_internal`: a shift the model does not support ends it. -/
def update (cache : Cache) (hasRope canShift : Bool) (maxMoves : ℕ) : Option Cache :=
  if hasRope ∧ cache.hasShift then
    if canShift then cache.updateShift.updateCopy.updateDefrag maxMoves else some cache
  else cache.updateCopy.updateDefrag maxMoves

end Cache

end ExpertPin.Kv
