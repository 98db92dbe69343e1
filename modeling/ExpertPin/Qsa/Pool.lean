import ExpertPin.Kv.Hybrid
import Mathlib.Data.Finset.Max

/-!
# Pooled block keys

Qwen sparse attention scores blocks of `ratio` cells by a pool of their indexer keys.  The
pools are kept between graphs: a graph pools the blocks that its batch writes to, or all
blocks after the cells have been moved or read back (`qsaPooledStale`).  The layers may have
several ratios, each with its own blocks and its own inputs.
-/

namespace ExpertPin.Qsa

open Kv

/-! ## The blocks of the cells -/

/-- `*cell.seq_id.begin()` -/
def firstSeq (cell : Cell) : ℤ := cell.seqId.min.untopD 0

/-- The arrays of one ratio, as far as the cells have been gone through. -/
structure BlockScan where
  blkOf : ℕ → Option ℕ
  filled : ℕ → ℕ
  blkSeq : ℕ → ℤ
  blkMixed : ℕ → Bool
  blkCells : ℕ → ℕ
  blkPos : ℕ → ℤ

def BlockScan.start : BlockScan where
  blkOf _ := none
  filled _ := 0
  blkSeq _ := -1
  blkMixed _ := false
  blkCells _ := 0
  blkPos _ := -1

/-- The first position of a block, with one more cell. -/
def lowerPos (pos p : ℤ) : ℤ := if pos < 0 ∨ p < pos then p else pos

/-- One cell. -/
def BlockScan.step (cells : ℕ → Cell) (r : ℕ) (s : BlockScan) (j : ℕ) : BlockScan :=
  if (cells j).isEmpty then s
  else
    let b := j / r
    let sid := firstSeq (cells j)
    { blkOf := Function.update s.blkOf j (some b)
      filled := Function.update s.filled b (s.filled b + 1)
      blkSeq := if s.blkSeq b < 0 then Function.update s.blkSeq b sid else s.blkSeq
      blkMixed :=
        if ¬s.blkSeq b < 0 ∧ s.blkSeq b ≠ sid then Function.update s.blkMixed b true
        else s.blkMixed
      blkCells := Function.update s.blkCells (b * r + j % r) j
      blkPos := Function.update s.blkPos b (lowerPos (s.blkPos b) (cells j).pos) }

/-- The cells below `nKv`. -/
def scanBlocks (cells : ℕ → Cell) (r nKv : ℕ) : BlockScan :=
  (List.range nKv).foldl (BlockScan.step cells r) .start

/-- The block of a cell, if it can be ranked. -/
def poolable (cells : ℕ → Cell) (r nKv b : ℕ) : Prop :=
  (scanBlocks cells r nKv).filled b = r ∧ (scanBlocks cells r nKv).blkMixed b = false

instance (cells : ℕ → Cell) (r nKv b : ℕ) : Decidable (poolable cells r nKv b) :=
  inferInstanceAs (Decidable (_ ∧ _))

def blockCount (nKv r : ℕ) : ℕ := (nKv + r - 1) / r

/-! ## The inputs of a graph -/

/-- `qsa_input`, by the sizes of its tensors -/
structure QsaInput where
  ratio : ℕ
  nKv : ℕ
  nTokens : ℕ
  nWin : ℕ
deriving DecidableEq, Repr

/-- `n_win` -/
def windowSize (stale : Bool) (nKv nTokens r : ℕ) : ℕ :=
  if stale then blockCount nKv r else min (blockCount nKv r) ((nTokens + r - 1) / r + 1)

/-- The inputs with those of a layer of ratio `r`. -/
def addInput (stale : Bool) (nKv nTokens : ℕ) (inps : List QsaInput) (r : ℕ) : List QsaInput :=
  if ∃ q ∈ inps, q.ratio = r then inps
  else inps ++ [⟨r, nKv, nTokens, windowSize stale nKv nTokens r⟩]

/-- `inp_qsa`, as the layers with the given ratios build it -/
def buildInputs (layers : List ℕ) (stale : Bool) (nKv nTokens : ℕ) : List QsaInput :=
  layers.foldl (addInput stale nKv nTokens) []

/-- The blocks that the cells of the batch lie in, up to `nWin`. -/
def touchedFrom (nBlocks nWin : ℕ) (touched : List ℕ) : List ℕ → List ℕ
  | [] => touched
  | b :: bs =>
    if b < nBlocks ∧ b ∉ touched then
      if (touched ++ [b]).length = nWin then touched ++ [b]
      else touchedFrom nBlocks nWin (touched ++ [b]) bs
    else touchedFrom nBlocks nWin touched bs

/-- `touched` -/
def touched (stale : Bool) (q : QsaInput) (head nBatch : ℕ) : List ℕ :=
  let blocks :=
    if stale then List.range (blockCount q.nKv q.ratio)
    else touchedFrom (blockCount q.nKv q.ratio) q.nWin []
      ((List.range (min q.nTokens nBatch)).map fun i => (head + i) / q.ratio)
  if blocks = [] then [0] else blocks

/-- An entry of `win_blocks`, with its cells and its position. -/
structure WinEntry where
  block : ℕ
  cells : List ℕ
  pos : ℤ
deriving DecidableEq, Repr

/-- The window of one input. -/
def window (cells : ℕ → Cell) (q : QsaInput) (touched : List ℕ) : List WinEntry :=
  let scan := scanBlocks cells q.ratio q.nKv
  (List.range q.nWin).map fun w =>
    let b := touched.getD (min w (touched.length - 1)) 0
    { block := b
      cells := (List.range q.ratio).map fun k => scan.blkCells (b * q.ratio + k)
      pos := if scan.blkPos b < 0 then 0 else scan.blkPos b }

/-- The loop over the ratios in `llama_set_inputs`: the flag after it, and the windows. -/
def setInputs (cells : ℕ → Cell) (head nBatch : ℕ) (stale : Bool) :
    List QsaInput → Bool × List (ℕ × List WinEntry)
  | [] => (stale, [])
  | q :: qs =>
    let touched := touched stale q head nBatch
    let rest := setInputs cells head nBatch (decide (q.nWin < touched.length)) qs
    (rest.1, (q.ratio, window cells q touched) :: rest.2)

/-! ## The context -/

/-- A graph that may be used again, and the inputs it was built with. -/
structure Graph where
  nKv : ℕ
  nTokens : ℕ
  inputs : List QsaInput
deriving DecidableEq, Repr

/-- The cells, their indexer keys, the pools of each ratio and the graph before.  The keys are
those of all layers together. -/
structure Context (K P : Type) where
  kv : Cache
  keys : ℕ → K
  pooled : ℕ → ℕ → P
  qsaPooledStale : Bool
  prev : Option Graph

/-- A micro-batch: its tokens, the keys that the graph computes, whether what else
`can_reuse_graph` compares is as before, and whether the graph is kept afterwards. -/
structure Batch (K : Type) where
  tokens : List Token
  keys : ℕ → K
  same : Bool
  keeps : Bool

/-- What an event may be: a micro-batch, a removal, or what marks the pools as stale, a
defragmentation or a state that is read. -/
inductive Event (K : Type)
  | decode (batch : Batch K)
  | seqRm (id p0 p1 : ℤ)
  | disturb (kv : Cache) (keys : ℕ → K)

variable {K P : Type}

/-- The entry's pool in its row. -/
def scatterEntry (pool : ℕ → List K → ℤ → P) (keys : ℕ → K) (r : ℕ) (pooled : ℕ → ℕ → P)
    (e : WinEntry) : ℕ → ℕ → P :=
  Function.update pooled r (Function.update (pooled r) e.block (pool r (e.cells.map keys) e.pos))

/-- The pools after the graph: those of the windows are scattered over the rows. -/
def scatter (pool : ℕ → List K → ℤ → P) (keys : ℕ → K) (pooled : ℕ → ℕ → P)
    (windows : List (ℕ × List WinEntry)) : ℕ → ℕ → P :=
  windows.foldl (fun pooled w => w.2.foldl (scatterEntry pool keys w.1) pooled) pooled

/-- The part of `can_reuse_graph` that depends on the cells. -/
def Context.reuses (c : Context K P) (kv : Cache) (nKv : ℕ) (batch : Batch K) (g : Graph) : Prop :=
  batch.same = true ∧ c.qsaPooledStale = false ∧ 0 < kv.head ∧ g.nKv = nKv ∧
    g.nTokens = batch.tokens.length

instance (c : Context K P) (kv : Cache) (nKv : ℕ) (batch : Batch K) (g : Graph) :
    Decidable (c.reuses kv nKv batch g) := inferInstanceAs (Decidable (_ ∧ _))

/-- The graph of a micro-batch. -/
def Context.graph (c : Context K P) (layers : List ℕ) (kv : Cache) (nKv : ℕ)
    (batch : Batch K) : Graph :=
  let built : Graph :=
    ⟨nKv, batch.tokens.length, buildInputs layers c.qsaPooledStale nKv batch.tokens.length⟩
  match c.prev with
  | none => built
  | some g => if c.reuses kv nKv batch g then g else built

/-- A micro-batch, once its cells have been found. -/
def Context.compute (pool : ℕ → List K → ℤ → P) (layers : List ℕ) (flashAttn : Bool)
    (c : Context K P) (kv : Cache) (batch : Batch K) : Context K P :=
  let n := batch.tokens.length
  let graph := c.graph layers kv (kv.span flashAttn) batch
  let filled := setInputs kv.cells kv.head n c.qsaPooledStale graph.inputs
  let keys := fun i => if kv.head ≤ i ∧ i < kv.head + n then batch.keys (i - kv.head) else c.keys i
  { kv := { kv with head := if kv.size ≤ kv.head + n then 0 else kv.head + n }
    keys := keys
    pooled := scatter pool keys c.pooled filled.2
    qsaPooledStale := filled.1
    prev := if batch.keeps then some graph else none }

/-- One event: `none` where an assertion fails. -/
def Context.step (pool : ℕ → List K → ℤ → P) (layers : List ℕ) (flashAttn : Bool)
    (c : Context K P) : Event K → Option (Context K P)
  | .decode batch =>
    let placed := c.kv.placeBatch batch.tokens
    if placed.2 then some (c.compute pool layers flashAttn placed.1 batch)
    else some { c with kv := placed.1 }
  | .seqRm id p0 p1 => (c.kv.seqRm id p0 p1).map fun removed => { c with kv := removed.1 }
  | .disturb kv keys => some { c with kv := kv, keys := keys, qsaPooledStale := true }

end ExpertPin.Qsa
