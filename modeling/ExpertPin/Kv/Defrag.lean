import ExpertPin.Kv.Cells
import ExpertPin.Lib.Relocation

/-!
# Defragmentation

`llama_kv_cache_defrag_internal` fills the holes among the first `used` cells with cells
from the end of the cache.  It moves the metadata itself while it searches, and hands the
plan `ids`, cell `i` goes to `ids[i]`, to `build_defrag`, which copies the rows of keys,
values and indexer keys.
-/

namespace ExpertPin.Kv

open Relocation

/-! ## The plan -/

/-- What the search changes.  `ids` has an entry for each of the first `n_kv` cells; the
entry `n_kv` stands for a cell that is not moved. -/
structure DefragState where
  cells : ℕ → Cell
  ids : ℕ → ℕ
  nMoves : ℕ
  head : ℕ

namespace DefragState

/-- `ids[i0] = i0` -/
def keep (s : DefragState) (i0 : ℕ) : DefragState :=
  { s with ids := Function.update s.ids i0 i0 }

/-- Move cell `i1` to the hole at `target`; a move that continues a block is not counted
again. -/
def move (s : DefragState) (nUsed target i1 : ℕ) (cont : Bool) : DefragState where
  cells := Function.update (Function.update s.cells target (s.cells i1)) i1 Cell.empty
  ids := Function.update s.ids i1 target
  nMoves := if cont then s.nMoves else s.nMoves + 1
  head := nUsed

section

variable (s : DefragState) (nUsed target i0 i1 : ℕ) (cont : Bool)

@[simp] theorem keep_ids : (s.keep i0).ids = Function.update s.ids i0 i0 := rfl

@[simp] theorem move_cells : (s.move nUsed target i1 cont).cells =
    Function.update (Function.update s.cells target (s.cells i1)) i1 Cell.empty := rfl

@[simp] theorem move_ids : (s.move nUsed target i1 cont).ids =
    Function.update s.ids i1 target := rfl

variable {s nUsed target i1 cont} in
theorem nMoves_move_pos (h : cont = true → 0 < s.nMoves) :
    0 < (s.move nUsed target i1 cont).nMoves := by
  cases cont with
  | true => exact h rfl
  | false => exact Nat.succ_pos _

end

/-- `cell1.is_empty() || ids[i] != n_kv` -/
def skips (s : DefragState) (nKv i : ℕ) : Prop := (s.cells i).isEmpty ∨ s.ids i ≠ nKv

instance (s : DefragState) (nKv i : ℕ) : Decidable (s.skips nKv i) :=
  inferInstanceAs (Decidable (_ ∨ _))

/-- The size of the hole, `nh` cells of which are known. -/
def holeSize (s : DefragState) (nUsed i0 nh : ℕ) : ℕ :=
  if i0 + nh < nUsed ∧ (s.cells (i0 + nh)).isEmpty then holeSize s nUsed i0 (nh + 1) else nh
termination_by nUsed - (i0 + nh)
decreasing_by omega

/-- Starting from the end, find `nh` cells to move: where the search ends, and how many
it has found. -/
def findTail (s : DefragState) (nKv i0 nh : ℕ) : ℕ → ℕ → ℕ × ℕ
  | 0, nf => (0, nf)
  | is + 1, nf =>
    if i0 < is + 1 then
      if s.skips nKv (is + 1) then findTail s nKv i0 nh is nf
      else if nf + 1 = nh then (is + 1, nf + 1)
      else findTail s nKv i0 nh is (nf + 1)
    else (is + 1, nf)

/-- Go back and move the cells to the hole; the flag is `stop`. -/
def moveBack (s : DefragState) (maxMoves nKv nUsed i0 nh i1 nf : ℕ) (cont : Bool) :
    DefragState × Bool :=
  if i1 < nKv then
    if s.skips nKv i1 then
      if s.nMoves = maxMoves then (s, true)
      else moveBack s maxMoves nKv nUsed i0 nh (i1 + 1) nf false
    else if nf + 1 = nh then (s.move nUsed (i0 + nf) i1 cont, false)
    else moveBack (s.move nUsed (i0 + nf) i1 cont) maxMoves nKv nUsed i0 nh (i1 + 1) (nf + 1) true
  else (s, false)
termination_by nKv - i1

/-- The outer loop; `none` is the failed assertion `nf == nh`. -/
def fillHoles (s : DefragState) (maxMoves nKv nUsed i0 : ℕ) : Option DefragState :=
  if i0 < nUsed then
    if ¬(s.cells i0).isEmpty then fillHoles (s.keep i0) maxMoves nKv nUsed (i0 + 1)
    else
      let nh := s.holeSize nUsed i0 1
      let found := s.findTail nKv i0 nh (nKv - 1) 0
      if found.2 = nh then
        let moved := s.moveBack maxMoves nKv nUsed i0 nh found.1 0 false
        if moved.2 ∨ moved.1.nMoves = maxMoves then some moved.1
        else fillHoles moved.1 maxMoves nKv nUsed (i0 + (nh - 1) + 1)
      else none
  else some s
termination_by nUsed - i0

end DefragState

namespace Cache

/-- The state in which the search starts. -/
def defragStart (cache : Cache) : DefragState where
  cells := cache.cells
  ids _ := cache.cellMax
  nMoves := 0
  head := cache.head

@[simp] theorem defragStart_ids (cache : Cache) (i : ℕ) :
    cache.defragStart.ids i = cache.cellMax := rfl

/-- `llama_kv_cache_defrag_internal` up to the copies of the rows, which
`DefragState.copies` gives; `none` is a failed assertion. -/
def defragInternal (cache : Cache) (maxMoves : ℕ) : Option DefragState :=
  if cache.used ≤ cache.cellMax then
    cache.defragStart.fillHoles maxMoves cache.cellMax cache.used 0
  else none

end Cache

/-! ## The copies of the rows -/

/-- How far the cells from `i` on go to consecutive places; `nm` of them are known to. -/
def blockSize (ids : ℕ → ℕ) (nIds i nm : ℕ) : ℕ :=
  if i + nm < nIds ∧ ids (i + nm) = ids i + nm then blockSize ids nIds i (nm + 1) else nm
termination_by nIds - (i + nm)
decreasing_by omega

/-- The blocks `build_defrag` copies, in its order; `nIds` is `ids.size()`. -/
def buildDefrag (ids : ℕ → ℕ) (nIds i : ℕ) : List Run :=
  if i < nIds then
    if i = ids i ∨ ids i = nIds then buildDefrag ids nIds (i + 1)
    else
      let nm := blockSize ids nIds i 1
      ⟨i, ids i, nm⟩ :: buildDefrag ids nIds (i + (nm - 1) + 1)
  else []
termination_by nIds - i

/-- The blocks of a finished search; without a move no graph is built. -/
def DefragState.copies (s : DefragState) (nIds : ℕ) : List Run :=
  if s.nMoves = 0 then [] else buildDefrag s.ids nIds 0

/-- `ggml_cpy` between two-dimensional views of one tensor: `ne1` rows of `ne0` bytes that
are `nb1` bytes apart, from the offsets `src` and `dst` on. -/
def viewRuns (ne0 ne1 nb1 src dst : ℕ) : List Run :=
  (List.range ne1).map fun j => ⟨src + j * nb1, dst + j * nb1, ne0⟩

/-- A tensor with a row, or a column, for each cell. -/
structure CellTensor where
  /-- `ggml_row_size` for the type of the tensor -/
  rowSize : ℕ → ℕ
  /-- the elements of a cell as `build_defrag` takes them -/
  nEmbd : ℕ
  /-- the bytes from one cell to the next as the tensor was allocated -/
  stride : ℕ

namespace CellTensor

/-- The views of rows of `nEmbd` elements. -/
def rowRuns (t : CellTensor) (r : Run) : List Run :=
  viewRuns (t.rowSize t.nEmbd) r.len (t.rowSize t.nEmbd) (t.rowSize (t.nEmbd * r.src))
    (t.rowSize (t.nEmbd * r.dst))

/-- The views of columns of the transposed values, in a cache of `size` cells. -/
def columnRuns (t : CellTensor) (size : ℕ) (r : Run) : List Run :=
  viewRuns (t.rowSize r.len) t.nEmbd (t.rowSize size) (t.rowSize r.src) (t.rowSize r.dst)

end CellTensor

/-- The tensors of a layer that `build_defrag` copies: `k_l`, and `v_l` and `kr_l` where
they are allocated. -/
structure Layer where
  k : CellTensor
  v : Option CellTensor
  kr : Option CellTensor

/-- The bytes of the tensors of a layer. -/
structure LayerData (β : Type) where
  k : ℕ → β
  v : ℕ → β
  kr : ℕ → β

/-- The copies of one block within a layer. -/
def Layer.copy {β : Type} (layer : Layer) (flashAttn : Bool) (size : ℕ) (r : Run)
    (data : LayerData β) : LayerData β where
  k := execute (layer.k.rowRuns r) data.k
  v := layer.v.elim data.v fun v =>
    execute (if flashAttn then v.rowRuns r else v.columnRuns size r) data.v
  kr := layer.kr.elim data.kr fun kr => execute (kr.rowRuns r) data.kr

/-- The graph `build_defrag` builds: block after block, in each the layers one after the
other.  A layer that is recurrent or has no `k_l` is `none`. -/
def runDefrag {β : Type} (layers : ℕ → Option Layer) (flashAttn : Bool) (size : ℕ)
    (runs : List Run) (data : ℕ → LayerData β) : ℕ → LayerData β :=
  runs.foldl (fun data r il => (layers il).elim (data il) fun layer =>
    layer.copy flashAttn size r (data il)) data

end ExpertPin.Kv
