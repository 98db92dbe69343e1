import Mathlib.Algebra.GroupWithZero.Nat
import Mathlib.Data.Finset.Insert

/-!
# The cells of the key-value cache

One cell per cached token: its position, the shift still to be applied to its keys and
the sequences that hold it.  In a hybrid model the first cells double as the state slots
of the sequences, and `src` names the slot a pending copy reads from.

Modelled is the cache of a model that is not recurrent: `cache.recurrent` is false, and
the branches under it are left out.  Positions and sequence ids are `int32_t`, counters
`uint32_t`.
-/

namespace ExpertPin.Kv

structure Cell where
  pos : ℤ
  delta : ℤ
  src : ℤ
  seqId : Finset ℤ
deriving DecidableEq

namespace Cell

/-- `llama_kv_cell()` -/
def empty : Cell where
  pos := -1
  delta := 0
  src := 0
  seqId := ∅

def hasSeqId (cell : Cell) (id : ℤ) : Prop := id ∈ cell.seqId

def isEmpty (cell : Cell) : Prop := cell.seqId = ∅

instance (cell : Cell) (id : ℤ) : Decidable (cell.hasSeqId id) :=
  inferInstanceAs (Decidable (id ∈ cell.seqId))

instance (cell : Cell) : Decidable cell.isEmpty :=
  inferInstanceAs (Decidable (cell.seqId = ∅))

/-- The test of both scans for the end of the used cells. -/
def inUse (cell : Cell) : Prop := 0 ≤ cell.pos ∧ ¬cell.isEmpty

instance (cell : Cell) : Decidable cell.inUse :=
  inferInstanceAs (Decidable (_ ∧ _))

theorem isEmpty_empty : empty.isEmpty := rfl

theorem not_inUse_empty : ¬empty.inUse := fun h => h.2 isEmpty_empty

end Cell

/-- The last used cell below a bound, plus one. -/
def cellMaxBelow (cells : ℕ → Cell) : ℕ → ℕ
  | 0 => 0
  | i + 1 => if (cells i).inUse then i + 1 else cellMaxBelow cells i

/-- The fields the operations on cells read or write.  `qnextStateSlots` is the common
`ne[1]` of the state tensors `s_l`, 0 when there are none, and `anyCompacted` says that
`row_count` is not empty. -/
structure Cache where
  hasShift : Bool
  doDefrag : Bool
  doCopy : Bool
  sLPositionStrict : Bool
  qnextStateSlots : ℕ
  anyCompacted : Bool
  sinkRows : ℕ
  windowSwa : ℕ
  headSwa : ℕ
  posBaseSwa : ℤ
  head : ℕ
  size : ℕ
  used : ℕ
  cells : ℕ → Cell

namespace Cache

/-- `llama_kv_has_qnext_state_storage` -/
def hasQnextStateStorage (cache : Cache) : Prop :=
  ¬cache.sLPositionStrict ∧ 0 < cache.qnextStateSlots

instance (cache : Cache) : Decidable cache.hasQnextStateStorage :=
  inferInstanceAs (Decidable (_ ∧ _))

/-- Write one cell of the array. -/
def setCell (cache : Cache) (i : ℕ) (cell : Cell) : Cache :=
  { cache with cells := Function.update cache.cells i cell }

@[simp] theorem setCell_self (cache : Cache) (i : ℕ) (cell : Cell) :
    (cache.setCell i cell).cells i = cell := by
  simp only [setCell, Function.update_self]

theorem setCell_of_ne (cache : Cache) {i j : ℕ} (h : j ≠ i) (cell : Cell) :
    (cache.setCell i cell).cells j = cache.cells j := by
  simp only [setCell, Function.update_of_ne h]

/-- `llama_kv_cache_cell_max(cache)` -/
def cellMax (cache : Cache) : ℕ := cellMaxBelow cache.cells cache.size

end Cache

theorem cellMaxBelow_le (cells : ℕ → Cell) (n : ℕ) : cellMaxBelow cells n ≤ n := by
  induction n with
  | zero => exact Nat.le_refl 0
  | succ n ih =>
    rw [cellMaxBelow]
    split
    · exact Nat.le_refl _
    · exact Nat.le_succ_of_le ih

theorem Cache.cellMax_le (cache : Cache) : cache.cellMax ≤ cache.size :=
  cellMaxBelow_le cache.cells cache.size

/-- Beyond the result no cell is used. -/
theorem not_inUse_of_cellMaxBelow_le {cells : ℕ → Cell} {n i : ℕ}
    (h : cellMaxBelow cells n ≤ i) (hi : i < n) : ¬(cells i).inUse := by
  induction n with
  | zero => exact absurd hi (Nat.not_lt_zero i)
  | succ n ih =>
    rw [cellMaxBelow] at h
    split at h
    case isTrue hn => exact absurd hi (Nat.not_lt.mpr h)
    case isFalse hn =>
      rcases Nat.lt_succ_iff_lt_or_eq.mp hi with hlt | rfl
      · exact ih h hlt
      · exact hn

/-- The last cell before the result is used, when there is one. -/
theorem inUse_of_cellMaxBelow {cells : ℕ → Cell} {n m : ℕ}
    (h : cellMaxBelow cells n = m + 1) : (cells m).inUse := by
  induction n with
  | zero => exact absurd h (Nat.succ_ne_zero m).symm
  | succ n ih =>
    rw [cellMaxBelow] at h
    split at h
    case isTrue hn => exact Nat.succ.inj h ▸ hn
    case isFalse hn => exact ih h

theorem cellMaxBelow_eq {cells : ℕ → Cell} {m j : ℕ} (hm : (cells m).inUse) (hmj : m < j)
    (hlast : ∀ i, m < i → i < j → ¬(cells i).inUse) : cellMaxBelow cells j = m + 1 := by
  induction j with
  | zero => exact absurd hmj (Nat.not_lt_zero m)
  | succ j ih =>
    rw [cellMaxBelow]
    rcases Nat.lt_succ_iff_lt_or_eq.mp hmj with hlt | rfl
    · rw [if_neg (hlast j hlt (Nat.lt_succ_self j))]
      exact ih hlt fun i hi hij => hlast i hi (Nat.lt_succ_of_lt hij)
    · rw [if_pos hm]

end ExpertPin.Kv
