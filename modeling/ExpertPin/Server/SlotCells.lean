import Mathlib.Data.List.Perm.Basic
import Mathlib.Algebra.Ring.Int.Defs
import ExpertPin.Server.Detokenize

/-!
# The cells of a slot

A slot sees of the cache the cells of its own sequence: each has a position and was computed for
a token.  Where they lie in the cache does not matter to it, so that the cells are a list up to
order.

The cells mirror a token list when they hold its positions, each computed for the token there
(`Mirror`).  Appending, cutting and shifting the tokens have a counterpart on the cells, and each
pair keeps the mirror.
-/

namespace ExpertPin.Server

open List

structure Cell where
  pos : ℤ
  token : Token
deriving DecidableEq, Repr

/-- Is a position in the range of an operation?  A negative end is the largest position, which
is past every cell. -/
def inRange (p0 p1 pos : ℤ) : Bool :=
  max 0 p0 ≤ pos ∧ (p1 < 0 ∨ pos < p1)

/-- `llama_kv_cache_seq_rm` -/
def seqRm (cells : List Cell) (p0 p1 : ℤ) : List Cell :=
  cells.filter fun cell => !inRange p0 p1 cell.pos

/-- `llama_kv_cache_seq_add`: a cell that is shifted below zero is freed. -/
def seqAdd (cells : List Cell) (p0 p1 delta : ℤ) : List Cell :=
  cells.filterMap fun cell =>
    if inRange p0 p1 cell.pos then
      if cell.pos + delta < 0 then none else some { cell with pos := cell.pos + delta }
    else some cell

/-- `llama_kv_cache_seq_pos_max`, which is zero without cells. -/
def seqPosMax (cells : List Cell) : ℤ :=
  cells.foldl (fun result cell => max result cell.pos) 0

/-! ## Cells in a row -/

/-- The cells of tokens from a position on. -/
def cellsFrom (pos : ℕ) : List Token → List Cell
  | [] => []
  | t :: ts => ⟨pos, t⟩ :: cellsFrom (pos + 1) ts

/-- The cells hold the positions of the tokens, each computed for the token there. -/
def Mirror (tokens : List Token) (cells : List Cell) : Prop :=
  cells.Perm (cellsFrom 0 tokens)

@[simp] theorem cellsFrom_nil (pos : ℕ) : cellsFrom pos [] = [] := rfl

@[simp] theorem length_cellsFrom (pos : ℕ) (ts : List Token) :
    (cellsFrom pos ts).length = ts.length := by
  induction ts generalizing pos with
  | nil => rfl
  | cons t ts ih => simp [cellsFrom, ih]

theorem cellsFrom_append (pos : ℕ) (ts us : List Token) :
    cellsFrom pos (ts ++ us) = cellsFrom pos ts ++ cellsFrom (pos + ts.length) us := by
  induction ts generalizing pos with
  | nil => rfl
  | cons t ts ih =>
    rw [cons_append, cellsFrom, cellsFrom, ih, cons_append, length_cons]
    congr 3
    omega

theorem mem_cellsFrom {pos : ℕ} {ts : List Token} {cell : Cell} :
    cell ∈ cellsFrom pos ts ↔ ∃ i, cell.pos = (pos + i : ℕ) ∧ ts[i]? = some cell.token := by
  induction ts generalizing pos with
  | nil => simp
  | cons t ts ih =>
    rw [cellsFrom, mem_cons, ih]
    constructor
    case mp =>
      rintro (rfl | ⟨i, hpos, ht⟩)
      · exact ⟨0, by simp, rfl⟩
      · exact ⟨i + 1, by rw [hpos]; omega, ht⟩
    case mpr =>
      rintro ⟨i, hpos, ht⟩
      cases i with
      | zero =>
        obtain ⟨pos', token⟩ := cell
        cases ht
        exact .inl (by rw [show pos' = (pos : ℤ) from hpos])
      | succ i => exact .inr ⟨i, by rw [hpos]; omega, ht⟩

theorem pos_of_mem_cellsFrom {pos : ℕ} {ts : List Token} {cell : Cell}
    (h : cell ∈ cellsFrom pos ts) : (pos : ℤ) ≤ cell.pos ∧ cell.pos < (pos + ts.length : ℕ) := by
  obtain ⟨i, hpos, ht⟩ := mem_cellsFrom.mp h
  have hi := (List.getElem?_eq_some_iff.mp ht).1
  omega

/-- Cells in a row, shifted down. -/
theorem map_shift_cellsFrom (pos d : ℕ) (ts : List Token) :
    (cellsFrom (pos + d) ts).map (fun cell => { cell with pos := cell.pos - d }) =
      cellsFrom pos ts := by
  induction ts generalizing pos with
  | nil => rfl
  | cons t ts ih =>
    rw [cellsFrom, map_cons, Nat.add_right_comm, ih, cellsFrom, Nat.cast_add,
      Int.add_sub_cancel]

/-! ## Operations on a mirror -/

theorem seqRm_append (a b : List Cell) (p0 p1 : ℤ) :
    seqRm (a ++ b) p0 p1 = seqRm a p0 p1 ++ seqRm b p0 p1 :=
  filter_append a b

theorem seqAdd_append (a b : List Cell) (p0 p1 delta : ℤ) :
    seqAdd (a ++ b) p0 p1 delta = seqAdd a p0 p1 delta ++ seqAdd b p0 p1 delta :=
  filterMap_append

theorem seqRm_of_outside {cells : List Cell} {p0 p1 : ℤ}
    (h : ∀ cell ∈ cells, inRange p0 p1 cell.pos = false) : seqRm cells p0 p1 = cells :=
  filter_eq_self.mpr fun cell hcell => by rw [h cell hcell]; rfl

theorem seqRm_of_inside {cells : List Cell} {p0 p1 : ℤ}
    (h : ∀ cell ∈ cells, inRange p0 p1 cell.pos = true) : seqRm cells p0 p1 = [] :=
  filter_eq_nil_iff.mpr fun cell hcell => by rw [h cell hcell]; decide

theorem seqAdd_of_outside {cells : List Cell} {p0 p1 delta : ℤ}
    (h : ∀ cell ∈ cells, inRange p0 p1 cell.pos = false) : seqAdd cells p0 p1 delta = cells := by
  unfold seqAdd
  induction cells with
  | nil => rfl
  | cons c cells ih =>
    rw [filterMap_cons, h c mem_cons_self, if_neg Bool.false_ne_true,
      ih fun cell hcell => h cell (mem_cons_of_mem c hcell)]

theorem seqAdd_zero {cells : List Cell} (h : ∀ cell ∈ cells, 0 ≤ cell.pos) (p0 p1 : ℤ) :
    seqAdd cells p0 p1 0 = cells := by
  unfold seqAdd
  induction cells with
  | nil => rfl
  | cons c cells ih =>
    have hc := h c mem_cons_self
    rw [filterMap_cons, Int.add_zero, if_neg (Int.not_lt.mpr hc), ite_self,
      ih fun cell hcell => h cell (mem_cons_of_mem c hcell)]

theorem seqAdd_of_inside {cells : List Cell} {p0 p1 delta : ℤ}
    (h : ∀ cell ∈ cells, inRange p0 p1 cell.pos = true ∧ 0 ≤ cell.pos + delta) :
    seqAdd cells p0 p1 delta = cells.map fun cell => { cell with pos := cell.pos + delta } := by
  unfold seqAdd
  induction cells with
  | nil => rfl
  | cons c cells ih =>
    obtain ⟨hin, hnonneg⟩ := h c mem_cons_self
    rw [filterMap_cons, hin, if_pos rfl, if_neg (Int.not_lt.mpr hnonneg), map_cons,
      ih fun cell hcell => h cell (mem_cons_of_mem c hcell)]

section Rows

variable {pos : ℕ} {ts : List Token} {p0 p1 : ℤ}

theorem outside_of_le_start (h : (pos + ts.length : ℕ) ≤ p0) :
    ∀ cell ∈ cellsFrom pos ts, inRange p0 p1 cell.pos = false := by
  intro cell hcell
  have hlt := (pos_of_mem_cellsFrom hcell).2
  simp only [inRange, decide_eq_false_iff_not]
  omega

theorem outside_of_end_le (hp1 : 0 ≤ p1) (h : p1 ≤ pos) :
    ∀ cell ∈ cellsFrom pos ts, inRange p0 p1 cell.pos = false := by
  intro cell hcell
  have hle := (pos_of_mem_cellsFrom hcell).1
  simp only [inRange, decide_eq_false_iff_not]
  omega

theorem inside_of_le (hp0 : p0 ≤ pos) (hp1 : p1 < 0 ∨ (pos + ts.length : ℕ) ≤ p1) :
    ∀ cell ∈ cellsFrom pos ts, inRange p0 p1 cell.pos = true := by
  intro cell hcell
  obtain ⟨hle, hlt⟩ := pos_of_mem_cellsFrom hcell
  simp only [inRange, decide_eq_true_eq]
  omega

end Rows

theorem cellsFrom_take_drop (ts : List Token) {n : ℕ} (hn : n ≤ ts.length) :
    cellsFrom 0 ts = cellsFrom 0 (ts.take n) ++ cellsFrom n (ts.drop n) := by
  conv_lhs => rw [← take_append_drop n ts, cellsFrom_append, length_take,
    Nat.min_eq_left hn, Nat.zero_add]

namespace Mirror

variable {tokens : List Token} {cells : List Cell}

theorem empty : Mirror [] [] := List.Perm.nil

/-- Tokens behind the others, with their cells. -/
theorem append (h : Mirror tokens cells) (ts : List Token) :
    Mirror (tokens ++ ts) (cells ++ cellsFrom tokens.length ts) := by
  rw [Mirror, cellsFrom_append, Nat.zero_add]
  exact List.Perm.append_right _ h

/-- The first tokens, and the cells below them. -/
theorem keepFirst (h : Mirror tokens cells) {n : ℕ} (hn : n ≤ tokens.length) :
    Mirror (tokens.take n) (seqRm cells n (-1)) := by
  have hlow : seqRm (cellsFrom 0 (tokens.take n)) n (-1) = cellsFrom 0 (tokens.take n) :=
    seqRm_of_outside (outside_of_le_start (by rw [length_take]; omega))
  have hhigh : seqRm (cellsFrom n (tokens.drop n)) n (-1) = [] :=
    seqRm_of_inside (inside_of_le (Int.le_refl _) (.inl (by decide)))
  have hrow : seqRm (cellsFrom 0 tokens) n (-1) = cellsFrom 0 (tokens.take n) := by
    rw [cellsFrom_take_drop tokens hn, seqRm_append, hlow, hhigh, append_nil]
  rw [Mirror, ← hrow]
  exact List.Perm.filter _ h

/-- Tokens in the middle go, and the cells behind them are shifted. -/
theorem discard (h : Mirror tokens cells) {keep d : ℕ} (hle : keep + d ≤ tokens.length) :
    Mirror (tokens.take keep ++ tokens.drop (keep + d))
      (seqAdd (seqRm cells keep (keep + d : ℕ)) (keep + d : ℕ) tokens.length (-d)) := by
  have hrows : cellsFrom 0 tokens = cellsFrom 0 (tokens.take keep) ++
      (cellsFrom keep ((tokens.drop keep).take d) ++
        cellsFrom (keep + d) (tokens.drop (keep + d))) := by
    rw [cellsFrom_take_drop tokens (n := keep) (by omega)]
    congr 1
    conv_lhs => rw [← take_append_drop d (tokens.drop keep), cellsFrom_append,
      length_take, length_drop, Nat.min_eq_left (by omega), drop_drop]
  have hlow : ∀ p1, ∀ cell ∈ cellsFrom 0 (tokens.take keep), inRange keep p1 cell.pos = false :=
    fun p1 => outside_of_le_start (by rw [length_take]; omega)
  have hlow' : ∀ cell ∈ cellsFrom 0 (tokens.take keep),
      inRange (keep + d : ℕ) tokens.length cell.pos = false :=
    outside_of_le_start (by rw [length_take]; omega)
  have hrm : seqRm (cellsFrom 0 tokens) keep (keep + d : ℕ) =
      cellsFrom 0 (tokens.take keep) ++ cellsFrom (keep + d) (tokens.drop (keep + d)) := by
    rw [hrows, seqRm_append, seqRm_append, seqRm_of_outside (hlow _), seqRm_of_inside,
      seqRm_of_outside, nil_append]
    · exact outside_of_end_le (Int.natCast_nonneg _) (Int.le_refl _)
    · exact inside_of_le (Int.le_refl _) (.inr (by rw [length_take, length_drop]; omega))
  have hadd : seqAdd (cellsFrom (keep + d) (tokens.drop (keep + d))) (keep + d : ℕ)
      tokens.length (-d) = cellsFrom keep (tokens.drop (keep + d)) := by
    rw [seqAdd_of_inside, ← map_shift_cellsFrom keep d]
    · simp only [Int.sub_eq_add_neg]
    · intro cell hcell
      refine ⟨inside_of_le (Int.le_refl _) (.inr (by rw [length_drop]; omega)) cell hcell, ?_⟩
      have := (pos_of_mem_cellsFrom hcell).1
      omega
  have hrow : seqAdd (seqRm (cellsFrom 0 tokens) keep (keep + d : ℕ)) (keep + d : ℕ)
      tokens.length (-d) = cellsFrom 0 (tokens.take keep ++ tokens.drop (keep + d)) := by
    rw [hrm, seqAdd_append, seqAdd_of_outside hlow', hadd, cellsFrom_append, length_take,
      Nat.min_eq_left (by omega), Nat.zero_add]
  rw [Mirror, ← hrow]
  exact List.Perm.filterMap _ (List.Perm.filter _ h)

theorem pos_nonneg (h : Mirror tokens cells) : ∀ cell ∈ cells, 0 ≤ cell.pos := fun cell hcell =>
  (pos_of_mem_cellsFrom (List.Perm.mem_iff h |>.mp hcell)).1

/-- A shift that discards nothing changes nothing. -/
theorem discard_zero (h : Mirror tokens cells) (k : ℕ) (p1 : ℤ) :
    seqAdd (seqRm cells k k) k p1 0 = cells := by
  rw [seqRm_of_outside, seqAdd_zero h.pos_nonneg]
  intro cell _
  simp only [inRange, decide_eq_false_iff_not]
  omega

/-- Cells that are removed in the middle do not matter to what stands before them. -/
theorem keepFirst_seqRm (h : Mirror tokens cells) {n k : ℕ} (hn : n ≤ tokens.length) (hnk : n ≤ k)
    (p1 : ℤ) : Mirror (tokens.take n) (seqRm (seqRm cells k p1) n (-1)) := by
  have hcomm : seqRm (seqRm cells k p1) n (-1) = seqRm (seqRm cells n (-1)) k p1 := by
    unfold seqRm
    rw [filter_filter, filter_filter]
    exact filter_congr fun cell _ => Bool.and_comm _ _
  have hkeep := h.keepFirst hn
  have houtside : ∀ cell ∈ seqRm cells n (-1), inRange k p1 cell.pos = false := by
    intro cell hcell
    have hlt := (pos_of_mem_cellsFrom (List.Perm.mem_iff hkeep |>.mp hcell)).2
    rw [length_take] at hlt
    simp only [inRange, decide_eq_false_iff_not]
    omega
  rw [hcomm, seqRm_of_outside houtside]
  exact hkeep

theorem length_eq (h : Mirror tokens cells) : cells.length = tokens.length := by
  rw [List.Perm.length_eq h, length_cellsFrom]

end Mirror

/-! ## The largest position -/

theorem seqPosMax_foldl (cells : List Cell) (start : ℤ) :
    start ≤ cells.foldl (fun result cell => max result cell.pos) start ∧
      (∀ cell ∈ cells, cell.pos ≤ cells.foldl (fun result cell => max result cell.pos) start) ∧
      (cells.foldl (fun result cell => max result cell.pos) start = start ∨
        ∃ cell ∈ cells, cells.foldl (fun result cell => max result cell.pos) start = cell.pos) := by
  induction cells generalizing start with
  | nil => exact ⟨Int.le_refl _, by simp, .inl rfl⟩
  | cons c cells ih =>
    obtain ⟨hstart, hall, hsome⟩ := ih (max start c.pos)
    refine ⟨by simp only [foldl_cons]; omega, ?_, ?_⟩
    · simp only [foldl_cons, forall_mem_cons]
      exact ⟨by omega, hall⟩
    · simp only [foldl_cons, exists_mem_cons_iff]
      rcases hsome with h | ⟨cell, hcell, h⟩
      · rw [h]
        omega
      · exact .inr (.inr ⟨cell, hcell, h⟩)

/-- The last position of a row of cells. -/
theorem seqPosMax_of_mirror {tokens : List Token} {cells : List Cell} (h : Mirror tokens cells)
    (hne : tokens ≠ []) : seqPosMax cells + 1 = tokens.length := by
  obtain ⟨-, hall, hsome⟩ := seqPosMax_foldl cells 0
  change ∀ cell ∈ cells, cell.pos ≤ seqPosMax cells at hall
  change seqPosMax cells = 0 ∨ ∃ cell ∈ cells, seqPosMax cells = cell.pos at hsome
  have hpos := length_pos_iff.mpr hne
  have hlast : ⟨(tokens.length - 1 : ℕ), tokens.getLast hne⟩ ∈ cells := by
    rw [List.Perm.mem_iff h, mem_cellsFrom]
    refine ⟨tokens.length - 1, by simp, ?_⟩
    rw [← getLast?_eq_getElem?, getLast?_eq_some_getLast hne]
  have hge := hall _ hlast
  simp only at hge
  rcases hsome with hzero | ⟨cell, hcell, heq⟩
  · omega
  · have hlt := (pos_of_mem_cellsFrom (List.Perm.mem_iff h |>.mp hcell)).2
    omega

end ExpertPin.Server
