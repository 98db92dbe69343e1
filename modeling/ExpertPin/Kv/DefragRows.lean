import ExpertPin.Kv.DefragPlan
import Mathlib.Tactic.Ring

/-!
# The rows follow their cells

`build_defrag` merges moves of neighbours to neighbours into one copy.  The copies read
only cells beyond the first `used` and write only cells among them, so their order does
not matter.  What they copy is the row of a cell as long as the views have the layout of
the tensor: a row of keys takes `n_embd_k_gqa` elements, and the values are transposed
exactly when flash attention is off.
-/

namespace ExpertPin.Kv

open Relocation
open DefragState
open List
open Option
open Nat

/-! ## The blocks -/

section Blocks

variable {ids : ℕ → ℕ} {nIds i nm : ℕ}

theorem blockSize_spec (h : ∀ e, e < nm → i + e < nIds ∧ ids (i + e) = ids i + e) :
    nm ≤ blockSize ids nIds i nm ∧
      ∀ e, e < blockSize ids nIds i nm → i + e < nIds ∧ ids (i + e) = ids i + e := by
  fun_induction blockSize ids nIds i nm with
  | case1 nm hnext ih =>
    have hall : ∀ e, e < nm + 1 → i + e < nIds ∧ ids (i + e) = ids i + e := by
      intro e he
      rcases Nat.lt_succ_iff_lt_or_eq.mp he with hlt | rfl
      · exact h e hlt
      · exact hnext
    obtain ⟨hle, hrest⟩ := ih hall
    exact ⟨Nat.le_of_succ_le hle, hrest⟩
  | case2 nm hnext => exact ⟨Nat.le_refl nm, h⟩

theorem blockSize_one (hi : i < nIds) : 0 < blockSize ids nIds i 1 ∧
      ∀ e, e < blockSize ids nIds i 1 → i + e < nIds ∧ ids (i + e) = ids i + e := by
  apply blockSize_spec
  intro e he
  obtain rfl := lt_one_iff.mp he
  exact ⟨hi, rfl⟩

/-- Each block moves neighbours to neighbours, as the plan says. -/
theorem ids_of_mem_buildDefrag {r : Run} (hr : r ∈ buildDefrag ids nIds i) :
    r.src < nIds ∧ ids r.src = r.dst ∧ r.src ≠ r.dst ∧ r.dst ≠ nIds ∧
      ∀ e, e < r.len → r.src + e < nIds ∧ ids (r.src + e) = r.dst + e := by
  fun_induction buildDefrag ids nIds i with
  | case1 i hi hskip ih => exact ih hr
  | case2 i hi hskip nm ih =>
    obtain ⟨hself, hnot⟩ := not_or.mp hskip
    rcases mem_cons.mp hr with rfl | hr
    · exact ⟨hi, rfl, hself, hnot, (blockSize_one hi).2⟩
    · exact ih hr
  | case3 i hi => exact absurd hr not_mem_nil

/-- Every cell the plan moves is in a block. -/
theorem exists_block {k : ℕ} (hik : i ≤ k) (hk : k < nIds) (hself : ids k ≠ k)
    (hnot : ids k ≠ nIds) :
    ∃ r ∈ buildDefrag ids nIds i, ∃ e, e < r.len ∧ k = r.src + e ∧ ids k = r.dst + e := by
  fun_induction buildDefrag ids nIds i with
  | case1 i hi hskip ih =>
    apply ih
    apply Nat.lt_of_le_of_ne hik
    rintro rfl
    rcases hskip with heq | heq
    · exact hself heq.symm
    · exact hnot heq
  | case2 i hi hskip nm ih =>
    obtain ⟨hpos, hblock⟩ := blockSize_one hi
    rcases Nat.lt_or_ge k (i + nm) with hlt | hge
    · obtain ⟨e, rfl⟩ := Nat.exists_eq_add_of_le hik
      have he : e < nm := Nat.lt_of_add_lt_add_left hlt
      exact ⟨_, mem_cons_self, e, he, rfl, (hblock e he).2⟩
    · have hnext : i + (nm - 1) + 1 = i + nm := by
        rw [Nat.add_assoc, Nat.sub_add_cancel hpos]
      obtain ⟨r, hr, hrest⟩ := ih (hnext.trans_le hge)
      exact ⟨r, mem_cons_of_mem _ hr, hrest⟩
  | case3 i hi => exact absurd (hik.trans_lt hk) hi

end Blocks

/-! ## The copies of a finished search -/

section Copies

variable {cells : ℕ → Cell} {nKv nUsed : ℕ} {s : DefragState} {r : Run} {e : ℕ}

theorem Planned.of_mem_copies (h : Planned cells nKv nUsed s) (hr : r ∈ s.copies nKv)
    (he : e < r.len) : s.Moved nKv (r.src + e) ∧ s.ids (r.src + e) = r.dst + e := by
  rw [copies] at hr
  split at hr
  case isTrue => exact absurd hr not_mem_nil
  case isFalse =>
    obtain ⟨hsrc, hids, hne, hnot, hblock⟩ := ids_of_mem_buildDefrag hr
    have hfirst : s.Moved nKv r.src := ⟨hids.trans_ne hnot, hids.trans_ne hne.symm⟩
    have hlower : r.dst < r.src := by
      rw [← hids]
      exact (h.target _ hfirst).1.trans_le (h.source _ hfirst).1
    obtain ⟨hlt, heq⟩ := hblock e he
    have hdst : r.dst + e < r.src + e := Nat.add_lt_add_right hlower e
    exact ⟨⟨heq.trans_ne (Nat.ne_of_lt (hdst.trans hlt)), heq.trans_ne (Nat.ne_of_lt hdst)⟩, heq⟩

theorem Planned.separate (h : Planned cells nKv nUsed s) : Separate (s.copies nKv) where
  apart r hr e he r' hr' e' he' heq := by
    obtain ⟨hm, _⟩ := h.of_mem_copies hr he
    obtain ⟨hm', hids'⟩ := h.of_mem_copies hr' he'
    have hsrc := (h.source _ hm).1
    have hdst := (h.target _ hm').1
    rw [hids', ← heq] at hdst
    exact absurd hdst (not_lt.mpr hsrc)
  unique r hr e he r' hr' e' he' heq := by
    obtain ⟨hm, hids⟩ := h.of_mem_copies hr he
    obtain ⟨hm', hids'⟩ := h.of_mem_copies hr' he'
    exact h.distinct _ _ hm hm' (by rw [hids, hids', heq])

theorem Planned.within (h : Planned cells nKv nUsed s) (hle : nUsed ≤ nKv) :
    Within nKv (s.copies nKv) := by
  intro r hr e he
  obtain ⟨hm, hids⟩ := h.of_mem_copies hr he
  refine ⟨(h.source _ hm).2.1, ?_⟩
  rw [← hids]
  exact (h.target _ hm).1.trans_le hle

theorem Planned.exists_copy (h : Planned cells nKv nUsed s) {i : ℕ} (hi : s.Moved nKv i) :
    ∃ r ∈ s.copies nKv, ∃ e, e < r.len ∧ i = r.src + e ∧ s.ids i = r.dst + e := by
  rw [copies, if_neg (ne_of_gt (h.counted i hi))]
  exact exists_block (zero_le i) (h.source i hi).2.1 hi.2 hi.1

end Copies

/-! ## The layout of a tensor -/

theorem mul_add_inj {a b c d n : ℕ} (hc : c < n) (hd : d < n) (h : a * n + c = b * n + d) :
    a = b ∧ c = d := by
  have hn : 0 < n := zero_lt_of_lt hc
  have hdiv : ∀ {a c : ℕ}, c < n → (a * n + c) / n = a := fun hc => by
    rw [add_comm, add_mul_div_right _ _ hn, div_eq_of_lt hc, zero_add]
  have hab : a = b := calc
    a = (a * n + c) / n := (hdiv hc).symm
    _ = (b * n + d) / n := by rw [h]
    _ = b := hdiv hd
  exact ⟨hab, add_left_cancel (hab ▸ h)⟩

namespace CellTensor

variable {β : Type} {t : CellTensor} {size n : ℕ} {r : Run}

/-- Where byte `b` of the row of cell `k` lies. -/
def rowAddr (t : CellTensor) (k : ℕ) (b : Fin t.stride) : ℕ := k * t.stride + b

/-- Where byte `b` of element `c.1` of the column of cell `k` lies. -/
def columnAddr (t : CellTensor) (size k : ℕ) (c : Fin t.nEmbd × Fin t.stride) : ℕ :=
  (c.1 * size + k) * t.stride + c.2

/-- The views of rows have the layout of the tensor. -/
def RowsMatch (t : CellTensor) : Prop := ∀ n, t.rowSize (t.nEmbd * n) = n * t.stride

/-- The views of columns have. -/
def ColumnsMatch (t : CellTensor) : Prop := ∀ n, t.rowSize n = n * t.stride

theorem rowAddr_distinct : Distinct t.rowAddr n := by
  intro k l c d _ _ h
  obtain ⟨hkl, hcd⟩ := mul_add_inj c.isLt d.isLt h
  exact ⟨hkl, Fin.ext hcd⟩

theorem columnAddr_distinct : Distinct (t.columnAddr size) size := by
  rintro k l ⟨c, b⟩ ⟨d, b'⟩ hk hl h
  obtain ⟨helem, hb⟩ := mul_add_inj b.isLt b'.isLt h
  obtain ⟨hcd, hkl⟩ := mul_add_inj hk hl helem
  exact ⟨hkl, Prod.ext (Fin.ext hcd) (Fin.ext hb)⟩

theorem RowsMatch.encodes (h : t.RowsMatch) : Encodes t.rowAddr r (t.rowRuns r) := by
  have hone : t.rowSize t.nEmbd = t.stride := by
    have := h 1
    rwa [mul_one, one_mul] at this
  have haddr : ∀ s j e, s * t.stride + j * t.stride + e = (s + j) * t.stride + e :=
    fun s j e => by rw [add_mul]
  rw [rowRuns, viewRuns, hone, h r.src, h r.dst]
  constructor
  case sound =>
    intro b hb e he
    obtain ⟨j, hj, rfl⟩ := mem_map.mp hb
    exact ⟨j, mem_range.mp hj, ⟨e, he⟩, haddr r.src j e, haddr r.dst j e⟩
  case complete =>
    intro j hj c
    refine ⟨_, mem_map.mpr ⟨j, mem_range.mpr hj, rfl⟩, c, c.isLt, ?_, ?_⟩
    · exact haddr r.src j c
    · exact haddr r.dst j c

theorem ColumnsMatch.encodes (h : t.ColumnsMatch) :
    Encodes (t.columnAddr size) r (t.columnRuns size r) := by
  have haddr : ∀ s j i b, s * t.stride + j * (size * t.stride) + (i * t.stride + b) =
      (j * size + (s + i)) * t.stride + b := by
    intro s j i b
    ring
  rw [columnRuns, viewRuns, h r.len, h size, h r.src, h r.dst]
  constructor
  case sound =>
    intro b hb e he
    obtain ⟨j, hj, rfl⟩ := mem_map.mp hb
    have hpos : 0 < t.stride := Nat.pos_of_mul_pos_left (Nat.zero_lt_of_lt he)
    have hlt : e / t.stride < r.len := (Nat.div_lt_iff_lt_mul hpos).mpr he
    refine ⟨e / t.stride, hlt, ⟨⟨j, mem_range.mp hj⟩, ⟨_, Nat.mod_lt e hpos⟩⟩, ?_, ?_⟩
    · rw [columnAddr, ← haddr, Nat.div_add_mod']
    · rw [columnAddr, ← haddr, Nat.div_add_mod']
  case complete =>
    rintro i hi ⟨j, b⟩
    refine ⟨_, mem_map.mpr ⟨j, mem_range.mpr j.isLt, rfl⟩, i * t.stride + b, ?_, ?_, ?_⟩
    · calc
        i * t.stride + b < i * t.stride + t.stride := Nat.add_lt_add_left b.isLt _
        _ = (i + 1) * t.stride := (Nat.succ_mul i _).symm
        _ ≤ r.len * t.stride := Nat.mul_le_mul_right _ hi
    · exact haddr r.src j i b
    · exact haddr r.dst j i b

end CellTensor

/-! ## The layers -/

namespace Layer

variable {β : Type}

/-- The views `build_defrag` makes of a layer have the layout of its tensors. -/
structure Matches (layer : Layer) (vTrans flashAttn : Bool) : Prop where
  k : layer.k.RowsMatch
  v : ∀ v ∈ layer.v, vTrans = !flashAttn ∧ if vTrans then v.ColumnsMatch else v.RowsMatch
  kr : ∀ kr ∈ layer.kr, kr.RowsMatch

/-- Cell `j` holds afterwards what cell `i` held before. -/
structure SameRows (layer : Layer) (vTrans : Bool) (size : ℕ) (before after : LayerData β)
    (i j : ℕ) : Prop where
  k : ∀ b, after.k (layer.k.rowAddr j b) = before.k (layer.k.rowAddr i b)
  v : ∀ v ∈ layer.v, if vTrans
    then ∀ c, after.v (v.columnAddr size j c) = before.v (v.columnAddr size i c)
    else ∀ b, after.v (v.rowAddr j b) = before.v (v.rowAddr i b)
  kr : ∀ kr ∈ layer.kr, ∀ b, after.kr (kr.rowAddr j b) = before.kr (kr.rowAddr i b)

end Layer

section Run

variable {β : Type} {layers : ℕ → Option Layer} {flashAttn : Bool} {size il : ℕ} {layer : Layer}
  {t : CellTensor} {runs : List Run} {data : ℕ → LayerData β}

theorem runDefrag_cons (r : Run) (h : layers il = some layer) :
    ∃ data', runDefrag layers flashAttn size (r :: runs) data =
        runDefrag layers flashAttn size runs data' ∧
      data' il = layer.copy flashAttn size r (data il) := by
  refine ⟨_, rfl, ?_⟩
  show (layers il).elim _ _ = _
  rw [h, elim_some]

theorem runDefrag_k (h : layers il = some layer) :
    (runDefrag layers flashAttn size runs data il).k =
      execute (runs.flatMap layer.k.rowRuns) (data il).k := by
  induction runs generalizing data with
  | nil => rfl
  | cons r runs ih =>
    obtain ⟨data', hrun, hstep⟩ := runDefrag_cons r h
    rw [hrun, ih, hstep, flatMap_cons, execute_append]
    rfl

theorem runDefrag_v (h : layers il = some layer) (hv : layer.v = some t) :
    (runDefrag layers flashAttn size runs data il).v =
      execute (runs.flatMap fun r => if flashAttn then t.rowRuns r else t.columnRuns size r)
        (data il).v := by
  induction runs generalizing data with
  | nil => rfl
  | cons r runs ih =>
    obtain ⟨data', hrun, hstep⟩ := runDefrag_cons r h
    rw [hrun, ih, hstep, flatMap_cons, execute_append, Layer.copy, hv, elim_some]

theorem runDefrag_kr (h : layers il = some layer) (hkr : layer.kr = some t) :
    (runDefrag layers flashAttn size runs data il).kr =
      execute (runs.flatMap t.rowRuns) (data il).kr := by
  induction runs generalizing data with
  | nil => rfl
  | cons r runs ih =>
    obtain ⟨data', hrun, hstep⟩ := runDefrag_cons r h
    rw [hrun, ih, hstep, flatMap_cons, execute_append, Layer.copy, hkr, elim_some]

end Run

/-- Whatever is laid out by cells goes where the plan takes the cell. -/
theorem Planned.execute_dest {α κ : Type} {cells : ℕ → Cell} {nKv nUsed i : ℕ} {s : DefragState}
    {addr : ℕ → κ → ℕ} {f : Run → List Run} {mem : ℕ → α} (h : Planned cells nKv nUsed s)
    (hle : nUsed ≤ nKv) (hd : Distinct addr nKv) (henc : ∀ r, Encodes addr r (f r))
    (hi : i < nKv) (huse : ¬(cells i).isEmpty) (c : κ) :
    execute ((s.copies nKv).flatMap f) mem (addr (s.dest nKv i) c) = mem (addr i c) := by
  by_cases hm : s.Moved nKv i
  · obtain ⟨r, hr, e, he, hsrc, hdst⟩ := h.exists_copy hm
    rw [dest_of_moved hm, hdst, hsrc]
    exact execute_encoded_target h.separate (h.within hle) hd (fun r _ => henc r) hr he c
  · rw [dest_of_not_moved hm]
    apply execute_encoded_other (h.within hle) hd (fun r _ => henc r) hi
    rintro r hr e he rfl
    obtain ⟨hm', hids⟩ := h.of_mem_copies hr he
    apply huse
    rw [← hids]
    exact (h.target _ hm').2

/-! ## Defragmentation -/

/-- Defragmentation loses nothing: the assertion does not fail, the cells in use move to the
first places, and the rows of each layer go with them. -/
def Cache.DefragSound (cache : Cache) (maxMoves : ℕ) (layers : ℕ → Option Layer)
    (vTrans flashAttn : Bool) : Prop :=
  ∃ s, cache.defragInternal maxMoves = some s ∧ cache.Defragmented maxMoves s ∧
    ∀ (data : ℕ → LayerData UInt8) il layer, layers il = some layer → ∀ i, i < cache.size →
      ¬(cache.cells i).isEmpty → layer.SameRows vTrans cache.size (data il)
        (runDefrag layers flashAttn cache.size (s.copies cache.cellMax) data il) i
        (s.dest cache.cellMax i)

theorem Cache.defragSound {cache : Cache} (h : cache.Accurate) (maxMoves : ℕ)
    {layers : ℕ → Option Layer} {vTrans flashAttn : Bool}
    (hlayers : ∀ il layer, layers il = some layer → layer.Matches vTrans flashAttn) :
    cache.DefragSound maxMoves layers vTrans flashAttn := by
  obtain ⟨s, hs, hplan, hcells⟩ := h.defragInternal maxMoves
  refine ⟨s, hs, hcells, ?_⟩
  intro data il layer hl i hi huse
  have hn := h.lt_cellMax hi huse
  have hmatch := hlayers il layer hl
  constructor
  case k =>
    intro b
    rw [runDefrag_k hl]
    exact hplan.execute_dest h.used_le CellTensor.rowAddr_distinct (fun r => hmatch.k.encodes) hn
      huse b
  case v =>
    intro v hv
    obtain ⟨hflash, hlayout⟩ := hmatch.v v hv
    cases flashAttn with
    | true =>
      obtain rfl : vTrans = false := hflash
      intro b
      rw [runDefrag_v hl hv]
      exact hplan.execute_dest h.used_le CellTensor.rowAddr_distinct
        (fun r => CellTensor.RowsMatch.encodes hlayout) hn huse b
    | false =>
      obtain rfl : vTrans = true := hflash
      intro c
      rw [runDefrag_v hl hv]
      exact hplan.execute_dest h.used_le (CellTensor.columnAddr_distinct.mono (cellMax_le cache))
        (fun r => CellTensor.ColumnsMatch.encodes hlayout) hn huse c
  case kr =>
    intro kr hkr b
    rw [runDefrag_kr hl hkr]
    exact hplan.execute_dest h.used_le CellTensor.rowAddr_distinct
      (fun r => (hmatch.kr kr hkr).encodes) hn huse b

/-- A cache without state slots and compacted layers. -/
def plainCache (size used : ℕ) (cells : ℕ → Cell) : Cache where
  hasShift := false
  doDefrag := false
  doCopy := false
  sLPositionStrict := false
  qnextStateSlots := 0
  anyCompacted := false
  sinkRows := 0
  windowSwa := 0
  headSwa := 0
  posBaseSwa := 0
  head := 0
  size := size
  used := used
  cells := cells

/-- Cell 1 is in use, cell 2 has a sequence but no position. -/
def staleEnd : Cache := plainCache 32 2 fun i =>
  if i = 1 then ⟨0, 0, 0, {0}⟩ else if i = 2 then ⟨-1, 0, 0, {1}⟩ else Cell.empty

/-- Only cell 1 is in use. -/
def oneHole : Cache := plainCache 256 1 fun i => if i = 1 then ⟨0, 0, 0, {0}⟩ else Cell.empty

/-- A layer with latent keys: 576 two-byte elements for a cell, where `n_embd_k_gqa` is
24576. -/
def latentLayer : Layer where
  k := ⟨fun n => 2 * n, 24576, 1152⟩
  v := none
  kr := none

/-- The search moves the cell in use, and finds no second one. -/
theorem staleEnd_defragInternal : staleEnd.defragInternal 2 = none := by
  have hn : staleEnd.defragStart.holeSize 2 0 1 = 1 := by
    rw [holeSize, if_neg (by decide)]
  have hf : staleEnd.defragStart.findTail 2 0 1 1 0 = (1, 1) := by decide
  have hm : staleEnd.defragStart.moveBack 2 2 2 0 1 1 0 false =
      (staleEnd.defragStart.move 2 0 1 false, false) := by
    rw [moveBack, if_pos (by decide), if_neg (by decide), if_pos (by decide)]
  have hn' : (staleEnd.defragStart.move 2 0 1 false).holeSize 2 1 1 = 1 := by
    rw [holeSize, if_neg (by decide)]
  have hf' : (staleEnd.defragStart.move 2 0 1 false).findTail 2 1 1 1 0 = (1, 0) := by decide
  have hmax : staleEnd.cellMax = 2 := by decide
  rw [Cache.defragInternal, if_pos (by decide), hmax, fillHoles, if_pos (by decide),
    if_neg (by decide)]
  simp only [show staleEnd.used = 2 by rfl, hn, Nat.add_one_sub_one, hf, hm, if_true]
  rw [if_neg (by decide), fillHoles, if_pos (by decide), if_neg (by decide)]
  simp only [hn', hf']
  decide

theorem oneHole_cellMax : oneHole.cellMax = 2 := by
  apply cellMaxBelow_eq (by decide) (by decide)
  intro i hi _
  rw [show oneHole.cells i = Cell.empty from if_neg (ne_of_gt hi)]
  exact Cell.not_inUse_empty

theorem oneHole_defragInternal :
    oneHole.defragInternal 1 = some (oneHole.defragStart.move 1 0 1 false) := by
  have hn : oneHole.defragStart.holeSize 1 0 1 = 1 := by
    rw [holeSize, if_neg (by decide)]
  have hskips : ¬oneHole.defragStart.skips 2 1 := by
    rw [skips, Cache.defragStart_ids, oneHole_cellMax]
    decide
  have hf : oneHole.defragStart.findTail 2 0 1 1 0 = (1, 1) := by
    rw [findTail, if_pos Nat.zero_lt_one, if_neg hskips, if_pos rfl]
  have hm : oneHole.defragStart.moveBack 1 2 1 0 1 1 0 false =
      (oneHole.defragStart.move 1 0 1 false, false) := by
    rw [moveBack, if_pos Nat.one_lt_two, if_neg hskips, if_pos rfl]
  rw [Cache.defragInternal, oneHole_cellMax, if_pos (by decide), fillHoles,
    if_pos (by decide), if_neg (by decide)]
  simp only [show oneHole.used = 1 by rfl, hn, Nat.add_one_sub_one, hf, hm, if_true]
  exact if_pos (.inr rfl)

theorem oneHole_copies : (oneHole.defragStart.move 1 0 1 false).copies 2 = [⟨1, 0, 1⟩] := by
  have hzero : (oneHole.defragStart.move 1 0 1 false).ids 0 = 2 := by
    rw [move_ids, Function.update_of_ne zero_ne_one, Cache.defragStart_ids,
      oneHole_cellMax]
  have hone : (oneHole.defragStart.move 1 0 1 false).ids 1 = 0 := by
    rw [move_ids, Function.update_self]
  have hmoves : (oneHole.defragStart.move 1 0 1 false).nMoves ≠ 0 := one_ne_zero
  rw [copies, if_neg hmoves]
  generalize (oneHole.defragStart.move 1 0 1 false).ids = ids at hzero hone
  have hend : buildDefrag ids 2 2 = [] := by
    rw [buildDefrag, if_neg (lt_irrefl 2)]
  have hsize : blockSize ids 2 1 1 = 1 := by
    rw [blockSize, if_neg fun h => absurd h.1 (lt_irrefl 2)]
  have hnext : buildDefrag ids 2 1 = [⟨1, 0, 1⟩] := by
    rw [buildDefrag, if_pos one_lt_two, hone, if_neg (by decide)]
    simp only [hsize, sub_self, add_zero, reduceAdd, hend]
  rw [buildDefrag, if_pos two_pos, if_pos (.inr hzero), zero_add, hnext]

/-- Rows of keys of the width `build_defrag` takes. -/
def plainLayer : Layer where
  k := ⟨fun n => 2 * n, 64, 128⟩
  v := none
  kr := none

theorem Cache.defragSound_oneHole :
    oneHole.DefragSound 1 (fun _ => some plainLayer) false true := by
  apply Cache.defragSound
  case h =>
    constructor
    case used =>
      rw [Slots.count_eq_of_free (m := 2) (by decide)]
      · decide
      · intro k hk _
        rw [show oneHole.cells k = Cell.empty from if_neg (ne_of_gt hk)]
        exact not_not_intro Cell.isEmpty_empty
    case last =>
      intro i hi huse
      refine ⟨i, le_refl i, hi, ?_⟩
      by_cases hone : i = 1
      · rw [hone]
        decide
      · rw [show oneHole.cells i = Cell.empty from if_neg hone] at huse
        exact absurd Cell.isEmpty_empty huse
  case hlayers =>
    rintro il layer hl
    obtain rfl := some.inj hl
    constructor
    case k =>
      intro n
      show 2 * (64 * n) = n * 128
      ring
    case v => exact fun v hv => absurd hv (not_mem_none v)
    case kr => exact fun kr hkr => absurd hkr (not_mem_none kr)

/-- A cell without a position at the end breaks the search, and the rows of a latent layer
are not the ones the views copy. -/
theorem Cache.not_defragSound : ¬staleEnd.DefragSound 2 (fun _ => none) false true ∧
      ¬oneHole.DefragSound 1 (fun _ => some latentLayer) false true := by
  constructor
  · rintro ⟨s, hs, _⟩
    rw [staleEnd_defragInternal] at hs
    cases hs
  · rintro ⟨s, hs, _, hrows⟩
    obtain rfl := some.inj (oneHole_defragInternal.symm.trans hs)
    let data : ℕ → LayerData UInt8 := fun _ =>
      ⟨fun b => if b = 1152 then 1 else 0, fun _ => 0, fun _ => 0⟩
    have hk := (hrows data 0 latentLayer rfl 1 (by decide) (by decide)).k ⟨0, by decide⟩
    have hdest : (oneHole.defragStart.move 1 0 1 false).dest 2 1 = 0 := by
      rw [dest, move_ids, Function.update_self]
      exact if_neg (by decide)
    rw [oneHole_cellMax, oneHole_copies, runDefrag_k rfl, hdest] at hk
    exact absurd hk (by decide)

end ExpertPin.Kv
