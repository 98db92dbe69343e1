import ExpertPin.Kv.Cells

/-!
# The span of the cache the attention reads

Before it builds the graph of a batch `llama_decode_internal` bounds the cells attention
looks at by `kv_self.n`, a multiple of the padding beyond the last used cell.  The scan
for that cell looks at the last cell of each block of `pad` cells, from the end, and
searches one block beyond the first hit.  It finds the last used cell when the last cell
of its own block or of the block before is used; otherwise the span ends before it,
unless it lies in the first block (`Cache.spanCovers_iff`).
-/

namespace ExpertPin.Kv

open Nat

/-- `llama_kv_cache::get_padding` -/
def getPadding (flashAttn : Bool) : ℕ := if flashAttn then 256 else 32

instance (flashAttn : Bool) : NeZero (getPadding flashAttn) where
  out := by cases flashAttn <;> decide

/-- `GGML_PAD`, on `uint32_t` -/
def ggmlPad (x n : ℕ) : ℕ := (x + n - 1) % 2 ^ 32 &&& (2 ^ 32 - 1 - (n - 1))

/-- The inner loop, for `j` down to `i + 1`. -/
def lastInBlock (cells : ℕ → Cell) (i : ℕ) : ℕ → ℕ
  | 0 => i
  | j + 1 =>
    if i < j + 1 then
      if (cells j).inUse then j + 1 else lastInBlock cells i j
    else i

/-- The outer loop.  For a size that is a multiple of `pad` the subtraction is exact. -/
def cellMaxPadFrom (cells : ℕ → Cell) (pad : ℕ) [NeZero pad] (i last : ℕ) : ℕ :=
  if 0 < i then
    if (cells (i - 1)).inUse then lastInBlock cells i last
    else cellMaxPadFrom cells pad (i - pad) i
  else 0
termination_by i
decreasing_by exact Nat.sub_lt ‹0 < i› (Nat.pos_of_neZero pad)

namespace Cache

/-- `llama_kv_cache_cell_max(cache, pad)` -/
def cellMaxPad (cache : Cache) (pad : ℕ) [NeZero pad] : ℕ :=
  cellMaxPadFrom cache.cells pad cache.size cache.size

/-- `kv_self.n` for the end `maxCell` of the used cells. -/
def spanOf (cache : Cache) (pad maxCell : ℕ) : ℕ :=
  min cache.size (max pad (ggmlPad maxCell pad))

/-- `kv_self.n` as `llama_decode_internal` computes it. -/
def span (cache : Cache) (flashAttn : Bool) : ℕ :=
  cache.spanOf (getPadding flashAttn) (cache.cellMaxPad (getPadding flashAttn))

end Cache

/-! ## Padding -/

theorem and_not_low_bits {y k : ℕ} (hk : k ≤ 32) (hy : y < 2 ^ 32) :
    y &&& (2 ^ 32 - 1 - (2 ^ k - 1)) = y / 2 ^ k * 2 ^ k := by
  apply Nat.eq_of_testBit_eq
  intro i
  have hlow : 2 ^ 32 - 1 - (2 ^ k - 1) = 2 ^ 32 - (2 ^ k - 1 + 1) := by omega
  have hlt : 2 ^ k - 1 < 2 ^ 32 :=
    Nat.lt_of_lt_of_le (Nat.sub_lt (Nat.two_pow_pos k) Nat.one_pos)
      (Nat.pow_le_pow_right Nat.two_pos hk)
  rw [Nat.testBit_and, hlow, Nat.testBit_two_pow_sub_succ hlt, Nat.testBit_two_pow_sub_one,
    Nat.mul_comm, Nat.testBit_two_pow_mul, Nat.testBit_div_two_pow]
  by_cases hi : k ≤ i
  · by_cases h32 : i < 32
    · simp [hi, h32, Nat.sub_add_cancel hi]
    · have hbit : y.testBit i = false :=
        Nat.testBit_lt_two_pow (Nat.lt_of_lt_of_le hy (Nat.pow_le_pow_right Nat.two_pos
          (Nat.le_of_not_lt h32)))
      simp [hi, h32, Nat.sub_add_cancel hi, hbit]
  · simp [hi, Nat.lt_of_not_le hi]

/-- Padding rounds up to a multiple of a power of two. -/
theorem ggmlPad_eq {x k : ℕ} (hk : k ≤ 32) (hx : x + 2 ^ k ≤ 2 ^ 32) :
    ggmlPad x (2 ^ k) = (x + 2 ^ k - 1) / 2 ^ k * 2 ^ k := by
  have hpos : 0 < 2 ^ k := Nat.two_pow_pos k
  have hlt : x + 2 ^ k - 1 < 2 ^ 32 := by omega
  rw [ggmlPad, Nat.mod_eq_of_lt hlt, and_not_low_bits hk hlt]

/-! ## The scan of one block -/

section Scan

variable {cells : ℕ → Cell} {i j : ℕ}

/-- From a used cell on, the inner loop finds the last used cell. -/
theorem lastInBlock_eq (hi : 0 < i) (huse : (cells (i - 1)).inUse) (hij : i ≤ j) :
    lastInBlock cells i j = cellMaxBelow cells j := by
  induction j with
  | zero => exact absurd hij (Nat.not_le.mpr hi)
  | succ j ih =>
    rw [lastInBlock, cellMaxBelow]
    rcases Nat.lt_or_eq_of_le hij with hlt | rfl
    · rw [if_pos hlt]
      by_cases hj : (cells j).inUse
      · rw [if_pos hj, if_pos hj]
      · rw [if_neg hj, if_neg hj, ih (Nat.le_of_lt_succ hlt)]
    · rw [if_neg (Nat.lt_irrefl _)]
      rw [Nat.add_sub_cancel] at huse
      rw [if_pos huse]

end Scan

/-! ## The scan over the blocks -/

section Blocks

variable {cells : ℕ → Cell} {pad : ℕ} [NeZero pad] {k last : ℕ}

theorem cellMaxPadFrom_zero : cellMaxPadFrom cells pad 0 last = 0 := by
  rw [cellMaxPadFrom, if_neg (lt_irrefl 0)]

theorem mul_succ_pos : 0 < (k + 1) * pad :=
  Nat.mul_pos (Nat.succ_pos k) (Nat.pos_of_neZero pad)

/-- A hit at the end of block `k`. -/
theorem cellMaxPadFrom_hit (huse : (cells ((k + 1) * pad - 1)).inUse)
    (hlast : (k + 1) * pad ≤ last) :
    cellMaxPadFrom cells pad ((k + 1) * pad) last = cellMaxBelow cells last := by
  rw [cellMaxPadFrom, if_pos mul_succ_pos, if_pos huse]
  exact lastInBlock_eq mul_succ_pos huse hlast

/-- A miss there. -/
theorem cellMaxPadFrom_miss (huse : ¬(cells ((k + 1) * pad - 1)).inUse) :
    cellMaxPadFrom cells pad ((k + 1) * pad) last =
      cellMaxPadFrom cells pad (k * pad) ((k + 1) * pad) := by
  rw [cellMaxPadFrom, if_pos mul_succ_pos, if_neg huse, Nat.succ_mul, Nat.add_sub_cancel]

theorem cellMaxPadFrom_le (hlast : k * pad ≤ last) :
    cellMaxPadFrom cells pad (k * pad) last ≤ last := by
  induction k generalizing last with
  | zero =>
    rw [zero_mul, cellMaxPadFrom_zero]
    exact zero_le last
  | succ k ih =>
    by_cases huse : (cells ((k + 1) * pad - 1)).inUse
    · rw [cellMaxPadFrom_hit huse hlast]
      exact cellMaxBelow_le cells last
    · rw [cellMaxPadFrom_miss huse]
      exact (ih (mul_le_mul_right pad (le_succ k))).trans hlast

/-- Blocks without a used cell are passed over. -/
theorem cellMaxPadFrom_skip {b size : ℕ} (hbk : b ≤ k) (hk : k * pad ≤ last)
    (hsize : last ≤ size) (hfree : ∀ i, b * pad ≤ i → i < size → ¬(cells i).inUse) :
    ∃ last', b * pad ≤ last' ∧ last' ≤ size ∧
      cellMaxPadFrom cells pad (k * pad) last = cellMaxPadFrom cells pad (b * pad) last' := by
  induction k generalizing last with
  | zero =>
    obtain rfl := le_zero.mp hbk
    exact ⟨last, hk, hsize, rfl⟩
  | succ k ih =>
    rcases lt_or_eq_of_le hbk with hlt | rfl
    · have hb : b * pad ≤ k * pad := mul_le_mul_right pad (le_of_lt_succ hlt)
      have hstep : k * pad + pad ≤ last := succ_mul k pad ▸ hk
      have hpos := pos_of_neZero pad
      have hmiss : ¬(cells ((k + 1) * pad - 1)).inUse := by
        apply hfree
        · rw [succ_mul]
          omega
        · rw [succ_mul]
          omega
      rw [cellMaxPadFrom_miss hmiss]
      exact ih (le_of_lt_succ hlt) (mul_le_mul_right pad (le_succ k)) (hk.trans hsize)
    · exact ⟨last, hk, hsize, rfl⟩

end Blocks

/-! ## The span -/

theorem getPadding_eq_two_pow (flashAttn : Bool) : ∃ k ≤ 32, getPadding flashAttn = 2 ^ k := by
  cases flashAttn with
  | false => exact ⟨5, by decide, rfl⟩
  | true => exact ⟨8, by decide, rfl⟩

/-- Rounding up stays within a multiple of the padding. -/
theorem roundUp_le {pad x b : ℕ} (hpad : 0 < pad) (hx : x ≤ b * pad) :
    (x + pad - 1) / pad * pad ≤ b * pad := by
  apply Nat.mul_le_mul_right
  apply le_of_lt_succ
  rw [div_lt_iff_lt_mul hpad, succ_mul]
  omega

theorem le_roundUp {pad x : ℕ} (hpad : 0 < pad) : x ≤ (x + pad - 1) / pad * pad := by
  have hlt := lt_div_mul_add hpad (a := x + pad - 1)
  omega

namespace Cache

variable {cache : Cache} {flashAttn : Bool}

/-- In a cache of whole blocks the bound by the size never applies. -/
theorem spanOf_eq (hsize : 0 < cache.size) (hdvd : getPadding flashAttn ∣ cache.size)
    (h32 : cache.size < 2 ^ 32) {x : ℕ} (hx : x ≤ cache.size) :
    cache.spanOf (getPadding flashAttn) x = max (getPadding flashAttn)
      ((x + getPadding flashAttn - 1) / getPadding flashAttn * getPadding flashAttn) := by
  obtain ⟨k, hk, hpad⟩ := getPadding_eq_two_pow flashAttn
  obtain ⟨n, hn⟩ := hdvd
  rw [hpad, Nat.mul_comm] at hn
  have hpos : 0 < 2 ^ k := Nat.two_pow_pos k
  have hn0 : 0 < n := Nat.pos_of_mul_pos_right (hn ▸ hsize)
  have hroom : x + 2 ^ k ≤ 2 ^ 32 := by
    have hsplit : 2 ^ 32 = 2 ^ (32 - k) * 2 ^ k := by
      rw [← Nat.pow_add, Nat.sub_add_cancel hk]
    have hlt : n < 2 ^ (32 - k) := by
      rw [hn, hsplit] at h32
      exact Nat.lt_of_mul_lt_mul_right h32
    calc
      x + 2 ^ k ≤ n * 2 ^ k + 2 ^ k := Nat.add_le_add_right (hn ▸ hx) _
      _ = (n + 1) * 2 ^ k := (Nat.succ_mul n _).symm
      _ ≤ 2 ^ (32 - k) * 2 ^ k := Nat.mul_le_mul_right _ hlt
      _ = 2 ^ 32 := hsplit.symm
  rw [spanOf, hpad, ggmlPad_eq hk hroom]
  apply Nat.min_eq_right
  rw [hn]
  apply Nat.max_le.mpr
  constructor
  · exact Nat.le_mul_of_pos_left _ hn0
  · exact roundUp_le hpos (hn ▸ hx)

/-- The last used cell lies in the first block, or the scan samples a used cell in its
block or in the block before. -/
def Sampled (cache : Cache) (pad : ℕ) : Prop :=
  ∀ m, m < cache.size → (cache.cells m).inUse →
    (∀ i, m < i → i < cache.size → ¬(cache.cells i).inUse) →
    m < pad ∨ (cache.cells ((m / pad + 1) * pad - 1)).inUse ∨
      (cache.cells (m / pad * pad - 1)).inUse

section Scan

variable {pad : ℕ} [NeZero pad] {m : ℕ}

/-- The scan starts at the block after the last used cell's, or at that block. -/
theorem cellMaxPad_skip (hdvd : pad ∣ cache.size) (hm : m < cache.size)
    (hlast : ∀ i, m < i → i < cache.size → ¬(cache.cells i).inUse) :
    ∃ last, (m / pad + 1) * pad ≤ last ∧ last ≤ cache.size ∧
      cache.cellMaxPad pad = cellMaxPadFrom cache.cells pad ((m / pad + 1) * pad) last := by
  obtain ⟨n, hn⟩ := hdvd
  rw [mul_comm] at hn
  have hpos := pos_of_neZero pad
  have hbn : m / pad + 1 ≤ n := by
    apply succ_le_of_lt
    rw [div_lt_iff_lt_mul hpos]
    exact hn ▸ hm
  have hfree : ∀ i, (m / pad + 1) * pad ≤ i → i < n * pad → ¬(cache.cells i).inUse := by
    intro i hi hsize
    have hmi : m < (m / pad + 1) * pad := by
      rw [mul_comm]
      exact lt_mul_div_succ m hpos
    exact hlast i (lt_of_lt_of_le hmi hi) (hn ▸ hsize)
  rw [cellMaxPad, hn]
  exact cellMaxPadFrom_skip hbn (le_refl _) (le_refl _) hfree

/-- The last used cell is found when one of the two samples is used. -/
theorem cellMaxPad_eq_of_sampled (hdvd : pad ∣ cache.size) (hm : m < cache.size)
    (huse : (cache.cells m).inUse)
    (hlast : ∀ i, m < i → i < cache.size → ¬(cache.cells i).inUse)
    (hsampled : (cache.cells ((m / pad + 1) * pad - 1)).inUse ∨
      pad ≤ m ∧ (cache.cells (m / pad * pad - 1)).inUse) :
    cache.cellMaxPad pad = m + 1 := by
  have hpos := Nat.pos_of_neZero pad
  obtain ⟨last, hle, hsize, heq⟩ := cellMaxPad_skip hdvd hm hlast
  have hmi : m < (m / pad + 1) * pad := by
    rw [Nat.mul_comm]
    exact Nat.lt_mul_div_succ m hpos
  have hmax : ∀ j, (m / pad + 1) * pad ≤ j → j ≤ cache.size →
      cellMaxBelow cache.cells j = m + 1 := fun j hj hjs =>
    cellMaxBelow_eq huse (Nat.lt_of_lt_of_le hmi hj) fun i hi hij =>
      hlast i hi (Nat.lt_of_lt_of_le hij hjs)
  rw [heq]
  by_cases hown : (cache.cells ((m / pad + 1) * pad - 1)).inUse
  · rw [cellMaxPadFrom_hit hown hle]
    exact hmax last hle hsize
  · obtain ⟨hpm, hbefore⟩ := hsampled.resolve_left hown
    obtain ⟨b, hb⟩ : ∃ b, m / pad = b + 1 :=
      Nat.exists_eq_succ_of_ne_zero (Nat.pos_iff_ne_zero.mp (Nat.div_pos hpm hpos))
    rw [hb] at hbefore hle
    rw [cellMaxPadFrom_miss hown, hb,
      cellMaxPadFrom_hit hbefore (Nat.mul_le_mul_right pad (Nat.le_succ _)), ← hb]
    exact hmax _ (Nat.le_refl _) (hb ▸ hle.trans hsize)

theorem cellMaxPad_eq_zero (hdvd : pad ∣ cache.size)
    (hfree : ∀ i, i < cache.size → ¬(cache.cells i).inUse) : cache.cellMaxPad pad = 0 := by
  obtain ⟨n, hn⟩ := hdvd
  rw [mul_comm] at hn
  rw [hn] at hfree
  obtain ⟨last, _, _, hzero⟩ := cellMaxPadFrom_skip (zero_le n) (le_refl (n * pad))
    (le_refl (n * pad)) fun i _ hi => hfree i hi
  rw [cellMaxPad, hn, hzero, zero_mul, cellMaxPadFrom_zero]

/-- Otherwise the result stops before its block. -/
theorem cellMaxPad_le_of_not_sampled (hdvd : pad ∣ cache.size) (hm : m < cache.size)
    (hlast : ∀ i, m < i → i < cache.size → ¬(cache.cells i).inUse)
    (hown : ¬(cache.cells ((m / pad + 1) * pad - 1)).inUse)
    (hbefore : pad ≤ m → ¬(cache.cells (m / pad * pad - 1)).inUse) :
    cache.cellMaxPad pad ≤ m / pad * pad := by
  obtain ⟨last, _, _, heq⟩ := cellMaxPad_skip hdvd hm hlast
  rw [heq, cellMaxPadFrom_miss hown]
  cases hb : m / pad with
  | zero =>
    rw [Nat.zero_mul, cellMaxPadFrom_zero]
  | succ b =>
    have hpm : pad ≤ m := by
      apply Nat.le_of_not_lt
      intro hlt
      rw [Nat.div_eq_of_lt hlt] at hb
      exact absurd hb (Nat.succ_ne_zero b).symm
    rw [hb] at hbefore
    rw [cellMaxPadFrom_miss (hbefore hpm)]
    exact cellMaxPadFrom_le (Nat.mul_le_mul_right pad (Nat.le_succ b))

end Scan

/-- `kv_self.n` is what the plain scan would give, and bounds every used cell. -/
structure SpanCovers (cache : Cache) (flashAttn : Bool) : Prop where
  eq_plain : cache.span flashAttn = cache.spanOf (getPadding flashAttn) cache.cellMax
  covers : ∀ i, i < cache.size → (cache.cells i).inUse → i < cache.span flashAttn

/-- The span of the plain scan contains every used cell. -/
theorem lt_spanOf_cellMax (hsize : 0 < cache.size) (hdvd : getPadding flashAttn ∣ cache.size)
    (h32 : cache.size < 2 ^ 32) {i : ℕ} (hi : i < cache.size) (huse : (cache.cells i).inUse) :
    i < cache.spanOf (getPadding flashAttn) cache.cellMax := by
  have hpos := Nat.pos_of_neZero (getPadding flashAttn)
  have hlt : i < cache.cellMax :=
    Nat.lt_of_not_le fun h => not_inUse_of_cellMaxBelow_le h hi huse
  rw [spanOf_eq hsize hdvd h32 (cellMax_le cache)]
  calc
    i < cache.cellMax := hlt
    _ ≤ _ := le_roundUp hpos
    _ ≤ _ := Nat.le_max_right _ _

/-- Ends of used cells in the first block give the same span. -/
theorem spanOf_eq_of_le (hsize : 0 < cache.size) (hdvd : getPadding flashAttn ∣ cache.size)
    (h32 : cache.size < 2 ^ 32) {x : ℕ} (hx : x ≤ getPadding flashAttn) :
    cache.spanOf (getPadding flashAttn) x = getPadding flashAttn := by
  have hpos := pos_of_neZero (getPadding flashAttn)
  rw [spanOf_eq hsize hdvd h32 (hx.trans (le_of_dvd hsize hdvd))]
  apply max_eq_left
  have hle := roundUp_le hpos (x := x) (b := 1) (by rwa [one_mul])
  rwa [one_mul] at hle

/-- The span is that of the plain scan exactly when the last used cell is sampled. -/
theorem spanCovers_iff (hsize : 0 < cache.size) (hdvd : getPadding flashAttn ∣ cache.size)
    (h32 : cache.size < 2 ^ 32) :
    cache.SpanCovers flashAttn ↔ cache.Sampled (getPadding flashAttn) := by
  have hpos := Nat.pos_of_neZero (getPadding flashAttn)
  constructor
  · intro h m hm huse hlast
    by_contra hnot
    obtain ⟨hpm, hown, hbefore⟩ : ¬m < getPadding flashAttn ∧ _ ∧ _ := by
      simpa only [not_or] using hnot
    have hle := cellMaxPad_le_of_not_sampled hdvd hm hlast hown fun _ => hbefore
    have hblock : 1 ≤ m / getPadding flashAttn := Nat.div_pos (Nat.le_of_not_lt hpm) hpos
    have hspan : cache.span flashAttn ≤ m / getPadding flashAttn * getPadding flashAttn := by
      rw [span, spanOf_eq hsize hdvd h32 (hle.trans ((Nat.div_mul_le_self m _).trans hm.le))]
      exact Nat.max_le.mpr ⟨Nat.le_mul_of_pos_left _ hblock, roundUp_le hpos hle⟩
    have hcover := h.covers m hm huse
    exact absurd hcover (Nat.not_lt.mpr (hspan.trans (Nat.div_mul_le_self m _)))
  · intro hsampled
    have heq : cache.span flashAttn = cache.spanOf (getPadding flashAttn) cache.cellMax := by
      rw [span]
      cases hmax : cache.cellMax with
      | zero =>
        have hfree : ∀ i, i < cache.size → ¬(cache.cells i).inUse := fun i hi =>
          not_inUse_of_cellMaxBelow_le (hmax.trans_le (Nat.zero_le i)) hi
        rw [cellMaxPad_eq_zero hdvd hfree]
      | succ m =>
        have huse := inUse_of_cellMaxBelow hmax
        have hm : m < cache.size := Nat.lt_of_succ_le (hmax.ge.trans (cellMax_le cache))
        have hlast : ∀ i, m < i → i < cache.size → ¬(cache.cells i).inUse := fun i hi =>
          not_inUse_of_cellMaxBelow_le (hmax.trans_le hi)
        by_cases hfound : (cache.cells ((m / getPadding flashAttn + 1) *
              getPadding flashAttn - 1)).inUse ∨
            getPadding flashAttn ≤ m ∧
              (cache.cells (m / getPadding flashAttn * getPadding flashAttn - 1)).inUse
        · rw [cellMaxPad_eq_of_sampled hdvd hm huse hlast hfound]
        · obtain ⟨hown, hbefore⟩ := not_or.mp hfound
          have hpm : m < getPadding flashAttn := by
            rcases hsampled m hm huse hlast with h | h | h
            · exact h
            · exact absurd h hown
            · exact Nat.lt_of_not_le fun hle => hbefore ⟨hle, h⟩
          have hle : cache.cellMaxPad (getPadding flashAttn) ≤ getPadding flashAttn := by
            have hstop := cellMaxPad_le_of_not_sampled hdvd hm hlast hown fun hle h =>
              hbefore ⟨hle, h⟩
            exact hstop.trans ((Nat.div_mul_le_self m _).trans hpm.le)
          rw [spanOf_eq_of_le hsize hdvd h32 hle, spanOf_eq_of_le hsize hdvd h32 hpm]
    refine ⟨heq, fun i hi huse => ?_⟩
    rw [heq]
    exact lt_spanOf_cellMax hsize hdvd h32 hi huse

/-- Forty tokens of a sequence, the one at position 31 removed again, and a batch of two
more placed behind them. -/
def gap : Cache where
  hasShift := false
  doDefrag := false
  doCopy := false
  sLPositionStrict := false
  qnextStateSlots := 0
  anyCompacted := false
  sinkRows := 0
  windowSwa := 0
  headSwa := 0
  posBaseSwa := 0
  head := 40
  size := 64
  used := 41
  cells i := if i < 42 ∧ i ≠ 31 then ⟨i, 0, 0, {0}⟩ else Cell.empty

theorem gap_span : gap.span false = 32 := by
  have hscan : gap.cellMaxPad (getPadding false) = 0 := by
    rw [cellMaxPad, show gap.size = (1 + 1) * getPadding false by rfl,
      cellMaxPadFrom_miss (by decide), cellMaxPadFrom_miss (k := 0) (by decide), zero_mul,
      cellMaxPadFrom_zero]
  rw [span, hscan]
  decide

/-- The batch lies beyond the span. -/
theorem not_spanCovers_gap : ¬gap.SpanCovers false := by
  intro h
  have hlt : 40 < gap.span false := h.covers 40 (by decide) (by decide)
  rw [gap_span] at hlt
  exact absurd hlt (by decide)

/-- Filling the gap brings the end of the first block, and the whole batch, back. -/
theorem spanCovers_iff_filled : (gap.setCell 31 ⟨31, 0, 0, {0}⟩).SpanCovers false ↔
      (gap.setCell 31 ⟨31, 0, 0, {0}⟩).Sampled 32 :=
  spanCovers_iff (by decide) (by decide) (by decide)

end Cache

end ExpertPin.Kv
