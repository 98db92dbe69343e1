import ExpertPin.Kv.CompactMap

/-!
# The compacted rows

A compacted tensor has one row per position, in one of two layouts: the keys, and the
values under flash attention, are position-major, other values are transposed.  The graph
writes the rows of a micro-batch from `head_swa` on, and compaction copies the rows of the
window to the front.  Through every run row `sink_rows + pos - pos_base_swa` is the row last
written for `pos`, and the window mask leaves every position of the window visible
(`compacted_run`).
-/

namespace ExpertPin.Kv

open Relocation Runs Rounding
open Option
open Nat

/-! ## Layouts -/

/-- A unit is a byte, or an element of a transposed tensor. -/
inductive RowLayout
  | positionMajor (stride : ℕ)
  | transposed (nRows nEmbd : ℕ)
deriving DecidableEq, Repr

namespace RowLayout

/-- Units of one row. -/
def units : RowLayout → ℕ
  | .positionMajor stride => stride
  | .transposed _ nEmbd => nEmbd

/-- Where unit `c` of row `k` is. -/
def addr (k c : ℕ) : RowLayout → ℕ
  | .positionMajor stride => k * stride + c
  | .transposed nRows _ => c * nRows + k

/-- The row and the unit at an address. -/
def locate (a : ℕ) : RowLayout → ℕ × ℕ
  | .positionMajor stride => (a / stride, a % stride)
  | .transposed nRows _ => (a % nRows, a / nRows)

/-- `copy_bytes`, and the loop over the rows of a transposed tensor. -/
def copies (r : Run) : RowLayout → List Run
  | .positionMajor stride => [⟨r.src * stride, r.dst * stride, r.len * stride⟩]
  | .transposed nRows nEmbd =>
    (List.range nEmbd).map fun j => ⟨j * nRows + r.src, j * nRows + r.dst, r.len⟩

/-- The graph stores `n` rows from row `head` on. -/
def store {β : Type} (layout : RowLayout) (mem : ℕ → β) (head n : ℕ) (data : ℕ → ℕ → β) : ℕ → β :=
  fun a =>
    let at' := layout.locate a
    if head ≤ at'.1 ∧ at'.1 < head + n ∧ at'.2 < layout.units then data (at'.1 - head) at'.2
    else mem a

/-- The tensor has `n` rows. -/
def HasRows (n : ℕ) : RowLayout → Prop
  | .positionMajor _ => True
  | .transposed nRows _ => nRows = n

variable {layout : RowLayout} {n k c : ℕ} {β : Type} {mem : ℕ → β}

theorem locate_addr (h : layout.HasRows n) (hk : k < n) (hc : c < layout.units) :
    layout.locate (layout.addr k c) = (k, c) := by
  cases layout with
  | positionMajor stride =>
    have hc' : c < stride := hc
    have hpos : 0 < stride := zero_lt_of_lt hc'
    rw [addr, locate, mul_comm, mul_add_div hpos, mul_add_mod,
      div_eq_of_lt hc', mod_eq_of_lt hc', add_zero]
  | transposed nRows nEmbd =>
    obtain rfl : nRows = n := h
    have hpos : 0 < nRows := zero_lt_of_lt hk
    rw [addr, locate, mul_comm, mul_add_div hpos, mul_add_mod,
      div_eq_of_lt hk, mod_eq_of_lt hk, add_zero]

theorem store_addr (h : layout.HasRows n) (hk : k < n) (hc : c < layout.units) {head m : ℕ}
    (data : ℕ → ℕ → β) : layout.store mem head m data (layout.addr k c) =
      if head ≤ k ∧ k < head + m then data (k - head) c else mem (layout.addr k c) := by
  rw [store, locate_addr h hk hc]
  simp only [hc, and_true]

/-- The copies within the first `m` columns of a transposed tensor. -/
theorem execute_columns {r : Run} (hsrc : r.src + r.len ≤ n) (hdst : r.dst + r.len ≤ n) (m : ℕ) :
    ∀ c k, k < n →
      execute ((List.range m).map fun j => (⟨j * n + r.src, j * n + r.dst, r.len⟩ : Run)) mem
        (c * n + k) =
      if c < m then r.copy (fun k => mem (c * n + k)) k else mem (c * n + k) := by
  induction m with
  | zero => exact fun c k _ => (if_neg (Nat.not_lt_zero c)).symm
  | succ m ih =>
    intro c k hk
    rw [List.range_succ, List.map_append, execute_append]
    show Run.copy ⟨m * n + r.src, m * n + r.dst, r.len⟩ _ (c * n + k) = _
    rcases Nat.lt_trichotomy c m with hlt | rfl | hgt
    · have hbelow : c * n + k < m * n := calc
        c * n + k < c * n + n := Nat.add_lt_add_left hk _
        _ = (c + 1) * n := (Nat.succ_mul c n).symm
        _ ≤ m * n := Nat.mul_le_mul_right n hlt
      rw [Run.copy, if_neg fun hin => absurd hin.1 (by dsimp only; omega), ih c k hk,
        if_pos hlt, if_pos (Nat.lt_succ_of_lt hlt)]
    · rw [if_pos (Nat.lt_succ_self c), Run.copy, Run.copy]
      dsimp only
      by_cases hin : r.dst ≤ k ∧ k < r.dst + r.len
      · have hfrom : c * n + r.src + (c * n + k - (c * n + r.dst)) =
            c * n + (r.src + (k - r.dst)) := by omega
        rw [if_pos (by omega), if_pos hin, hfrom, ih c _ (by omega), if_neg (Nat.lt_irrefl c)]
      · rw [if_neg (by omega), if_neg hin, ih c k hk, if_neg (Nat.lt_irrefl c)]
    · have habove : m * n + n ≤ c * n := (Nat.succ_mul m n).symm.trans_le
        (Nat.mul_le_mul_right n hgt)
      rw [Run.copy, if_neg fun hin => absurd hin.2 (by dsimp only; omega), ih c k hk,
        if_neg (Nat.not_lt.mpr hgt.le), if_neg (Nat.not_lt.mpr (Nat.succ_le_of_lt hgt))]

/-- One copy of consecutive rows. -/
theorem copy_rows {r : Run} {stride : ℕ} (hc : c < stride) :
    Run.copy ⟨r.src * stride, r.dst * stride, r.len * stride⟩ mem (k * stride + c) =
      r.copy (fun k => mem (k * stride + c)) k := by
  rw [Run.copy, Run.copy]
  dsimp only
  rcases Nat.lt_or_ge k r.dst with hlt | hge
  · have hbelow : k * stride + c < r.dst * stride := calc
      k * stride + c < k * stride + stride := Nat.add_lt_add_left hc _
      _ = (k + 1) * stride := (Nat.succ_mul k stride).symm
      _ ≤ r.dst * stride := Nat.mul_le_mul_right stride hlt
    rw [if_neg fun hin => absurd hin.1 (Nat.not_le.mpr hbelow),
      if_neg fun hin => absurd hin.1 (Nat.not_le.mpr hlt)]
  · obtain ⟨e, rfl⟩ := Nat.exists_eq_add_of_le hge
    rw [Nat.add_mul, Nat.add_assoc, Nat.add_sub_cancel_left, Nat.add_sub_cancel_left,
      ← Nat.add_assoc (r.src * stride), ← Nat.add_mul r.src e]
    by_cases hin : e < r.len
    · have hle : e * stride + c < r.len * stride := calc
        e * stride + c < e * stride + stride := Nat.add_lt_add_left hc _
        _ = (e + 1) * stride := (Nat.succ_mul e stride).symm
        _ ≤ r.len * stride := Nat.mul_le_mul_right stride hin
      rw [if_pos ⟨Nat.le_add_right _ _, Nat.add_lt_add_left hle _⟩,
        if_pos ⟨Nat.le_add_right _ _, Nat.add_lt_add_left hin _⟩]
    · have hle : r.len * stride ≤ e * stride + c :=
        (Nat.mul_le_mul_right stride (Nat.not_lt.mp hin)).trans (Nat.le_add_right _ _)
      rw [if_neg fun h => absurd (Nat.lt_of_add_lt_add_left h.2) (Nat.not_lt.mpr hle),
        if_neg fun h => hin (Nat.lt_of_add_lt_add_left h.2)]

/-- The copies move rows. -/
theorem execute_copies (h : layout.HasRows n) {r : Run} (hsrc : r.src + r.len ≤ n)
    (hdst : r.dst + r.len ≤ n) (hk : k < n) (hc : c < layout.units) :
    execute (layout.copies r) mem (layout.addr k c) =
      r.copy (fun k => mem (layout.addr k c)) k := by
  cases layout with
  | positionMajor stride => exact copy_rows hc
  | transposed nRows nEmbd =>
    obtain rfl : nRows = n := h
    exact (execute_columns hsrc hdst nEmbd c k hk).trans (if_pos hc)

end RowLayout

/-! ## The mask -/

/-- One entry of `KQ_mask_swa_win` for a token at `pos`; `none` is minus infinity. -/
def swaWinMask (cache : Cache) (view : SwaWindowView) (window nAttnChunk : ℕ) (useAlibi : Bool)
    (pos : ℤ) (c : ℕ) : Option ℤ :=
  let i : ℤ := view.winOff + c
  let cellPos := cache.posBaseSwa + (i - cache.sinkRows)
  if ¬cache.posBaseSwa ≤ cellPos ∨ pos < cellPos then none
  else
    let f : ℤ := if useAlibi then -(cellPos - pos).natAbs else 0
    if nAttnChunk ≠ 0 then
      let start := pos.tdiv nAttnChunk * nAttnChunk
      if cellPos < start ∨ pos < start then none else some f
    else if window ≤ pos - cellPos then none
    else some f

/-- The view holds the rows of the window of each token of the micro-batch. -/
theorem winOff_le {live sinkRows nTokens window pad row : ℕ} (hpad : 1 < pad)
    (h : live ≤ row + nTokens + window) :
    (swaCalcWindowViewCompact live sinkRows nTokens window pad).winOff ≤ sinkRows + row := by
  have hlive : roundUp live pad < live + pad := roundUp_lt (zero_lt_of_lt hpad)
  have hover : window + pad + nTokens ≤ roundUp (window + pad + nTokens) pad :=
    le_roundUp (zero_lt_of_lt hpad)
  rw [swaCalcWindowViewCompact]
  dsimp only
  rw [if_pos hpad, if_pos hpad]
  split <;> omega

/-- A position of the window is visible. -/
theorem swaWinMask_visible {cache : Cache} {view : SwaWindowView} {window : ℕ} {pos q : ℤ} {c : ℕ}
    (hrow : (view.winOff + c : ℤ) = cache.sinkRows + (q - cache.posBaseSwa))
    (hbase : cache.posBaseSwa ≤ q) (hle : q ≤ pos) (hwindow : pos - window < q)
    (useAlibi : Bool) : swaWinMask cache view window 0 useAlibi pos c ≠ none := by
  have hcell : cache.posBaseSwa + ((view.winOff + c : ℤ) - cache.sinkRows) = q := by omega
  rw [swaWinMask]
  dsimp only
  rw [hcell, if_neg (by omega), if_neg (not_not_intro rfl), if_neg (by omega)]
  exact some_ne_none _

/-! ## Runs -/

section Runs

variable {β : Type} {p : SwaParams} {layout : RowLayout}

/-- The rows that `llama_kv_cache_compact_swa` copies. -/
def Cache.compactRuns (cache : Cache) (p : SwaParams) (nTokens : ℕ) : List Run :=
  if cache.anyCompacted ∧ ¬(cache.liveSwa + nTokens) % 2 ^ 32 ≤ p.capacity then
    [⟨cache.sinkRows + cache.liveSwa - cache.windowSwa, cache.sinkRows, cache.windowSwa⟩]
  else []

def Cache.compactRows (cache : Cache) (p : SwaParams) (layout : RowLayout) (nTokens : ℕ)
    (mem : ℕ → β) : ℕ → β := execute ((cache.compactRuns p nTokens).flatMap layout.copies) mem

/-- A decoded micro-batch: its first position, and unit `c` of the row of token `j`. -/
structure Batch (β : Type) where
  first : ℤ
  size : ℕ
  data : ℕ → ℕ → β

/-- A cache and the memory of one compacted tensor. -/
structure RowState (β : Type) where
  cache : Cache
  mem : ℕ → β

namespace SwaOp

/-- The memory of the tensor after a call. -/
def memory (p : SwaParams) (layout : RowLayout) (s : RowState β) (data : ℕ → ℕ → β) : SwaOp → ℕ → β
  | .decode nTokens =>
    let placed := s.cache.placeBatch (s.cache.nextTokens nTokens)
    if placed.2 then
      match placed.1.compactSwa p nTokens with
      | some moved =>
        layout.store (placed.1.compactRows p layout nTokens s.mem) moved.headSwa nTokens data
      | none => s.mem
    else s.mem
  | .compact nTokens => s.cache.compactRows p layout nTokens s.mem
  | .seqRm _ _ _ => s.mem

/-- The micro-batch a call decodes. -/
def batch (cache : Cache) (data : ℕ → ℕ → β) : SwaOp → Option (Batch β)
  | .decode nTokens =>
    if (cache.placeBatch (cache.nextTokens nTokens)).2 then some ⟨cache.curEnd, nTokens, data⟩
    else none
  | .compact _ => none
  | .seqRm _ _ _ => none

end SwaOp

def RowStep (p : SwaParams) (layout : RowLayout) (s : RowState β) (e : Option (Batch β))
    (t : RowState β) : Prop :=
  ∃ op data, SwaStep p s.cache op t.cache ∧ t.mem = op.memory p layout s data ∧
    e = op.batch s.cache data

/-- The row that a run has last written for a position. -/
def lastWritten (tr : List (Option (Batch β))) (pos : ℤ) : Option (ℕ → β) :=
  tr.foldl (fun row e => match e with
    | some b =>
      if b.first ≤ pos ∧ pos < b.first + b.size then some (b.data (pos - b.first).toNat) else row
    | none => row) none

theorem lastWritten_none (tr : List (Option (Batch β))) (pos : ℤ) :
    lastWritten (tr ++ [none]) pos = lastWritten tr pos := by
  rw [lastWritten, List.foldl_append]
  rfl

theorem lastWritten_some (tr : List (Option (Batch β))) (b : Batch β) (pos : ℤ) :
    lastWritten (tr ++ [some b]) pos =
      if b.first ≤ pos ∧ pos < b.first + b.size then some (b.data (pos - b.first).toNat)
      else lastWritten tr pos := by
  rw [lastWritten, List.foldl_append]
  rfl

/-- The rows of the window are the ones last written. -/
def Stored (layout : RowLayout) (tr : List (Option (Batch β))) (cache : Cache)
    (mem : ℕ → β) : Prop :=
  ∀ pos, cache.posBaseSwa ≤ pos → pos < cache.curEnd → ∃ row, lastWritten tr pos = some row ∧
    ∀ c, c < layout.units →
      mem (layout.addr (cache.sinkRows + (pos - cache.posBaseSwa).toNat) c) = row c

variable {tr : List (Option (Batch β))} {cache after : Cache} {mem : ℕ → β} {nTokens : ℕ}

/-- Fewer positions are retained. -/
theorem Stored.mono (h : Stored layout tr cache mem) (hsink : after.sinkRows = cache.sinkRows)
    (hbase : after.posBaseSwa = cache.posBaseSwa) (hend : after.curEnd ≤ cache.curEnd) :
    Stored layout tr after mem := by
  intro pos hpos hlt
  rw [hbase] at hpos ⊢
  rw [hsink]
  exact h pos hpos (hlt.trans_le hend)

/-- Compaction moves the rows with the map. -/
theorem Stored.compactSwa (h : Stored layout tr cache mem) (hcache : cache.Windowed p)
    (hsuff : p.Sufficient) (hrows : layout.HasRows p.sizeSwa)
    (hcompact : cache.compactSwa p nTokens = some after) :
    Stored layout tr after (cache.compactRows p layout nTokens mem) := by
  rcases Cache.compactSwa_cases hcache.any hcompact with ⟨rfl, hfits⟩ | ⟨rfl, hwindow, hfull⟩
  · rw [Cache.compactRows, Cache.compactRuns, if_neg fun hrun => hrun.2 hfits]
    exact h
  · rw [Cache.compactRows, Cache.compactRuns, if_pos ⟨hcache.any, hfull⟩, List.flatMap_singleton]
    intro pos hpos hlt
    have hbase : cache.front.posBaseSwa =
        cache.posBaseSwa + (cache.liveSwa - cache.windowSwa : ℕ) := rfl
    rw [Cache.curEnd_front hwindow] at hlt
    rw [hbase] at hpos ⊢
    obtain ⟨row, hlast, hrow⟩ := h pos (by omega) hlt
    refine ⟨row, hlast, fun c hc => ?_⟩
    rw [← hrow c hc]
    rw [Cache.curEnd] at hlt
    let e := (pos - (cache.posBaseSwa + (cache.liveSwa - cache.windowSwa : ℕ))).toNat
    have he : e < cache.windowSwa := by omega
    have hsize : cache.sinkRows + cache.liveSwa ≤ p.sizeSwa := by
      rw [hcache.sink]
      exact (Nat.add_le_add_left hcache.live _).trans (p.capacity_le hsuff.1)
    show execute _ mem (layout.addr (cache.sinkRows + e) c) = _
    rw [RowLayout.execute_copies hrows (by dsimp only; omega) (by dsimp only; omega) (by omega) hc]
    refine (Run.copy_target he).trans ?_
    show mem (layout.addr (cache.sinkRows + cache.liveSwa - cache.windowSwa + e) c) = _
    have hfrom : cache.sinkRows + cache.liveSwa - cache.windowSwa + e =
        cache.sinkRows + (pos - cache.posBaseSwa).toNat := by omega
    rw [hfrom]

/-- The rows of a micro-batch follow those of the window. -/
theorem Stored.store (h : Stored layout tr cache mem) (hcache : cache.Windowed p)
    (hsuff : p.Sufficient) (hrows : layout.HasRows p.sizeSwa)
    (hroom : cache.liveSwa + nTokens ≤ p.capacity) (data : ℕ → ℕ → β) :
    Stored layout (tr ++ [some ⟨cache.curEnd, nTokens, data⟩]) (cache.grown nTokens)
      (layout.store mem cache.headSwa nTokens data) := by
  intro pos hpos hlt
  have hpos' : cache.posBaseSwa ≤ pos := hpos
  rw [hcache.curEnd_grown] at hlt
  have hsize := p.capacity_le hsuff.1
  have hhead := hcache.headSwa_eq
  have hsink := hcache.sink
  have hend : cache.curEnd = cache.posBaseSwa + cache.liveSwa := rfl
  let k := cache.sinkRows + (pos - cache.posBaseSwa).toNat
  have hk : k < p.sizeSwa := by omega
  show ∃ row, lastWritten (tr ++ [some ⟨cache.curEnd, nTokens, data⟩]) pos = some row ∧
    ∀ c, c < layout.units → layout.store mem cache.headSwa nTokens data (layout.addr k c) = row c
  rw [lastWritten_some]
  dsimp only
  by_cases hnew : cache.curEnd ≤ pos
  · rw [if_pos ⟨hnew, hlt⟩]
    refine ⟨_, rfl, fun c hc => ?_⟩
    rw [RowLayout.store_addr hrows hk hc, if_pos (by omega)]
    congr 1
    omega
  · obtain ⟨row, hlast, hrow⟩ := h pos hpos' (Int.not_le.mp hnew)
    rw [if_neg fun hin => hnew hin.1]
    refine ⟨row, hlast, fun c hc => ?_⟩
    rw [RowLayout.store_addr hrows hk hc, if_neg (by omega)]
    exact hrow c hc

/-- A step keeps the rows. -/
theorem Stored.step {s t : RowState β} {e : Option (Batch β)} (h : Stored layout tr s.cache s.mem)
    (hs : s.cache.Mapped p) (hsuff : p.Sufficient) (hrows : layout.HasRows p.sizeSwa)
    (hstep : RowStep p layout s e t) : Stored layout (tr ++ [e]) t.cache t.mem := by
  obtain ⟨op, data, ⟨hvalid, hrun⟩, hmem, rfl⟩ := hstep
  rw [hmem]
  cases op with
  | decode nTokens =>
    have hsame := s.cache.sameMap_placeBatch (s.cache.nextTokens nTokens)
    have hplaced : Stored layout tr (s.cache.placeBatch (s.cache.nextTokens nTokens)).1 s.mem :=
      h.mono hsame.sinkRows hsame.posBaseSwa hsame.curEnd.le
    rw [SwaOp.memory, SwaOp.batch]
    cases hfound : (s.cache.placeBatch (s.cache.nextTokens nTokens)).2 with
    | true =>
      obtain ⟨moved, hcompact, hmoved, hend, hroom, hdecode, _⟩ :=
        hs.exists_decode hsuff hvalid hfound
      rw [some.inj (hrun.symm.trans hdecode)]
      rw [if_pos rfl, if_pos rfl, hcompact, ← hend]
      exact (hplaced.compactSwa (hs.toWindowed.placeBatch nTokens).1 hsuff hrows hcompact).store
        hmoved hsuff hrows hroom data
    | false =>
      have hdecode : s.cache.decode p nTokens =
          some (s.cache.placeBatch (s.cache.nextTokens nTokens)).1 := by
        rw [Cache.decode, hfound, if_neg Bool.false_ne_true]
      rw [some.inj (hrun.symm.trans hdecode)]
      rw [if_neg Bool.false_ne_true, if_neg Bool.false_ne_true]
      intro pos hpos hlt
      rw [lastWritten_none]
      exact hplaced pos hpos hlt
  | compact nTokens =>
    intro pos hpos hlt
    rw [SwaOp.batch, lastWritten_none]
    exact h.compactSwa hs.toWindowed hsuff hrows hrun pos hpos hlt
  | seqRm seqId p0 p1 =>
    obtain ⟨result, hrm, hresult⟩ := map_eq_some_iff.mp hrun
    have hsame := s.cache.sameMap_sweepRm seqId p0 p1
    have hkept : Stored layout tr t.cache s.mem := by
      rw [← hresult]
      rcases Cache.seqRm_cases hrm with rfl | ⟨_, rfl⟩ | ⟨head, base, hplan, rfl⟩
      · exact h
      · exact h.mono hsame.sinkRows hsame.posBaseSwa hsame.curEnd.le
      · obtain ⟨_, hstart, _, hcase⟩ := Cache.compactPlan_apply hplan
        rw [← hsame.sinkRows] at hcase
        rcases hcase with ⟨_, rfl, rfl⟩ | ⟨hkept, rfl, rfl⟩
        · intro pos hpos hlt
          have hnone := Cache.curEnd_remap (s.cache.sweepRm seqId p0 p1) 0 0
          exact absurd (hlt.trans_eq hnone) (Int.not_lt.mpr hpos)
        · have hend := Cache.curEnd_remap (s.cache.sweepRm seqId p0 p1) s.cache.posBaseSwa
            (rangeStart p0 - s.cache.posBaseSwa).toNat
          have hbase := s.cache.posBaseSwa_le_curEnd
          have hmoved : Stored layout tr ((s.cache.sweepRm seqId p0 p1).remap s.cache.posBaseSwa
              (rangeStart p0 - s.cache.posBaseSwa).toNat) s.mem :=
            h.mono hsame.sinkRows rfl (hend.trans_le (by omega))
          exact hmoved
    intro pos hpos hlt
    rw [SwaOp.batch, lastWritten_none]
    exact hkept pos hpos hlt

/-- The window of every token of a micro-batch is mapped and visible. -/
theorem Cache.Windowed.visible (h : cache.Windowed p) {j : ℕ} (hj : j < nTokens) {q : ℤ}
    (hq : 0 ≤ q) (hwindow : cache.curEnd + j - p.window < q) (hle : q ≤ cache.curEnd + j)
    (useAlibi : Bool) :
    cache.posBaseSwa ≤ q ∧ q < cache.posBaseSwa + (cache.liveSwa + nTokens : ℕ) ∧
      ∃ c, c < (swaCalcWindowViewCompact (cache.liveSwa + nTokens) cache.sinkRows nTokens
          cache.windowSwa p.pad).wView ∧
        ((swaCalcWindowViewCompact (cache.liveSwa + nTokens) cache.sinkRows nTokens
          cache.windowSwa p.pad).winOff + c : ℤ) = cache.sinkRows + (q - cache.posBaseSwa) ∧
        swaWinMask cache (swaCalcWindowViewCompact (cache.liveSwa + nTokens) cache.sinkRows nTokens
          cache.windowSwa p.pad) p.window 0 useAlibi (cache.curEnd + j) c ≠ none := by
  have hend : cache.curEnd = cache.posBaseSwa + cache.liveSwa := rfl
  have hbase : cache.posBaseSwa ≤ q := by
    by_cases hzero : cache.posBaseSwa = 0
    · exact hzero ▸ hq
    · have hretained := h.retained hzero
      omega
  have hlt : q < cache.posBaseSwa + (cache.liveSwa + nTokens : ℕ) := by omega
  refine ⟨hbase, hlt, ?_⟩
  let row := (q - cache.posBaseSwa).toNat
  have hoff : (swaCalcWindowViewCompact (cache.liveSwa + nTokens) cache.sinkRows nTokens
      cache.windowSwa p.pad).winOff ≤ cache.sinkRows + row := by
    apply winOff_le p.pad_pos
    rw [h.window]
    omega
  have hsum : _ = cache.sinkRows + roundUp (cache.liveSwa + nTokens) p.pad :=
    winOff_add_wView _ _ nTokens cache.windowSwa p.pad_pos
  have hlive : cache.liveSwa + nTokens ≤ roundUp (cache.liveSwa + nTokens) p.pad :=
    le_roundUp (zero_lt_of_lt p.pad_pos)
  generalize swaCalcWindowViewCompact (cache.liveSwa + nTokens) cache.sinkRows nTokens
    cache.windowSwa p.pad = view at hoff hsum ⊢
  have hrow : (view.winOff + (cache.sinkRows + row - view.winOff : ℕ) : ℤ) =
      cache.sinkRows + (q - cache.posBaseSwa) := by omega
  exact ⟨cache.sinkRows + row - view.winOff, by omega, hrow,
    swaWinMask_visible hrow hbase hle (by omega) useAlibi⟩

/-- **The compacted window**: in every run its rows are the ones last written, a decode sees
its whole window, and a removal keeps cells and map in step or changes nothing. -/
theorem compacted_run (hsuff : p.Sufficient) (hrows : layout.HasRows p.sizeSwa) {nSeqMax : ℕ}
    {hasState strict : Bool} {mem : ℕ → β} {s : RowState β}
    (hrun : Steps (RowStep p layout) ⟨p.start nSeqMax hasState strict, mem⟩ tr s) :
    (∀ pos, s.cache.posBaseSwa ≤ pos → pos < s.cache.posBaseSwa + s.cache.liveSwa →
      ∃ row, lastWritten tr pos = some row ∧ ∀ c, c < layout.units →
        s.mem (layout.addr (s.cache.sinkRows + (pos - s.cache.posBaseSwa).toNat) c) = row c) ∧
    (∀ nTokens, (SwaOp.decode nTokens).Valid p s.cache →
      (s.cache.placeBatch (s.cache.nextTokens nTokens)).2 = true →
      ∃ moved, (s.cache.placeBatch (s.cache.nextTokens nTokens)).1.compactSwa p nTokens =
          some moved ∧ s.cache.decode p nTokens = some (moved.grown nTokens) ∧
        ∀ useAlibi j, j < nTokens → ∀ q, 0 ≤ q → s.cache.curEnd + j - p.window < q →
          q ≤ s.cache.curEnd + j →
          moved.posBaseSwa ≤ q ∧ q < moved.posBaseSwa + (moved.liveSwa + nTokens : ℕ) ∧
          ∃ c, c < (swaCalcWindowViewCompact (moved.liveSwa + nTokens) moved.sinkRows nTokens
              moved.windowSwa p.pad).wView ∧
            ((swaCalcWindowViewCompact (moved.liveSwa + nTokens) moved.sinkRows nTokens
              moved.windowSwa p.pad).winOff + c : ℤ) = moved.sinkRows + (q - moved.posBaseSwa) ∧
            swaWinMask moved (swaCalcWindowViewCompact (moved.liveSwa + nTokens) moved.sinkRows
              nTokens moved.windowSwa p.pad) p.window 0 useAlibi (s.cache.curEnd + j) c ≠ none) ∧
    ∀ seqId p0 p1 result, s.cache.seqRm seqId p0 p1 = some result →
      (result.2 = false → result.1 = s.cache) ∧
      (result.2 = true → ∀ pos, result.1.posBaseSwa ≤ pos →
        (result.1.Holds pos ↔ pos < result.1.posBaseSwa + result.1.liveSwa)) := by
  obtain ⟨hmapped, hstored⟩ : s.cache.Mapped p ∧ Stored layout tr s.cache s.mem := by
    refine hrun.history (P := fun tr s => s.cache.Mapped p ∧ Stored layout tr s.cache s.mem) ?_ ?_
    · rintro tr s t e _ ⟨hmapped, hstored⟩ hstep
      refine ⟨?_, hstored.step hmapped hsuff hrows hstep⟩
      obtain ⟨op, data, hop, _⟩ := hstep
      exact hmapped.step hsuff hop
    · refine ⟨Cache.mapped_start p nSeqMax hasState strict, fun pos hpos hlt => ?_⟩
      have hend : (p.start nSeqMax hasState strict).curEnd = 0 := (Cache.filled_start ..).curEnd
      exact absurd (hlt.trans_eq hend) (Int.not_lt.mpr hpos)
  refine ⟨hstored, ?_, ?_⟩
  · intro nTokens hvalid hfound
    obtain ⟨moved, hcompact, hmoved, hend, _, hdecode, _⟩ :=
      hmapped.exists_decode hsuff hvalid hfound
    refine ⟨moved, hcompact, hdecode, ?_⟩
    rw [← hend]
    exact fun useAlibi j hj q hq hwindow hle => hmoved.visible hj hq hwindow hle useAlibi
  · intro seqId p0 p1 result hrm
    constructor
    · intro hfalse
      rcases Cache.seqRm_cases hrm with rfl | ⟨_, rfl⟩ | ⟨head, base, _, rfl⟩
      · rfl
      · cases hfalse
      · cases hfalse
    · intro _ pos hpos
      exact (hmapped.seqRm hrm).holds pos hpos

/-- A window of 512 positions and a micro-batch of as many take 1024 rows. -/
def aligned : SwaParams where
  window := 512
  sinkRows := 0
  nUbatch := 512
  kvSize := 4096
  flashAttn := true
  window_pos := by decide
  nUbatch_pos := by decide
  compacted := by decide

theorem compacted_run_oneToken : ∃ tr s,
    Steps (RowStep aligned (.positionMajor 1)) ⟨aligned.start 1 false false, fun _ => 0⟩ tr s ∧
      s.cache.Filled aligned 1 ∧ s.mem 0 = 7 := by
  have hsuff : aligned.Sufficient := by decide
  have hstart := Cache.filled_start aligned 1 false false
  obtain ⟨after, hstep, hfilled⟩ := hstart.decode hsuff.1 (by decide) (by decide)
  let data : ℕ → ℕ → ℕ := fun _ _ => 7
  let first : RowState ℕ := ⟨aligned.start 1 false false, fun _ => 0⟩
  let s : RowState ℕ := ⟨after, (SwaOp.decode 1).memory aligned (.positionMajor 1) first data⟩
  have hrun : Steps (RowStep aligned (.positionMajor 1)) first
      [(SwaOp.decode 1).batch first.cache data] s := .single ⟨.decode 1, data, hstep, rfl, rfl⟩
  have hbase : s.cache.posBaseSwa = 0 := hfilled.base
  have hlive : s.cache.liveSwa = 1 := hfilled.liveSwa
  have hrows : (RowLayout.positionMajor 1).HasRows aligned.sizeSwa := trivial
  have hlt : 0 < s.cache.posBaseSwa + s.cache.liveSwa := by
    rw [hbase, hlive]
    decide
  obtain ⟨row, hlast, hrow⟩ := (compacted_run hsuff hrows hrun).1 0 hbase.le hlt
  have hplaced : (SwaOp.decode 1).batch first.cache data = some ⟨0, 1, data⟩ := by
    rw [SwaOp.batch, hstart.placeBatch (by decide), hstart.curEnd]
    rfl
  rw [hplaced] at hlast
  obtain rfl : data 0 = row := some.inj hlast
  refine ⟨_, s, hrun, hfilled, ?_⟩
  have hzero := hrow 0 one_pos
  rw [hbase, hfilled.sink] at hzero
  exact hzero

end Runs

end ExpertPin.Kv
