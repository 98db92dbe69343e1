import ExpertPin.Kv.Bookkeeping
import ExpertPin.Kv.Span
import ExpertPin.Lib.Rounding

/-!
# The compacted sliding window

With `--swa-compress` the layers of a sliding-window model keep only the last positions of
the one sequence, in the rows `[sink_rows, head_swa)`; row `sink_rows + pos - pos_base_swa`
is the row of position `pos`.  When a batch does not fit, the last `window_swa` rows move
to the front.

The rows are allocated for sinks, window and slack rounded up as one sum, but the capacity
is what is left of them beyond the sinks, rounded down.  The rows suffice for every run
exactly when that capacity holds the window and one micro-batch (`alwaysFits_iff`).
-/

namespace ExpertPin.Kv

open Rounding Runs
open Option
open Nat

/-- Subtraction on `uint32_t`. -/
def sub32 (a b : ℕ) : ℕ := (a + (2 ^ 32 - b)) % 2 ^ 32

/-- `llama_swa_compact_rows` -/
def swaCompactRows (window pad nUbatch sinkRows : ℕ) : ℕ :=
  let slack := if 256 < nUbatch then nUbatch else 256
  let unpadded := (sinkRows + window + slack) % 2 ^ 32
  if 1 < pad then (unpadded + pad - 1) % 2 ^ 32 / pad * pad else unpadded

/-- The parameters of a compacted cache: its rows are fewer than its cells. -/
structure SwaParams where
  window : ℕ
  sinkRows : ℕ
  nUbatch : ℕ
  kvSize : ℕ
  flashAttn : Bool
  window_pos : 0 < window
  nUbatch_pos : 0 < nUbatch
  compacted : swaCompactRows window (getPadding flashAttn) nUbatch sinkRows < kvSize

namespace SwaParams

def pad (p : SwaParams) : ℕ := getPadding p.flashAttn

/-- `size_swa` -/
def sizeSwa (p : SwaParams) : ℕ := swaCompactRows p.window p.pad p.nUbatch p.sinkRows

/-- `C` in `llama_kv_cache_compact_swa` -/
def capacity (p : SwaParams) : ℕ :=
  if 1 < p.pad then sub32 p.sizeSwa p.sinkRows / p.pad * p.pad else sub32 p.sizeSwa p.sinkRows

/-- The capacity holds the window and a micro-batch, or all positions there are. -/
def Sufficient (p : SwaParams) : Prop :=
  p.sinkRows ≤ p.sizeSwa ∧ (p.window + p.nUbatch ≤ p.capacity ∨ 2 ^ 31 ≤ p.capacity)

instance (p : SwaParams) : Decidable p.Sufficient := inferInstanceAs (Decidable (_ ∧ _))

end SwaParams

/-- The part of the rows that the graph looks at. -/
structure SwaWindowView where
  winOff : ℕ
  wView : ℕ
deriving DecidableEq, Repr

/-- `llama_swa_calc_window_view_compact` -/
def swaCalcWindowViewCompact (live sinkRows nTokens window pad : ℕ) : SwaWindowView :=
  let livePadded := if 1 < pad then roundUp live pad else live
  let unpadded := window + pad + nTokens
  let overcovered := if 1 < pad then roundUp unpadded pad else unpadded
  let wView := if overcovered < livePadded then overcovered else livePadded
  ⟨sinkRows + livePadded - wView, wView⟩

namespace Cache

/-- The end of the compacted window, `cur_end`: the next position of the sequence. -/
def curEnd (cache : Cache) : ℤ := cache.posBaseSwa + cache.liveSwa

/-- `llama_kv_cache_compact_swa`, as far as the cells go. -/
def compactSwa (cache : Cache) (p : SwaParams) (nTokens : ℕ) : Option Cache :=
  if ¬cache.anyCompacted then some cache
  else if nTokens ≤ p.capacity then
    if (cache.liveSwa + nTokens) % 2 ^ 32 ≤ p.capacity then some cache
    else if cache.windowSwa ≤ cache.liveSwa then
      some { cache with
        posBaseSwa := cache.posBaseSwa + (cache.liveSwa - cache.windowSwa : ℕ)
        headSwa := cache.sinkRows + cache.windowSwa }
    else none
  else none

/-- A micro-batch of the sequence at the next position. -/
def nextTokens (cache : Cache) (nTokens : ℕ) : List Token :=
  (List.range nTokens).map fun j : ℕ => ⟨cache.curEnd + j, [0]⟩

/-- The search for cells in `llama_decode_internal`.  The update before it has no deferred
work: a compacted cache refuses shifts and defragmentation. -/
def placeBatch (cache : Cache) (batch : List Token) : Cache × Bool :=
  (if cache.used + 2 * batch.length < cache.head then { cache with head := 0 }
    else cache).findSlot batch

/-- The update of the ring buffer after the graph has run. -/
def advance (cache : Cache) (p : SwaParams) (nTokens : ℕ) : Option Cache :=
  let headSwa := if cache.anyCompacted then (cache.headSwa + nTokens) % 2 ^ 32 else cache.headSwa
  if cache.anyCompacted ∧ p.sizeSwa < headSwa then none
  else some { cache with
    headSwa := headSwa
    head := if cache.size ≤ cache.head + nTokens then 0 else cache.head + nTokens }

/-- One micro-batch of `llama_decode_internal`.  Where no cells are found it returns 1. -/
def decode (cache : Cache) (p : SwaParams) (nTokens : ℕ) : Option Cache :=
  let placed := cache.placeBatch (cache.nextTokens nTokens)
  if placed.2 then (placed.1.compactSwa p nTokens).bind fun after => after.advance p nTokens
  else some placed.1

end Cache

/-- A call on a compacted cache. -/
inductive SwaOp
  | decode (nTokens : ℕ)
  | compact (nTokens : ℕ)
  | seqRm (seqId p0 p1 : ℤ)
deriving DecidableEq, Repr

namespace SwaOp

/-- A micro-batch has its size, and its positions are of type `llama_pos`. -/
def Valid (p : SwaParams) (cache : Cache) : SwaOp → Prop
  | .decode nTokens => 0 < nTokens ∧ nTokens ≤ p.nUbatch ∧ cache.curEnd + nTokens < 2 ^ 31
  | _ => True

def run (p : SwaParams) (cache : Cache) : SwaOp → Option Cache
  | .decode nTokens => cache.decode p nTokens
  | .compact nTokens => cache.compactSwa p nTokens
  | .seqRm seqId p0 p1 => (cache.seqRm seqId p0 p1).map Prod.fst

end SwaOp

def SwaStep (p : SwaParams) (cache : Cache) (op : SwaOp) (cache' : Cache) : Prop :=
  op.Valid p cache ∧ op.run p cache = some cache'

/-- A compacted cache that has just been cleared.  Its model is not hybrid. -/
def SwaParams.start (p : SwaParams) (nSeqMax : ℕ) (hasState strict : Bool) : Cache :=
  (Cache.init p.kvSize nSeqMax hasState false strict true (p.sinkRows, p.window)).clear

/-! ## Sizes -/

namespace SwaParams

variable (p : SwaParams)

theorem pad_pos : 1 < p.pad := by
  rw [pad, getPadding]
  split <;> decide

theorem two_dvd_pad : 2 ∣ p.pad := by
  rw [pad, getPadding]
  split <;> decide

theorem sizeSwa_lt : p.sizeSwa < 2 ^ 32 := by
  rw [sizeSwa, swaCompactRows, if_pos p.pad_pos]
  exact (div_mul_le_self _ _).trans_lt (mod_lt _ (by decide))

theorem sizeSwa_lt_kvSize : p.sizeSwa < p.kvSize := p.compacted

theorem pad_dvd_capacity : p.pad ∣ p.capacity := by
  rw [capacity, if_pos p.pad_pos]
  exact Nat.dvd_mul_left _ _

theorem capacity_eq (h : p.sinkRows ≤ p.sizeSwa) :
    p.capacity = (p.sizeSwa - p.sinkRows) / p.pad * p.pad := by
  have hlt := p.sizeSwa_lt
  have hsub : sub32 p.sizeSwa p.sinkRows = p.sizeSwa - p.sinkRows := by
    rw [sub32]
    omega
  rw [capacity, if_pos p.pad_pos, hsub]

theorem capacity_le (h : p.sinkRows ≤ p.sizeSwa) : p.sinkRows + p.capacity ≤ p.sizeSwa := by
  have hle : p.capacity ≤ p.sizeSwa - p.sinkRows := by
    rw [p.capacity_eq h]
    exact Nat.div_mul_le_self _ _
  exact Nat.add_le_of_le_sub' h hle

end SwaParams

/-- The view ends where the padded window ends. -/
theorem winOff_add_wView (live sinkRows nTokens window : ℕ) {pad : ℕ} (hpad : 1 < pad) :
    (swaCalcWindowViewCompact live sinkRows nTokens window pad).winOff +
      (swaCalcWindowViewCompact live sinkRows nTokens window pad).wView =
      sinkRows + roundUp live pad := by
  have hview : (swaCalcWindowViewCompact live sinkRows nTokens window pad).wView ≤
      roundUp live pad := by
    rw [swaCalcWindowViewCompact]
    dsimp only
    rw [if_pos hpad, if_pos hpad]
    split
    case isTrue h => exact h.le
    case isFalse => exact Nat.le_refl _
  have hoff : (swaCalcWindowViewCompact live sinkRows nTokens window pad).winOff =
      sinkRows + roundUp live pad -
        (swaCalcWindowViewCompact live sinkRows nTokens window pad).wView := by
    rw [swaCalcWindowViewCompact]
    dsimp only
    rw [if_pos hpad]
  rw [hoff, Nat.sub_add_cancel (Nat.le_add_left_of_le hview)]

/-! ## The map -/

namespace Cache

variable {p : SwaParams} {cache after : Cache} {nTokens : ℕ}

/-- The compacted rows are mapped as before. -/
structure SameMap (cache after : Cache) : Prop where
  size : after.size = cache.size
  any : after.anyCompacted = cache.anyCompacted
  sinkRows : after.sinkRows = cache.sinkRows
  windowSwa : after.windowSwa = cache.windowSwa
  headSwa : after.headSwa = cache.headSwa
  posBaseSwa : after.posBaseSwa = cache.posBaseSwa

theorem SameMap.refl (cache : Cache) : cache.SameMap cache := ⟨rfl, rfl, rfl, rfl, rfl, rfl⟩

theorem SameMap.trans {final : Cache} (h : cache.SameMap after) (h' : after.SameMap final) :
    cache.SameMap final where
  size := h'.size.trans h.size
  any := h'.any.trans h.any
  sinkRows := h'.sinkRows.trans h.sinkRows
  windowSwa := h'.windowSwa.trans h.windowSwa
  headSwa := h'.headSwa.trans h.headSwa
  posBaseSwa := h'.posBaseSwa.trans h.posBaseSwa

theorem SameMap.liveSwa (h : cache.SameMap after) : after.liveSwa = cache.liveSwa := by
  rw [Cache.liveSwa, Cache.liveSwa, h.headSwa, h.sinkRows]

theorem SameMap.curEnd (h : cache.SameMap after) : after.curEnd = cache.curEnd := by
  rw [Cache.curEnd, Cache.curEnd, h.posBaseSwa, h.liveSwa]

theorem sameMap_findSlot (cache : Cache) (batch : List Token) :
    cache.SameMap (cache.findSlot batch).1 := by
  rw [Cache.findSlot]
  split
  case isTrue =>
    dsimp only
    split <;> exact ⟨rfl, rfl, rfl, rfl, rfl, rfl⟩
  case isFalse => exact .refl cache

theorem sameMap_placeBatch (cache : Cache) (batch : List Token) :
    cache.SameMap (cache.placeBatch batch).1 := by
  rw [Cache.placeBatch]
  split
  case isTrue =>
    have hhead : cache.SameMap { cache with head := 0 } := ⟨rfl, rfl, rfl, rfl, rfl, rfl⟩
    exact hhead.trans (sameMap_findSlot _ batch)
  case isFalse => exact sameMap_findSlot cache batch

theorem sameMap_seqRmCell (seqId p0 p1 : ℤ) (s : Sweep) (i : ℕ) :
    s.cache.SameMap (seqRmCell seqId p0 p1 s i).cache := by
  rw [seqRmCell]
  split
  case isTrue =>
    split
    case isTrue => exact .refl _
    case isFalse =>
      generalize (if seqId < 0 then ∅ else (s.cache.cells i).seqId.erase seqId) = ids
      by_cases hnone : ids = ∅
      · rw [if_pos hnone]
        exact ⟨rfl, rfl, rfl, rfl, rfl, rfl⟩
      · rw [if_neg hnone]
        exact ⟨rfl, rfl, rfl, rfl, rfl, rfl⟩
  case isFalse => exact .refl _

/-- The cells after the loop of `llama_kv_cache_seq_rm`. -/
def sweepRm (cache : Cache) (seqId p0 p1 : ℤ) : Cache :=
  ((List.range cache.size).foldl (seqRmCell seqId p0 p1) ⟨cache, cache.size⟩).lowerHead

theorem sameMap_sweepRm (cache : Cache) (seqId p0 p1 : ℤ) :
    cache.SameMap (cache.sweepRm seqId p0 p1) := by
  have hloop : cache.SameMap
      ((List.range cache.size).foldl (seqRmCell seqId p0 p1) ⟨cache, cache.size⟩).cache :=
    List.foldlRecOn (motive := fun s => cache.SameMap s.cache) _ (seqRmCell seqId p0 p1)
      (.refl cache) fun s hs i _ => hs.trans (sameMap_seqRmCell seqId p0 p1 s i)
  rw [sweepRm, Sweep.lowerHead]
  split
  case isTrue =>
    exact ⟨hloop.size, hloop.any, hloop.sinkRows, hloop.windowSwa, hloop.headSwa, hloop.posBaseSwa⟩
  case isFalse => exact hloop

/-- The plan to move the end of the window. -/
theorem compactPlan_apply {seqId p0 p1 : ℤ} {head : ℕ} {base : ℤ}
    (h : cache.compactPlan seqId p0 p1 = .apply head base) :
    seqId ≤ 0 ∧ rangeStart p0 < cache.curEnd ∧ cache.curEnd ≤ rangeEnd p1 ∧
      (rangeStart p0 = 0 ∧ head = cache.sinkRows ∧ base = 0 ∨
        (cache.posBaseSwa = 0 ∨ cache.posBaseSwa + cache.windowSwa ≤ rangeStart p0) ∧
          head = cache.sinkRows + (rangeStart p0 - cache.posBaseSwa).toNat ∧
          base = cache.posBaseSwa) := by
  rw [compactPlan] at h
  split at h
  case isFalse => cases h
  case isTrue hall =>
    split at h
    case isFalse => cases h
    case isTrue =>
      split at h
      case isFalse => cases h
      case isTrue hmeets =>
        split at h
        case isTrue => cases h
        case isFalse hend =>
          refine ⟨hall.2.1, hmeets.1, Int.not_lt.mp hend, ?_⟩
          split at h
          case isTrue hzero =>
            cases h
            exact .inl ⟨hzero, rfl, rfl⟩
          case isFalse =>
            split at h
            case isTrue hkept =>
              cases h
              exact .inr ⟨hkept, rfl, rfl⟩
            case isFalse => cases h

/-- The plan to leave the window alone: no position of it is removed. -/
theorem compactPlan_keep {seqId p0 p1 : ℤ} (hany : cache.anyCompacted = true)
    (h : cache.compactPlan seqId p0 p1 = .keep) :
    0 < seqId ∨ rangeEnd p1 ≤ rangeStart p0 ∨ cache.curEnd ≤ rangeStart p0 ∨
      rangeEnd p1 ≤ cache.posBaseSwa := by
  rw [compactPlan] at h
  split at h
  case isFalse hnot =>
    by_contra hno
    simp only [not_or, Int.not_lt, Int.not_le] at hno
    exact hnot ⟨hany, hno.1, hno.2.1⟩
  case isTrue =>
    split at h
    case isFalse => cases h
    case isTrue =>
      split at h
      case isFalse hapart =>
        rcases not_and_or.mp hapart with hlt | hlt
        · exact .inr (.inr (.inl (Int.not_lt.mp hlt)))
        · exact .inr (.inr (.inr (Int.not_lt.mp hlt)))
      case isTrue =>
        split at h
        case isTrue => cases h
        case isFalse =>
          split at h
          case isTrue => cases h
          case isFalse =>
            split at h
            case isTrue => cases h
            case isFalse => cases h

/-- The three ways in which `llama_kv_cache_seq_rm` returns. -/
theorem seqRm_cases {seqId p0 p1 : ℤ} {result : Cache × Bool}
    (h : cache.seqRm seqId p0 p1 = some result) :
    result = (cache, false) ∨
      cache.compactPlan seqId p0 p1 = .keep ∧ result = (cache.sweepRm seqId p0 p1, true) ∨
      ∃ head base, cache.compactPlan seqId p0 p1 = .apply head base ∧ result =
          ({ cache.sweepRm seqId p0 p1 with headSwa := head, posBaseSwa := base }, true) := by
  rw [seqRm] at h
  split at h
  case h_1 => cases h
  case h_2 => exact .inl (some.inj h).symm
  case h_3 hplan => exact .inr (.inl ⟨hplan, (some.inj h).symm⟩)
  case h_4 head base hplan => exact .inr (.inr ⟨head, base, hplan, (some.inj h).symm⟩)

end Cache

/-! ## The window is retained -/

namespace Cache

variable {p : SwaParams} {cache after : Cache} {nTokens : ℕ}

/-- The compacted rows hold the last positions, and the window of them unless they hold all. -/
structure Windowed (p : SwaParams) (cache : Cache) : Prop where
  any : cache.anyCompacted = true
  sink : cache.sinkRows = p.sinkRows
  window : cache.windowSwa = p.window
  size : cache.size = p.kvSize
  sinkLe : p.sinkRows ≤ cache.headSwa
  base : 0 ≤ cache.posBaseSwa
  retained : cache.posBaseSwa ≠ 0 → p.window ≤ cache.liveSwa
  live : cache.liveSwa ≤ p.capacity
  curEnd : cache.curEnd < 2 ^ 31

theorem Windowed.of_sameMap (h : cache.Windowed p) (hsame : cache.SameMap after) :
    after.Windowed p where
  any := hsame.any.trans h.any
  sink := hsame.sinkRows.trans h.sink
  window := hsame.windowSwa.trans h.window
  size := hsame.size.trans h.size
  sinkLe := hsame.headSwa ▸ h.sinkLe
  base := hsame.posBaseSwa ▸ h.base
  retained := by
    rw [hsame.posBaseSwa, hsame.liveSwa]
    exact h.retained
  live := hsame.liveSwa ▸ h.live
  curEnd := hsame.curEnd ▸ h.curEnd

theorem windowed_start (p : SwaParams) (nSeqMax : ℕ) (hasState strict : Bool) :
    (p.start nSeqMax hasState strict).Windowed p where
  any := rfl
  sink := rfl
  window := rfl
  size := rfl
  sinkLe := Nat.le_refl _
  base := Int.le_refl 0
  retained := fun h => absurd rfl h
  live := (Nat.sub_self p.sinkRows).trans_le (Nat.zero_le _)
  curEnd := by
    show (0 : ℤ) + (p.sinkRows - p.sinkRows : ℕ) < 2 ^ 31
    rw [Nat.sub_self]
    decide

/-- The map with another base and as many live rows. -/
def remap (cache : Cache) (base : ℤ) (live : ℕ) : Cache :=
  { cache with headSwa := cache.sinkRows + live, posBaseSwa := base }

theorem liveSwa_remap (cache : Cache) (base : ℤ) (live : ℕ) :
    (cache.remap base live).liveSwa = live := Nat.add_sub_cancel_left _ _

theorem curEnd_remap (cache : Cache) (base : ℤ) (live : ℕ) :
    (cache.remap base live).curEnd = base + live := by
  rw [Cache.curEnd, liveSwa_remap]
  rfl

theorem Windowed.remap (h : cache.Windowed p) {base : ℤ} {live : ℕ} (hbase : 0 ≤ base)
    (hretained : base ≠ 0 → p.window ≤ live) (hlive : live ≤ p.capacity)
    (hend : base + live < 2 ^ 31) : (cache.remap base live).Windowed p where
  any := h.any
  sink := h.sink
  window := h.window
  size := h.size
  sinkLe := h.sink ▸ le_add_right _ _
  base := hbase
  retained := by
    rw [liveSwa_remap]
    exact hretained
  live := by
    rw [liveSwa_remap]
    exact hlive
  curEnd := by
    rw [curEnd_remap]
    exact hend

/-- The window has moved to the front. -/
def front (cache : Cache) : Cache :=
  cache.remap (cache.posBaseSwa + (cache.liveSwa - cache.windowSwa : ℕ)) cache.windowSwa

theorem curEnd_front (h : cache.windowSwa ≤ cache.liveSwa) : cache.front.curEnd = cache.curEnd := by
  rw [Cache.front, curEnd_remap, Cache.curEnd]
  omega

theorem compactSwa_cases (hany : cache.anyCompacted = true)
    (h : cache.compactSwa p nTokens = some after) :
    after = cache ∧ (cache.liveSwa + nTokens) % 2 ^ 32 ≤ p.capacity ∨
      after = cache.front ∧ cache.windowSwa ≤ cache.liveSwa ∧
        ¬(cache.liveSwa + nTokens) % 2 ^ 32 ≤ p.capacity := by
  rw [compactSwa, if_neg (not_not_intro hany)] at h
  split at h
  case isFalse => cases h
  case isTrue =>
    split at h
    case isTrue hfits => exact .inl ⟨(some.inj h).symm, hfits⟩
    case isFalse hfull =>
      split at h
      case isTrue hwindow => exact .inr ⟨(some.inj h).symm, hwindow, hfull⟩
      case isFalse => cases h

theorem Windowed.front (h : cache.Windowed p) (hwindow : cache.windowSwa ≤ cache.liveSwa) :
    cache.front.Windowed p := by
  have hend := h.curEnd
  rw [← curEnd_front hwindow, Cache.front, curEnd_remap] at hend
  refine h.remap ?_ (fun _ => h.window.ge) (hwindow.trans h.live) hend
  exact Int.add_nonneg h.base (Int.natCast_nonneg _)

theorem Windowed.compactSwa (h : cache.Windowed p)
    (hcompact : cache.compactSwa p nTokens = some after) :
    after.Windowed p ∧ after.curEnd = cache.curEnd := by
  rcases compactSwa_cases h.any hcompact with ⟨rfl, _⟩ | ⟨rfl, hwindow, _⟩
  · exact ⟨h, rfl⟩
  · exact ⟨h.front hwindow, curEnd_front hwindow⟩

/-- With the capacity the compaction makes room. -/
theorem Windowed.exists_compactSwa (h : cache.Windowed p) (hsuff : p.Sufficient)
    (hubatch : nTokens ≤ p.nUbatch) (hend : cache.curEnd + nTokens < 2 ^ 31) :
    ∃ after, cache.compactSwa p nTokens = some after ∧ after.liveSwa + nTokens ≤ p.capacity := by
  have hbase := h.base
  have hsmall : cache.liveSwa + nTokens < 2 ^ 31 := by
    rw [Cache.curEnd] at hend
    omega
  have hmod : (cache.liveSwa + nTokens) % 2 ^ 32 = cache.liveSwa + nTokens :=
    Nat.mod_eq_of_lt (hsmall.trans (by decide))
  have htokens : nTokens ≤ p.capacity := by
    rcases hsuff.2 with hle | hle <;> omega
  rw [Cache.compactSwa, if_neg (not_not_intro h.any), if_pos htokens, hmod]
  by_cases hfits : cache.liveSwa + nTokens ≤ p.capacity
  · exact ⟨cache, if_pos hfits, hfits⟩
  · have hle : p.window + p.nUbatch ≤ p.capacity := by
      rcases hsuff.2 with hle | hle
      · exact hle
      · omega
    have hwindow : cache.windowSwa ≤ cache.liveSwa := by
      rw [h.window]
      omega
    rw [if_neg hfits, if_pos hwindow]
    refine ⟨cache.front, rfl, ?_⟩
    rw [Cache.front, liveSwa_remap, h.window]
    exact (Nat.add_le_add_left hubatch _).trans hle

theorem Windowed.headSwa_eq (h : cache.Windowed p) :
    cache.headSwa = p.sinkRows + cache.liveSwa := by
  rw [Cache.liveSwa, h.sink, Nat.add_sub_cancel' h.sinkLe]

/-- The window has grown. -/
def grown (cache : Cache) (nTokens : ℕ) : Cache :=
  { cache with
    headSwa := cache.headSwa + nTokens
    head := if cache.size ≤ cache.head + nTokens then 0 else cache.head + nTokens }

/-- The window grows by a micro-batch that fits. -/
theorem Windowed.advance (h : cache.Windowed p) (hsuff : p.Sufficient)
    (hroom : cache.liveSwa + nTokens ≤ p.capacity) (hend : cache.curEnd + nTokens < 2 ^ 31) :
    cache.advance p nTokens = some (cache.grown nTokens) ∧ (cache.grown nTokens).Windowed p := by
  have hsize := p.capacity_le hsuff.1
  have hle : cache.headSwa + nTokens ≤ p.sizeSwa := by
    rw [h.headSwa_eq]
    omega
  have hmod : (cache.headSwa + nTokens) % 2 ^ 32 = cache.headSwa + nTokens :=
    mod_eq_of_lt (hle.trans_lt p.sizeSwa_lt)
  constructor
  · rw [Cache.advance, if_pos h.any, hmod, if_neg fun hlt => absurd hlt.2 (not_lt.mpr hle)]
    rfl
  · have hhead : cache.SameMap { cache with
        head := if cache.size ≤ cache.head + nTokens then 0 else cache.head + nTokens } :=
      ⟨rfl, rfl, rfl, rfl, rfl, rfl⟩
    have hgrown := (h.of_sameMap hhead).remap h.base
      (fun hbase => (h.retained hbase).trans (le_add_right _ nTokens)) hroom (by
        rw [Int.natCast_add, ← Int.add_assoc]
        exact hend)
    rw [Cache.remap] at hgrown
    rw [Cache.grown, h.headSwa_eq, add_assoc, ← h.sink]
    exact hgrown

theorem Windowed.curEnd_grown (h : cache.Windowed p) (nTokens : ℕ) :
    (cache.grown nTokens).curEnd = cache.curEnd + nTokens := by
  have hlive : (cache.grown nTokens).liveSwa = cache.liveSwa + nTokens :=
    Nat.sub_add_comm (h.sink ▸ h.sinkLe)
  rw [Cache.curEnd, Cache.curEnd, hlive, Int.natCast_add, ← Int.add_assoc]
  rfl

theorem Windowed.seqRm (h : cache.Windowed p) {seqId p0 p1 : ℤ} {result : Cache × Bool}
    (hrm : cache.seqRm seqId p0 p1 = some result) : result.1.Windowed p := by
  have hsame := cache.sameMap_sweepRm seqId p0 p1
  have hsweep := h.of_sameMap hsame
  rcases seqRm_cases hrm with rfl | ⟨_, rfl⟩ | ⟨head, base, hplan, rfl⟩
  · exact h
  · exact hsweep
  · obtain ⟨_, hstart, _, hcase⟩ := compactPlan_apply hplan
    rw [← hsame.sinkRows] at hcase
    rcases hcase with ⟨_, rfl, rfl⟩ | ⟨hkept, rfl, rfl⟩
    · exact hsweep.remap (Int.le_refl 0) (fun hne => absurd rfl hne) (zero_le _) (by decide)
    · have hzero := rangeStart_nonneg p0
      have hend := h.curEnd
      have hbase := h.base
      have hwindow := h.window
      have hcapacity := h.live
      rw [Cache.curEnd] at hstart hend
      have hpos : cache.posBaseSwa ≤ rangeStart p0 := by
        rcases hkept with heq | hle <;> omega
      apply hsweep.remap h.base
      · intro hne
        have hle := hkept.resolve_left hne
        omega
      · omega
      · omega

theorem Windowed.placeBatch (h : cache.Windowed p) (nTokens : ℕ) :
    (cache.placeBatch (cache.nextTokens nTokens)).1.Windowed p ∧
      (cache.placeBatch (cache.nextTokens nTokens)).1.curEnd = cache.curEnd :=
  ⟨h.of_sameMap (sameMap_placeBatch _ _), (sameMap_placeBatch _ _).curEnd⟩

/-- A step keeps the window. -/
theorem Windowed.step (h : cache.Windowed p) (hsuff : p.Sufficient) {op : SwaOp}
    (hstep : SwaStep p cache op after) : after.Windowed p := by
  obtain ⟨hvalid, hrun⟩ := hstep
  cases op with
  | decode nTokens =>
    obtain ⟨_, hubatch, hend⟩ := hvalid
    obtain ⟨hplaced, hsame⟩ := h.placeBatch nTokens
    rw [SwaOp.run, Cache.decode] at hrun
    split at hrun
    case isFalse =>
      obtain rfl := some.inj hrun
      exact hplaced
    case isTrue =>
      rw [← hsame] at hend
      obtain ⟨compacted, hcompact, hroom⟩ := hplaced.exists_compactSwa hsuff hubatch hend
      obtain ⟨hwindowed, hsame'⟩ := hplaced.compactSwa hcompact
      obtain ⟨hadvance, hgrown⟩ := hwindowed.advance hsuff hroom (hsame' ▸ hend)
      rw [hcompact, bind_some, hadvance] at hrun
      obtain rfl := some.inj hrun
      exact hgrown
  | compact nTokens => exact (h.compactSwa hrun).1
  | seqRm seqId p0 p1 =>
    obtain ⟨result, hrm, rfl⟩ := map_eq_some_iff.mp hrun
    exact h.seqRm hrm

/-! ## Capacity -/

/-- After the compaction the window and the tokens are within the capacity, the rows of the
tokens are allocated, and so is the view of the graph. -/
def Fits (p : SwaParams) (cache : Cache) (nTokens : ℕ) : Prop :=
  ∃ after, cache.compactSwa p nTokens = some after ∧
    after.liveSwa + nTokens ≤ p.capacity ∧ after.headSwa + nTokens ≤ p.sizeSwa ∧
    (swaCalcWindowViewCompact (after.liveSwa + nTokens) after.sinkRows nTokens after.windowSwa
        p.pad).winOff +
      (swaCalcWindowViewCompact (after.liveSwa + nTokens) after.sinkRows nTokens after.windowSwa
        p.pad).wView ≤ p.sizeSwa

theorem Windowed.fits (h : cache.Windowed p) (hsuff : p.Sufficient)
    (hubatch : nTokens ≤ p.nUbatch) (hend : cache.curEnd + nTokens < 2 ^ 31) :
    cache.Fits p nTokens := by
  obtain ⟨after, hcompact, hroom⟩ := h.exists_compactSwa hsuff hubatch hend
  have hwindowed := (h.compactSwa hcompact).1
  have hsize := p.capacity_le hsuff.1
  refine ⟨after, hcompact, hroom, ?_, ?_⟩
  · rw [hwindowed.headSwa_eq, Nat.add_assoc]
    exact (Nat.add_le_add_left hroom _).trans hsize
  · rw [winOff_add_wView _ _ _ _ p.pad_pos, hwindowed.sink]
    have hpadded := Rounding.roundUp_le (Nat.lt_of_succ_lt p.pad_pos) p.pad_dvd_capacity hroom
    exact (Nat.add_le_add_left hpadded _).trans hsize

/-- The first `k` positions are decoded, one after the other. -/
structure Filled (p : SwaParams) (k : ℕ) (cache : Cache) : Prop where
  any : cache.anyCompacted = true
  sink : cache.sinkRows = p.sinkRows
  window : cache.windowSwa = p.window
  size : cache.size = p.kvSize
  head : cache.head = k
  used : cache.used = k
  headSwa : cache.headSwa = p.sinkRows + k
  base : cache.posBaseSwa = 0
  free : ∀ i, k ≤ i → i < p.kvSize → (cache.cells i).pos = -1

variable {k : ℕ}

theorem filled_start (p : SwaParams) (nSeqMax : ℕ) (hasState strict : Bool) :
    (p.start nSeqMax hasState strict).Filled p 0 where
  any := rfl
  sink := rfl
  window := rfl
  size := rfl
  head := rfl
  used := rfl
  headSwa := rfl
  base := rfl
  free i _ hi := by
    show (if i < p.kvSize then _ else _ : Cell).pos = -1
    rw [if_pos hi]

theorem Filled.liveSwa (h : cache.Filled p k) : cache.liveSwa = k := by
  rw [Cache.liveSwa, h.headSwa, h.sink, Nat.add_sub_cancel_left]

theorem Filled.curEnd (h : cache.Filled p k) : cache.curEnd = k := by
  rw [Cache.curEnd, h.base, h.liveSwa, Int.zero_add]

theorem length_nextTokens (cache : Cache) (nTokens : ℕ) :
    (cache.nextTokens nTokens).length = nTokens := by
  rw [nextTokens, List.length_map, List.length_range]

/-- The cells after the filled ones are found at once. -/
theorem Filled.placeBatch (h : cache.Filled p k) (hroom : k + nTokens ≤ p.kvSize) :
    cache.placeBatch (cache.nextTokens nTokens) = ({ cache with
      cells := placeTokens cache.cells k (cache.nextTokens nTokens)
      used := k + nTokens }, true) := by
  have hlen : (cache.nextTokens nTokens).length ≤ cache.size := by
    rw [length_nextTokens, h.size]
    exact (Nat.le_add_left _ _).trans hroom
  have hsearch : ∀ {n : ℕ} (hn : n ≤ cache.size), k + n ≤ p.kvSize →
      slotSearch cache.cells hn cache.head 0 = (true, k) := by
    intro n hn hroom
    have hnone : (List.range n).find? (fun i => 0 ≤ (cache.cells (k + i)).pos) = none := by
      apply List.find?_eq_none.mpr
      intro i hi
      have hlt : k + i < p.kvSize :=
        (Nat.add_lt_add_left (List.mem_range.mp hi) k).trans_le hroom
      rw [h.free (k + i) (Nat.le_add_right k i) hlt]
      decide
    rw [← h.size] at hroom
    rw [slotSearch, h.head, if_neg (Nat.not_lt.mpr hroom), hnone]
  have hhead : ¬cache.used + 2 * (cache.nextTokens nTokens).length < cache.head := by
    rw [h.used, h.head]
    exact Nat.not_lt.mpr (Nat.le_add_right _ _)
  rw [Cache.placeBatch, if_neg hhead, findSlot, dif_pos hlen,
    hsearch hlen (by rwa [length_nextTokens]), h.used, length_nextTokens]
  dsimp only
  rw [if_pos rfl, ← h.head]

theorem placeTokens_of_ge {cells : ℕ → Cell} {tokens : List Token} {head i : ℕ}
    (h : head + tokens.length ≤ i) : placeTokens cells head tokens i = cells i := by
  induction tokens generalizing cells head with
  | nil => rfl
  | cons token tokens ih =>
    rw [List.length_cons] at h
    rw [placeTokens, ih (by omega)]
    exact Function.update_of_ne (by omega) _ _

theorem Filled.decode (h : cache.Filled p k) (hsink : p.sinkRows ≤ p.sizeSwa)
    (hk : k < p.capacity) (hend : k + 1 < 2 ^ 31) :
    ∃ after, SwaStep p cache (.decode 1) after ∧ after.Filled p (k + 1) := by
  have hcap := p.capacity_le hsink
  have hsize := p.sizeSwa_lt_kvSize
  have hkv : k + 1 < p.kvSize := by omega
  have hvalid : (SwaOp.decode 1).Valid p cache := by
    refine ⟨one_pos, p.nUbatch_pos, ?_⟩
    rw [h.curEnd]
    exact_mod_cast hend
  let placed : Cache := { cache with
    cells := placeTokens cache.cells k (cache.nextTokens 1)
    used := k + 1 }
  have hlive : placed.liveSwa = k := h.liveSwa
  have hcompact : placed.compactSwa p 1 = some placed := by
    have hmod : (k + 1) % 2 ^ 32 = k + 1 := mod_eq_of_lt (hend.trans (by decide))
    rw [Cache.compactSwa, if_neg (not_not_intro h.any), if_pos (one_le_of_lt hk), hlive, hmod]
    exact if_pos hk
  have hhead : (p.sinkRows + k + 1) % 2 ^ 32 = p.sinkRows + k + 1 := by
    have hlt := p.sizeSwa_lt
    exact mod_eq_of_lt (by omega)
  have hadvance : placed.advance p 1 =
      some { placed with headSwa := p.sinkRows + k + 1, head := k + 1 } := by
    have hany : placed.anyCompacted = true := h.any
    have hheadSwa : placed.headSwa = p.sinkRows + k := h.headSwa
    have hhead' : placed.head = k := h.head
    have hsize' : placed.size = p.kvSize := h.size
    rw [Cache.advance, if_pos hany, hheadSwa, hhead, hhead', hsize',
      if_neg (not_le.mpr hkv), if_neg fun hlt => absurd hlt.2 (by omega)]
  refine ⟨{ placed with headSwa := p.sinkRows + k + 1, head := k + 1 }, ⟨hvalid, ?_⟩,
    ⟨h.any, h.sink, h.window, h.size, rfl, rfl, rfl, h.base, ?_⟩⟩
  · show cache.decode p 1 = _
    rw [Cache.decode, h.placeBatch hkv.le]
    dsimp only
    rw [if_pos rfl, hcompact, bind_some, hadvance]
  · intro i hi hlt
    show (placeTokens cache.cells k (cache.nextTokens 1) i).pos = -1
    rw [placeTokens_of_ge (by rwa [length_nextTokens])]
    exact h.free i (le_of_succ_le hi) hlt

/-- Up to the capacity each number of positions is reached. -/
theorem exists_filled (nSeqMax : ℕ) (hasState strict : Bool) (hsink : p.sinkRows ≤ p.sizeSwa)
    (hk : k ≤ p.capacity) (hend : k < 2 ^ 31) :
    ∃ ops cache, Steps (SwaStep p) (p.start nSeqMax hasState strict) ops cache ∧
      cache.Filled p k := by
  induction k with
  | zero => exact ⟨[], _, .refl, filled_start p nSeqMax hasState strict⟩
  | succ k ih =>
    obtain ⟨ops, cache, hrun, hfilled⟩ := ih (le_of_succ_le hk) (lt_of_succ_lt hend)
    obtain ⟨after, hstep, hfilled'⟩ := hfilled.decode hsink hk hend
    exact ⟨_, after, hrun.snoc hstep, hfilled'⟩

/-- Every micro-batch of every run fits. -/
def AlwaysFits (p : SwaParams) (nSeqMax : ℕ) (hasState strict : Bool) : Prop :=
  ∀ ops cache, Steps (SwaStep p) (p.start nSeqMax hasState strict) ops cache →
    ∀ nTokens, (SwaOp.decode nTokens).Valid p cache →
      (cache.placeBatch (cache.nextTokens nTokens)).2 = true →
        (cache.placeBatch (cache.nextTokens nTokens)).1.Fits p nTokens

theorem alwaysFits_of_sufficient (hsuff : p.Sufficient) (nSeqMax : ℕ) (hasState strict : Bool) :
    AlwaysFits p nSeqMax hasState strict := by
  intro ops cache hrun nTokens hvalid _
  have hwindowed : cache.Windowed p :=
    hrun.invariant (P := Windowed p) (fun _ _ _ h hstep => h.step hsuff hstep)
      (windowed_start p nSeqMax hasState strict)
  obtain ⟨hplaced, hsame⟩ := hwindowed.placeBatch nTokens
  exact hplaced.fits hsuff hvalid.2.1 (hsame ▸ hvalid.2.2)

/-- A micro-batch after `k` positions fits, where all do. -/
theorem AlwaysFits.filled {nSeqMax : ℕ} {hasState strict : Bool}
    (h : AlwaysFits p nSeqMax hasState strict) {ops : List SwaOp}
    (hrun : Steps (SwaStep p) (p.start nSeqMax hasState strict) ops cache)
    (hfilled : cache.Filled p k) (hpos : 0 < nTokens) (hubatch : nTokens ≤ p.nUbatch)
    (hend : k + nTokens < 2 ^ 31) (hroom : k + nTokens ≤ p.kvSize) :
    ∃ placed : Cache, placed.Fits p nTokens ∧ placed.anyCompacted = true ∧
      placed.sinkRows = p.sinkRows ∧ placed.windowSwa = p.window ∧ placed.liveSwa = k := by
  have hvalid : (SwaOp.decode nTokens).Valid p cache := by
    refine ⟨hpos, hubatch, ?_⟩
    rw [hfilled.curEnd]
    exact_mod_cast hend
  have hfits := h ops cache hrun nTokens hvalid
  rw [hfilled.placeBatch hroom] at hfits
  exact ⟨_, hfits rfl, hfilled.any, hfilled.sink, hfilled.window, hfilled.liveSwa⟩

theorem sufficient_of_alwaysFits {nSeqMax : ℕ} {hasState strict : Bool}
    (h : AlwaysFits p nSeqMax hasState strict) : p.Sufficient := by
  have hsize := p.sizeSwa_lt_kvSize
  have hsink : p.sinkRows ≤ p.sizeSwa := by
    obtain ⟨placed, ⟨after, hcompact, _, _, hview⟩, hany, hsinkRows, _⟩ :=
      h.filled .refl (filled_start p nSeqMax hasState strict) Nat.one_pos p.nUbatch_pos
        (by decide) (by omega)
    have hafter : after.sinkRows = placed.sinkRows := by
      rcases compactSwa_cases hany hcompact with ⟨rfl, _⟩ | ⟨rfl, _⟩ <;> rfl
    rw [winOff_add_wView _ _ _ _ p.pad_pos, hafter, hsinkRows] at hview
    exact (Nat.le_add_right _ _).trans hview
  have hcap := p.capacity_le hsink
  refine ⟨hsink, ?_⟩
  by_contra hno
  obtain ⟨hless, hsmall⟩ := not_or.mp hno
  have hend : p.capacity + 1 < 2 ^ 31 := by
    obtain ⟨c, hc⟩ := Nat.dvd_trans p.two_dvd_pad p.pad_dvd_capacity
    omega
  rcases Nat.lt_or_ge p.capacity p.window with hshort | hlong
  · -- the capacity is full before the window is, and the next token cannot compact
    obtain ⟨ops, cache, hrun, hfilled⟩ :=
      exists_filled nSeqMax hasState strict hsink (Nat.le_refl _) (Nat.lt_of_succ_lt hend)
    obtain ⟨placed, ⟨after, hcompact, _⟩, hany, _, hwindow, hlive⟩ :=
      h.filled hrun hfilled Nat.one_pos p.nUbatch_pos hend (by omega)
    have hmod : (p.capacity + 1) % 2 ^ 32 = p.capacity + 1 :=
      Nat.mod_eq_of_lt (hend.trans (by decide))
    rcases compactSwa_cases hany hcompact with ⟨_, hfits⟩ | ⟨_, hretained, _⟩
    · rw [hlive, hmod] at hfits
      exact absurd hfits (Nat.not_succ_le_self _)
    · rw [hlive, hwindow] at hretained
      exact absurd hretained (Nat.not_le.mpr hshort)
  · -- a window of single tokens, and a micro-batch that makes it one too many
    obtain ⟨ops, cache, hrun, hfilled⟩ :=
      exists_filled nSeqMax hasState strict hsink hlong (by omega)
    have hubatch : p.capacity - p.window + 1 ≤ p.nUbatch := by omega
    obtain ⟨placed, ⟨after, hcompact, hroom, _⟩, hany, _, hwindow, hlive⟩ :=
      h.filled hrun hfilled (Nat.succ_pos _) hubatch (by omega) (by omega)
    have hafter : after.liveSwa = p.window := by
      rcases compactSwa_cases hany hcompact with ⟨rfl, _⟩ | ⟨rfl, _⟩
      · exact hlive
      · rw [Cache.front, liveSwa_remap, hwindow]
    omega

/-- 128 sinks and a padding of 256: of the 1280 rows 1024 are usable, 76 too few. -/
def unaligned : SwaParams where
  window := 844
  sinkRows := 128
  nUbatch := 256
  kvSize := 4096
  flashAttn := true
  window_pos := by decide
  nUbatch_pos := by decide
  compacted := by decide

end Cache

end ExpertPin.Kv
