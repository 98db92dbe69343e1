import ExpertPin.Qsa.Pool
import Mathlib.Data.List.GetD
import Mathlib.Order.Interval.Finset.Nat

/-!
# The pools match the cells

Unless they are marked as stale the pools of all full blocks are those of their cells
(`Fresh`).  A graph pools the blocks of its batch again, all of which fit into its window.
When the pools are stale, though, only the first ratio has all of its blocks pooled: the flag
is cleared before the next.  `served_run` says in which runs every ranked block has its pool.
-/

namespace ExpertPin.Qsa

open Kv Runs
open List
open Nat

variable {cells : ℕ → Cell} {r nKv b : ℕ}

/-! ## The scan -/

/-- The first position of a block, as far as `n` of its cells. -/
def firstPos (cells : ℕ → Cell) (r b n : ℕ) : ℤ :=
  (List.range n).foldl (fun p k => if (cells (b * r + k)).isEmpty then p
    else lowerPos p (cells (b * r + k)).pos) (-1)

theorem scanBlocks_succ (cells : ℕ → Cell) (r n : ℕ) :
    scanBlocks cells r (n + 1) = (scanBlocks cells r n).step cells r n := by
  rw [scanBlocks, range_succ, foldl_append]
  rfl

/-- The cells of a block that have been gone through. -/
theorem gone_succ (hr : 0 < r) (n b : ℕ) :
    (b = n / r ∧ min r (n - b * r) = n % r ∧ min r (n + 1 - b * r) = n % r + 1) ∨
      (b ≠ n / r ∧ min r (n + 1 - b * r) = min r (n - b * r)) := by
  have hmod := Nat.mod_lt n hr
  have hdiv := Nat.div_add_mod' n r
  rcases Nat.lt_trichotomy b (n / r) with hlt | rfl | hgt
  · have hle : (b + 1) * r ≤ n / r * r := Nat.mul_le_mul_right r hlt
    rw [Nat.succ_mul] at hle
    exact .inr ⟨Nat.ne_of_lt hlt, by omega⟩
  · exact .inl ⟨rfl, by omega, by omega⟩
  · have hle : (n / r + 1) * r ≤ b * r := Nat.mul_le_mul_right r hgt
    rw [Nat.succ_mul] at hle
    exact .inr ⟨Nat.ne_of_gt hgt, by omega⟩

/-- What the scan has of a block. -/
theorem scanBlocks_spec (cells : ℕ → Cell) (hr : 0 < r) (n b : ℕ) :
    (scanBlocks cells r n).filled b =
        Nat.count (fun k => ¬(cells (b * r + k)).isEmpty) (min r (n - b * r)) ∧
      (scanBlocks cells r n).blkPos b = firstPos cells r b (min r (n - b * r)) ∧
      ∀ j, j < n → ¬(cells j).isEmpty → (scanBlocks cells r n).blkCells j = j := by
  induction n with
  | zero =>
    rw [Nat.zero_sub, Nat.min_zero]
    exact ⟨rfl, rfl, fun _ hj => absurd hj (Nat.not_lt_zero _)⟩
  | succ n ih =>
    obtain ⟨hfilled, hpos, hcells⟩ := ih
    have hat : n / r * r + n % r = n := Nat.div_add_mod' n r
    rw [scanBlocks_succ, BlockScan.step]
    split
    case isTrue hempty =>
      refine ⟨?_, ?_, fun j hj huse => ?_⟩
      · rw [hfilled]
        rcases gone_succ hr n b with ⟨rfl, hold, hnew⟩ | ⟨_, hsame⟩
        · rw [hold, hnew, Nat.count_succ, hat, if_neg (not_not_intro hempty), Nat.add_zero]
        · rw [hsame]
      · rw [hpos]
        rcases gone_succ hr n b with ⟨rfl, hold, hnew⟩ | ⟨_, hsame⟩
        · rw [hold, hnew, firstPos, firstPos, range_succ, foldl_append,
            foldl_cons, foldl_nil, hat, if_pos hempty]
        · rw [hsame]
      · rcases Nat.lt_succ_iff_lt_or_eq.mp hj with hlt | rfl
        · exact hcells j hlt huse
        · exact absurd hempty huse
    case isFalse huse =>
      dsimp only
      refine ⟨?_, ?_, fun j hj hused => ?_⟩
      · rcases gone_succ hr n b with ⟨rfl, hold, hnew⟩ | ⟨hne, hsame⟩
        · rw [Function.update_self, hfilled, hold, hnew, Nat.count_succ, hat, if_pos huse]
        · rw [Function.update_of_ne hne, hfilled, hsame]
      · rcases gone_succ hr n b with ⟨rfl, hold, hnew⟩ | ⟨hne, hsame⟩
        · rw [Function.update_self, hpos, hold, hnew, firstPos, firstPos, range_succ,
            foldl_append, foldl_cons, foldl_nil, hat, if_neg huse]
        · rw [Function.update_of_ne hne, hpos, hsame]
      · rw [hat]
        rcases Nat.lt_succ_iff_lt_or_eq.mp hj with hlt | rfl
        · rw [Function.update_of_ne (Nat.ne_of_lt hlt)]
          exact hcells j hlt hused
        · exact Function.update_self ..

/-- All cells of the block are in use. -/
def Full (kv : Cache) (r b : ℕ) : Prop :=
  ∀ k, k < r → b * r + k < kv.size ∧ ¬(kv.cells (b * r + k)).isEmpty

variable {kv : Cache}

/-- A block that can be ranked is full. -/
theorem full_of_poolable (hr : 0 < r) (hle : nKv ≤ kv.size)
    (h : poolable kv.cells r nKv b) : Full kv r b ∧ b * r + r ≤ nKv := by
  have hcount := (scanBlocks_spec kv.cells hr nKv b).1.symm.trans h.1
  have hmin : min r (nKv - b * r) = r := by
    refine le_antisymm (min_le_left ..) ?_
    have hle := count_le (p := fun k => ¬(kv.cells (b * r + k)).isEmpty)
      (n := min r (nKv - b * r))
    rwa [hcount] at hle
  rw [hmin] at hcount
  have hroom : b * r + r ≤ nKv := by omega
  refine ⟨fun k hk => ⟨by omega, ?_⟩, hroom⟩
  exact count_iff_forall.mp hcount k hk

/-! ## The blocks of a batch -/

/-- What is collected of a list of blocks. -/
structure Collected (nBlocks nWin : ℕ) (acc bs res : List ℕ) : Prop where
  nodup : res.Nodup
  length : res.length ≤ nWin
  mem : ∀ b ∈ res, b ∈ acc ∨ b ∈ bs ∧ b < nBlocks
  acc : ∀ b ∈ acc, b ∈ res
  complete : res.length = nWin ∨ ∀ b ∈ bs, b < nBlocks → b ∈ res

theorem collected_touchedFrom (nBlocks : ℕ) {nWin : ℕ} (bs : List ℕ) {acc : List ℕ}
    (hacc : acc.Nodup) (hlen : acc.length < nWin) :
    Collected nBlocks nWin acc bs (touchedFrom nBlocks nWin acc bs) := by
  induction bs generalizing acc with
  | nil =>
    exact ⟨hacc, le_of_lt hlen, fun b hb => .inl hb, fun _ hb => hb,
      .inr fun _ hb => absurd hb not_mem_nil⟩
  | cons b bs ih =>
    rw [touchedFrom]
    split
    case isTrue hnew =>
      have hnodup : (acc ++ [b]).Nodup := by
        refine nodup_append.mpr ⟨hacc, nodup_singleton b, fun c hc d hd heq => ?_⟩
        rw [mem_singleton.mp hd] at heq
        exact hnew.2 (heq ▸ hc)
      have hin : ∀ c ∈ acc ++ [b], c ∈ acc ∨ c ∈ b :: bs ∧ c < nBlocks := by
        intro c hc
        refine (mem_append.mp hc).imp_right fun hc => ?_
        rw [mem_singleton.mp hc]
        exact ⟨mem_cons_self, hnew.1⟩
      split
      case isTrue hfull =>
        exact ⟨hnodup, le_of_eq hfull, hin, fun c hc => mem_append_left _ hc, .inl hfull⟩
      case isFalse hroom =>
        have hlt : (acc ++ [b]).length < nWin := by
          rw [length_append, length_singleton] at hroom ⊢
          omega
        have h := ih hnodup hlt
        refine ⟨h.nodup, h.length, fun c hc => ?_,
          fun c hc => h.acc c (mem_append_left _ hc),
          h.complete.imp_right fun hall c hc => ?_⟩
        · rcases h.mem c hc with hacc | hbs
          · exact hin c hacc
          · exact .inr ⟨mem_cons_of_mem _ hbs.1, hbs.2⟩
        · rcases mem_cons.mp hc with rfl | hc
          · exact fun _ => h.acc c (mem_append_right _ mem_cons_self)
          · exact hall c hc
    case isFalse hold =>
      have h := ih hacc hlen
      refine ⟨h.nodup, h.length, fun c hc => ?_, h.acc, h.complete.imp_right fun hall c hc => ?_⟩
      · exact (h.mem c hc).imp_right fun hbs => ⟨mem_cons_of_mem _ hbs.1, hbs.2⟩
      · rcases mem_cons.mp hc with rfl | hc
        · intro hlt
          by_contra hno
          exact hold ⟨hlt, fun hin => hno (h.acc c hin)⟩
        · exact hall c hc

/-- Where the blocks fit into the window all of them are collected. -/
theorem Collected.mem_of_card {nBlocks nWin : ℕ} {bs res : List ℕ}
    (h : Collected nBlocks nWin [] bs res)
    (hcard : (bs.filter (· < nBlocks)).toFinset.card ≤ nWin) (hb : b ∈ bs) (hlt : b < nBlocks) :
    b ∈ res := by
  rcases h.complete with hfull | hall
  · have hsub : res.toFinset ⊆ (bs.filter (· < nBlocks)).toFinset := by
      intro c hc
      rcases h.mem c (mem_toFinset.mp hc) with hno | hbs
      · exact absurd hno not_mem_nil
      · exact mem_toFinset.mpr (mem_filter.mpr ⟨hbs.1, decide_eq_true hbs.2⟩)
    have heq : res.toFinset = (bs.filter (· < nBlocks)).toFinset := by
      refine Finset.eq_of_subset_of_card_le hsub ?_
      rw [toFinset_card_of_nodup h.nodup, hfull]
      exact hcard
    have hin : b ∈ (bs.filter (· < nBlocks)).toFinset :=
      mem_toFinset.mpr (mem_filter.mpr ⟨hb, decide_eq_true hlt⟩)
    rw [← heq] at hin
    exact mem_toFinset.mp hin
  · exact hall b hb hlt

/-- Consecutive cells lie in few blocks. -/
theorem card_blocks (hr : 0 < r) (nKv head n : ℕ) :
    (((List.range n).map fun i => (head + i) / r).filter
      (· < blockCount nKv r)).toFinset.card ≤ windowSize false nKv n r := by
  rw [windowSize, if_neg Bool.false_ne_true]
  refine Nat.le_min.mpr ⟨?_, ?_⟩
  · calc
      _ ≤ (Finset.range (blockCount nKv r)).card := Finset.card_le_card fun c hc => by
        have hlt := (mem_filter.mp (mem_toFinset.mp hc)).2
        exact Finset.mem_range.mpr (of_decide_eq_true hlt)
      _ = blockCount nKv r := Finset.card_range _
  · calc
      _ ≤ (Finset.Ico (head / r) (head / r + ((n + r - 1) / r + 1))).card :=
        Finset.card_le_card fun c hc => by
          have hmem := (mem_filter.mp (mem_toFinset.mp hc)).1
          obtain ⟨i, hi, rfl⟩ := mem_map.mp hmem
          have hlt := mem_range.mp hi
          have hhead := Nat.lt_div_mul_add (a := head) hr
          have hcount := Nat.lt_div_mul_add (a := n + r - 1) hr
          refine Finset.mem_Ico.mpr ⟨Nat.div_le_div_right (Nat.le_add_right head i), ?_⟩
          rw [Nat.div_lt_iff_lt_mul hr, Nat.add_mul, Nat.add_mul]
          omega
      _ = (n + r - 1) / r + 1 := by rw [Nat.card_Ico, Nat.add_sub_cancel_left]

/-- An input of a graph for `nKv` cells and `n` tokens. -/
structure Fits (nKv n : ℕ) (q : QsaInput) : Prop where
  ratio : 0 < q.ratio
  cells : q.nKv = nKv
  tokens : q.nTokens = n
  window : windowSize false nKv n q.ratio ≤ q.nWin

theorem blockCount_pos (hr : 0 < r) (h : 0 < nKv) : 0 < blockCount nKv r :=
  div_pos (by omega) hr

variable {q : QsaInput}

theorem Fits.nWin_pos {n : ℕ} (h : Fits nKv n q) (hkv : 0 < nKv) : 0 < q.nWin := by
  refine Nat.lt_of_lt_of_le ?_ h.window
  rw [windowSize, if_neg Bool.false_ne_true]
  exact Nat.lt_min.mpr ⟨blockCount_pos h.ratio hkv, Nat.succ_pos _⟩

/-- The blocks touched by a batch fit into the window, and no other block is touched but the
first. -/
theorem Fits.touched {n : ℕ} (h : Fits nKv n q) (hkv : 0 < nKv) (head : ℕ) :
    (touched false q head n).length ≤ q.nWin ∧ touched false q head n ≠ [] ∧
      ∀ i, i < n → (head + i) / q.ratio < blockCount nKv q.ratio →
        (head + i) / q.ratio ∈ touched false q head n := by
  have hcollected := collected_touchedFrom (blockCount q.nKv q.ratio)
    ((range (min q.nTokens n)).map fun i => (head + i) / q.ratio) nodup_nil
    (h.nWin_pos hkv)
  have hall : ∀ i, i < n → (head + i) / q.ratio < blockCount nKv q.ratio →
      (head + i) / q.ratio ∈ touchedFrom (blockCount q.nKv q.ratio) q.nWin []
        ((range (min q.nTokens n)).map fun i => (head + i) / q.ratio) := by
    intro i hi hlt
    refine hcollected.mem_of_card ?_ (mem_map.mpr ⟨i, ?_, rfl⟩) (h.cells ▸ hlt)
    · rw [h.tokens, min_self, h.cells]
      exact (card_blocks h.ratio nKv head n).trans h.window
    · rw [h.tokens, min_self]
      exact mem_range.mpr hi
  rw [Qsa.touched, if_neg Bool.false_ne_true]
  split
  case isTrue hnone =>
    refine ⟨h.nWin_pos hkv, cons_ne_nil _ _, fun i hi hlt => ?_⟩
    have hin := hall i hi hlt
    rw [hnone] at hin
    exact absurd hin not_mem_nil
  case isFalse hsome => exact ⟨hcollected.length, hsome, hall⟩

/-- A graph built with the pools stale has room for all blocks. -/
theorem touched_stale (hwin : q.nWin = blockCount q.nKv q.ratio)
    (hpos : 0 < blockCount q.nKv q.ratio) (head n : ℕ) :
    touched true q head n = List.range (blockCount q.nKv q.ratio) ∧
      (touched true q head n).length ≤ q.nWin := by
  have hne : range (blockCount q.nKv q.ratio) ≠ [] := by
    rw [Ne, range_eq_nil]
    exact ne_of_gt hpos
  rw [touched, if_pos rfl, if_neg hne, length_range]
  exact ⟨rfl, le_of_eq hwin.symm⟩

/-! ## The scatter -/

variable {K P : Type} {pool : ℕ → List K → ℤ → P} {keys : ℕ → K} {pooled : ℕ → ℕ → P}

/-- The pool of a block's cells. -/
def current (pool : ℕ → List K → ℤ → P) (keys : ℕ → K) (cells : ℕ → Cell) (r b : ℕ) : P :=
  pool r ((List.range r).map fun k => keys (b * r + k))
    (if firstPos cells r b r < 0 then 0 else firstPos cells r b r)

/-- A window whose entries are determined by their blocks. -/
theorem foldl_scatterEntry (entries : List WinEntry) (r : ℕ) (value : ℕ → P)
    (h : ∀ e ∈ entries, pool r (e.cells.map keys) e.pos = value e.block) (r' b : ℕ) :
    entries.foldl (scatterEntry pool keys r) pooled r' b =
      if r' = r ∧ ∃ e ∈ entries, e.block = b then value b else pooled r' b := by
  induction entries generalizing pooled with
  | nil =>
    rw [if_neg]
    · rfl
    · rintro ⟨_, _, he, _⟩
      exact absurd he not_mem_nil
  | cons e entries ih =>
    rw [foldl_cons, ih fun d hd => h d (mem_cons_of_mem _ hd)]
    by_cases hin : r' = r ∧ ∃ d ∈ entries, d.block = b
    · obtain ⟨rfl, d, hd, heq⟩ := hin
      rw [if_pos ⟨rfl, d, hd, heq⟩, if_pos ⟨rfl, d, mem_cons_of_mem _ hd, heq⟩]
    · rw [if_neg hin, scatterEntry]
      by_cases hr : r' = r
      · subst hr
        rw [Function.update_self]
        by_cases hb : b = e.block
        · subst hb
          rw [Function.update_self, if_pos ⟨rfl, e, mem_cons_self, rfl⟩]
          exact h e mem_cons_self
        · rw [Function.update_of_ne hb, if_neg]
          rintro ⟨_, d, hd, rfl⟩
          rcases mem_cons.mp hd with rfl | hd
          · exact hb rfl
          · exact hin ⟨rfl, d, hd, rfl⟩
      · rw [Function.update_of_ne hr, if_neg fun hno => hr hno.1]

/-- The blocks of a window are those touched. -/
theorem window_blocks {blocks : List ℕ} (hlen : blocks.length ≤ q.nWin)
    (hne : blocks ≠ []) : (∃ e ∈ window cells q blocks, e.block = b) ↔ b ∈ blocks := by
  have hpos := length_pos_iff.mpr hne
  constructor
  · rintro ⟨e, he, rfl⟩
    obtain ⟨w, _, rfl⟩ := mem_map.mp he
    have hlt : min w (blocks.length - 1) < blocks.length := by omega
    show blocks.getD (min w (blocks.length - 1)) 0 ∈ blocks
    rw [getD_eq_getElem _ _ hlt]
    exact getElem_mem hlt
  · intro hb
    obtain ⟨w, hw, rfl⟩ := mem_iff_getElem.mp hb
    refine ⟨_, mem_map.mpr ⟨w, mem_range.mpr (lt_of_lt_of_le hw hlen), rfl⟩, ?_⟩
    show blocks.getD (min w (blocks.length - 1)) 0 = _
    rw [min_eq_left (by omega), getD_eq_getElem _ _ hw]

/-- What the window of one ratio leaves in its rows. -/
def rebuilt (pool : ℕ → List K → ℤ → P) (keys : ℕ → K) (cells : ℕ → Cell) (q : QsaInput)
    (b : ℕ) : P :=
  pool q.ratio ((List.range q.ratio).map fun k =>
      keys ((scanBlocks cells q.ratio q.nKv).blkCells (b * q.ratio + k)))
    (if (scanBlocks cells q.ratio q.nKv).blkPos b < 0 then 0
      else (scanBlocks cells q.ratio q.nKv).blkPos b)

/-- Of a full block it is the pool of its cells. -/
theorem rebuilt_of_full (hr : 0 < q.ratio) (hroom : b * q.ratio + q.ratio ≤ q.nKv)
    (hfull : ∀ k, k < q.ratio → ¬(cells (b * q.ratio + k)).isEmpty) :
    rebuilt pool keys cells q b = current pool keys cells q.ratio b := by
  obtain ⟨_, hpos, hcells⟩ := scanBlocks_spec cells hr q.nKv b
  rw [rebuilt, current, hpos, min_eq_left (by omega), map_congr_left fun k hk => ?_]
  have hlt := mem_range.mp hk
  rw [hcells _ (by omega) (hfull k hlt)]

/-- The windows of different ratios do not meet. -/
theorem scatter_windows (pool : ℕ → List K → ℤ → P) (keys : ℕ → K) (cells : ℕ → Cell)
    (pooled : ℕ → ℕ → P) (qs : List (QsaInput × List ℕ))
    (hnodup : (qs.map fun q => q.1.ratio).Nodup)
    (hfit : ∀ q ∈ qs, q.2.length ≤ q.1.nWin ∧ q.2 ≠ []) (r b : ℕ) :
    (∀ q ∈ qs, q.1.ratio = r → scatter pool keys pooled
        (qs.map fun q => (q.1.ratio, window cells q.1 q.2)) r b =
          if b ∈ q.2 then rebuilt pool keys cells q.1 b else pooled r b) ∧
      ((∀ q ∈ qs, q.1.ratio ≠ r) → scatter pool keys pooled
        (qs.map fun q => (q.1.ratio, window cells q.1 q.2)) r b = pooled r b) := by
  induction qs generalizing pooled with
  | nil => exact ⟨fun _ hq => absurd hq not_mem_nil, fun _ => rfl⟩
  | cons q qs ih =>
    have hstep : ∀ r b, (window cells q.1 q.2).foldl (scatterEntry pool keys q.1.ratio) pooled r b =
          if r = q.1.ratio ∧ b ∈ q.2 then rebuilt pool keys cells q.1 b else pooled r b := by
      intro r b
      rw [foldl_scatterEntry _ _ (rebuilt pool keys cells q.1)]
      · obtain ⟨hlen, hne⟩ := hfit q mem_cons_self
        simp only [window_blocks hlen hne]
      · intro e he
        obtain ⟨w, _, rfl⟩ := mem_map.mp he
        dsimp only
        rw [map_map]
        rfl
    rw [map_cons, nodup_cons] at hnodup
    have hrest := ih ((window cells q.1 q.2).foldl (scatterEntry pool keys q.1.ratio) pooled)
      hnodup.2 fun d hd => hfit d (mem_cons_of_mem _ hd)
    have hscatter : scatter pool keys pooled
        ((q :: qs).map fun q => (q.1.ratio, window cells q.1 q.2)) =
        scatter pool keys ((window cells q.1 q.2).foldl (scatterEntry pool keys q.1.ratio) pooled)
          (qs.map fun q => (q.1.ratio, window cells q.1 q.2)) := rfl
    rw [hscatter]
    constructor
    · intro d hd heq
      rcases mem_cons.mp hd with rfl | hd
      · rw [hrest.2 fun e he hsame => hnodup.1 ?_, hstep, ← heq]
        · simp only [true_and]
        · exact mem_map.mpr ⟨e, he, hsame.trans heq.symm⟩
      · rw [hrest.1 d hd heq, hstep, if_neg (c := r = q.1.ratio ∧ b ∈ q.2)]
        rintro ⟨hsame, _⟩
        exact hnodup.1 (mem_map.mpr ⟨d, hd, heq.trans hsame⟩)
    · intro hno
      rw [hrest.2 fun e he => hno e (mem_cons_of_mem _ he), hstep, if_neg]
      rintro ⟨hsame, _⟩
      exact hno q mem_cons_self hsame.symm

/-! ## The inputs of a graph -/

/-- The inputs of a graph: one for each ratio of the layers. -/
structure InputsOf (layers : List ℕ) (nKv n : ℕ) (qs : List QsaInput) : Prop where
  nodup : (qs.map QsaInput.ratio).Nodup
  fits : ∀ q ∈ qs, Fits nKv n q
  all : ∀ r ∈ layers, ∃ q ∈ qs, q.ratio = r
  first : (qs.map QsaInput.ratio).head? = layers.head?

theorem windowSize_le (stale : Bool) (nKv n r : ℕ) :
    windowSize false nKv n r ≤ windowSize stale nKv n r := by
  cases stale with
  | false => exact le_refl _
  | true =>
    rw [windowSize, windowSize, if_neg Bool.false_ne_true, if_pos rfl]
    exact min_le_left ..

theorem inputsOf_build {layers : List ℕ} (hpos : ∀ r ∈ layers, 0 < r) (stale : Bool) (nKv n : ℕ) :
    InputsOf layers nKv n (buildInputs layers stale nKv n) ∧
      ∀ q ∈ buildInputs layers stale nKv n, q.nWin = windowSize stale nKv n q.ratio := by
  induction layers using reverseRecOn with
  | nil =>
    refine ⟨⟨nodup_nil, ?_, ?_, rfl⟩, ?_⟩
    · exact fun q hq => absurd hq not_mem_nil
    · exact fun r hr => absurd hr not_mem_nil
    · exact fun q hq => absurd hq not_mem_nil
  | append_singleton layers r ih =>
    obtain ⟨h, hwin⟩ := ih fun r hr => hpos r (mem_append_left _ hr)
    have hbuild : buildInputs (layers ++ [r]) stale nKv n =
        addInput stale nKv n (buildInputs layers stale nKv n) r := foldl_append
    rw [hbuild, addInput]
    split
    case isTrue hold =>
      refine ⟨⟨h.nodup, h.fits, fun s hs => ?_, ?_⟩, hwin⟩
      · rcases mem_append.mp hs with hs | hs
        · exact h.all s hs
        · rw [mem_singleton.mp hs]
          exact hold
      · cases layers with
        | nil =>
          obtain ⟨q, hq, _⟩ := hold
          exact absurd hq not_mem_nil
        | cons _ _ => exact h.first
    case isFalse hnew =>
      have hlast : ∀ q ∈ buildInputs layers stale nKv n ++
          [⟨r, nKv, n, windowSize stale nKv n r⟩], q ∈ buildInputs layers stale nKv n ∨
            q = ⟨r, nKv, n, windowSize stale nKv n r⟩ := fun q hq =>
        (mem_append.mp hq).imp_right mem_singleton.mp
      refine ⟨⟨?_, fun q hq => ?_, fun s hs => ?_, ?_⟩, fun q hq => ?_⟩
      · rw [map_append, map_singleton]
        refine nodup_append.mpr ⟨h.nodup, nodup_singleton _, fun s hs t ht heq => ?_⟩
        obtain ⟨q, hq, rfl⟩ := mem_map.mp hs
        rw [mem_singleton.mp ht] at heq
        exact hnew ⟨q, hq, heq⟩
      · rcases hlast q hq with hq | rfl
        · exact h.fits q hq
        · exact ⟨hpos r (mem_append_right _ mem_cons_self), rfl, rfl,
            windowSize_le stale nKv n r⟩
      · rcases mem_append.mp hs with hs | hs
        · obtain ⟨q, hq, heq⟩ := h.all s hs
          exact ⟨q, mem_append_left _ hq, heq⟩
        · exact ⟨_, mem_append_right _ mem_cons_self, (mem_singleton.mp hs).symm⟩
      · have hfirst := h.first
        rw [map_append, head?_append, head?_append, hfirst]
        cases layers <;> rfl
      · rcases hlast q hq with hq | rfl
        · exact hwin q hq
        · rfl

/-- While the pools are not stale every window has the blocks its batch touches. -/
theorem setInputs_fresh {qs : List QsaInput} {n : ℕ} (hkv : 0 < nKv)
    (hfit : ∀ q ∈ qs, Fits nKv n q) (head : ℕ) :
    setInputs cells head n false qs =
      (false, (qs.map fun q => (q, touched false q head n)).map fun q =>
        (q.1.ratio, window cells q.1 q.2)) := by
  induction qs with
  | nil => rfl
  | cons q qs ih =>
    have hlen := ((hfit q mem_cons_self).touched hkv head).1
    rw [setInputs, decide_eq_false (not_lt.mpr hlen),
      ih fun d hd => hfit d (mem_cons_of_mem _ hd)]
    rfl

/-- When they are stale the first window has all blocks, and no other. -/
theorem setInputs_stale {qs : List QsaInput} {n : ℕ} (hkv : 0 < nKv)
    (hfit : ∀ d ∈ qs, Fits nKv n d) (hwin : q.nWin = blockCount q.nKv q.ratio)
    (hpos : 0 < blockCount q.nKv q.ratio) (head : ℕ) :
    setInputs cells head n true (q :: qs) = (false, ((q, List.range (blockCount q.nKv q.ratio)) ::
        qs.map fun q => (q, touched false q head n)).map fun q =>
          (q.1.ratio, window cells q.1 q.2)) := by
  obtain ⟨hall, hlen⟩ := touched_stale hwin hpos head n
  rw [setInputs, decide_eq_false (not_lt.mpr hlen), setInputs_fresh hkv hfit, hall]
  rfl

/-! ## A decode -/

section Decode

variable {layers : List ℕ} {flashAttn : Bool} {c c' : Context K P} {batch : Batch K}

/-- The pools of all full blocks are those of their cells. -/
def PoolsFull (pool : ℕ → List K → ℤ → P) (layers : List ℕ) (c : Context K P) : Prop :=
  ∀ r ∈ layers, ∀ b, Full c.kv r b → c.pooled r b = current pool c.keys c.kv.cells r b

/-- The invariant. -/
structure Fresh (pool : ℕ → List K → ℤ → P) (layers : List ℕ) (c : Context K P) : Prop where
  pools : c.qsaPooledStale = false → PoolsFull pool layers c
  graph : ∀ g, c.prev = some g → InputsOf layers g.nKv g.nTokens g.inputs
  cells : c.kv.Consistent

/-- The cells in use are those that attention looks at. -/
def Covers (kv : Cache) (flashAttn : Bool) : Prop :=
  ∀ i, i < kv.size → ¬(kv.cells i).isEmpty → i < kv.span flashAttn

/-- The batch lies in all full blocks of the ratios behind the first. -/
def Reaches (layers : List ℕ) (kv : Cache) (n : ℕ) : Prop :=
  ∀ r ∈ layers, layers.head? ≠ some r → ∀ b, Full kv r b → ∃ j, j < n ∧ (kv.head + j) / r = b

/-- A graph that is built or used again has the inputs for its micro-batch. -/
theorem inputsOf_graph (hpos : ∀ r ∈ layers, 0 < r)
    (hprev : ∀ g, c.prev = some g → InputsOf layers g.nKv g.nTokens g.inputs) (kv : Cache)
    (nKv : ℕ) (batch : Batch K) :
    InputsOf layers nKv batch.tokens.length (c.graph layers kv nKv batch).inputs ∧
      (c.graph layers kv nKv batch).nKv = nKv ∧
      (c.graph layers kv nKv batch).nTokens = batch.tokens.length ∧
      (c.qsaPooledStale = true → ∀ q ∈ (c.graph layers kv nKv batch).inputs,
        q.nWin = blockCount nKv q.ratio) := by
  obtain ⟨hbuilt, hwin⟩ := inputsOf_build hpos c.qsaPooledStale nKv batch.tokens.length
  have hfull : c.qsaPooledStale = true →
      ∀ q ∈ buildInputs layers c.qsaPooledStale nKv batch.tokens.length,
        q.nWin = blockCount nKv q.ratio := by
    intro hstale q hq
    rw [hwin q hq, windowSize, if_pos hstale]
  rw [Context.graph]
  cases hcase : c.prev with
  | none => exact ⟨hbuilt, rfl, rfl, hfull⟩
  | some g =>
    dsimp only
    split
    case isTrue hreuse =>
      obtain ⟨_, hfresh, _, hkv, htokens⟩ := hreuse
      have h := hprev g hcase
      rw [hkv, htokens] at h
      exact ⟨h, hkv, htokens, fun hstale => absurd (hfresh.symm.trans hstale) Bool.false_ne_true⟩
    case isFalse => exact ⟨hbuilt, rfl, rfl, hfull⟩

/-- A full block lies below a span that covers the cells. -/
theorem Covers.room (h : Covers kv flashAttn) (hr : 0 < r) (hfull : Full kv r b) :
    b * r + r ≤ kv.span flashAttn ∧ b < blockCount (kv.span flashAttn) r := by
  have hlast := hfull (r - 1) (sub_lt hr one_pos)
  have hlt := h _ hlast.1 hlast.2
  have hroom : b * r + r ≤ kv.span flashAttn := by omega
  refine ⟨hroom, ?_⟩
  rw [blockCount, lt_div_iff_mul_lt hr]
  have hcomm : r * b = b * r := mul_comm r b
  omega

theorem firstPos_congr {cells' : ℕ → Cell} {n : ℕ}
    (h : ∀ k, k < n → ¬(cells (b * r + k)).isEmpty ∧ ¬(cells' (b * r + k)).isEmpty ∧
      (cells (b * r + k)).pos = (cells' (b * r + k)).pos) :
    firstPos cells r b n = firstPos cells' r b n := by
  refine foldl_ext _ _ _ fun p k hk => ?_
  obtain ⟨huse, huse', hpos⟩ := h k (mem_range.mp hk)
  rw [if_neg huse, if_neg huse', hpos]

/-- The pool of a full block depends on its cells only. -/
theorem current_congr {cells' : ℕ → Cell} {keys' : ℕ → K}
    (h : ∀ k, k < r → ¬(cells (b * r + k)).isEmpty ∧ ¬(cells' (b * r + k)).isEmpty ∧
      (cells (b * r + k)).pos = (cells' (b * r + k)).pos ∧ keys (b * r + k) = keys' (b * r + k)) :
    current pool keys cells r b = current pool keys' cells' r b := by
  rw [current, current, firstPos_congr fun k hk => ⟨(h k hk).1, (h k hk).2.1, (h k hk).2.2.1⟩,
    map_congr_left fun k hk => (h k (mem_range.mp hk)).2.2.2]

/-- The cells of a batch that has been placed. -/
structure Placed (before kv : Cache) (n : ℕ) : Prop where
  size : kv.size = before.size
  room : kv.head + n ≤ kv.size
  kept : ∀ i, i < kv.head ∨ kv.head + n ≤ i → kv.cells i = before.cells i

theorem placed_of_placeBatch {tokens : List Token} (hc : kv.Consistent)
    (h : (kv.placeBatch tokens).2 = true) :
    Placed kv (kv.placeBatch tokens).1 tokens.length := by
  obtain ⟨head, hroom, _, heq⟩ := Cache.placeBatch_spec hc.head h
  rw [heq]
  refine ⟨rfl, hroom, fun i hi => ?_⟩
  rcases HybridCache.cells_placeTokens kv.cells tokens head i with ⟨j, hj, rfl, _⟩ | ⟨_, hsame⟩
  · rcases hi with hlt | hge
    · exact absurd hlt (Nat.not_lt.mpr (Nat.le_add_right head j))
    · exact absurd (Nat.le_of_add_le_add_left hge) (Nat.not_le.mpr hj)
  · exact hsame

/-- The keys after a micro-batch. -/
theorem keys_compute {i : ℕ} (hi : i < kv.head ∨ kv.head + batch.tokens.length ≤ i) :
    (c.compute pool layers flashAttn kv batch).keys i = c.keys i := by
  refine if_neg ?_
  rintro ⟨hle, hlt⟩
  rcases hi with hbefore | hafter
  · exact absurd hle (not_le.mpr hbefore)
  · exact absurd hlt (not_lt.mpr hafter)

/-- A block that the batch does not touch is as it was. -/
theorem Placed.untouched {n : ℕ} (h : Placed c.kv kv n) (hr : 0 < r)
    (hno : ∀ i, i < n → (kv.head + i) / r ≠ b) {k : ℕ} (hk : k < r) :
    b * r + k < kv.head ∨ kv.head + n ≤ b * r + k := by
  by_contra hin
  have hlt : b * r + k - kv.head < n := by omega
  refine hno _ hlt ?_
  rw [Nat.add_sub_cancel' (by omega), Nat.mul_comm, Nat.mul_add_div hr, Nat.div_eq_of_lt hk,
    Nat.add_zero]

/-- A micro-batch pools all full blocks again that are not what they were. -/
theorem Fresh.compute (hpos : ∀ r ∈ layers, 0 < r) (h : Fresh pool layers c)
    (hplaced : Placed c.kv kv batch.tokens.length) (hn : batch.tokens ≠ [])
    (hcovers : Covers kv flashAttn)
    (hreach : c.qsaPooledStale = true → Reaches layers kv batch.tokens.length) :
    PoolsFull pool layers (c.compute pool layers flashAttn kv batch) := by
  intro r hr b hfull
  have hrpos := hpos r hr
  obtain ⟨hroom, hblock⟩ := hcovers.room hrpos hfull
  have hkv : 0 < kv.span flashAttn := by omega
  obtain ⟨hinputs, _, _, hwide⟩ :=
    inputsOf_graph hpos h.graph kv (kv.span flashAttn) batch
  obtain ⟨q, hq, rfl⟩ := hinputs.all r hr
  have hrebuilt : rebuilt pool (c.compute pool layers flashAttn kv batch).keys kv.cells q b =
      current pool (c.compute pool layers flashAttn kv batch).keys kv.cells q.ratio b := by
    have hcells := (hinputs.fits q hq).cells
    exact rebuilt_of_full hrpos (hcells ▸ hroom) fun k hk => (hfull k hk).2
  show scatter pool (c.compute pool layers flashAttn kv batch).keys c.pooled
    (setInputs kv.cells kv.head batch.tokens.length c.qsaPooledStale
      (c.graph layers kv (kv.span flashAttn) batch).inputs).2 q.ratio b = _
  generalize (c.graph layers kv (kv.span flashAttn) batch).inputs = qs at hinputs hwide hq ⊢
  have htouched : ∀ d ∈ qs, (touched false d kv.head batch.tokens.length).length ≤ d.nWin ∧
      touched false d kv.head batch.tokens.length ≠ [] ∧ ∀ i, i < batch.tokens.length →
        (kv.head + i) / d.ratio < blockCount (kv.span flashAttn) d.ratio →
        (kv.head + i) / d.ratio ∈ touched false d kv.head batch.tokens.length :=
    fun d hd => (hinputs.fits d hd).touched hkv kv.head
  cases hstale : c.qsaPooledStale with
  | false =>
    rw [setInputs_fresh hkv hinputs.fits, (scatter_windows _ _ _ _
      (qs.map fun q => (q, touched false q kv.head batch.tokens.length)) ?_ ?_ q.ratio b).1
        _ (mem_map.mpr ⟨q, hq, rfl⟩) rfl]
    · dsimp only
      split
      case isTrue => exact hrebuilt
      case isFalse hout =>
        have hno : ∀ i, i < batch.tokens.length → (kv.head + i) / q.ratio ≠ b := by
          rintro i hi rfl
          exact hout ((htouched q hq).2.2 i hi hblock)
        have hsame : ∀ k, k < q.ratio → kv.cells (b * q.ratio + k) = c.kv.cells (b * q.ratio + k) ∧
              (c.compute pool layers flashAttn kv batch).keys (b * q.ratio + k) =
                c.keys (b * q.ratio + k) := fun k hk =>
          ⟨hplaced.kept _ (hplaced.untouched hrpos hno hk),
            keys_compute (hplaced.untouched hrpos hno hk)⟩
        have hold : Full c.kv q.ratio b := fun k hk => by
          rw [← hplaced.size, ← (hsame k hk).1]
          exact hfull k hk
        rw [h.pools hstale q.ratio hr b hold]
        refine current_congr fun k hk => ⟨(hold k hk).2, (hfull k hk).2, ?_, (hsame k hk).2.symm⟩
        exact congrArg Cell.pos (hsame k hk).1.symm
    · rw [map_map]
      exact hinputs.nodup
    · intro d hd
      obtain ⟨e, he, rfl⟩ := mem_map.mp hd
      exact ⟨(htouched e he).1, (htouched e he).2.1⟩
  | true =>
    cases qs with
    | nil => exact absurd hq not_mem_nil
    | cons q₀ qs =>
      have hfit₀ := hinputs.fits q₀ mem_cons_self
      have hcount : 0 < blockCount q₀.nKv q₀.ratio :=
        blockCount_pos hfit₀.ratio (hfit₀.cells ▸ hkv)
      have hwide₀ : q₀.nWin = blockCount q₀.nKv q₀.ratio := by
        rw [hfit₀.cells]
        exact hwide hstale q₀ mem_cons_self
      obtain ⟨hall₀, hlen₀⟩ := touched_stale hwide₀ hcount kv.head batch.tokens.length
      rw [hall₀] at hlen₀
      have hscatter := scatter_windows pool
        (c.compute pool layers flashAttn kv batch).keys kv.cells c.pooled
        ((q₀, range (blockCount q₀.nKv q₀.ratio)) ::
          qs.map fun q => (q, touched false q kv.head batch.tokens.length))
        (by
          rw [map_cons, map_map]
          exact hinputs.nodup)
        (by
          intro d hd
          rcases mem_cons.mp hd with rfl | hd
          · refine ⟨hlen₀, ?_⟩
            rw [Ne, range_eq_nil]
            exact ne_of_gt hcount
          · obtain ⟨e, he, rfl⟩ := mem_map.mp hd
            have hin := htouched e (mem_cons_of_mem _ he)
            exact ⟨hin.1, hin.2.1⟩) q.ratio b
      rw [setInputs_stale hkv (fun d hd => hinputs.fits d (mem_cons_of_mem _ hd)) hwide₀
        hcount]
      rcases mem_cons.mp hq with rfl | hq
      · rw [hscatter.1 _ mem_cons_self rfl, if_pos]
        · exact hrebuilt
        · rw [hfit₀.cells]
          exact mem_range.mpr hblock
      · rw [hscatter.1 _ (mem_cons_of_mem _ (mem_map.mpr ⟨q, hq, rfl⟩)) rfl, if_pos]
        · exact hrebuilt
        · have hfirst : layers.head? = some q₀.ratio := hinputs.first.symm
          have hne : layers.head? ≠ some q.ratio := by
            rw [hfirst]
            intro heq
            have hnodup := hinputs.nodup
            rw [map_cons, nodup_cons] at hnodup
            exact hnodup.1 (Option.some.inj heq ▸ mem_map.mpr ⟨q, hq, rfl⟩)
          obtain ⟨j, hj, rfl⟩ := hreach hstale q.ratio hr hne b hfull
          exact (htouched q (mem_cons_of_mem _ hq)).2.2 j hj hblock

/-! ## Runs -/

/-- What the graph ranks has its pool. -/
def Served (pool : ℕ → List K → ℤ → P) (layers : List ℕ) (flashAttn : Bool)
    (c : Context K P) : Prop :=
  ∀ r ∈ layers, ∀ b, poolable c.kv.cells r (c.kv.span flashAttn) b →
    c.pooled r b = current pool c.keys c.kv.cells r b

/-- An event that callers may make. -/
def Event.Valid : Event K → Prop
  | .decode batch => batch.tokens ≠ [] ∧ ∀ token ∈ batch.tokens, token.Valid
  | .seqRm _ _ _ => True
  | .disturb kv _ => kv.Consistent

/-- A micro-batch that is placed where attention looks, and that all ratios but the first can
do without the pools of other blocks if those are stale. -/
def Event.Safe (layers : List ℕ) (flashAttn : Bool) (c : Context K P) : Event K → Prop
  | .decode batch => (c.kv.placeBatch batch.tokens).2 = true →
    Covers (c.kv.placeBatch batch.tokens).1 flashAttn ∧ (c.qsaPooledStale = true →
        Reaches layers (c.kv.placeBatch batch.tokens).1 batch.tokens.length)
  | _ => True

/-- A step of the system. -/
def ValidStep (pool : ℕ → List K → ℤ → P) (layers : List ℕ) (flashAttn : Bool)
    (c : Context K P) (e : Event K) (c' : Context K P) : Prop :=
  e.Valid ∧ c.step pool layers flashAttn e = some c'

/-- A step whose micro-batch is safe. -/
def SafeStep (pool : ℕ → List K → ℤ → P) (layers : List ℕ) (flashAttn : Bool)
    (c : Context K P) (e : Event K) (c' : Context K P) : Prop :=
  e.Safe layers flashAttn c ∧ ValidStep pool layers flashAttn c e c'

/-- A removal leaves the pools of the blocks that stay full. -/
theorem Fresh.seqRm (h : Fresh pool layers c) {id p0 p1 : ℤ} {result : Cache × Bool}
    (hrm : c.kv.seqRm id p0 p1 = some result) : Fresh pool layers { c with kv := result.1 } := by
  have hcells : result.1.size = c.kv.size ∧ ∀ i, i < c.kv.size →
      ¬(result.1.cells i).isEmpty → ¬(c.kv.cells i).isEmpty ∧
        (result.1.cells i).pos = (c.kv.cells i).pos := by
    have hsweep : ∀ i, i < c.kv.size → ¬((c.kv.sweepRm id p0 p1).cells i).isEmpty →
        ¬(c.kv.cells i).isEmpty ∧ ((c.kv.sweepRm id p0 p1).cells i).pos = (c.kv.cells i).pos := by
      intro i hi huse
      have hremoved := Cache.sweepRm_cells id p0 p1 hi
      refine ⟨fun hempty => huse ?_, hremoved.pos huse⟩
      rw [Cell.isEmpty, hremoved.seqs, show (c.kv.cells i).seqId = ∅ from hempty]
      split
      case isTrue =>
        split
        case isTrue => rfl
        case isFalse => exact Finset.erase_empty _
      case isFalse => rfl
    have hsize := (c.kv.sameMap_sweepRm id p0 p1).size
    rcases Cache.seqRm_cases hrm with rfl | ⟨_, rfl⟩ | ⟨_, _, _, rfl⟩
    · exact ⟨rfl, fun _ _ huse => ⟨huse, rfl⟩⟩
    · exact ⟨hsize, hsweep⟩
    · exact ⟨hsize, hsweep⟩
  refine ⟨fun hstale r hr b hfull => ?_, h.graph, h.cells.seqRm hrm⟩
  have hold : ∀ k, k < r → b * r + k < c.kv.size ∧ ¬(c.kv.cells (b * r + k)).isEmpty ∧
      (result.1.cells (b * r + k)).pos = (c.kv.cells (b * r + k)).pos := by
    intro k hk
    obtain ⟨hi, huse⟩ := hfull k hk
    have hi' : b * r + k < c.kv.size := hcells.1 ▸ hi
    exact ⟨hi', hcells.2 _ hi' huse⟩
  refine (h.pools hstale r hr b fun k hk => ⟨(hold k hk).1, (hold k hk).2.1⟩).trans ?_
  exact current_congr fun k hk =>
    ⟨(hold k hk).2.1, (hfull k hk).2, (hold k hk).2.2.symm, rfl⟩

/-- The step lemma. -/
theorem Fresh.step (hpos : ∀ r ∈ layers, 0 < r) (h : Fresh pool layers c) {e : Event K}
    (hstep : SafeStep pool layers flashAttn c e c') : Fresh pool layers c' := by
  obtain ⟨hsafe, hvalid, hrun⟩ := hstep
  cases e with
  | decode batch =>
    have hcons := h.cells.placeBatch hvalid.2
    rw [Context.step] at hrun
    split at hrun
    case isTrue hplace =>
      obtain rfl := Option.some.inj hrun
      obtain ⟨hcovers, hreach⟩ := hsafe hplace
      have hplaced := placed_of_placeBatch h.cells hplace
      have hpools := h.compute hpos hplaced hvalid.1 hcovers hreach
      refine ⟨fun _ => hpools, fun g hg => ?_, ?_⟩
      · have hprev : (if batch.keeps then
            some (c.graph layers (c.kv.placeBatch batch.tokens).1
              ((c.kv.placeBatch batch.tokens).1.span flashAttn) batch) else none) = some g := hg
        split at hprev
        case isTrue =>
          obtain rfl := Option.some.inj hprev
          obtain ⟨hinputs, hkv, hn, _⟩ := inputsOf_graph hpos h.graph
            (c.kv.placeBatch batch.tokens).1
            ((c.kv.placeBatch batch.tokens).1.span flashAttn) batch
          rw [hkv, hn]
          exact hinputs
        case isFalse => cases hprev
      · refine ⟨⟨hcons.valid, hcons.used, hcons.slots, hcons.src⟩, ?_⟩
        show (if (c.kv.placeBatch batch.tokens).1.size ≤ (c.kv.placeBatch batch.tokens).1.head +
          batch.tokens.length then 0 else (c.kv.placeBatch batch.tokens).1.head +
            batch.tokens.length) ≤ (c.kv.placeBatch batch.tokens).1.size
        split
        case isTrue => exact zero_le _
        case isFalse => exact hplaced.room
    case isFalse hrefuse =>
      obtain rfl := Option.some.inj hrun
      have hsame := Cache.placeBatch_refused (Bool.eq_false_of_not_eq_true hrefuse)
      have hsize := (c.kv.sameMap_placeBatch batch.tokens).size
      refine ⟨fun hstale r hr b hfull => ?_, h.graph, hcons⟩
      have hold : Full c.kv r b := fun k hk => by
        rw [← hsize, ← hsame]
        exact hfull k hk
      show c.pooled r b = current pool c.keys (c.kv.placeBatch batch.tokens).1.cells r b
      rw [hsame]
      exact h.pools hstale r hr b hold
  | seqRm id p0 p1 =>
    obtain ⟨result, hrm, rfl⟩ := Option.map_eq_some_iff.mp hrun
    exact h.seqRm hrm
  | disturb kv keys =>
    obtain rfl := Option.some.inj hrun
    exact ⟨fun hno => absurd hno.symm Bool.false_ne_true, h.graph, hvalid⟩

/-- The run lemma. -/
theorem Fresh.run (hpos : ∀ r ∈ layers, 0 < r) {es : List (Event K)} (h : Fresh pool layers c)
    (hrun : Steps (SafeStep pool layers flashAttn) c es c') : Fresh pool layers c' :=
  hrun.invariant (fun _ _ _ hc hstep => hc.step hpos hstep) h

/-- Without cells there is nothing to pool. -/
theorem fresh_of_empty (hpos : ∀ r ∈ layers, 0 < r) (hempty : ∀ i, (c.kv.cells i).isEmpty)
    (hcells : c.kv.Consistent) (hprev : c.prev = none) : Fresh pool layers c where
  pools _ r hr b hfull := absurd (hempty _) (hfull 0 (hpos r hr)).2
  graph g hg := by
    rw [hprev] at hg
    cases hg
  cells := hcells

theorem span_le (kv : Cache) (flashAttn : Bool) : kv.span flashAttn ≤ kv.size :=
  min_le_left ..

/-- In a run of safe steps each graph finds the pools of the blocks it ranks, and the pools are
not stale only if all of them are those of their cells. -/
theorem served_run {es : List (Event K)} {after : Context K P} (hpos : ∀ r ∈ layers, 0 < r)
    (hempty : ∀ i, (c.kv.cells i).isEmpty) (hcells : c.kv.Consistent) (hprev : c.prev = none)
    (hrun : Steps (SafeStep pool layers flashAttn) c es c')
    (hstep : SafeStep pool layers flashAttn c' (.decode batch) after)
    (hplace : (c'.kv.placeBatch batch.tokens).2 = true) :
    Served pool layers flashAttn after ∧
      (after.qsaPooledStale = false → PoolsFull pool layers after) := by
  have hstart : Fresh pool layers c := fresh_of_empty hpos hempty hcells hprev
  have hfresh := hstart.run hpos hrun
  refine ⟨fun r hr b hranked => ?_, (hfresh.step hpos hstep).pools⟩
  have hfull := (full_of_poolable (hpos r hr) (span_le after.kv flashAttn) hranked).1
  obtain ⟨hsafe, hvalid, hafter⟩ := hstep
  obtain ⟨hcovers, hreach⟩ := hsafe hplace
  rw [Context.step, if_pos hplace] at hafter
  obtain rfl := Option.some.inj hafter
  exact hfresh.compute hpos (placed_of_placeBatch hfresh.cells hplace) hvalid.1 hcovers hreach r hr
    b hfull

end Decode

/-! ## Two ratios -/

/-- A pool that shows the keys. -/
def sumPool (_ : ℕ) (keys : List ℕ) (_ : ℤ) : ℕ := keys.sum

/-- A context that has just been made. -/
def unused : Context ℕ ℕ where
  kv := Cache.init 32 1 true true false false (0, 0)
  keys _ := 0
  pooled _ _ := 0
  qsaPooledStale := false
  prev := none

/-- A micro-batch of one token. -/
def oneToken (pos : ℤ) : Batch ℕ := ⟨[⟨pos, [0]⟩], fun _ => 7, true, true⟩

/-- The cells of a state that has been read. -/
def restored : Cache :=
  { unused.kv with
    used := 1
    head := 1
    cells := fun i => if i = 0 then ⟨0, 0, 0, {0}⟩ else ⟨-1, 0, i, ∅⟩ }

theorem consistent_restored : restored.Consistent where
  valid := by decide
  used := by decide
  slots := by decide
  src _ _ := by decide
  head := by decide

theorem span_of_size (h : kv.size = 32) : kv.span false = 32 := by
  rw [Cache.span, Cache.spanOf, h]
  exact min_eq_left (le_max_left ..)

theorem placeBatch_next (kv : Cache) (pos : ℤ) (h : kv.size = 32) (hhead : kv.head ≤ 1)
    (hfree : (kv.cells kv.head).pos < 0) :
    kv.placeBatch (oneToken pos).tokens = ({ kv with
      cells := Cache.placeTokens kv.cells kv.head (oneToken pos).tokens
      used := kv.used + 1 }, true) := by
  have hnear : kv.head ≤ kv.used + 2 * (oneToken pos).tokens.length :=
    hhead.trans (le_add_left_of_le (by decide : 1 ≤ 2 * 1))
  refine Cache.placeBatch_of_first (by omega) hnear (by decide : 0 < 1) ⟨?_, fun j hj => ?_, ?_, ?_⟩
  · show kv.head + 1 ≤ kv.size
    omega
  · obtain rfl := lt_one_iff.mp hj
    exact hfree
  · exact fun _ i hle hlt => absurd hle (not_le.mpr hlt)
  · exact fun hlt => absurd hlt (lt_irrefl _)

theorem step_oneToken (layers : List ℕ) (c : Context ℕ ℕ) {pos : ℤ} (h : c.kv.size = 32)
    (hhead : c.kv.head ≤ 1) (hfree : (c.kv.cells c.kv.head).pos < 0) (hpos : 0 ≤ pos) :
    ValidStep sumPool layers false c (.decode (oneToken pos))
      (c.compute sumPool layers false { c.kv with
        cells := Cache.placeTokens c.kv.cells c.kv.head (oneToken pos).tokens
        used := c.kv.used + 1 } (oneToken pos)) := by
  refine ⟨⟨cons_ne_nil _ _, fun token ht => ?_⟩, ?_⟩
  · obtain rfl := mem_singleton.mp ht
    exact ⟨hpos, cons_ne_nil _ _⟩
  · rw [Context.step, placeBatch_next c.kv pos h hhead hfree]
    rfl

theorem served_run_unused : ∃ after : Context ℕ ℕ, Served sumPool [1] false after ∧
    (after.qsaPooledStale = false → PoolsFull sumPool [1] after) := by
  have hplace := placeBatch_next unused.kv 0 rfl (zero_le 1) (by decide)
  have hstep := step_oneToken [1] unused rfl (zero_le 1) (by decide)
    (Int.le_refl 0)
  refine ⟨_, served_run (c := unused) (fun r hr => ?_) (fun _ => Cell.isEmpty_of_seqId rfl)
    (Cache.consistent_init ..) rfl .refl ⟨fun _ => ⟨fun i hi _ => ?_, fun hno => ?_⟩, hstep⟩ ?_⟩
  · rw [mem_singleton.mp hr]
    exact one_pos
  · rw [hplace] at hi ⊢
    rw [span_of_size rfl]
    exact hi
  · exact absurd hno Bool.false_ne_true
  · rw [hplace]

/-- The second ratio has not got the pool of the cell that was read. -/
theorem not_served : ¬∀ (pool : ℕ → List ℕ → ℤ → ℕ) (layers : List ℕ) (flashAttn : Bool)
    (c c' after : Context ℕ ℕ) (es : List (Event ℕ)) (batch : Batch ℕ), (∀ r ∈ layers, 0 < r) →
    (∀ i, (c.kv.cells i).isEmpty) → c.kv.Consistent → c.prev = none →
    Steps (ValidStep pool layers flashAttn) c es c' →
    ValidStep pool layers flashAttn c' (.decode batch) after →
    (c'.kv.placeBatch batch.tokens).2 = true →
    Served pool layers flashAttn after ∧
      (after.qsaPooledStale = false → PoolsFull pool layers after) := by
  intro hall
  let read : Context ℕ ℕ :=
    { unused with kv := restored, keys := fun _ => 5, qsaPooledStale := true }
  have hread : ValidStep sumPool [2, 1] false unused (.disturb restored fun _ => 5) read :=
    ⟨consistent_restored, rfl⟩
  have hstep := step_oneToken [2, 1] read rfl (le_refl 1) (by decide)
    (by decide : (0 : ℤ) ≤ 1)
  have hplace := placeBatch_next restored 1 rfl (le_refl 1) (by decide)
  obtain ⟨hserved, _⟩ := hall sumPool [2, 1] false unused read _ _ _ (by decide)
    (fun _ => Cell.isEmpty_of_seqId rfl) (Cache.consistent_init ..) rfl (.single hread) hstep
    (by rw [hplace])
  let kv : Cache := { restored with
    cells := Cache.placeTokens restored.cells 1 (oneToken 1).tokens, used := 2 }
  have hspan : kv.span false = 32 := span_of_size rfl
  have hranked : poolable kv.cells 1 (kv.span false) 0 := by
    rw [hspan]
    decide
  have hpool : scatter sumPool (fun i => if 1 ≤ i ∧ i < 2 then 7 else 5) (fun _ _ => 0)
      (setInputs kv.cells 1 1 true (buildInputs [2, 1] true (kv.span false) 1)).2 1 0 = 5 :=
    hserved 1 (by decide) 0 hranked
  rw [hspan] at hpool
  revert hpool
  decide +kernel

end ExpertPin.Qsa
