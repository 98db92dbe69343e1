import ExpertPin.Kv.SlotSearch

/-!
# Decoding in a hybrid cache

The cache of a hybrid model has a state row for each sequence beside the key and value rows
of the cells.  A micro-batch writes the rows of its own cells and sequences, and leaves the
cells in use alone as long as no work is deferred (`Extends`).
-/

namespace ExpertPin.Kv

open Runs
open List
open Option

instance (cell : Cell) : Decidable cell.Valid := inferInstanceAs (Decidable (_ ↔ _))

namespace Cache

variable {cache : Cache} {i : ℕ}

/-- No shift and no defragmentation is deferred. -/
structure Settled (cache : Cache) : Prop where
  shift : cache.hasShift = false
  defrag : cache.doDefrag = false

/-- No work is deferred. -/
structure Idle (cache : Cache) : Prop extends cache.Settled where
  copy : cache.doCopy = false

/-- The cell carries the sequence at a position. -/
def Carries (cache : Cache) (id : ℤ) (i : ℕ) (pos : ℤ) : Prop :=
  i < cache.size ∧ (cache.cells i).hasSeqId id ∧ (cache.cells i).pos = pos

/-- `used` counts the cells that are not empty. -/
def Counted (cache : Cache) : Prop :=
  cache.used = Nat.count (fun i => ¬(cache.cells i).isEmpty) cache.size

theorem update_settled (h : cache.Settled) (hasRope canShift : Bool) (maxMoves : ℕ) :
    cache.update hasRope canShift maxMoves = some cache.updateCopy := by
  have hdefrag : cache.updateCopy.doDefrag = false := by
    rw [updateCopy]
    split
    case isTrue => exact h.defrag
    case isFalse => exact h.defrag
  rw [update, if_neg, updateDefrag, if_neg]
  · rw [hdefrag]
    exact Bool.false_ne_true
  · rintro ⟨_, hshift⟩
    exact Bool.false_ne_true (h.shift.symm.trans hshift)

/-- The deferred copy of the states leaves the tokens of the cells. -/
theorem frame_updateCopy (cache : Cache) :
    (∀ i, (cache.updateCopy.cells i).pos = (cache.cells i).pos ∧
      (cache.updateCopy.cells i).seqId = (cache.cells i).seqId) ∧
    cache.updateCopy.size = cache.size ∧
    cache.updateCopy.qnextStateSlots = cache.qnextStateSlots ∧
    cache.updateCopy.anyCompacted = cache.anyCompacted := by
  rw [updateCopy]
  split
  case isFalse => exact ⟨fun _ => ⟨rfl, rfl⟩, rfl, rfl, rfl⟩
  case isTrue =>
    refine ⟨fun i => ?_, rfl, rfl, rfl⟩
    show (if i < cache.size then { cache.cells i with src := i } else cache.cells i).pos = _ ∧
      (if i < cache.size then { cache.cells i with src := i } else cache.cells i).seqId = _
    split
    case isTrue => exact ⟨rfl, rfl⟩
    case isFalse => exact ⟨rfl, rfl⟩

/-- Asking for a defragmentation leaves the cells alone. -/
theorem frame_defrag (cache : Cache) (asks : Bool) :
    (if asks then cache.defrag else cache).cells = cache.cells ∧
      (if asks then cache.defrag else cache).size = cache.size ∧
      (if asks then cache.defrag else cache).qnextStateSlots = cache.qnextStateSlots ∧
      (if asks then cache.defrag else cache).anyCompacted = cache.anyCompacted ∧
      (cache.Consistent → (if asks then cache.defrag else cache).Consistent) := by
  cases asks with
  | false => exact ⟨rfl, rfl, rfl, rfl, id⟩
  | true =>
    have hcons : cache.Consistent → cache.defrag.Consistent := fun h => h.defrag
    show cache.defrag.cells = _ ∧ cache.defrag.size = _ ∧ cache.defrag.qnextStateSlots = _ ∧
      cache.defrag.anyCompacted = _ ∧ (_ → cache.defrag.Consistent)
    revert hcons
    rw [defrag]
    split
    case isTrue => exact fun hcons => ⟨rfl, rfl, rfl, rfl, hcons⟩
    case isFalse => exact fun hcons => ⟨rfl, rfl, rfl, rfl, hcons⟩

/-! ## Removing a sequence -/

theorem seqRm_plain (h : cache.anyCompacted = false) (id p0 p1 : ℤ) :
    cache.seqRm id p0 p1 = some (cache.sweepRm id p0 p1, true) := by
  have hplan : cache.compactPlan id p0 p1 = .keep := by
    rw [compactPlan, if_neg]
    rintro ⟨hany, _⟩
    exact Bool.false_ne_true (h.symm.trans hany)
  rw [seqRm, hplan]
  rfl

/-- The sequences left in a cell. -/
theorem hasSeqId_sweepRm {id t p0 p1 : ℤ} (hid : 0 ≤ id) (hi : i < cache.size) :
    ((cache.sweepRm id p0 p1).cells i).hasSeqId t ↔
      (cache.cells i).hasSeqId t ∧ ¬(t = id ∧ (cache.cells i).posIn p0 p1) := by
  rw [Cell.hasSeqId, (sweepRm_cells id p0 p1 hi).seqs, if_neg (Int.not_lt.mpr hid)]
  split
  case isTrue hin =>
    rw [Finset.mem_erase, and_comm]
    exact and_congr_right fun _ => ⟨fun hne heq => hne heq.1, fun hno heq => hno ⟨heq, hin⟩⟩
  case isFalse hout => exact ⟨fun h => ⟨h, fun hno => hout hno.2⟩, And.left⟩

/-- What is left of each sequence. -/
theorem carries_sweepRm {id t p0 p1 pos : ℤ} (hid : 0 ≤ id) :
    (cache.sweepRm id p0 p1).Carries t i pos ↔
      cache.Carries t i pos ∧ ¬(t = id ∧ rangeStart p0 ≤ pos ∧ pos < rangeEnd p1) := by
  rw [Carries, Carries, (cache.sameMap_sweepRm id p0 p1).size]
  constructor
  · rintro ⟨hi, hhas, rfl⟩
    have hpos := (sweepRm_cells id p0 p1 hi).pos (Finset.ne_empty_of_mem hhas)
    obtain ⟨hold, hstay⟩ := (hasSeqId_sweepRm hid hi).mp hhas
    rw [hpos]
    exact ⟨⟨hi, hold, rfl⟩, hstay⟩
  · rintro ⟨⟨hi, hhas, rfl⟩, hstay⟩
    have hhas' := (hasSeqId_sweepRm hid hi).mpr ⟨hhas, hstay⟩
    exact ⟨hi, hhas', (sweepRm_cells id p0 p1 hi).pos (Finset.ne_empty_of_mem hhas')⟩

theorem slots_seqRmCell (id p0 p1 : ℤ) (s : Sweep) (j : ℕ) :
    (seqRmCell id p0 p1 s j).cache.qnextStateSlots = s.cache.qnextStateSlots := by
  rw [seqRmCell]
  split
  case isFalse => rfl
  case isTrue =>
    split
    case isTrue => rfl
    case isFalse =>
      generalize (if id < 0 then ∅ else (s.cache.cells j).seqId.erase id) = ids
      by_cases hnone : ids = ∅
      · rw [if_pos hnone]
        rfl
      · rw [if_neg hnone]
        rfl

theorem slots_sweepRm (cache : Cache) (id p0 p1 : ℤ) :
    (cache.sweepRm id p0 p1).qnextStateSlots = cache.qnextStateSlots := by
  have hloop : ((range cache.size).foldl (seqRmCell id p0 p1)
      ⟨cache, cache.size⟩).cache.qnextStateSlots = cache.qnextStateSlots :=
    foldlRecOn (motive := fun s : Sweep => s.cache.qnextStateSlots = cache.qnextStateSlots) _
      (seqRmCell id p0 p1) rfl fun s hs j _ => (slots_seqRmCell id p0 p1 s j).trans hs
  rw [sweepRm, Sweep.lowerHead]
  split
  case isTrue => exact hloop
  case isFalse => exact hloop

/-- One turn keeps the count, whatever the cells are. -/
theorem counted_seqRmCell {id p0 p1 : ℤ} (hid : 0 ≤ id) {s : Sweep} (hi : i < s.cache.size)
    (h : s.cache.Counted) : (seqRmCell id p0 p1 s i).cache.Counted := by
  rw [seqRmCell]
  split
  case isFalse => exact h
  case isTrue hin =>
    split
    case isTrue => exact h
    case isFalse hhas =>
      have hold : ¬(s.cache.cells i).isEmpty := by
        intro hempty
        refine hhas ⟨hid, ?_⟩
        rw [Cell.hasSeqId, show (s.cache.cells i).seqId = ∅ from hempty]
        exact Finset.notMem_empty id
      generalize (if id < 0 then ∅ else (s.cache.cells i).seqId.erase id) = ids
      have hother : ∀ cell : Cell, ∀ j, j < s.cache.size → j ≠ i →
          (¬((s.cache.setCell i cell).cells j).isEmpty ↔ ¬(s.cache.cells j).isEmpty) := by
        intro cell j _ hji
        rw [s.cache.setCell_of_ne hji]
      by_cases hnone : ids = ∅
      · rw [if_pos hnone]
        have hpos : 0 ≤ (s.cache.cells i).pos := (rangeStart_nonneg p0).trans hin.1
        let cell : Cell := { s.cache.cells i with
          pos := -1, seqId := ∅, src := s.cache.resetSrc i (s.cache.cells i) }
        have hcell : ((s.cache.setCell i cell).cells i).isEmpty := by
          rw [setCell_self]
          exact Cell.isEmpty_of_seqId rfl
        have hfree := Slots.count_free hi hold (not_not_intro hcell) (hother cell)
        show (if 0 ≤ (s.cache.cells i).pos then s.cache.used - 1 else s.cache.used) =
          Nat.count (fun j => ¬((s.cache.setCell i cell).cells j).isEmpty) s.cache.size
        rw [if_pos hpos, h, ← hfree]
        exact Nat.add_sub_cancel ..
      · rw [if_neg hnone]
        refine h.trans (Slots.count_congr fun j hj => ?_)
        show ¬(s.cache.cells j).isEmpty ↔ ¬((s.cache.setCell i _).cells j).isEmpty
        by_cases hji : j = i
        · rw [hji, setCell_self]
          exact iff_of_true hold hnone
        · exact (hother _ j hj hji).symm

theorem counted_sweepRm {id p0 p1 : ℤ} (hid : 0 ≤ id) (h : cache.Counted) :
    (cache.sweepRm id p0 p1).Counted := by
  have hloop : ((range cache.size).foldl (seqRmCell id p0 p1)
      ⟨cache, cache.size⟩).cache.Counted := by
    refine (foldlRecOn (motive := fun s : Sweep => s.cache.size = cache.size ∧
      s.cache.Counted) _ (seqRmCell id p0 p1) ⟨rfl, h⟩ fun s hs j hj => ⟨?_, ?_⟩).2
    · exact (sameMap_seqRmCell id p0 p1 s j).size.trans hs.1
    · exact counted_seqRmCell hid (hs.1 ▸ mem_range.mp hj) hs.2
  rw [sweepRm, Sweep.lowerHead]
  split
  case isTrue => exact hloop
  case isFalse => exact hloop

/-! ## Placing a batch -/

/-- The cache after a search that succeeds. -/
theorem placeBatch_spec {batch : List Token} (hhead : cache.head ≤ cache.size)
    (h : (cache.placeBatch batch).2 = true) :
    ∃ head, head + batch.length ≤ cache.size ∧
      (∀ j, j < batch.length → (cache.cells (head + j)).pos < 0) ∧
      (cache.placeBatch batch).1 = { cache with
        head := head
        cells := placeTokens cache.cells head batch
        used := cache.used + batch.length } := by
  have hfind : ∀ c : Cache, c.head ≤ c.size → (c.findSlot batch).2 = true →
      ∃ head, head + batch.length ≤ c.size ∧
        (∀ j, j < batch.length → (c.cells (head + j)).pos < 0) ∧
        (c.findSlot batch).1 = { c with
          head := head
          cells := placeTokens c.cells head batch
          used := c.used + batch.length } := by
    intro c hc hfound
    rw [findSlot] at hfound ⊢
    split at hfound
    case isFalse => cases hfound
    case isTrue hlen =>
      rw [dif_pos hlen]
      dsimp only at hfound ⊢
      split at hfound
      case isFalse => cases hfound
      case isTrue htrue =>
        rw [if_pos htrue]
        obtain ⟨hroom, hfree⟩ := (slotSearch_spec c.cells 0 hlen hc).2 htrue
        exact ⟨_, hroom, hfree, rfl⟩
  rw [placeBatch] at h ⊢
  split at h
  case isTrue hfar =>
    rw [if_pos hfar]
    exact hfind { cache with head := 0 } (Nat.zero_le _) h
  case isFalse hnear =>
    rw [if_neg hnear]
    exact hfind cache hhead h

/-- The search that finds a window. -/
theorem placeBatch_of_first {batch : List Token} {k : ℕ} (hhead : cache.head ≤ cache.size)
    (hnear : cache.head ≤ cache.used + 2 * batch.length) (hn : 0 < batch.length)
    (hfirst : FirstWindow cache.cells cache.size batch.length cache.head k) :
    cache.placeBatch batch = ({ cache with
      head := k
      cells := placeTokens cache.cells k batch
      used := cache.used + batch.length }, true) := by
  have hle : batch.length ≤ cache.size := (Nat.le_add_left _ k).trans hfirst.room
  have hsearch := slotSearch_of_first hle hn hhead hfirst
  rw [placeBatch, if_neg (Nat.not_lt.mpr hnear), findSlot, dif_pos hle]
  dsimp only
  rw [hsearch, if_pos rfl]

theorem Consistent.placeBatch {batch : List Token} (h : cache.Consistent)
    (hvalid : ∀ token ∈ batch, token.Valid) : (cache.placeBatch batch).1.Consistent := by
  rw [Cache.placeBatch]
  split
  case isTrue =>
    have hzero : ({ cache with head := 0 } : Cache).Consistent :=
      ⟨⟨h.valid, h.used, h.slots, h.src⟩, Nat.zero_le _⟩
    exact hzero.findSlot hvalid
  case isFalse => exact h.findSlot hvalid

end Cache

/-! ## Micro-batches -/

/-- The cells of a hybrid model, the state rows of the sequences (of all layers together) and
the key and value rows of the cells. -/
structure HybridCache (R V : Type) where
  kv : Cache
  stateRows : ℕ → R
  kvRows : ℕ → V

/-- A micro-batch: its tokens, the states and rows that the graph computes, whether the end of
the decode asks for a defragmentation, and what a deferred shift or defragmentation leaves of
the key and value rows. -/
structure MicroBatch (R V : Type) where
  tokens : List Token
  states : ℕ → R
  data : ℕ → V
  defragAfter : Bool
  deferred : ℕ → V

/-- What an update depends on besides the cache. -/
structure UpdateParams where
  hasRope : Bool
  canShift : Bool
  maxMoves : ℕ

namespace HybridCache

variable {R V : Type} {p : UpdateParams} {c c' : HybridCache R V} {b : MicroBatch R V}

/-- The rows of `build_s_copy`. -/
def copyStates (c : HybridCache R V) (id : ℕ) : R :=
  if c.kv.hasQnextStateStorage ∧ c.kv.doCopy ∧ id < c.kv.qnextStateSlots then
    c.stateRows (c.kv.cells id).src.toNat
  else c.stateRows id

/-- `llama_kv_cache_update` -/
def update (c : HybridCache R V) (p : UpdateParams) (deferred : ℕ → V) : Option (HybridCache R V) :=
  (c.kv.update p.hasRope p.canShift p.maxMoves).map fun kv =>
    ⟨kv, c.copyStates, if c.kv.hasShift ∨ c.kv.doDefrag then deferred else c.kvRows⟩

/-- One micro-batch of `llama_decode_internal`: `false` where it returns an error. -/
def decode (p : UpdateParams) (c : HybridCache R V) (b : MicroBatch R V) :
    Option (HybridCache R V × Bool) :=
  if p.hasRope ∧ c.kv.hasShift ∧ ¬p.canShift then some (c, false)
  else
    (c.update p b.deferred).map fun c =>
      let placed := c.kv.placeBatch b.tokens
      if placed.2 then
        let head := placed.1.head + b.tokens.length
        let kv := { placed.1 with head := if placed.1.size ≤ head then 0 else head }
        (⟨if b.defragAfter then kv.defrag else kv,
          fun id => if ∃ token ∈ b.tokens, (id : ℤ) ∈ token.seqId then b.states id
            else c.stateRows id,
          fun i => if placed.1.head ≤ i ∧ i < head then b.data (i - placed.1.head)
            else c.kvRows i⟩, true)
      else ({ c with kv := placed.1 }, false)

/-- A micro-batch that is decoded. -/
def DecodeStep (p : UpdateParams) (c : HybridCache R V) (b : MicroBatch R V)
    (c' : HybridCache R V) : Prop :=
  (∀ token ∈ b.tokens, token.Valid) ∧ c.decode p b = some (c', true)

/-- The same, with no shift and no defragmentation deferred. -/
def SettledStep (p : UpdateParams) (c : HybridCache R V) (b : MicroBatch R V)
    (c' : HybridCache R V) : Prop :=
  c.kv.Settled ∧ c.DecodeStep p b c'

/-- The cell holds the token. -/
def CellHolds (cell : Cell) (token : Token) : Prop :=
  cell.pos = token.pos ∧ ∀ id, cell.hasSeqId id ↔ id ∈ token.seqId

/-- The tokens have been placed in cells that were empty, the rest is as it was. -/
structure Extends (before now : HybridCache R V) (tokens : List Token) : Prop where
  size : now.kv.size = before.kv.size
  slots : now.kv.qnextStateSlots = before.kv.qnextStateSlots
  any : now.kv.anyCompacted = before.kv.anyCompacted
  kept : ∀ i, i < before.kv.size → ¬(before.kv.cells i).isEmpty →
    (now.kv.cells i).pos = (before.kv.cells i).pos ∧
      (now.kv.cells i).seqId = (before.kv.cells i).seqId ∧ now.kvRows i = before.kvRows i
  new : ∀ i, i < before.kv.size → (before.kv.cells i).isEmpty → ¬(now.kv.cells i).isEmpty →
    ∃ token ∈ tokens, CellHolds (now.kv.cells i) token
  placed : ∀ token ∈ tokens, ∃ i, i < before.kv.size ∧ (before.kv.cells i).isEmpty ∧
    ¬(now.kv.cells i).isEmpty ∧ CellHolds (now.kv.cells i) token

theorem CellHolds.congr {cell cell' : Cell} {token : Token} (h : CellHolds cell token)
    (hpos : cell'.pos = cell.pos) (hseq : cell'.seqId = cell.seqId) : CellHolds cell' token := by
  refine ⟨hpos.trans h.1, fun id => ?_⟩
  rw [Cell.hasSeqId, hseq]
  exact h.2 id

theorem Extends.isEmpty_iff {tokens : List Token} (h : Extends c c' tokens) {i : ℕ}
    (hi : i < c.kv.size) (huse : ¬(c.kv.cells i).isEmpty) : ¬(c'.kv.cells i).isEmpty := by
  rw [Cell.isEmpty, (h.kept i hi huse).2.1]
  exact huse

theorem Extends.refl (c : HybridCache R V) : Extends c c [] where
  size := rfl
  slots := rfl
  any := rfl
  kept _ _ _ := ⟨rfl, rfl, rfl⟩
  new _ _ hempty hnot := absurd hempty hnot
  placed _ h := absurd h not_mem_nil

theorem Extends.trans {mid : HybridCache R V} {tokens tokens' : List Token}
    (h : Extends c mid tokens) (h' : Extends mid c' tokens') :
    Extends c c' (tokens ++ tokens') where
  size := h'.size.trans h.size
  slots := h'.slots.trans h.slots
  any := h'.any.trans h.any
  kept i hi huse := by
    obtain ⟨hpos, hseq, hrow⟩ := h.kept i hi huse
    obtain ⟨hpos', hseq', hrow'⟩ := h'.kept i (h.size ▸ hi) (h.isEmpty_iff hi huse)
    exact ⟨hpos'.trans hpos, hseq'.trans hseq, hrow'.trans hrow⟩
  new i hi hempty huse := by
    by_cases hmid : (mid.kv.cells i).isEmpty
    · obtain ⟨token, ht, hholds⟩ := h'.new i (h.size ▸ hi) hmid huse
      exact ⟨token, mem_append_right _ ht, hholds⟩
    · obtain ⟨token, ht, hholds⟩ := h.new i hi hempty hmid
      obtain ⟨hpos, hseq, _⟩ := h'.kept i (h.size ▸ hi) hmid
      exact ⟨token, mem_append_left _ ht, hholds.congr hpos hseq⟩
  placed token ht := by
    rcases mem_append.mp ht with ht | ht
    · obtain ⟨i, hi, hempty, huse, hholds⟩ := h.placed token ht
      obtain ⟨hpos, hseq, _⟩ := h'.kept i (h.size ▸ hi) huse
      exact ⟨i, hi, hempty, h'.isEmpty_iff (h.size ▸ hi) huse, hholds.congr hpos hseq⟩
    · obtain ⟨i, hi, hempty, huse, hholds⟩ := h'.placed token ht
      refine ⟨i, h.size ▸ hi, ?_, huse, hholds⟩
      by_contra hnot
      exact h.isEmpty_iff (h.size ▸ hi) hnot hempty

theorem cellHolds_place {cell : Cell} (hcell : cell.isEmpty) (token : Token) :
    CellHolds (cell.place token) token := by
  refine ⟨rfl, fun id => ?_⟩
  show id ∈ token.seqId.foldl (fun ids id => insert id ids) cell.seqId ↔ _
  rw [Cache.mem_foldl_insert, show cell.seqId = ∅ from hcell]
  exact or_iff_left (Finset.notMem_empty id)

theorem CellHolds.not_isEmpty {cell : Cell} {token : Token} (h : CellHolds cell token)
    (ht : token.Valid) : ¬cell.isEmpty := by
  obtain ⟨id, hid⟩ := exists_mem_of_ne_nil _ ht.2
  exact Finset.ne_empty_of_mem ((h.2 id).mpr hid)

/-- The cells of a placed batch. -/
theorem cells_placeTokens (cells : ℕ → Cell) (tokens : List Token) (head i : ℕ) :
    (∃ j, ∃ hj : j < tokens.length, i = head + j ∧
      Cache.placeTokens cells head tokens i = (cells i).place tokens[j]) ∨
    (i < head ∨ head + tokens.length ≤ i) ∧ Cache.placeTokens cells head tokens i = cells i := by
  rcases Nat.lt_or_ge i head with hlt | hge
  · exact .inr ⟨.inl hlt, Cache.placeTokens_of_lt hlt⟩
  · obtain ⟨j, rfl⟩ := Nat.exists_eq_add_of_le hge
    rcases Nat.lt_or_ge j tokens.length with hj | hj
    · exact .inl ⟨j, hj, rfl, Cache.placeTokens_add hj⟩
    · have hle : head + tokens.length ≤ head + j := Nat.add_le_add_left hj head
      exact .inr ⟨.inr hle, Cache.placeTokens_of_ge hle⟩

/-- The cache after a micro-batch. -/
theorem SettledStep.spec (h : SettledStep p c b c') (hc : c.kv.Consistent) :
    ∃ head, head + b.tokens.length ≤ c.kv.size ∧
      (∀ j, j < b.tokens.length → (c.kv.cells (head + j)).pos < 0) ∧
      c'.kv.cells = Cache.placeTokens c.kv.updateCopy.cells head b.tokens ∧
      c'.kv.size = c.kv.size ∧ c'.kv.qnextStateSlots = c.kv.qnextStateSlots ∧
      c'.kv.anyCompacted = c.kv.anyCompacted ∧ c'.kv.Consistent ∧
      (∀ id : ℕ, (∀ token ∈ b.tokens, (id : ℤ) ∉ token.seqId) → c'.stateRows id = c.copyStates id) ∧
      ∀ i, i < head ∨ head + b.tokens.length ≤ i → c'.kvRows i = c.kvRows i := by
  obtain ⟨hsettled, hvalid, hrun⟩ := h
  have hrows : ¬(c.kv.hasShift = true ∨ c.kv.doDefrag = true) := by
    rintro (hshift | hdefrag)
    · exact Bool.false_ne_true (hsettled.shift.symm.trans hshift)
    · exact Bool.false_ne_true (hsettled.defrag.symm.trans hdefrag)
  rw [decode, if_neg (fun hno => hrows (.inl hno.2.1)), update, Cache.update_settled hsettled,
    map_some, map_some, if_neg hrows] at hrun
  obtain ⟨htokens, hsize₁, hslots₁, hany₁⟩ := c.kv.frame_updateCopy
  have hmid := hc.updateCopy
  dsimp only at hrun
  split at hrun
  case isFalse => exact absurd (congrArg Prod.snd (some.inj hrun)) Bool.false_ne_true
  case isTrue hplaced =>
    obtain ⟨head, hroom, hfree, heq⟩ := Cache.placeBatch_spec hmid.head hplaced
    obtain rfl := congrArg Prod.fst (some.inj hrun)
    have hbooked := hmid.toBooked.placeTokens hroom hfree hvalid
    rw [heq]
    obtain ⟨hcells, hsize, hslots, hany, hcons⟩ := Cache.frame_defrag ({ c.kv.updateCopy with
        head := if c.kv.updateCopy.size ≤ head + b.tokens.length then 0
          else head + b.tokens.length
        cells := Cache.placeTokens c.kv.updateCopy.cells head b.tokens
        used := c.kv.updateCopy.used + b.tokens.length } : Cache) b.defragAfter
    refine ⟨head, hsize₁ ▸ hroom, fun j hj => ?_, hcells, hsize.trans hsize₁,
      hslots.trans hslots₁, hany.trans hany₁, hcons ?_, ?_, ?_⟩
    · rw [← (htokens (head + j)).1]
      exact hfree j hj
    · refine ⟨⟨hbooked.valid, hbooked.used, hbooked.slots, hbooked.src⟩, ?_⟩
      show (if c.kv.updateCopy.size ≤ head + b.tokens.length then 0
        else head + b.tokens.length) ≤ c.kv.updateCopy.size
      split
      case isTrue => exact Nat.zero_le _
      case isFalse => exact hroom
    · intro id hid
      refine if_neg ?_
      rintro ⟨token, ht, hmem⟩
      exact hid token ht hmem
    · intro i hi
      refine if_neg ?_
      rintro ⟨hle, hlt⟩
      rcases hi with hbefore | hafter
      · exact absurd hle (Nat.not_le.mpr hbefore)
      · exact absurd hlt (Nat.not_lt.mpr hafter)

/-- Without a deferred copy the states stay where they are. -/
theorem copyStates_of_idle (hidle : c.kv.Idle) : c.copyStates = c.stateRows := by
  funext id
  refine if_neg ?_
  rintro ⟨_, hcopy, _⟩
  exact Bool.false_ne_true (hidle.copy.symm.trans hcopy)

/-- What a micro-batch does where the search ends at `k`. -/
def placed (c : HybridCache R V) (b : MicroBatch R V) (k : ℕ) : HybridCache R V where
  kv := { c.kv with
    head := if c.kv.size ≤ k + b.tokens.length then 0 else k + b.tokens.length
    cells := Cache.placeTokens c.kv.cells k b.tokens
    used := c.kv.used + b.tokens.length }
  stateRows id := if ∃ token ∈ b.tokens, (id : ℤ) ∈ token.seqId then b.states id
    else c.stateRows id
  kvRows i := if k ≤ i ∧ i < k + b.tokens.length then b.data (i - k) else c.kvRows i

/-- A micro-batch is decoded where the search finds a window. -/
theorem decode_of_first (hidle : c.kv.Idle) (hhead : c.kv.head ≤ c.kv.size)
    (hnear : c.kv.head ≤ c.kv.used + 2 * b.tokens.length) (hn : 0 < b.tokens.length) {k : ℕ}
    (hfirst : FirstWindow c.kv.cells c.kv.size b.tokens.length c.kv.head k)
    (hafter : b.defragAfter = false) : c.decode p b = some (c.placed b k, true) := by
  have hshift : ¬c.kv.hasShift = true := fun h => Bool.false_ne_true (hidle.shift.symm.trans h)
  have hdefrag : ¬c.kv.doDefrag = true := fun h => Bool.false_ne_true (hidle.defrag.symm.trans h)
  have hcopy : c.kv.updateCopy = c.kv := by
    rw [Cache.updateCopy, if_neg]
    rintro ⟨_, hcopy⟩
    exact Bool.false_ne_true (hidle.copy.symm.trans hcopy)
  rw [decode, if_neg fun hno => hshift hno.2.1, update, Cache.update_settled hidle.toSettled, hcopy,
    copyStates_of_idle hidle, map_some, map_some,
    if_neg (not_or.mpr ⟨hshift, hdefrag⟩)]
  dsimp only
  rw [Cache.placeBatch_of_first hhead hnear hn hfirst, if_pos rfl, hafter,
    if_neg Bool.false_ne_true]
  rfl

/-- A micro-batch adds its tokens. -/
theorem SettledStep.extends (h : SettledStep p c b c') (hc : c.kv.Consistent) :
    Extends c c' b.tokens ∧ c'.kv.Consistent := by
  obtain ⟨head, hroom, hfree, hcells, hsize, hslots, hany, hcons, _, hrows⟩ := h.spec hc
  have hvalid := h.2.1
  have htokens := c.kv.frame_updateCopy.1
  have hempty : ∀ j, j < b.tokens.length → (c.kv.cells (head + j)).isEmpty := fun j hj =>
    (hc.valid _ ((Nat.add_lt_add_left hj head).trans_le hroom)).isEmpty_of_neg (hfree j hj)
  have hin : ∀ j (hj : j < b.tokens.length), CellHolds (c'.kv.cells (head + j)) b.tokens[j] := by
    intro j hj
    rw [hcells, Cache.placeTokens_add hj]
    exact cellHolds_place ((htokens (head + j)).2.trans (hempty j hj)) _
  refine ⟨⟨hsize, hslots, hany, ?_, ?_, ?_⟩, hcons⟩
  · intro i _ huse
    rcases cells_placeTokens c.kv.updateCopy.cells b.tokens head i with
      ⟨j, hj, rfl, _⟩ | ⟨hout, heq⟩
    · exact absurd (hempty j hj) huse
    · rw [hcells, heq]
      exact ⟨(htokens i).1, (htokens i).2, hrows i hout⟩
  · intro i _ hnone huse
    rcases cells_placeTokens c.kv.updateCopy.cells b.tokens head i with
      ⟨j, hj, rfl, _⟩ | ⟨hout, heq⟩
    · exact ⟨_, getElem_mem hj, hin j hj⟩
    · rw [hcells, heq] at huse
      exact absurd ((htokens i).2.trans hnone) huse
  · intro token ht
    obtain ⟨j, hj, rfl⟩ := mem_iff_getElem.mp ht
    refine ⟨head + j, (Nat.add_lt_add_left hj head).trans_le hroom, hempty j hj, ?_, hin j hj⟩
    exact (hin j hj).not_isEmpty (hvalid _ ht)

/-- The tokens of a run. -/
def tokensOf (bs : List (MicroBatch R V)) : List Token := bs.flatMap MicroBatch.tokens

/-- The run lemma. -/
theorem extends_run {bs : List (MicroBatch R V)} (h : Steps (SettledStep p) c bs c')
    (hc : c.kv.Consistent) : Extends c c' (tokensOf bs) ∧ c'.kv.Consistent := by
  refine h.history (P := fun bs c' => Extends c c' (tokensOf bs) ∧ c'.kv.Consistent)
    (fun bs mid b after _ hmid hstep => ?_) ⟨.refl c, hc⟩
  obtain ⟨hext, hcons⟩ := hstep.extends hmid.2
  rw [tokensOf, flatMap_append, flatMap_singleton]
  exact ⟨hmid.1.trans hext, hcons⟩

end HybridCache

end ExpertPin.Kv
