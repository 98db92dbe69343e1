import ExpertPin.Kv.Hybrid

/-!
# The partial state of a sequence

With `LLAMA_STATE_SEQ_FLAGS_PARTIAL_ONLY` the state of a sequence in a hybrid cache is the
positions of its cells and its state row.  The key and value rows are not part of it: they
are taken to be in the cells still.  Reading it frees the cells of the sequence and places
the positions again, wherever the search for cells finds room.

Where the sequence had a block of cells to itself and the search comes to this block first,
each position is back in its cell (`partialOnly_run`).
-/

namespace ExpertPin.Kv

open Runs
open List

/-- What the state of a sequence holds beside fields that describe the layers. -/
structure PartialState (R : Type) where
  pos : List ℤ
  row : Option R

namespace Cache

/-- The cells that carry the sequence, in the order in which they are saved. -/
def cellsOf (cache : Cache) (id : ℤ) : List ℕ :=
  (List.range cache.size).filter fun i => (cache.cells i).hasSeqId id

/-- `llama_kv_qnext_seq_id_in_range` -/
def slotInRange (cache : Cache) (id : ℤ) : Prop :=
  0 < cache.qnextStateSlots ∧ 0 ≤ id ∧ id < cache.qnextStateSlots

instance (cache : Cache) (id : ℤ) : Decidable (cache.slotInRange id) :=
  inferInstanceAs (Decidable (_ ∧ _))

end Cache

namespace HybridCache

variable {R V : Type}

/-- `write_kv_cache` for one sequence -/
def writePartial (c : HybridCache R V) (id : ℤ) : PartialState R where
  pos := (c.kv.cellsOf id).map fun i => (c.kv.cells i).pos
  row :=
    if c.kv.seqIdInRange id ∧ c.kv.slotInRange (c.kv.cells id.toNat).src then
      some (c.stateRows (c.kv.cells id.toNat).src.toNat)
    else none

/-- What `read_kv_cache` does before it throws. -/
def cleanup (c : HybridCache R V) (id : ℤ) : Option (HybridCache R V × Bool) :=
  (c.kv.seqRm id (-1) (-1)).map fun removed => ({ c with kv := removed.1 }, false)

/-- `read_kv_cache` for one sequence: `false` where it throws, and `none` where an assertion
fails. Without cells it compares positions that are not there. -/
def readPartial (c : HybridCache R V) (saved : PartialState R) (id : ℤ) :
    Option (HybridCache R V × Bool) :=
  if c.kv.size < saved.pos.length then c.cleanup id
  else
    (c.kv.seqRm id (-1) (-1)).bind fun removed =>
      let found := removed.1.findSlot (saved.pos.map fun pos => ⟨pos, [id]⟩)
      let c := { c with kv := found.1 }
      if ¬found.2 then c.cleanup id
      else if saved.pos = [] then none
      else
        match saved.row with
        | none => if c.kv.slotInRange id then c.cleanup id else some (c, true)
        | some row =>
          if c.kv.slotInRange id then
            some ({ c with stateRows := Function.update c.stateRows id.toNat row }, true)
          else c.cleanup id

end HybridCache

/-! ## A block of own cells -/

namespace Cache

variable {cache : Cache} {id : ℤ} {k n : ℕ}

/-- The sequence has the cells from `k` on to itself, and no others. -/
structure OwnBlock (cache : Cache) (id : ℤ) (k n : ℕ) : Prop where
  pos : 0 < n
  room : k + n ≤ cache.size
  own : ∀ j, j < n → (cache.cells (k + j)).seqId = {id}
  only : ∀ i, i < cache.size → (cache.cells i).hasSeqId id → k ≤ i ∧ i < k + n

theorem OwnBlock.mem_iff (h : cache.OwnBlock id k n) {i : ℕ} (hi : i < cache.size) :
    (cache.cells i).hasSeqId id ↔ k ≤ i ∧ i < k + n := by
  refine ⟨h.only i hi, ?_⟩
  rintro ⟨hle, hlt⟩
  obtain ⟨j, rfl⟩ := Nat.exists_eq_add_of_le hle
  rw [Cell.hasSeqId, h.own j (Nat.lt_of_add_lt_add_left hlt)]
  exact Finset.mem_singleton_self id

/-- The saved cells are those of the block. -/
theorem OwnBlock.cellsOf (h : cache.OwnBlock id k n) :
    cache.cellsOf id = (List.range n).map (k + ·) := by
  obtain ⟨m, hm⟩ := Nat.exists_eq_add_of_le h.room
  have hsplit : range cache.size = range k ++ ((range n).map (k + ·) ++
        (range m).map fun i => k + (n + i)) := by
    rw [hm, Nat.add_assoc, range_add, range_add, map_append, map_map]
    rfl
  have hmem : ∀ i, i < cache.size → (decide ((cache.cells i).hasSeqId id) = true ↔
      k ≤ i ∧ i < k + n) := fun i hi => by rw [decide_eq_true_eq, h.mem_iff hi]
  rw [Cache.cellsOf, hsplit, filter_append, filter_append]
  have hbefore : (range k).filter (fun i => (cache.cells i).hasSeqId id) = [] := by
    rw [filter_eq_nil_iff]
    intro i hi hin
    have hlt := mem_range.mp hi
    have hle := ((hmem i (by omega)).mp hin).1
    exact absurd hle (Nat.not_le.mpr hlt)
  have hblock : ((range n).map (k + ·)).filter (fun i => (cache.cells i).hasSeqId id) =
      (range n).map (k + ·) := by
    rw [filter_eq_self]
    intro i hi
    obtain ⟨j, hj, rfl⟩ := mem_map.mp hi
    have hlt := mem_range.mp hj
    exact (hmem (k + j) (by omega)).mpr ⟨Nat.le_add_right k j, Nat.add_lt_add_left hlt k⟩
  have hafter : ((range m).map fun i => k + (n + i)).filter
      (fun i => (cache.cells i).hasSeqId id) = [] := by
    rw [filter_eq_nil_iff]
    intro i hi hin
    obtain ⟨j, hj, rfl⟩ := mem_map.mp hi
    have hlt := mem_range.mp hj
    have hin' := ((hmem (k + (n + j)) (by omega)).mp hin).2
    omega
  rw [hbefore, hblock, hafter, append_nil, nil_append]

end Cache

namespace HybridCache

variable {R V : Type} {p : UpdateParams} {c now : HybridCache R V} {bs : List (MicroBatch R V)}
  {id : ℤ} {k n : ℕ}

/-- The state row of the sequence is in range, if the sequence has one. -/
def SrcInRange (c : HybridCache R V) (id : ℤ) : Prop :=
  c.kv.slotInRange id → c.kv.slotInRange (c.kv.cells id.toNat).src

/-- What is saved of a block. -/
theorem writePartial_pos (h : c.kv.OwnBlock id k n) :
    (c.writePartial id).pos = (List.range n).map fun j => (c.kv.cells (k + j)).pos := by
  rw [writePartial, h.cellsOf, map_map]
  rfl

/-- The cells with the sequence freed, once more tokens have been decoded. -/
def freed (now : HybridCache R V) (id : ℤ) : Cache := now.kv.sweepRm id (-1) (-1)

/-- The search for the saved cells comes back to the block. -/
def Returns (now : HybridCache R V) (id : ℤ) (k n : ℕ) : Prop :=
  FirstWindow (now.freed id).cells now.kv.size n (now.freed id).head k

theorem size_freed (now : HybridCache R V) (id : ℤ) : (now.freed id).size = now.kv.size :=
  (now.kv.sameMap_sweepRm id (-1) (-1)).size

/-- The positions that a removal of everything reaches: `INT32_MAX` is not among them. -/
def Below (cache : Cache) (id : ℤ) : Prop := ∀ i pos, cache.Carries id i pos → pos < 2 ^ 31 - 1

/-- Freeing a sequence frees all its cells, and nothing of the others. -/
theorem carries_freed (hid : 0 ≤ id) (hc : now.kv.Consistent) (hbelow : Below now.kv id) {t : ℤ}
    {i : ℕ} {pos : ℤ} :
    (now.freed id).Carries t i pos ↔ t ≠ id ∧ now.kv.Carries t i pos := by
  rw [freed, Cache.carries_sweepRm hid]
  constructor
  · rintro ⟨hcarries, hstay⟩
    refine ⟨?_, hcarries⟩
    rintro rfl
    refine hstay ⟨rfl, ?_, hbelow i pos hcarries⟩
    obtain ⟨hi, hhas, rfl⟩ := hcarries
    exact (hc.valid i hi).mpr (Finset.ne_empty_of_mem hhas)
  · rintro ⟨hne, hcarries⟩
    exact ⟨hcarries, fun hgone => hne hgone.1⟩

theorem consistent_freed (hplain : now.kv.anyCompacted = false) (hc : now.kv.Consistent)
    (id : ℤ) : (now.freed id).Consistent := hc.seqRm (Cache.seqRm_plain hplain id (-1) (-1))

/-- The positions are placed where the search ends. -/
theorem readPartial_found (saved : PartialState R) (hplain : now.kv.anyCompacted = false)
    (hc : now.kv.Consistent) (hn : 0 < n) (hlen : saved.pos.length = n)
    (hret : now.Returns id k n) (hrow : saved.row.isSome ↔ now.kv.slotInRange id) :
    ∃ rows, now.readPartial saved id = some (⟨{ now.freed id with
        head := k
        cells := Cache.placeTokens (now.freed id).cells k (saved.pos.map fun pos => ⟨pos, [id]⟩)
        used := (now.freed id).used + n }, rows, now.kvRows⟩, true) ∧
      ∀ t, t ≠ id.toNat → rows t = now.stateRows t := by
  have hroom := hret.room
  have hsize := now.size_freed id
  have hslots : (now.freed id).qnextStateSlots = now.kv.qnextStateSlots :=
    now.kv.slots_sweepRm id (-1) (-1)
  have hle : (saved.pos.map fun pos => (⟨pos, [id]⟩ : Token)).length ≤ (now.freed id).size := by
    rw [length_map, hlen, hsize]
    exact (Nat.le_add_left n k).trans hroom
  have hsearch : Cache.slotSearch (now.freed id).cells hle (now.freed id).head 0 = (true, k) := by
    apply Cache.slotSearch_of_first
    · rw [length_map, hlen]
      exact hn
    · exact (consistent_freed hplain hc id).head
    · rw [length_map, hlen, hsize]
      exact hret
  have hfound : (now.freed id).findSlot (saved.pos.map fun pos => ⟨pos, [id]⟩) =
      ({ now.freed id with
        head := k
        cells := Cache.placeTokens (now.freed id).cells k (saved.pos.map fun pos => ⟨pos, [id]⟩)
        used := (now.freed id).used + n }, true) := by
    rw [Cache.findSlot, dif_pos hle]
    dsimp only
    rw [hsearch, if_pos rfl, length_map, hlen]
  have hne : saved.pos ≠ [] := by
    rintro heq
    rw [heq] at hlen
    exact absurd hlen (Nat.ne_of_lt hn)
  have hfit : ¬now.kv.size < saved.pos.length := by
    rw [hlen]
    exact Nat.not_lt.mpr ((Nat.le_add_left n k).trans hroom)
  rw [readPartial, if_neg hfit, Cache.seqRm_plain hplain, Option.bind_some]
  dsimp only
  rw [← freed, hfound, if_neg (not_not_intro rfl), if_neg hne]
  cases hcase : saved.row with
  | none =>
    have hout : ¬now.kv.slotInRange id := by
      rw [← hrow, hcase]
      exact Bool.false_ne_true
    refine ⟨now.stateRows, if_neg ?_, fun _ _ => rfl⟩
    rw [Cache.slotInRange, hslots]
    exact hout
  | some row =>
    have hin : now.kv.slotInRange id := by
      rw [← hrow, hcase]
      rfl
    refine ⟨_, if_pos ?_, fun t ht => Function.update_of_ne ht _ _⟩
    rw [Cache.slotInRange, hslots]
    exact hin

/-- The cells of a sequence are as they were, those of the others as they are now. -/
structure Reseated (before now after : Cache) (id : ℤ) : Prop where
  own : ∀ i pos, after.Carries id i pos ↔ before.Carries id i pos
  others : ∀ t, t ≠ id → ∀ i pos, after.Carries t i pos ↔ now.Carries t i pos

/-- Reading a block back where it was. -/
theorem reseated_of_returns (hid : 0 ≤ id) (hplain : now.kv.anyCompacted = false)
    (hc : now.kv.Consistent) (hbelow : Below now.kv id) (hsize : now.kv.size = c.kv.size)
    (hslots : now.kv.qnextStateSlots = c.kv.qnextStateSlots) (hbefore : c.kv.Consistent)
    (hsrc : c.SrcInRange id)
    (hblock : c.kv.OwnBlock id k n) (hret : now.Returns id k n) :
    ∃ after, now.readPartial (c.writePartial id) id = some (after, true) ∧
      after.kvRows = now.kvRows ∧ (∀ t, t ≠ id.toNat → after.stateRows t = now.stateRows t) ∧
      after.kv.Counted ∧ after.kv.anyCompacted = false ∧ Reseated c.kv now.kv after.kv id := by
  have hsaved := writePartial_pos hblock
  have hlen : (c.writePartial id).pos.length = n := by
    rw [hsaved, length_map, length_range]
  have hrow : (c.writePartial id).row.isSome ↔ now.kv.slotInRange id := by
    have hcongr : now.kv.slotInRange id ↔ c.kv.slotInRange id := by
      rw [Cache.slotInRange, Cache.slotInRange, hslots]
    rw [hcongr, writePartial]
    dsimp only
    constructor
    · intro hsome
      split at hsome
      case isTrue hin => exact hin.1.1
      case isFalse => cases hsome
    · intro hin
      have hlt : id < c.kv.size := hin.2.2.trans_le (Int.ofNat_le.mpr hbefore.slots)
      rw [if_pos ⟨⟨hin, hlt⟩, hsrc hin⟩]
      rfl
  obtain ⟨rows, hread, hothers⟩ := readPartial_found _ hplain hc hblock.pos hlen hret hrow
  let batch : List Token := (c.writePartial id).pos.map fun pos => ⟨pos, [id]⟩
  have hcons := consistent_freed hplain hc id
  have hfsize := now.size_freed id
  have hbatch : batch.length = n := (length_map _).trans hlen
  have hget : ∀ j (hj : j < batch.length), batch[j] = ⟨(c.kv.cells (k + j)).pos, [id]⟩ := by
    intro j hj
    simp only [batch, hsaved, getElem_map, getElem_range]
  have hroom : k + batch.length ≤ (now.freed id).size := by
    rw [hbatch, hfsize]
    exact hret.room
  have hfree : ∀ j, j < batch.length → ((now.freed id).cells (k + j)).pos < 0 :=
    fun j hj => hret.free j (hbatch ▸ hj)
  have hempty : ∀ j, j < batch.length → ((now.freed id).cells (k + j)).isEmpty := fun j hj =>
    (hcons.valid _ ((Nat.add_lt_add_left hj k).trans_le hroom)).isEmpty_of_neg (hfree j hj)
  have hheld : ∀ j, j < n → (c.kv.cells (k + j)).hasSeqId id := by
    intro j hj
    rw [Cell.hasSeqId, hblock.own j hj]
    exact Finset.mem_singleton_self id
  have hposValid : ∀ token ∈ batch, token.Valid := by
    intro token ht
    obtain ⟨j, hj, rfl⟩ := mem_iff_getElem.mp ht
    rw [hget j hj]
    have hjn := hbatch ▸ hj
    have hlt := (Nat.add_lt_add_left hjn k).trans_le hblock.room
    exact ⟨(hbefore.valid _ hlt).mpr (Finset.ne_empty_of_mem (hheld j hjn)), cons_ne_nil id []⟩
  refine ⟨_, hread, rfl, hothers, ?_, ?_, ?_, ?_⟩
  · have hbooked := hcons.toBooked.placeTokens hroom hfree hposValid
    have hcount := hbooked.used
    rw [hbatch] at hcount
    exact hcount
  · exact (now.kv.sameMap_sweepRm id (-1) (-1)).any.trans hplain
  · intro i pos
    show i < (now.freed id).size ∧ (Cache.placeTokens (now.freed id).cells k batch i).hasSeqId id ∧
      (Cache.placeTokens (now.freed id).cells k batch i).pos = pos ↔ _
    rw [Cache.Carries, hfsize, hsize]
    refine and_congr_right fun hi => ?_
    rcases cells_placeTokens (now.freed id).cells batch k i with ⟨j, hj, rfl, heq⟩ | ⟨hout, heq⟩
    · have hcell := cellHolds_place (hempty j hj) batch[j]
      rw [heq, hcell.2, hcell.1, hget j hj]
      exact and_congr_left fun _ => iff_of_true mem_cons_self (hheld j (hbatch ▸ hj))
    · rw [heq]
      constructor
      · rintro ⟨hhas, hpos⟩
        have hcarries : (now.freed id).Carries id i pos := by
          refine ⟨?_, hhas, hpos⟩
          rw [hfsize, hsize]
          exact hi
        exact absurd rfl ((carries_freed hid hc hbelow).mp hcarries).1
      · rintro ⟨hhas, _⟩
        obtain ⟨hle, hlt⟩ := hblock.only i hi hhas
        rw [hbatch] at hout
        omega
  · intro t ht i pos
    show i < (now.freed id).size ∧ (Cache.placeTokens (now.freed id).cells k batch i).hasSeqId t ∧
      (Cache.placeTokens (now.freed id).cells k batch i).pos = pos ↔ _
    have hiff : (now.freed id).Carries t i pos ↔ now.kv.Carries t i pos :=
      (carries_freed hid hc hbelow).trans (and_iff_right ht)
    rcases cells_placeTokens (now.freed id).cells batch k i with ⟨j, hj, rfl, heq⟩ | ⟨_, heq⟩
    · have hcell := cellHolds_place (hempty j hj) batch[j]
      rw [← hiff, heq, hcell.2, hget j hj]
      constructor
      · rintro ⟨_, hmem, _⟩
        exact absurd (mem_singleton.mp hmem) ht
      · rintro ⟨_, hhas, _⟩
        exact absurd (hempty j hj) (Finset.ne_empty_of_mem hhas)
    · rw [heq]
      exact hiff

/-! ## Saving, decoding and reading back -/

/-- The sequence has its positions, each in a cell whose rows were computed for it. -/
structure KeysAttached (before after : HybridCache R V) (id : ℤ) : Prop where
  keys : ∀ i pos, after.kv.Carries id i pos →
    ∃ j, before.kv.Carries id j pos ∧ after.kvRows i = before.kvRows j
  positions : ∀ pos, (∃ i, after.kv.Carries id i pos) ↔ ∃ i, before.kv.Carries id i pos

/-- A block that the search comes back to keeps its keys. -/
theorem partialOnly_run (hid : 0 ≤ id) (hplain : c.kv.anyCompacted = false)
    (hc : c.kv.Consistent) (hblock : c.kv.OwnBlock id k n) (hsrc : c.SrcInRange id)
    (hrun : Steps (SettledStep p) c bs now) (hbelow : Below now.kv id)
    (hret : now.Returns id k n) :
    ∃ after, now.readPartial (c.writePartial id) id = some (after, true) ∧
      KeysAttached c after id := by
  obtain ⟨hext, hnow⟩ := extends_run hrun hc
  obtain ⟨after, hread, hrows, _, _, _, hseat⟩ := reseated_of_returns hid
    (hext.any.trans hplain) hnow hbelow hext.size hext.slots hc hsrc hblock hret
  refine ⟨after, hread, fun i pos hcarries => ?_, fun pos => ?_⟩
  · have hold := (hseat.own i pos).mp hcarries
    refine ⟨i, hold, ?_⟩
    rw [hrows]
    exact (hext.kept i hold.1 (Finset.ne_empty_of_mem hold.2.1)).2.2
  · exact exists_congr fun i => hseat.own i pos

/-- Two cells in a row. -/
def pair : HybridCache ℕ ℕ where
  kv := { Cache.init 4 2 true true false false (0, 0) with
    used := 2
    head := 2
    cells := fun i => if i < 2 then ⟨i, 0, i, {0}⟩ else ⟨-1, 0, i, ∅⟩ }
  stateRows i := i
  kvRows i := i

theorem consistent_pair : pair.kv.Consistent where
  valid := by decide
  used := by decide
  slots := by decide
  src _ _ := by decide
  head := by decide

theorem returns_pair : pair.Returns 0 0 2 where
  room := by decide
  free j hj := by
    revert j
    decide
  ahead _ i _ hi := absurd hi (Nat.not_lt_zero i)
  around h := absurd h (by decide)

theorem partialOnly_run_pair : ∃ after,
    pair.readPartial (pair.writePartial 0) 0 = some (after, true) ∧ KeysAttached pair after 0 := by
  have hblock : pair.kv.OwnBlock 0 0 2 := by
    refine ⟨by decide, by decide, fun j hj => ?_, fun i hi hhas => ⟨Nat.zero_le i, ?_⟩⟩
    · revert j
      decide
    · revert i
      decide
  have hbelow : Below pair.kv 0 := by
    rintro i pos ⟨hi, _, rfl⟩
    revert i
    decide
  exact partialOnly_run (p := ⟨true, true, 0⟩) (Int.le_refl 0) rfl consistent_pair hblock
    (fun _ => by decide) .refl hbelow returns_pair

/-- Two sequences that took turns. -/
def interleaved : HybridCache ℕ ℕ where
  kv := { Cache.init 4 2 true true false false (0, 0) with
    used := 3
    head := 3
    cells := fun i =>
      if i = 0 then ⟨0, 0, 0, {0}⟩
      else if i = 1 then ⟨0, 0, 1, {1}⟩
      else if i = 2 then ⟨1, 0, 2, {0}⟩
      else ⟨-1, 0, i, ∅⟩ }
  stateRows i := i
  kvRows i := i

theorem consistent_interleaved : interleaved.kv.Consistent where
  valid := by decide
  used := by decide
  slots := by decide
  src _ _ := by decide
  head := by decide

/-- The search goes past the cell of the other sequence. -/
theorem returns_interleaved : interleaved.Returns 0 2 2 where
  room := by decide
  free j hj := by
    revert j
    decide
  ahead _ i _ hi := by
    have hno : ∀ i, i < 2 → ∃ j, j < 2 ∧ 0 ≤ ((interleaved.freed 0).cells (i + j)).pos := by decide
    obtain ⟨j, hj, hpos⟩ := hno i hi
    exact fun hfree => absurd hpos (Int.not_le.mpr (hfree j hj))
  around h := absurd h (by decide)

/-- Position 0 comes to the cell of position 1. -/
theorem not_partialOnly : ¬∀ (c now : HybridCache ℕ ℕ) (p : UpdateParams)
    (bs : List (MicroBatch ℕ ℕ)) (id : ℤ), 0 ≤ id → c.kv.anyCompacted = false →
    c.kv.hasQnextStateStorage → c.kv.Consistent → Steps (DecodeStep p) c bs now →
    ∃ after, now.readPartial (c.writePartial id) id = some (after, true) ∧
      KeysAttached c after id := by
  intro hall
  obtain ⟨after, hread, hkeys⟩ := hall interleaved interleaved ⟨true, true, 0⟩ [] 0
    (Int.le_refl 0) rfl (by decide) consistent_interleaved .refl
  obtain ⟨rows, hfound, _⟩ := readPartial_found (interleaved.writePartial 0) rfl
    consistent_interleaved (by decide) (by decide) returns_interleaved (by decide)
  rw [hread] at hfound
  obtain rfl := congrArg Prod.fst (Option.some.inj hfound)
  have hcell : (Cache.placeTokens (interleaved.freed 0).cells 2
      [⟨0, [0]⟩, ⟨1, [0]⟩] 2).hasSeqId 0 ∧ (Cache.placeTokens (interleaved.freed 0).cells 2
      [⟨0, [0]⟩, ⟨1, [0]⟩] 2).pos = 0 := by decide
  obtain ⟨j, ⟨hj, hhas, hpos⟩, hrow⟩ := hkeys.keys 2 0 ⟨(by decide : 2 < 4), hcell⟩
  have hzero : ∀ j, j < 4 → (interleaved.kv.cells j).hasSeqId 0 →
      (interleaved.kv.cells j).pos = 0 → j = 0 := by decide
  obtain rfl := hzero j hj hhas hpos
  exact absurd (show 2 = 0 from hrow) (by decide)

end HybridCache

end ExpertPin.Kv
