import ExpertPin.Kv.Compact

/-!
# The cells and the compacted map

The cells of a compacted cache and its affine map describe the same tokens: the positions
of the used cells at or above `pos_base_swa` are those of the window (`Mapped`).  Decodes,
compactions and removals keep that (`Mapped.step`), and a removal that is refused changes
nothing.
-/

namespace ExpertPin.Kv

open Runs
open Finset
open Nat

/-! ## The cells an operation changes -/

/-- A placed token takes its position, and the sequences are added. -/
def Cell.place (cell : Cell) (token : Token) : Cell :=
  { cell with
    pos := token.pos
    seqId := token.seqId.foldl (fun ids id => insert id ids) cell.seqId }

namespace Cache

variable {cache : Cache} {i : ℕ}

theorem placeTokens_of_lt {cells : ℕ → Cell} {tokens : List Token} {head : ℕ} (h : i < head) :
    placeTokens cells head tokens i = cells i := by
  induction tokens generalizing cells head with
  | nil => rfl
  | cons token tokens ih =>
    rw [placeTokens, ih (Nat.lt_succ_of_lt h)]
    exact Function.update_of_ne (Nat.ne_of_lt h) _ _

theorem placeTokens_add {cells : ℕ → Cell} {tokens : List Token} {head j : ℕ}
    (hj : j < tokens.length) :
    placeTokens cells head tokens (head + j) = (cells (head + j)).place tokens[j] := by
  induction tokens generalizing cells head j with
  | nil => exact absurd hj (not_lt_zero j)
  | cons token tokens ih =>
    rw [placeTokens]
    cases j with
    | zero =>
      show placeTokens _ (head + 1) tokens head = _
      rw [placeTokens_of_lt (lt_succ_self head)]
      exact Function.update_self _ _ _
    | succ j =>
      have hnext : head + (j + 1) = head + 1 + j := by omega
      rw [hnext, ih (lt_of_succ_lt_succ hj), Function.update_of_ne (by omega),
        List.getElem_cons_succ]

/-- The cells that a successful search has found. -/
theorem findSlot_placed (cache : Cache) {batch : List Token} (hhead : cache.head ≤ cache.size)
    (h : (cache.findSlot batch).2 = true) :
    ∃ head, head + batch.length ≤ cache.size ∧
      (∀ j, j < batch.length → (cache.cells (head + j)).pos < 0) ∧
      (cache.findSlot batch).1.cells = placeTokens cache.cells head batch := by
  rw [findSlot] at h ⊢
  split at h
  case isFalse => cases h
  case isTrue hlen =>
    rw [dif_pos hlen]
    obtain ⟨_, hspec⟩ := slotSearch_spec cache.cells 0 hlen hhead
    dsimp only at h ⊢
    split at h
    case isFalse => cases h
    case isTrue hfound =>
      rw [if_pos hfound]
      obtain ⟨hroom, hfree⟩ := hspec hfound
      exact ⟨_, hroom, hfree, rfl⟩

theorem findSlot_refused {batch : List Token} (h : (cache.findSlot batch).2 = false) :
    (cache.findSlot batch).1.cells = cache.cells := by
  rw [findSlot] at h ⊢
  split at h
  case isFalse hlen => rw [dif_neg hlen]
  case isTrue hlen =>
    rw [dif_pos hlen]
    dsimp only at h ⊢
    split at h
    case isTrue => cases h
    case isFalse hno => rw [if_neg hno]

/-- What is left of a cell by a removal of `[p0, p1)` of a sequence. -/
structure Removed (seqId p0 p1 : ℤ) (cell after : Cell) : Prop where
  seqs : after.seqId = if cell.posIn p0 p1 then
    if seqId < 0 then ∅ else cell.seqId.erase seqId else cell.seqId
  pos : ¬after.isEmpty → after.pos = cell.pos

theorem removed_seqRmCell (seqId p0 p1 : ℤ) (s : Sweep) (i : ℕ) :
    Removed seqId p0 p1 (s.cache.cells i) ((seqRmCell seqId p0 p1 s i).cache.cells i) := by
  rw [seqRmCell]
  split
  case isFalse hout => exact ⟨(if_neg hout).symm, fun _ => rfl⟩
  case isTrue hin =>
    split
    case isTrue hkeep =>
      refine ⟨?_, fun _ => rfl⟩
      rw [if_pos hin, if_neg (Int.not_lt.mpr hkeep.1)]
      exact (erase_eq_of_notMem hkeep.2).symm
    case isFalse =>
      generalize hids : (if seqId < 0 then ∅ else (s.cache.cells i).seqId.erase seqId) = ids
      by_cases hnone : ids = ∅
      · rw [if_pos hnone]
        have hfreed : ((s.free i { s.cache.cells i with
            pos := -1, seqId := ∅, src := s.cache.resetSrc i (s.cache.cells i) }
            (0 ≤ (s.cache.cells i).pos)).cache.cells i).seqId = ∅ :=
          congrArg Cell.seqId (setCell_self _ _ _)
        refine ⟨?_, fun huse => absurd hfreed huse⟩
        rw [if_pos hin, hids, hnone]
        exact hfreed
      · rw [if_neg hnone]
        have hkept := s.cache.setCell_self i { s.cache.cells i with seqId := ids }
        constructor
        case seqs =>
          rw [if_pos hin, hids]
          exact congrArg Cell.seqId hkept
        case pos =>
          intro _
          show ((s.cache.setCell i _).cells i).pos = _
          rw [hkept]

theorem seqRmCell_of_ne {seqId p0 p1 : ℤ} {s : Sweep} {i j : ℕ} (h : j ≠ i) :
    (seqRmCell seqId p0 p1 s i).cache.cells j = s.cache.cells j := by
  rw [seqRmCell]
  split
  case isFalse => rfl
  case isTrue =>
    split
    case isTrue => rfl
    case isFalse =>
      generalize (if seqId < 0 then ∅ else (s.cache.cells i).seqId.erase seqId) = ids
      by_cases hnone : ids = ∅
      · rw [if_pos hnone]
        exact setCell_of_ne _ h _
      · rw [if_neg hnone]
        exact setCell_of_ne _ h _

theorem foldl_seqRmCell (seqId p0 p1 : ℤ) (s : Sweep) (n : ℕ) :
    (∀ i, i < n → Removed seqId p0 p1 (s.cache.cells i)
      (((List.range n).foldl (seqRmCell seqId p0 p1) s).cache.cells i)) ∧
    ∀ i, n ≤ i → ((List.range n).foldl (seqRmCell seqId p0 p1) s).cache.cells i =
      s.cache.cells i := by
  induction n with
  | zero => exact ⟨fun i hi => absurd hi (Nat.not_lt_zero i), fun _ _ => rfl⟩
  | succ n ih =>
    obtain ⟨hdone, hrest⟩ := ih
    rw [List.range_succ, List.foldl_append, List.foldl_cons, List.foldl_nil]
    constructor
    · intro i hi
      rcases Nat.lt_succ_iff_lt_or_eq.mp hi with hlt | rfl
      · rw [seqRmCell_of_ne (Nat.ne_of_lt hlt)]
        exact hdone i hlt
      · rw [← hrest i (Nat.le_refl i)]
        exact removed_seqRmCell seqId p0 p1 _ i
    · intro i hi
      rw [seqRmCell_of_ne (Nat.ne_of_gt hi)]
      exact hrest i (Nat.le_of_succ_le hi)

theorem sweepRm_cells (seqId p0 p1 : ℤ) (hi : i < cache.size) :
    Removed seqId p0 p1 (cache.cells i) ((cache.sweepRm seqId p0 p1).cells i) := by
  have hcells : (cache.sweepRm seqId p0 p1).cells =
      ((List.range cache.size).foldl (seqRmCell seqId p0 p1) ⟨cache, cache.size⟩).cache.cells := by
    rw [sweepRm, Sweep.lowerHead]
    split <;> rfl
  rw [hcells]
  exact (foldl_seqRmCell seqId p0 p1 ⟨cache, cache.size⟩ cache.size).1 i hi

/-! ## The positions of the window -/

variable {p : SwaParams} {after : Cache} {nTokens : ℕ}

/-- A used cell of the sequence is at this position. -/
def Holds (cache : Cache) (pos : ℤ) : Prop :=
  ∃ i, i < cache.size ∧ (cache.cells i).hasSeqId 0 ∧ (cache.cells i).pos = pos

/-- The cells and the map describe the same tokens. -/
structure Mapped (p : SwaParams) (cache : Cache) : Prop extends cache.Windowed p,
    cache.Consistent where
  single : ∀ i, i < cache.size → ∀ id ∈ (cache.cells i).seqId, id = 0
  holds : ∀ pos, cache.posBaseSwa ≤ pos → (cache.Holds pos ↔ pos < cache.curEnd)

theorem mapped_start (p : SwaParams) (nSeqMax : ℕ) (hasState strict : Bool) :
    (p.start nSeqMax hasState strict).Mapped p := by
  have hempty : ∀ i, i < p.kvSize → ((p.start nSeqMax hasState strict).cells i).seqId = ∅ := by
    intro i hi
    show (if i < p.kvSize then _ else _ : Cell).seqId = ∅
    rw [if_pos hi]
  refine ⟨windowed_start p nSeqMax hasState strict, (consistent_init ..).clear, ?_, ?_⟩
  · intro i hi id hid
    rw [hempty i hi] at hid
    exact absurd hid (notMem_empty id)
  · intro pos hpos
    apply iff_of_false
    · rintro ⟨i, hi, hid, _⟩
      rw [Cell.hasSeqId, hempty i hi] at hid
      exact absurd hid (notMem_empty 0)
    · have hend : (p.start nSeqMax hasState strict).curEnd = 0 := (filled_start ..).curEnd
      rw [hend]
      exact Int.not_lt.mpr hpos

theorem Mapped.nextTokens_valid (h : cache.Mapped p) :
    ∀ token ∈ cache.nextTokens nTokens, token.Valid := by
  intro token htoken
  obtain ⟨j, _, rfl⟩ := List.mem_map.mp htoken
  have hbase := h.base
  refine ⟨?_, List.cons_ne_nil 0 []⟩
  show 0 ≤ cache.posBaseSwa + (cache.liveSwa : ℤ) + (j : ℤ)
  omega

/-- The cells after a search for room. -/
theorem Mapped.placed (h : cache.Mapped p)
    (hfound : (cache.placeBatch (cache.nextTokens nTokens)).2 = true) :
    ∃ head, head + nTokens ≤ cache.size ∧ (∀ j, j < nTokens → (cache.cells (head + j)).isEmpty) ∧
      ∀ i, (cache.placeBatch (cache.nextTokens nTokens)).1.cells i =
        if head ≤ i ∧ i < head + nTokens then
          { cache.cells i with pos := cache.curEnd + (i - head : ℕ), seqId := {0} }
        else cache.cells i := by
  have hplaced : ∃ head, head + (cache.nextTokens nTokens).length ≤ cache.size ∧
      (∀ j, j < (cache.nextTokens nTokens).length → (cache.cells (head + j)).pos < 0) ∧
      (cache.placeBatch (cache.nextTokens nTokens)).1.cells =
        placeTokens cache.cells head (cache.nextTokens nTokens) := by
    rw [Cache.placeBatch] at hfound ⊢
    split at hfound
    case isTrue hfar =>
      rw [if_pos hfar]
      exact findSlot_placed { cache with head := 0 } (Nat.zero_le _) hfound
    case isFalse hnear =>
      rw [if_neg hnear]
      exact findSlot_placed cache h.head hfound
  obtain ⟨head, hroom, hfree, hcells⟩ := hplaced
  rw [length_nextTokens] at hroom hfree
  have hempty : ∀ j, j < nTokens → (cache.cells (head + j)).isEmpty := fun j hj =>
    (h.valid _ ((Nat.add_lt_add_left hj head).trans_le hroom)).isEmpty_of_neg (hfree j hj)
  refine ⟨head, hroom, hempty, fun i => ?_⟩
  rw [hcells]
  split
  case isTrue hin =>
    obtain ⟨j, rfl⟩ := Nat.exists_eq_add_of_le hin.1
    have hj : j < nTokens := Nat.lt_of_add_lt_add_left hin.2
    have hseq : (cache.cells (head + j)).seqId = ∅ := hempty j hj
    rw [placeTokens_add (by rwa [length_nextTokens]), Nat.add_sub_cancel_left, Cell.place, hseq]
    simp only [nextTokens, List.getElem_map, List.getElem_range]
    rfl
  case isFalse hout =>
    rcases not_and_or.mp hout with hlt | hge
    · exact placeTokens_of_lt (Nat.not_le.mp hlt)
    · exact placeTokens_of_ge (by
        rw [length_nextTokens]
        exact Nat.not_lt.mp hge)

theorem Mapped.lt_curEnd (h : cache.Mapped p) {pos : ℤ} (hholds : cache.Holds pos) :
    pos < cache.curEnd := by
  by_cases hlt : pos < cache.posBaseSwa
  · exact hlt.trans_le (Int.le_add_of_nonneg_right (Int.natCast_nonneg _))
  · exact (h.holds pos (Int.not_lt.mp hlt)).mp hholds

/-- Placing adds the positions of the batch. -/
theorem Mapped.holds_placed (h : cache.Mapped p)
    (hfound : (cache.placeBatch (cache.nextTokens nTokens)).2 = true) (pos : ℤ) :
    (cache.placeBatch (cache.nextTokens nTokens)).1.Holds pos ↔
      cache.Holds pos ∨ cache.curEnd ≤ pos ∧ pos < cache.curEnd + nTokens := by
  obtain ⟨head, hroom, hempty, hcells⟩ := h.placed hfound
  have hsize := (cache.sameMap_placeBatch (cache.nextTokens nTokens)).size
  constructor
  · rintro ⟨i, hi, hid, hpos⟩
    rw [hcells] at hid hpos
    rw [hsize] at hi
    split at hpos
    case isTrue hin =>
      dsimp only at hpos
      exact .inr (by omega)
    case isFalse hout =>
      rw [if_neg hout] at hid
      exact .inl ⟨i, hi, hid, hpos⟩
  · rintro (⟨i, hi, hid, hpos⟩ | ⟨hge, hlt⟩)
    · have hout : ¬(head ≤ i ∧ i < head + nTokens) := by
        rintro ⟨hle, hlt⟩
        obtain ⟨j, rfl⟩ := Nat.exists_eq_add_of_le hle
        have hnone := hempty j (Nat.lt_of_add_lt_add_left hlt)
        exact ne_empty_of_mem hid hnone
      refine ⟨i, hsize ▸ hi, ?_⟩
      rw [hcells, if_neg hout]
      exact ⟨hid, hpos⟩
    · have hin : head ≤ head + (pos - cache.curEnd).toNat ∧
          head + (pos - cache.curEnd).toNat < head + nTokens := by omega
      refine ⟨head + (pos - cache.curEnd).toNat, hsize ▸ hin.2.trans_le hroom, ?_⟩
      rw [hcells, if_pos hin]
      refine ⟨mem_singleton_self 0, ?_⟩
      show cache.curEnd + ((head + (pos - cache.curEnd).toNat - head : ℕ) : ℤ) = pos
      omega

theorem Mapped.single_placed (h : cache.Mapped p)
    (hfound : (cache.placeBatch (cache.nextTokens nTokens)).2 = true) :
    ∀ i, i < cache.size →
      ∀ id ∈ ((cache.placeBatch (cache.nextTokens nTokens)).1.cells i).seqId, id = 0 := by
  obtain ⟨head, _, _, hcells⟩ := h.placed hfound
  intro i hi id hid
  rw [hcells] at hid
  split at hid
  case isTrue => exact mem_singleton.mp hid
  case isFalse => exact h.single i hi id hid

theorem placeBatch_refused {batch : List Token} (h : (cache.placeBatch batch).2 = false) :
    (cache.placeBatch batch).1.cells = cache.cells := by
  rw [Cache.placeBatch] at h ⊢
  split at h
  case isTrue hfar =>
    rw [if_pos hfar]
    exact findSlot_refused h
  case isFalse hnear =>
    rw [if_neg hnear]
    exact findSlot_refused h

theorem Mapped.consistent_placeBatch (h : cache.Mapped p) (nTokens : ℕ) :
    (cache.placeBatch (cache.nextTokens nTokens)).1.Consistent := by
  rw [Cache.placeBatch]
  split
  case isTrue =>
    have hreset : { cache with head := 0 }.Consistent :=
      ⟨⟨h.valid, h.used, h.slots, h.src⟩, zero_le _⟩
    exact hreset.findSlot h.nextTokens_valid
  case isFalse => exact h.toConsistent.findSlot h.nextTokens_valid

theorem holds_congr (hsize : after.size = cache.size) (hcells : after.cells = cache.cells)
    (pos : ℤ) : after.Holds pos ↔ cache.Holds pos := by
  rw [Holds, Holds, hsize, hcells]

/-- What compaction leaves of the cache. -/
theorem compactSwa_frame (hany : cache.anyCompacted = true)
    (h : cache.compactSwa p nTokens = some after) :
    after.size = cache.size ∧ after.cells = cache.cells ∧
      (cache.Consistent → after.Consistent) := by
  rcases compactSwa_cases hany h with ⟨rfl, _⟩ | ⟨rfl, _⟩
  · exact ⟨rfl, rfl, id⟩
  · exact ⟨rfl, rfl, fun hc => ⟨⟨hc.valid, hc.used, hc.slots, hc.src⟩, hc.head⟩⟩

theorem compactSwa_base (hany : cache.anyCompacted = true)
    (h : cache.compactSwa p nTokens = some after) : cache.posBaseSwa ≤ after.posBaseSwa := by
  rcases compactSwa_cases hany h with ⟨rfl, _⟩ | ⟨rfl, _⟩
  · exact Int.le_refl _
  · exact Int.le_add_of_nonneg_right (Int.natCast_nonneg _)

theorem posBaseSwa_le_curEnd (cache : Cache) : cache.posBaseSwa ≤ cache.curEnd :=
  Int.le_add_of_nonneg_right (Int.natCast_nonneg _)

theorem Mapped.compactSwa (h : cache.Mapped p)
    (hcompact : cache.compactSwa p nTokens = some after) :
    after.Mapped p := by
  obtain ⟨hwindowed, hend⟩ := h.toWindowed.compactSwa hcompact
  obtain ⟨hsize, hcells, hcons⟩ := compactSwa_frame h.any hcompact
  refine ⟨hwindowed, hcons h.toConsistent, ?_, ?_⟩
  · rw [hsize, hcells]
    exact h.single
  · intro pos hpos
    rw [holds_congr hsize hcells, hend]
    exact h.holds pos ((compactSwa_base h.any hcompact).trans hpos)

/-- What a decode that finds room does. -/
theorem Mapped.exists_decode (h : cache.Mapped p) (hsuff : p.Sufficient)
    (hvalid : (SwaOp.decode nTokens).Valid p cache)
    (hfound : (cache.placeBatch (cache.nextTokens nTokens)).2 = true) :
    ∃ moved, (cache.placeBatch (cache.nextTokens nTokens)).1.compactSwa p nTokens = some moved ∧
      moved.Windowed p ∧ moved.curEnd = cache.curEnd ∧ moved.liveSwa + nTokens ≤ p.capacity ∧
      cache.decode p nTokens = some (moved.grown nTokens) ∧ (moved.grown nTokens).Mapped p := by
  obtain ⟨_, hubatch, hend⟩ := hvalid
  obtain ⟨hplaced, hsame⟩ := h.toWindowed.placeBatch nTokens
  obtain ⟨moved, hcompact, hroom⟩ :=
    hplaced.exists_compactSwa hsuff hubatch (hsame ▸ hend)
  obtain ⟨hmoved, hmovedEnd⟩ := hplaced.compactSwa hcompact
  obtain ⟨hsize, hcells, hcons⟩ := compactSwa_frame hplaced.any hcompact
  have hend' : moved.curEnd = cache.curEnd := hmovedEnd.trans hsame
  obtain ⟨hadvance, hgrown⟩ := hmoved.advance hsuff hroom (hend' ▸ hend)
  refine ⟨moved, hcompact, hmoved, hend', hroom, ?_, ⟨hgrown, ?_, ?_, ?_⟩⟩
  · rw [Cache.decode, if_pos hfound, hcompact, Option.bind_some, hadvance]
  · have hc := hcons (h.consistent_placeBatch nTokens)
    refine ⟨⟨hc.valid, hc.used, hc.slots, hc.src⟩, ?_⟩
    show (if moved.size ≤ moved.head + nTokens then 0 else moved.head + nTokens) ≤ moved.size
    split
    case isTrue => exact Nat.zero_le _
    case isFalse hlt => exact Nat.le_of_not_le hlt
  · intro i hi id hid
    have hi' : i < cache.size := (cache.sameMap_placeBatch _).size ▸ hsize ▸ hi
    apply h.single_placed hfound i hi' id
    rw [← hcells]
    exact hid
  · intro pos hpos
    have hsame' : (moved.grown nTokens).Holds pos ↔ moved.Holds pos := holds_congr rfl rfl pos
    rw [hsame', holds_congr hsize hcells, h.holds_placed hfound, hmoved.curEnd_grown, hend']
    have hge : cache.posBaseSwa ≤ pos := by
      have hle := compactSwa_base hplaced.any hcompact
      rw [(cache.sameMap_placeBatch _).posBaseSwa] at hle
      exact hle.trans hpos
    rw [h.holds pos hge]
    omega

/-- What a removal leaves at a position. -/
theorem holds_sweepRm (cache : Cache) (seqId p0 p1 pos : ℤ) :
    (cache.sweepRm seqId p0 p1).Holds pos ↔
      cache.Holds pos ∧ ¬(seqId ≤ 0 ∧ rangeStart p0 ≤ pos ∧ pos < rangeEnd p1) := by
  have hsize := (cache.sameMap_sweepRm seqId p0 p1).size
  constructor
  · rintro ⟨i, hi, hid, rfl⟩
    rw [hsize] at hi
    obtain ⟨hseqs, hpos⟩ := sweepRm_cells seqId p0 p1 hi
    have hkept := hpos (ne_empty_of_mem hid)
    rw [Cell.hasSeqId, hseqs] at hid
    rw [hkept]
    split at hid
    case isTrue hin =>
      split at hid
      case isTrue => exact absurd hid (notMem_empty 0)
      case isFalse hnonneg =>
        obtain ⟨hne, hmem⟩ := mem_erase.mp hid
        exact ⟨⟨i, hi, hmem, rfl⟩, fun hgone =>
          hne (Int.le_antisymm (Int.not_lt.mp hnonneg) hgone.1)⟩
    case isFalse hout => exact ⟨⟨i, hi, hid, rfl⟩, fun hgone => hout hgone.2⟩
  · rintro ⟨⟨i, hi, hid, rfl⟩, hstay⟩
    obtain ⟨hseqs, hpos⟩ := sweepRm_cells seqId p0 p1 hi
    have hid' : ((cache.sweepRm seqId p0 p1).cells i).hasSeqId 0 := by
      rw [Cell.hasSeqId, hseqs]
      split
      case isTrue hin =>
        have hseq : 0 < seqId := Int.not_le.mp fun hle => hstay ⟨hle, hin⟩
        rw [if_neg (Int.not_lt.mpr hseq.le)]
        exact mem_erase.mpr ⟨hseq.ne, hid⟩
      case isFalse => exact hid
    exact ⟨i, hsize ▸ hi, hid', hpos (ne_empty_of_mem hid')⟩

theorem Mapped.single_sweepRm (h : cache.Mapped p) (seqId p0 p1 : ℤ) :
    ∀ i, i < cache.size → ∀ id ∈ ((cache.sweepRm seqId p0 p1).cells i).seqId, id = 0 := by
  intro i hi id hid
  rw [(sweepRm_cells seqId p0 p1 hi).seqs] at hid
  apply h.single i hi id
  split at hid
  case isTrue =>
    split at hid
    case isTrue => exact absurd hid (notMem_empty id)
    case isFalse => exact mem_of_mem_erase hid
  case isFalse => exact hid

theorem Mapped.seqRm (h : cache.Mapped p) {seqId p0 p1 : ℤ} {result : Cache × Bool}
    (hrm : cache.seqRm seqId p0 p1 = some result) : result.1.Mapped p := by
  have hwindowed := h.toWindowed.seqRm hrm
  have hcons := h.toConsistent.seqRm hrm
  have hsame := cache.sameMap_sweepRm seqId p0 p1
  have hsingle := h.single_sweepRm seqId p0 p1
  rw [← hsame.size] at hsingle
  rcases seqRm_cases hrm with rfl | ⟨hplan, rfl⟩ | ⟨head, base, hplan, rfl⟩
  · exact h
  · refine ⟨hwindowed, hcons, hsingle, fun pos hpos => ?_⟩
    dsimp only at hpos ⊢
    rw [hsame.posBaseSwa] at hpos
    have hapart := compactPlan_keep h.any hplan
    rw [holds_sweepRm, h.holds pos hpos, hsame.curEnd]
    omega
  · refine ⟨hwindowed, hcons, hsingle, fun pos hpos => ?_⟩
    have hholds : ({ cache.sweepRm seqId p0 p1 with
        headSwa := head, posBaseSwa := base } : Cache).Holds pos ↔
        (cache.sweepRm seqId p0 p1).Holds pos := holds_congr rfl rfl pos
    obtain ⟨hseq, hstart, hend, hcase⟩ := compactPlan_apply hplan
    rw [hholds, holds_sweepRm]
    rw [← hsame.sinkRows] at hcase
    have hlt := fun hh : cache.Holds pos => h.lt_curEnd hh
    rcases hcase with ⟨hzero, rfl, rfl⟩ | ⟨hkept, rfl, rfl⟩
    · have hnew : ((cache.sweepRm seqId p0 p1).remap 0 0).curEnd = 0 := curEnd_remap _ 0 0
      show _ ↔ pos < ((cache.sweepRm seqId p0 p1).remap 0 0).curEnd
      rw [hnew]
      dsimp only at hpos
      constructor
      · rintro ⟨hh, hstay⟩
        exact absurd ⟨hseq, by omega, (hlt hh).trans_le hend⟩ hstay
      · intro hneg
        omega
    · have hbase : cache.posBaseSwa ≤ rangeStart p0 := by
        have hzero := rangeStart_nonneg p0
        rcases hkept with heq | hle <;> omega
      have hnew : ((cache.sweepRm seqId p0 p1).remap cache.posBaseSwa
          (rangeStart p0 - cache.posBaseSwa).toNat).curEnd = rangeStart p0 := by
        rw [curEnd_remap]
        omega
      show _ ↔ pos < ((cache.sweepRm seqId p0 p1).remap cache.posBaseSwa
          (rangeStart p0 - cache.posBaseSwa).toNat).curEnd
      rw [hnew, h.holds pos hpos]
      omega

/-- A step keeps the cells and the map in step. -/
theorem Mapped.step (h : cache.Mapped p) (hsuff : p.Sufficient) {op : SwaOp}
    (hstep : SwaStep p cache op after) : after.Mapped p := by
  obtain ⟨hvalid, hrun⟩ := hstep
  cases op with
  | decode nTokens =>
    cases hfound : (cache.placeBatch (cache.nextTokens nTokens)).2 with
    | true =>
      obtain ⟨_, _, _, _, _, hdecode, hgrown⟩ := h.exists_decode hsuff hvalid hfound
      obtain rfl := Option.some.inj (hdecode.symm.trans hrun)
      exact hgrown
    | false =>
      have hdecode : cache.decode p nTokens =
          some (cache.placeBatch (cache.nextTokens nTokens)).1 := by
        rw [Cache.decode, hfound, if_neg Bool.false_ne_true]
      obtain rfl := Option.some.inj (hdecode.symm.trans hrun)
      have hsame := cache.sameMap_placeBatch (cache.nextTokens nTokens)
      have hcells := placeBatch_refused hfound
      refine ⟨h.toWindowed.of_sameMap hsame, h.consistent_placeBatch nTokens, ?_, ?_⟩
      · rw [hcells, hsame.size]
        exact h.single
      · intro pos hpos
        rw [holds_congr hsame.size hcells, hsame.curEnd]
        exact h.holds pos (hsame.posBaseSwa ▸ hpos)
  | compact nTokens => exact h.compactSwa hrun
  | seqRm seqId p0 p1 =>
    obtain ⟨result, hrm, rfl⟩ := Option.map_eq_some_iff.mp hrun
    exact h.seqRm hrm

end Cache

end ExpertPin.Kv
