import ExpertPin.Kv.Operations
import ExpertPin.Kv.DefragPlan
import ExpertPin.Lib.Runs

/-!
# Bookkeeping

Positions, sequence ids and the count `used` say the same about each cell: a cell has a
position when it has a sequence, and `used` counts these cells.  Every operation keeps
that, with one exception.  In a hybrid model the first cells are also the state slots of
the sequences, and copying a sequence writes the position of one slot's cell to another's
(`Cache.seqCp`); moving cells to or from slots leaves `src` behind (`Cache.updateDefrag`).
Where a run avoids the two the bookkeeping is kept (`bookkeeping_run`).
-/

namespace ExpertPin.Kv

open Runs
open List

/-- A cell has a position when it has a sequence. -/
def Cell.Valid (cell : Cell) : Prop := 0 ≤ cell.pos ↔ ¬cell.isEmpty

theorem Cell.isEmpty_of_seqId {cell : Cell} (h : cell.seqId = ∅) : cell.isEmpty := h

theorem Cell.Valid.isEmpty_of_neg {cell : Cell} (h : cell.Valid) (hpos : cell.pos < 0) :
    cell.isEmpty :=
  not_not.mp fun huse => absurd (h.mpr huse) (Int.not_le.mpr hpos)

theorem Cell.valid_freed {cell : Cell} (hpos : cell.pos = -1) (hempty : cell.isEmpty) :
    cell.Valid := by
  rw [Cell.Valid, hpos]
  exact iff_of_false (by decide) (not_not_intro hempty)

/-- A token with a position and a sequence. -/
def Token.Valid (token : Token) : Prop := 0 ≤ token.pos ∧ token.seqId ≠ []

namespace Cache

/-- What the operations keep of the cells, apart from `head`. -/
structure Booked (cache : Cache) : Prop where
  valid : ∀ i, i < cache.size → (cache.cells i).Valid
  used : cache.used = Nat.count (fun i => ¬(cache.cells i).isEmpty) cache.size
  slots : cache.qnextStateSlots ≤ cache.size
  src : cache.hasQnextStateStorage → cache.doCopy = false →
    ∀ i, i < cache.qnextStateSlots → (cache.cells i).src = i

structure Consistent (cache : Cache) : Prop extends cache.Booked where
  head : cache.head ≤ cache.size

variable {cache : Cache} {i : ℕ} {cell : Cell}

/-! ## Rewriting cells -/

/-- One cell is written, and `used` follows it. -/
theorem Booked.setCell (h : cache.Booked) (hi : i < cache.size) (hv : cell.Valid)
    (hsrc : cache.doCopy = false → cell.src = (cache.cells i).src ∨ cell.src = i) {used : ℕ}
    (hused : used + (if (cache.cells i).isEmpty then 0 else 1) =
      cache.used + if cell.isEmpty then 0 else 1) :
    { cache.setCell i cell with used := used }.Booked := by
  have hself := cache.setCell_self i cell
  have hother : ∀ j, j ≠ i → (cache.setCell i cell).cells j = cache.cells j := fun j hj =>
    cache.setCell_of_ne hj cell
  constructor
  case valid =>
    intro j hj
    show ((cache.setCell i cell).cells j).Valid
    by_cases hji : j = i
    · rw [hji, hself]
      exact hv
    · rw [hother j hji]
      exact h.valid j hj
  case used =>
    show used = Nat.count (fun j => ¬((cache.setCell i cell).cells j).isEmpty) cache.size
    have hrest : ∀ j, j < cache.size → j ≠ i →
        (¬((cache.setCell i cell).cells j).isEmpty ↔ ¬(cache.cells j).isEmpty) := by
      intro j _ hji
      rw [hother j hji]
    by_cases hold : (cache.cells i).isEmpty
    · by_cases hnew : cell.isEmpty
      · rw [if_pos hold, if_pos hnew, Nat.add_zero, Nat.add_zero, h.used] at hused
        rw [hused]
        apply Slots.count_congr
        intro j hj
        by_cases hji : j = i
        · rw [hji, hself]
          exact iff_of_false (not_not_intro hold) (not_not_intro hnew)
        · exact (hrest j hj hji).symm
      · rw [if_pos hold, if_neg hnew, Nat.add_zero, h.used] at hused
        rw [hused]
        exact (Slots.count_fill hi (not_not_intro hold) (by rwa [hself]) hrest).symm
    · by_cases hnew : cell.isEmpty
      · rw [if_neg hold, if_pos hnew, Nat.add_zero, h.used] at hused
        have hfree := Slots.count_free hi hold (by rw [hself]; exact not_not_intro hnew) hrest
        exact Nat.succ.inj (hused.trans hfree.symm)
      · rw [if_neg hold, if_neg hnew, Nat.add_left_inj, h.used] at hused
        rw [hused]
        apply Slots.count_congr
        intro j hj
        by_cases hji : j = i
        · rw [hji, hself]
          exact iff_of_true hold hnew
        · exact (hrest j hj hji).symm
  case slots => exact h.slots
  case src =>
    intro hstate hcopy j hj
    show ((cache.setCell i cell).cells j).src = j
    by_cases hji : j = i
    · rw [hji, hself]
      rcases hsrc hcopy with heq | heq
      · rw [heq]
        exact h.src hstate hcopy i (hji ▸ hj)
      · exact heq
    · rw [hother j hji]
      exact h.src hstate hcopy j hj

/-- Every cell is rewritten by itself, and stays empty or in use. -/
theorem Booked.mapCells (h : cache.Booked) {f : ℕ → Cell → Cell}
    (hv : ∀ i cell, cell.Valid → (f i cell).Valid)
    (hempty : ∀ i cell, (f i cell).isEmpty ↔ cell.isEmpty)
    (hsrc : ∀ i cell, (f i cell).src = cell.src ∨ (f i cell).src = i) :
    (cache.mapCells f).Booked := by
  have hin : ∀ i, i < cache.size → (cache.mapCells f).cells i = f i (cache.cells i) :=
    fun i hi => if_pos hi
  constructor
  case valid =>
    intro i hi
    rw [hin i hi]
    exact hv i _ (h.valid i hi)
  case used =>
    refine h.used.trans (Slots.count_congr fun i hi => ?_)
    rw [hin i hi, hempty]
  case slots => exact h.slots
  case src =>
    intro hstate hcopy i hi
    rw [hin i (hi.trans_le h.slots)]
    rcases hsrc i (cache.cells i) with heq | heq
    · rw [heq]
      exact h.src hstate hcopy i hi
    · exact heq

/-! ## Loops that free cells -/

/-- What such a loop keeps. -/
structure Sweep.Keeps (cache : Cache) (s : Sweep) : Prop where
  booked : s.cache.Booked
  size : s.cache.size = cache.size
  head : s.cache.head = cache.head
  newHead : s.newHead ≤ cache.size

variable {s : Sweep}

theorem Sweep.Keeps.setCell (h : s.Keeps cache) (hi : i < cache.size) (hv : cell.Valid)
    (hsrc : cell.src = (s.cache.cells i).src ∨ cell.src = i)
    (hempty : cell.isEmpty ↔ (s.cache.cells i).isEmpty) :
    Sweep.Keeps cache { s with cache := s.cache.setCell i cell } where
  booked := by
    apply h.booked.setCell (h.size ▸ hi) hv fun _ => hsrc
    rw [if_congr hempty rfl rfl]
  size := h.size
  head := h.head
  newHead := h.newHead

theorem Sweep.Keeps.free (h : s.Keeps cache) (hi : i < cache.size) (hpos : cell.pos = -1)
    (hempty : cell.isEmpty) (hsrc : cell.src = (s.cache.cells i).src ∨ cell.src = i)
    {wasUsed : Prop} [Decidable wasUsed] (hwas : wasUsed ↔ ¬(s.cache.cells i).isEmpty) :
    (s.free i cell wasUsed).Keeps cache where
  booked := by
    have hsize : i < s.cache.size := h.size ▸ hi
    apply h.booked.setCell hsize (Cell.valid_freed hpos hempty) fun _ => hsrc
    rw [if_pos hempty]
    by_cases hold : (s.cache.cells i).isEmpty
    · rw [if_pos hold, if_neg fun hw => hwas.mp hw hold]
    · have hcount : 0 < s.cache.used := by
        rw [h.booked.used]
        exact Nat.pos_of_ne_zero (Nat.count_ne_iff_exists.mpr ⟨i, hsize, hold⟩)
      rw [if_neg hold, if_pos (hwas.mpr hold), Nat.sub_add_cancel hcount, Nat.add_zero]
  size := h.size
  head := h.head
  newHead := by
    show (if s.newHead = s.cache.size then i else s.newHead) ≤ cache.size
    split
    · exact hi.le
    · exact h.newHead

theorem Sweep.Keeps.start (h : cache.Booked) : Sweep.Keeps cache ⟨cache, cache.size⟩ :=
  ⟨h, rfl, rfl, Nat.le_refl _⟩

/-- A loop over the cells keeps what each turn keeps. -/
theorem Sweep.Keeps.foldl {f : Sweep → ℕ → Sweep} (h : cache.Booked)
    (hf : ∀ s i, Sweep.Keeps cache s → i < cache.size → (f s i).Keeps cache) :
    ((List.range cache.size).foldl f ⟨cache, cache.size⟩).Keeps cache :=
  foldlRecOn (motive := Sweep.Keeps cache) _ f (Sweep.Keeps.start h) fun s hs i hi =>
    hf s i hs (mem_range.mp hi)

theorem Sweep.Keeps.lowerHead (h : s.Keeps cache) (hhead : cache.head ≤ cache.size) :
    s.lowerHead.Consistent := by
  rw [Sweep.lowerHead]
  split
  · exact ⟨⟨h.booked.valid, h.booked.used, h.booked.slots, h.booked.src⟩, h.size ▸ h.newHead⟩
  · exact ⟨h.booked, by rw [h.size, h.head]; exact hhead⟩

theorem resetSrc_eq (cache : Cache) (i : ℕ) (cell : Cell) :
    cache.resetSrc i cell = cell.src ∨ cache.resetSrc i cell = i := by
  rw [resetSrc]
  split
  · exact .inr rfl
  · exact .inl rfl

theorem Sweep.Keeps.seqRmCell {seqId p0 p1 : ℤ} (h : s.Keeps cache) (hi : i < cache.size) :
    (seqRmCell seqId p0 p1 s i).Keeps cache := by
  have hv : (s.cache.cells i).Valid := h.booked.valid i (h.size ▸ hi)
  rw [Cache.seqRmCell]
  split
  case isFalse => exact h
  case isTrue hin =>
    split
    case isTrue => exact h
    case isFalse =>
      have hpos : 0 ≤ (s.cache.cells i).pos := (rangeStart_nonneg p0).trans hin.1
      generalize (if seqId < 0 then ∅ else (s.cache.cells i).seqId.erase seqId) = ids
      by_cases hnone : ids = ∅
      · rw [if_pos hnone]
        refine h.free hi rfl ?_ (resetSrc_eq _ _ _) hv
        exact Cell.isEmpty_of_seqId rfl
      · rw [if_neg hnone]
        refine h.setCell hi ?_ (.inl rfl) ?_
        · exact iff_of_true hpos hnone
        · exact iff_of_false hnone (hv.mp hpos)

theorem Sweep.Keeps.seqKeepCell {seqId : ℤ} (h : s.Keeps cache) (hi : i < cache.size) :
    (seqKeepCell seqId s i).Keeps cache := by
  have hv : (s.cache.cells i).Valid := h.booked.valid i (h.size ▸ hi)
  rw [Cache.seqKeepCell]
  split
  case isTrue =>
    refine h.free hi rfl ?_ (resetSrc_eq _ _ _) hv
    exact Cell.isEmpty_of_seqId rfl
  case isFalse hhas =>
    have hold : ¬(s.cache.cells i).isEmpty :=
      Finset.ne_empty_of_mem (not_not.mp hhas)
    have hnew : ({seqId} : Finset ℤ) ≠ ∅ := Finset.singleton_ne_empty seqId
    refine h.setCell hi ?_ (.inl rfl) ?_
    · exact iff_of_true (hv.mpr hold) hnew
    · exact iff_of_false hnew hold

theorem Sweep.Keeps.seqAddCell {seqId p0 p1 delta : ℤ} (h : s.Keeps cache)
    (hi : i < cache.size) : (seqAddCell seqId p0 p1 delta s i).Keeps cache := by
  rw [Cache.seqAddCell]
  split
  case isFalse => exact h
  case isTrue hin =>
    have hshift : Sweep.Keeps cache { s with cache := { s.cache with hasShift := true } } :=
      ⟨⟨h.booked.valid, h.booked.used, h.booked.slots, h.booked.src⟩, h.size, h.head, h.newHead⟩
    have hold : ¬(s.cache.cells i).isEmpty := Finset.ne_empty_of_mem hin.1
    dsimp only
    split
    case isTrue =>
      apply hshift.free hi
      · rfl
      · exact Cell.isEmpty_of_seqId rfl
      · exact .inl rfl
      · exact Iff.rfl
    case isFalse hneg =>
      refine hshift.setCell hi ?_ (.inl rfl) Iff.rfl
      exact iff_of_true (Int.not_lt.mp hneg) hold

/-! ## Placing -/

theorem slotSearch_spec (cells : ℕ → Cell) {size n head : ℕ} (nTested : ℕ) (h : n ≤ size)
    (hhead : head ≤ size) :
    (slotSearch cells h head nTested).2 ≤ size ∧ ((slotSearch cells h head nTested).1 = true →
        (slotSearch cells h head nTested).2 + n ≤ size ∧
        ∀ i, i < n → (cells ((slotSearch cells h head nTested).2 + i)).pos < 0) := by
  fun_induction slotSearch cells h head nTested with
  | case1 head nTested hwrap ih => exact ih (Nat.zero_le size)
  | case2 head nTested hfit hnone =>
    refine ⟨hhead, fun _ => ⟨Nat.le_of_not_lt hfit, fun i hi => ?_⟩⟩
    have hfree := find?_eq_none.mp hnone i (mem_range.mpr hi)
    rw [decide_eq_true_eq] at hfree
    exact Int.not_le.mp hfree
  | case3 head nTested hfit i hfound hstop =>
    have hi : i < n := mem_range.mp (mem_of_find?_eq_some hfound)
    have hroom := Nat.le_of_not_lt hfit
    exact ⟨by omega, fun hfalse => absurd hfalse Bool.false_ne_true⟩
  | case4 head nTested hfit i hfound hgo ih =>
    have hi : i < n := mem_range.mp (mem_of_find?_eq_some hfound)
    have hroom := Nat.le_of_not_lt hfit
    exact ih (by omega)

theorem mem_foldl_insert {ids : List ℤ} {seqs : Finset ℤ} {id : ℤ} :
    id ∈ ids.foldl (fun seqs id => insert id seqs) seqs ↔ id ∈ ids ∨ id ∈ seqs := by
  induction ids generalizing seqs with
  | nil => simp
  | cons a ids ih =>
    rw [foldl_cons, ih, Finset.mem_insert, mem_cons, or_left_comm, or_assoc]

theorem Booked.placeTokens {tokens : List Token} (h : cache.Booked) {head : ℕ}
    (hroom : head + tokens.length ≤ cache.size)
    (hfree : ∀ i, i < tokens.length → (cache.cells (head + i)).pos < 0)
    (hvalid : ∀ token ∈ tokens, token.Valid) :
    { cache with
      cells := placeTokens cache.cells head tokens
      used := cache.used + tokens.length }.Booked := by
  induction tokens generalizing cache head with
  | nil => exact h
  | cons token tokens ih =>
    rw [length_cons] at hroom
    obtain ⟨hpos, hids⟩ := hvalid token mem_cons_self
    have hhead : head < cache.size := by omega
    have hold : (cache.cells head).isEmpty :=
      (h.valid head hhead).isEmpty_of_neg (hfree 0 (Nat.zero_lt_succ _))
    let cell : Cell := { cache.cells head with
      pos := token.pos
      seqId := token.seqId.foldl (fun ids id => insert id ids) (cache.cells head).seqId }
    have hnew : ¬cell.isEmpty := by
      obtain ⟨id, hid⟩ := exists_mem_of_ne_nil _ hids
      exact Finset.ne_empty_of_mem (mem_foldl_insert.mpr (.inl hid))
    have hbooked : { cache.setCell head cell with used := cache.used + 1 }.Booked := by
      apply h.setCell hhead (iff_of_true hpos hnew) fun _ => .inl rfl
      rw [if_pos hold, if_neg hnew]
    have hroom' : head + 1 + tokens.length ≤ cache.size := by omega
    have hrest := ih hbooked hroom' ?_ fun token ht => hvalid token (mem_cons_of_mem _ ht)
    · rw [length_cons, Nat.add_comm tokens.length 1, ← Nat.add_assoc]
      exact hrest
    · intro i hi
      show ((cache.setCell head cell).cells (head + 1 + i)).pos < 0
      rw [setCell_of_ne _ (by omega), Nat.add_assoc, Nat.add_comm 1 i]
      exact hfree (i + 1) (Nat.succ_lt_succ hi)

theorem Consistent.findSlot {batch : List Token} (h : cache.Consistent)
    (hvalid : ∀ token ∈ batch, token.Valid) : (cache.findSlot batch).1.Consistent := by
  rw [Cache.findSlot]
  split
  case isFalse => exact h
  case isTrue hlen =>
    obtain ⟨hle, hfound⟩ := slotSearch_spec cache.cells 0 hlen h.head
    dsimp only
    split
    case isTrue htrue =>
      obtain ⟨hroom, hfree⟩ := hfound htrue
      have hbooked := h.toBooked.placeTokens hroom hfree hvalid
      exact ⟨⟨hbooked.valid, hbooked.used, hbooked.slots, hbooked.src⟩, hle⟩
    case isFalse => exact ⟨⟨h.valid, h.used, h.slots, h.src⟩, hle⟩

/-! ## Defragmentation -/

theorem Consistent.accurate (h : cache.Consistent) : cache.Accurate where
  used := h.used
  last i hi huse := ⟨i, Nat.le_refl i, hi, (h.valid i hi).mpr huse, huse⟩

/-- Where no hole is among the first `n` cells, the search leaves these alone. -/
theorem cells_eq_of_full {state : DefragState}
    (h : Planned cache.cells cache.cellMax cache.used state) {n : ℕ}
    (hfull : ∀ i, i < n → i < cache.used → ¬(cache.cells i).isEmpty) (hi : i < n) :
    state.cells i = cache.cells i := by
  apply h.still i
  · intro hm
    obtain ⟨hlt, hempty⟩ := h.target i hm
    exact hfull _ ((hlt.trans_le (h.source i hm).1).trans hi) hlt hempty
  · rintro j hj rfl
    obtain ⟨hlt, hempty⟩ := h.target j hj
    exact hfull _ hi hlt hempty

variable {maxMoves : ℕ}

theorem head_defragInternal (cache : Cache) {state : DefragState}
    (h : cache.defragInternal maxMoves = some state) :
    state.head = cache.head ∨ state.head = cache.used := by
  rw [Cache.defragInternal] at h
  split at h
  case isTrue => exact DefragState.head_fillHoles (.inl rfl) h
  case isFalse => cases h

theorem Consistent.updateDefrag (h : cache.Consistent)
    (hslots : cache.doDefrag = true → cache.hasQnextStateStorage → cache.doCopy = false →
      ∀ i, i < cache.qnextStateSlots → i < cache.used → ¬(cache.cells i).isEmpty) :
    ∃ cache', cache.updateDefrag maxMoves = some cache' ∧ cache'.Consistent := by
  rw [Cache.updateDefrag]
  split
  case isFalse => exact ⟨cache, rfl, h⟩
  case isTrue hdefrag =>
    obtain ⟨state, hstate, hplan, hcells⟩ := h.accurate.defragInternal maxMoves
    rw [hstate]
    refine ⟨_, rfl, ⟨?_, ?_, h.slots, ?_⟩, ?_⟩
    · intro i hi
      show (state.cells i).Valid
      rcases hplan.cells_cases i with hempty | ⟨j, hj, heq⟩ | heq
      · rw [hempty]
        exact Cell.valid_freed rfl Cell.isEmpty_empty
      · rw [heq]
        exact h.valid j ((hplan.source j hj).2.1.trans_le (cellMax_le cache))
      · rw [heq]
        exact h.valid i hi
    · show cache.used = Nat.count (fun i => ¬(state.cells i).isEmpty) cache.size
      rw [Slots.count_eq_of_free (cellMax_le cache), hplan.used]
      intro k hk hsize
      have hbeyond : ¬state.Moved cache.cellMax k := fun hm =>
        absurd (hplan.source k hm).2.1 (Nat.not_lt.mpr hk)
      have hstill : state.cells k = cache.cells k := by
        apply hplan.still k hbeyond
        rintro j hj rfl
        exact absurd ((hplan.target j hj).1.trans_le h.accurate.used_le) (Nat.not_lt.mpr hk)
      rw [hstill]
      exact fun huse => absurd (h.accurate.lt_cellMax hsize huse) (Nat.not_lt.mpr hk)
    · intro hqnext hcopy i hi
      show (state.cells i).src = i
      rw [cells_eq_of_full hplan (hslots hdefrag hqnext hcopy) hi]
      exact h.src hqnext hcopy i hi
    · show state.head ≤ cache.size
      rcases cache.head_defragInternal hstate with heq | heq
      · rw [heq]
        exact h.head
      · rw [heq]
        exact h.accurate.used_le.trans (cellMax_le cache)

/-! ## The operations -/

theorem Consistent.clear (h : cache.Consistent) : cache.clear.Consistent := by
  have hcell : ∀ i, i < cache.size →
      cache.clear.cells i = { cache.cells i with pos := -1, src := i, seqId := ∅ } :=
    fun i hi => if_pos hi
  refine ⟨⟨?_, ?_, h.slots, ?_⟩, Nat.zero_le _⟩
  · intro i hi
    rw [hcell i hi]
    exact Cell.valid_freed rfl (Cell.isEmpty_of_seqId rfl)
  · symm
    apply Nat.count_iff_forall_not.mpr
    intro i hi
    rw [hcell i hi]
    exact not_not_intro (Cell.isEmpty_of_seqId rfl)
  · intro _ _ i hi
    rw [hcell i (hi.trans_le h.slots)]

theorem Consistent.seqRm (h : cache.Consistent) {seqId p0 p1 : ℤ} {result : Cache × Bool}
    (hrm : cache.seqRm seqId p0 p1 = some result) : result.1.Consistent := by
  have hswept : ((range cache.size).foldl (seqRmCell seqId p0 p1)
      ⟨cache, cache.size⟩).lowerHead.Consistent :=
    (Sweep.Keeps.foldl h.toBooked fun s i hs hi => hs.seqRmCell hi).lowerHead h.head
  rw [Cache.seqRm] at hrm
  split at hrm
  · cases hrm
  · obtain rfl := Option.some.inj hrm
    exact h
  · obtain rfl := Option.some.inj hrm
    exact hswept
  · obtain rfl := Option.some.inj hrm
    exact ⟨⟨hswept.valid, hswept.used, hswept.slots, hswept.src⟩, hswept.head⟩

theorem Consistent.seqKeep (h : cache.Consistent) (seqId : ℤ) : (cache.seqKeep seqId).Consistent :=
  (Sweep.Keeps.foldl h.toBooked fun _ _ hs hi => hs.seqKeepCell hi).lowerHead h.head

variable {src dst p0 p1 : ℤ}

theorem isEmpty_addSeqCell :
    (addSeqCell src dst p0 p1 cell).isEmpty ↔ cell.isEmpty := by
  rw [addSeqCell]
  split
  case isTrue hin =>
    exact iff_of_false (Finset.insert_ne_empty dst cell.seqId) (Finset.ne_empty_of_mem hin.1)
  case isFalse => exact Iff.rfl

theorem addSeqCell_pos : (addSeqCell src dst p0 p1 cell).pos = cell.pos := by
  rw [addSeqCell, apply_ite Cell.pos, ite_self]

theorem addSeqCell_delta :
    (addSeqCell src dst p0 p1 cell).delta = cell.delta := by
  rw [addSeqCell, apply_ite Cell.delta, ite_self]

theorem addSeqCell_src : (addSeqCell src dst p0 p1 cell).src = cell.src := by
  rw [addSeqCell, apply_ite Cell.src, ite_self]

theorem addSeqCell_seqId : (addSeqCell src dst p0 p1 cell).seqId =
    if cell.hasSeqId src ∧ cell.posIn p0 p1 then insert dst cell.seqId else cell.seqId := by
  rw [addSeqCell, apply_ite Cell.seqId]

theorem Booked.addSeq (h : cache.Booked) (src dst p0 p1 : ℤ) :
    (cache.addSeq src dst p0 p1).Consistent := by
  have hbooked : (cache.mapCells fun _ => addSeqCell src dst p0 p1).Booked := by
    apply h.mapCells
    · intro _ cell hv
      rw [Cell.Valid, isEmpty_addSeqCell, addSeqCell_pos]
      exact hv
    · exact fun _ _ => isEmpty_addSeqCell
    · exact fun _ _ => .inl addSeqCell_src
  exact ⟨⟨hbooked.valid, hbooked.used, hbooked.slots, hbooked.src⟩, Nat.zero_le _⟩

/-- Slots are copied from themselves, and to a cell of the same position. -/
def SlotsAgree (cache : Cache) (src dst : ℤ) : Prop :=
  cache.copiesSlot src dst →
    (cache.cells src.toNat).src = src ∧ (cache.cells dst.toNat).pos = (cache.cells src.toNat).pos

/-- What copying a sequence should do: the cells of `src` in the range get `dst`. -/
structure CopiesSeq (before after : Cache) (src dst p0 p1 : ℤ) : Prop where
  size : after.size = before.size
  used : after.used = before.used
  pos : ∀ i, i < before.size → (after.cells i).pos = (before.cells i).pos
  delta : ∀ i, i < before.size → (after.cells i).delta = (before.cells i).delta
  seqId : ∀ i, i < before.size → (after.cells i).seqId =
    if (before.cells i).hasSeqId src ∧ (before.cells i).posIn p0 p1
    then insert dst (before.cells i).seqId else (before.cells i).seqId

theorem addSeq_cells (cache : Cache) (hi : i < cache.size) :
    (cache.addSeq src dst p0 p1).cells i = addSeqCell src dst p0 p1 (cache.cells i) := if_pos hi

theorem Consistent.seqCp (h : cache.Consistent) {src dst : ℤ} (hagree : cache.SlotsAgree src dst)
    (p0 p1 : ℤ) : ∃ cache', cache.seqCp src dst p0 p1 = some cache' ∧ cache'.Consistent ∧
      CopiesSeq cache cache' src dst p0 p1 := by
  by_cases hslot : cache.copiesSlot src dst
  · obtain ⟨hsrc, hpos⟩ := hagree hslot
    have ⟨_, ⟨⟨_, hdst0, _⟩, hdstSize⟩, ⟨⟨_, hsrc0, _⟩, hsrcSize⟩⟩ := hslot
    have hdst : dst.toNat < cache.size := by omega
    let cell : Cell := { cache.cells dst.toNat with src := src, pos := (cache.cells src.toNat).pos }
    let after : Cache := { cache.setCell dst.toNat cell with doCopy := true }
    have hsame : ∀ i, (after.cells i).pos = (cache.cells i).pos ∧
        (after.cells i).delta = (cache.cells i).delta ∧
        (after.cells i).seqId = (cache.cells i).seqId := by
      intro i
      show ((cache.setCell dst.toNat cell).cells i).pos = _ ∧
        ((cache.setCell dst.toNat cell).cells i).delta = _ ∧
        ((cache.setCell dst.toNat cell).cells i).seqId = _
      by_cases hi : i = dst.toNat
      · rw [hi, setCell_self]
        exact ⟨hpos.symm, rfl, rfl⟩
      · rw [setCell_of_ne _ hi]
        exact ⟨rfl, rfl, rfl⟩
    have hpending : { cache with doCopy := true }.Booked :=
      ⟨h.valid, h.used, h.slots, fun _ hcopy => absurd hcopy.symm Bool.false_ne_true⟩
    have hbooked : after.Booked := by
      refine hpending.setCell hdst ?_ (fun hcopy => absurd hcopy.symm Bool.false_ne_true) rfl
      show 0 ≤ (cache.cells src.toNat).pos ↔ ¬(cache.cells dst.toNat).isEmpty
      rw [← hpos]
      exact h.valid _ hdst
    have hcells : ∀ i, i < cache.size →
        (after.addSeq src dst p0 p1).cells i = addSeqCell src dst p0 p1 (after.cells i) :=
      fun i hi => after.addSeq_cells hi
    refine ⟨after.addSeq src dst p0 p1, ?_, hbooked.addSeq src dst p0 p1, rfl, rfl, ?_, ?_, ?_⟩
    · rw [Cache.seqCp, if_pos hslot]
      dsimp only
      rw [hsrc, if_pos ⟨hsrc0, hsrcSize⟩]
    · intro i hi
      rw [hcells i hi, addSeqCell_pos]
      exact (hsame i).1
    · intro i hi
      rw [hcells i hi, addSeqCell_delta]
      exact (hsame i).2.1
    · intro i hi
      obtain ⟨hp, _, hs⟩ := hsame i
      have hin : (after.cells i).hasSeqId src ∧ (after.cells i).posIn p0 p1 ↔
          (cache.cells i).hasSeqId src ∧ (cache.cells i).posIn p0 p1 := by
        simp only [Cell.hasSeqId, Cell.posIn, hs, hp]
      rw [hcells i hi, addSeqCell_seqId, hs]
      exact if_congr hin rfl rfl
  · refine ⟨_, if_neg hslot, h.toBooked.addSeq src dst p0 p1, rfl, rfl, ?_, ?_, ?_⟩
    · intro i hi
      rw [cache.addSeq_cells hi, addSeqCell_pos]
    · intro i hi
      rw [cache.addSeq_cells hi, addSeqCell_delta]
    · intro i hi
      rw [cache.addSeq_cells hi, addSeqCell_seqId]

variable {cache' : Cache}

theorem Consistent.seqAdd (h : cache.Consistent) {seqId p0 p1 delta : ℤ}
    (hadd : cache.seqAdd seqId p0 p1 delta = some cache') : cache'.Consistent := by
  rw [Cache.seqAdd] at hadd
  split at hadd
  · cases hadd
  · split at hadd
    · obtain rfl := Option.some.inj hadd
      exact h
    · obtain rfl := Option.some.inj hadd
      have hkeeps : ((range cache.size).foldl (seqAddCell seqId p0 p1 delta)
          ⟨cache, cache.size⟩).Keeps cache :=
        Sweep.Keeps.foldl h.toBooked fun s i hs hi => hs.seqAddCell hi
      refine ⟨⟨hkeeps.booked.valid, hkeeps.booked.used, hkeeps.booked.slots, hkeeps.booked.src⟩, ?_⟩
      dsimp only
      rw [hkeeps.size]
      split
      · exact hkeeps.newHead
      · exact Nat.zero_le _

theorem Cell.Valid.divCell {seqId p0 p1 d : ℤ} (hd : 0 < d) (h : cell.Valid) :
    (divCell seqId p0 p1 d cell).Valid := by
  rw [Cache.divCell]
  split
  case isTrue hin =>
    have hpos : 0 ≤ cell.pos := (rangeStart_nonneg p0).trans hin.2.1
    exact iff_of_true (Int.tdiv_nonneg hpos hd.le) (Finset.ne_empty_of_mem hin.1)
  case isFalse => exact h

theorem Consistent.seqDiv (h : cache.Consistent) {seqId p0 p1 d : ℤ} (hd : 0 < d)
    (hdiv : cache.seqDiv seqId p0 p1 d = some cache') : cache'.Consistent := by
  rw [Cache.seqDiv] at hdiv
  split at hdiv
  · cases hdiv
  · split at hdiv
    · obtain rfl := Option.some.inj hdiv
      exact h
    · obtain rfl := Option.some.inj hdiv
      have hbooked : (cache.mapCells fun _ => divCell seqId p0 p1 d).Booked := by
        apply h.toBooked.mapCells
        · exact fun _ _ hv => Cell.Valid.divCell hd hv
        · intro _ cell
          rw [Cell.isEmpty, divCell, apply_ite Cell.seqId, ite_self, Cell.isEmpty]
        · intro _ cell
          rw [divCell, apply_ite Cell.src, ite_self]
          exact .inl rfl
      exact ⟨⟨hbooked.valid, hbooked.used, hbooked.slots, hbooked.src⟩, h.head⟩

theorem Consistent.updateShift (h : cache.Consistent) : cache.updateShift.Consistent := by
  have hbooked : (cache.mapCells fun _ cell => { cell with delta := 0 }).Booked :=
    h.toBooked.mapCells (fun _ _ hv => hv) (fun _ _ => Iff.rfl) fun _ _ => .inl rfl
  exact ⟨⟨hbooked.valid, hbooked.used, hbooked.slots, hbooked.src⟩, h.head⟩

theorem Consistent.updateCopy (h : cache.Consistent) : cache.updateCopy.Consistent := by
  rw [Cache.updateCopy]
  split
  case isFalse => exact h
  case isTrue =>
    have hbooked : (cache.mapCells fun i cell => { cell with src := i }).Booked :=
      h.toBooked.mapCells (fun _ _ hv => hv) (fun _ _ => Iff.rfl) fun _ _ => .inr rfl
    refine ⟨⟨hbooked.valid, hbooked.used, hbooked.slots, ?_⟩, h.head⟩
    intro _ _ i hi
    show ((cache.mapCells fun i cell => { cell with src := i }).cells i).src = i
    rw [show (cache.mapCells fun i cell => { cell with src := i }).cells i =
      { cache.cells i with src := i } from if_pos (hi.trans_le h.slots)]

/-! ## Runs -/

/-- A call on the cache.  An update of the context does the deferred work. -/
inductive Op
  | findSlot (batch : List Token)
  | seqRm (seqId p0 p1 : ℤ)
  | seqCp (src dst p0 p1 : ℤ)
  | seqKeep (seqId : ℤ)
  | seqAdd (seqId p0 p1 delta : ℤ)
  | seqDiv (seqId p0 p1 d : ℤ)
  | clear
  | defrag
  | update (hasRope canShift : Bool) (maxMoves : ℕ)

def step (cache : Cache) : Op → Option Cache
  | .findSlot batch => some (cache.findSlot batch).1
  | .seqRm seqId p0 p1 => (cache.seqRm seqId p0 p1).map Prod.fst
  | .seqCp src dst p0 p1 => cache.seqCp src dst p0 p1
  | .seqKeep seqId => some (cache.seqKeep seqId)
  | .seqAdd seqId p0 p1 delta => cache.seqAdd seqId p0 p1 delta
  | .seqDiv seqId p0 p1 d => cache.seqDiv seqId p0 p1 d
  | .clear => some cache.clear
  | .defrag => some cache.defrag
  | .update hasRope canShift maxMoves => cache.update hasRope canShift maxMoves

/-- What callers promise: tokens have a position and a sequence, and divisors are positive. -/
def Op.Valid : Op → Prop
  | .findSlot batch => ∀ token ∈ batch, token.Valid
  | .seqDiv _ _ _ d => 0 < d
  | _ => True

/-- A pending defragmentation that runs finds no hole among the state slots. -/
def SlotsFull (cache : Cache) (hasRope canShift : Bool) : Prop :=
  cache.doDefrag → cache.hasQnextStateStorage → (hasRope ∧ cache.hasShift → canShift) →
    ∀ i, i < cache.qnextStateSlots → i < cache.used → ¬(cache.cells i).isEmpty

/-- The call leaves the state slots alone. -/
def Op.Safe (cache : Cache) : Op → Prop
  | .seqCp src dst _ _ => cache.SlotsAgree src dst
  | .update hasRope canShift _ => cache.SlotsFull hasRope canShift
  | _ => True

/-- A call that callers may make and that leaves the state slots alone. -/
def SafeStep (cache : Cache) (op : Op) (cache' : Cache) : Prop :=
  op.Valid ∧ op.Safe cache ∧ cache.step op = some cache'

/-- The same cells are in use, and the same work is deferred. -/
structure SameUse (cache after : Cache) : Prop where
  used : after.used = cache.used
  slots : after.qnextStateSlots = cache.qnextStateSlots
  strict : after.sLPositionStrict = cache.sLPositionStrict
  doDefrag : after.doDefrag = cache.doDefrag
  seqId : ∀ i, (after.cells i).seqId = (cache.cells i).seqId

theorem SameUse.trans {after final : Cache} (h : cache.SameUse after) (h' : after.SameUse final) :
    cache.SameUse final where
  used := h'.used.trans h.used
  slots := h'.slots.trans h.slots
  strict := h'.strict.trans h.strict
  doDefrag := h'.doDefrag.trans h.doDefrag
  seqId i := (h'.seqId i).trans (h.seqId i)

theorem mapCells_seqId (cache : Cache) {f : ℕ → Cell → Cell}
    (hf : ∀ i cell, (f i cell).seqId = cell.seqId) (i : ℕ) :
    ((cache.mapCells f).cells i).seqId = (cache.cells i).seqId := by
  show (if i < cache.size then f i (cache.cells i) else cache.cells i).seqId = _
  split
  case isTrue => exact hf i _
  case isFalse => rfl

theorem sameUse_updateShift (cache : Cache) : cache.SameUse cache.updateShift :=
  ⟨rfl, rfl, rfl, rfl, cache.mapCells_seqId (f := fun _ cell => { cell with delta := 0 })
    fun _ _ => rfl⟩

theorem sameUse_updateCopy (cache : Cache) : cache.SameUse cache.updateCopy := by
  rw [Cache.updateCopy]
  split
  case isTrue =>
    exact ⟨rfl, rfl, rfl, rfl, cache.mapCells_seqId (f := fun i cell => { cell with src := i })
      fun _ _ => rfl⟩
  case isFalse => exact ⟨rfl, rfl, rfl, rfl, fun _ => rfl⟩

/-- The deferred work of a cache whose slots are full. -/
theorem Consistent.updateDefrag_of_sameUse {after cache' : Cache}
    (h : after.Consistent) (hsame : cache.SameUse after)
    (hfull : cache.doDefrag = true → cache.hasQnextStateStorage →
      ∀ i, i < cache.qnextStateSlots → i < cache.used → ¬(cache.cells i).isEmpty)
    (hstep : after.updateDefrag maxMoves = some cache') : cache'.Consistent := by
  have hslots : after.doDefrag = true → after.hasQnextStateStorage → after.doCopy = false →
      ∀ i, i < after.qnextStateSlots → i < after.used → ¬(after.cells i).isEmpty := by
    intro hdo hqnext _ i hi hused
    rw [hasQnextStateStorage, hsame.strict, hsame.slots] at hqnext
    rw [Cell.isEmpty, hsame.seqId]
    exact hfull (hsame.doDefrag ▸ hdo) hqnext i (hsame.slots ▸ hi) (hsame.used ▸ hused)
  obtain ⟨_, hafter, hcons⟩ := h.updateDefrag hslots
  rw [hstep] at hafter
  obtain rfl := Option.some.inj hafter
  exact hcons

theorem Consistent.update (h : cache.Consistent) {hasRope canShift : Bool}
    (hfull : cache.SlotsFull hasRope canShift)
    (hupdate : cache.update hasRope canShift maxMoves = some cache') : cache'.Consistent := by
  rw [Cache.update] at hupdate
  split at hupdate
  case isTrue hshift =>
    split at hupdate
    case isTrue hcan =>
      apply h.updateShift.updateCopy.updateDefrag_of_sameUse
        (cache.sameUse_updateShift.trans (sameUse_updateCopy _)) ?_ hupdate
      exact fun hdo hqnext => hfull hdo hqnext fun _ => hcan
    case isFalse =>
      obtain rfl := Option.some.inj hupdate
      exact h
  case isFalse hshift =>
    apply h.updateCopy.updateDefrag_of_sameUse cache.sameUse_updateCopy ?_ hupdate
    exact fun hdo hqnext => hfull hdo hqnext fun hshift' => absurd hshift' hshift

theorem Consistent.defrag (h : cache.Consistent) : cache.defrag.Consistent := by
  rw [Cache.defrag]
  split
  case isTrue => exact h
  case isFalse => exact ⟨⟨h.valid, h.used, h.slots, h.src⟩, h.head⟩

/-- A step keeps the bookkeeping. -/
theorem Consistent.step (h : cache.Consistent) {op : Op}
    (hstep : cache.SafeStep op cache') : cache'.Consistent := by
  obtain ⟨hvalid, hsafe, hstep⟩ := hstep
  cases op with
  | findSlot batch =>
    obtain rfl := Option.some.inj hstep
    exact h.findSlot hvalid
  | seqRm seqId p0 p1 =>
    obtain ⟨result, hrm, rfl⟩ := Option.map_eq_some_iff.mp hstep
    exact h.seqRm hrm
  | seqCp src dst p0 p1 =>
    obtain ⟨_, hcp, hcons, _⟩ := h.seqCp hsafe p0 p1
    obtain rfl := Option.some.inj (hcp.symm.trans hstep)
    exact hcons
  | seqKeep seqId =>
    obtain rfl := Option.some.inj hstep
    exact h.seqKeep seqId
  | seqAdd seqId p0 p1 delta => exact h.seqAdd hstep
  | seqDiv seqId p0 p1 d => exact h.seqDiv hvalid hstep
  | clear =>
    obtain rfl := Option.some.inj hstep
    exact h.clear
  | defrag =>
    obtain rfl := Option.some.inj hstep
    exact h.defrag
  | update hasRope canShift maxMoves => exact h.update hsafe hstep

/-- A cache that `llama_kv_cache_init` has just made. -/
def init (kvSize nSeqMax : ℕ) (hasState hybrid strict compacted : Bool)
    (sizes : ℕ × ℕ) : Cache where
  hasShift := false
  doDefrag := false
  doCopy := false
  sLPositionStrict := strict
  qnextStateSlots := if hasState ∧ (hybrid ∨ strict) then min (max 1 nSeqMax) kvSize else 0
  anyCompacted := compacted
  sinkRows := sizes.1
  windowSwa := sizes.2
  headSwa := sizes.1
  posBaseSwa := 0
  head := 0
  size := kvSize
  used := 0
  cells i := { Cell.empty with src := if hybrid then i else 0 }

theorem consistent_init (kvSize nSeqMax : ℕ) (hasState hybrid strict compacted : Bool)
    (sizes : ℕ × ℕ) : (init kvSize nSeqMax hasState hybrid strict compacted sizes).Consistent := by
  have hempty : ∀ i,
      ((init kvSize nSeqMax hasState hybrid strict compacted sizes).cells i).isEmpty :=
    fun _ => Cell.isEmpty_of_seqId rfl
  refine ⟨⟨fun i _ => Cell.valid_freed rfl (hempty i), ?_, ?_, ?_⟩, Nat.zero_le _⟩
  · exact (Nat.count_iff_forall_not.mpr fun i _ => not_not_intro (hempty i)).symm
  · show (if _ then min (max 1 nSeqMax) kvSize else 0) ≤ kvSize
    split
    · exact Nat.min_le_right _ _
    · exact Nat.zero_le _
  · rintro ⟨hstrict, hslots⟩ _ i _
    have hhybrid : hybrid = true := by
      by_contra hno
      have hzero : (init kvSize nSeqMax hasState hybrid strict compacted sizes).qnextStateSlots =
          0 :=
        if_neg fun h => h.2.elim hno hstrict
      exact absurd hslots (hzero ▸ Nat.lt_irrefl 0)
    show (if hybrid then (i : ℤ) else 0) = i
    rw [if_pos hhybrid]

/-- **Bookkeeping**: it holds in every state that safe calls reach, and there a safe copy
changes nothing but the sequences of the cells. -/
theorem bookkeeping_run {kvSize nSeqMax : ℕ} {hasState hybrid strict compacted : Bool}
    {sizes : ℕ × ℕ} {ops : List Op} {cache : Cache}
    (h : Steps SafeStep (init kvSize nSeqMax hasState hybrid strict compacted sizes) ops cache) :
    cache.Consistent ∧ ∀ src dst p0 p1, cache.SlotsAgree src dst →
      ∃ cache', cache.seqCp src dst p0 p1 = some cache' ∧ CopiesSeq cache cache' src dst p0 p1 := by
  have hcons : cache.Consistent :=
    h.invariant (P := Consistent) (fun _ _ _ hs hstep => hs.step hstep) (consistent_init ..)
  refine ⟨hcons, fun src dst p0 p1 hagree => ?_⟩
  obtain ⟨cache', hcp, _, hcopies⟩ := hcons.seqCp hagree p0 p1
  exact ⟨cache', hcp, hcopies⟩

/-- A hybrid cache of four cells, all state slots. -/
def fourSlots : Cache := init 4 4 true true false false (0, 0)

/-- Its first call: one token of sequence 0. -/
def oneToken : Op := .findSlot [⟨0, [0]⟩]

theorem oneToken_valid : oneToken.Valid := by
  intro token htoken
  obtain rfl := mem_singleton.mp htoken
  exact ⟨Int.le_refl 0, cons_ne_nil 0 []⟩

theorem bookkeeping_run_oneToken : (fourSlots.findSlot [⟨0, [0]⟩]).1.Consistent ∧
    ∀ src dst p0 p1, (fourSlots.findSlot [⟨0, [0]⟩]).1.SlotsAgree src dst →
      ∃ cache', (fourSlots.findSlot [⟨0, [0]⟩]).1.seqCp src dst p0 p1 = some cache' ∧
        CopiesSeq (fourSlots.findSlot [⟨0, [0]⟩]).1 cache' src dst p0 p1 :=
  bookkeeping_run (.single (e := oneToken) ⟨oneToken_valid, trivial, rfl⟩)

theorem findSlot_fourSlots : (fourSlots.findSlot [⟨0, [0]⟩]).1 =
    { fourSlots with cells := placeTokens fourSlots.cells 0 [⟨0, [0]⟩], used := 1 } := by
  rw [findSlot, dif_pos (by decide), slotSearch]
  rfl

/-- Copying sequence 0 to the empty slot 2 gives its cell a position and no sequence. -/
theorem not_bookkeeping : ¬∀ kvSize nSeqMax hasState hybrid strict compacted sizes ops cache,
    Steps (fun s op t => op.Valid ∧ s.step op = some t)
      (init kvSize nSeqMax hasState hybrid strict compacted sizes) ops cache →
      cache.Consistent := by
  intro hall
  obtain ⟨cache, hcp, hpos, hseq⟩ : ∃ cache,
      (fourSlots.findSlot [⟨0, [0]⟩]).1.seqCp 0 2 (-1) (-1) = some cache ∧
        (cache.cells 2).pos = 0 ∧ (cache.cells 2).isEmpty := by
    rw [findSlot_fourSlots]
    exact ⟨_, rfl, rfl, by decide⟩
  have hcons : cache.Consistent := by
    refine hall 4 4 true true false false (0, 0) [oneToken, .seqCp 0 2 (-1) (-1)] cache ?_
    exact .cons ⟨oneToken_valid, rfl⟩ (.single ⟨trivial, hcp⟩)
  have hsize : cache.size = 4 := by
    rw [findSlot_fourSlots] at hcp
    cases hcp
    rfl
  exact (hcons.valid 2 (hsize ▸ by decide)).mp hpos.ge hseq

end Cache

end ExpertPin.Kv
