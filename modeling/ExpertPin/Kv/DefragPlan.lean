import ExpertPin.Kv.Defrag

/-!
# The plan of a defragmentation

Each move takes a cell from beyond the first `used` cells to a hole among them.  So what
has been moved is never moved again, what has been filled is never read, and the number
of cells in use stays `used` (`Planned.move`).  It is also why the search for cells to
move always finds as many as the hole has: there are as many cells in use beyond the
first `used` as there are holes among these (`findTail_spec`).
-/

namespace ExpertPin.Kv

open Function
open Nat

/-- A cell is moved by the plan when its entry is neither `n_kv` nor the cell itself. -/
def DefragState.Moved (s : DefragState) (nKv i : ℕ) : Prop := s.ids i ≠ nKv ∧ s.ids i ≠ i

/-- What relates the state of the search to the cache it started from. -/
structure Planned (cells : ℕ → Cell) (nKv nUsed : ℕ) (s : DefragState) : Prop where
  source : ∀ i, s.Moved nKv i → nUsed ≤ i ∧ i < nKv ∧ ¬(cells i).isEmpty
  target : ∀ i, s.Moved nKv i → s.ids i < nUsed ∧ (cells (s.ids i)).isEmpty
  arrived : ∀ i, s.Moved nKv i → s.cells (s.ids i) = cells i
  left : ∀ i, s.Moved nKv i → s.cells i = Cell.empty
  distinct : ∀ i j, s.Moved nKv i → s.Moved nKv j → s.ids i = s.ids j → i = j
  still : ∀ k, ¬s.Moved nKv k → (∀ i, s.Moved nKv i → s.ids i ≠ k) → s.cells k = cells k
  kept : ∀ i, s.ids i = i → i ≠ nKv → i < nUsed
  used : Nat.count (fun i => ¬(s.cells i).isEmpty) nKv = nUsed
  counted : ∀ i, s.Moved nKv i → 0 < s.nMoves

/-- The first cells are all in use. -/
def DefragState.Filled (s : DefragState) (m : ℕ) : Prop := ∀ k, k < m → ¬(s.cells k).isEmpty

namespace Planned

variable {cells : ℕ → Cell} {nKv nUsed : ℕ} {s : DefragState} {i t : ℕ} {cont : Bool}

/-- Beyond the first `used` cells the search skips the empty cells only. -/
theorem skips_iff (h : Planned cells nKv nUsed s) (hi : nUsed ≤ i) (hn : i < nKv) :
    s.skips nKv i ↔ (s.cells i).isEmpty := by
  constructor
  · rintro (hempty | hids)
    · exact hempty
    · have hmoved : s.Moved nKv i := by
        refine ⟨hids, fun heq => ?_⟩
        exact absurd (h.kept i heq (Nat.ne_of_lt hn)) (Nat.not_lt.mpr hi)
      rw [h.left i hmoved]
      exact Cell.isEmpty_empty
  · exact Or.inl

/-- An empty cell among the first `used` has not been touched. -/
theorem untouched (h : Planned cells nKv nUsed s) (ht : t < nUsed) (hempty : (s.cells t).isEmpty) :
    ¬s.Moved nKv t ∧ ∀ i, s.Moved nKv i → s.ids i ≠ t := by
  constructor
  · intro hmoved
    exact absurd (h.source t hmoved).1 (not_le.mpr ht)
  · rintro i hmoved rfl
    rw [h.arrived i hmoved] at hempty
    exact (h.source i hmoved).2.2 hempty

/-- A cell afterwards is a new one, or one from before. -/
theorem cells_cases (h : Planned cells nKv nUsed s) (k : ℕ) :
    s.cells k = Cell.empty ∨ (∃ i, s.Moved nKv i ∧ s.cells k = cells i) ∨ s.cells k = cells k := by
  by_cases hk : s.Moved nKv k
  · exact .inl (h.left k hk)
  · by_cases htarget : ∃ i, s.Moved nKv i ∧ s.ids i = k
    · obtain ⟨i, hi, rfl⟩ := htarget
      exact .inr (.inl ⟨i, hi, h.arrived i hi⟩)
    · exact .inr (.inr (h.still k hk fun i hi heq => htarget ⟨i, hi, heq⟩))

theorem keep (h : Planned cells nKv nUsed s) (ht : t < nUsed) :
    Planned cells nKv nUsed (s.keep t) := by
  have hids : ∀ i, i ≠ t → (s.keep t).ids i = s.ids i := fun i hit => by
    rw [DefragState.keep_ids, update_of_ne hit]
  have hmoved : ∀ i, (s.keep t).Moved nKv i → s.Moved nKv i ∧ (s.keep t).ids i = s.ids i := by
    intro i hi
    have hit : i ≠ t := by
      rintro rfl
      apply hi.2
      rw [DefragState.keep_ids, update_self]
    exact ⟨⟨hids i hit ▸ hi.1, hids i hit ▸ hi.2⟩, hids i hit⟩
  have hback : ∀ i, s.Moved nKv i → (s.keep t).Moved nKv i ∧ (s.keep t).ids i = s.ids i := by
    intro i hi
    have hit : i ≠ t := by
      rintro rfl
      exact absurd (h.source i hi).1 (not_le.mpr ht)
    exact ⟨⟨(hids i hit).symm ▸ hi.1, (hids i hit).symm ▸ hi.2⟩, hids i hit⟩
  constructor
  case source => exact fun i hi => h.source i (hmoved i hi).1
  case target =>
    intro i hi
    rw [(hmoved i hi).2]
    exact h.target i (hmoved i hi).1
  case arrived =>
    intro i hi
    rw [(hmoved i hi).2]
    exact h.arrived i (hmoved i hi).1
  case left => exact fun i hi => h.left i (hmoved i hi).1
  case distinct =>
    intro i j hi hj heq
    rw [(hmoved i hi).2, (hmoved j hj).2] at heq
    exact h.distinct i j (hmoved i hi).1 (hmoved j hj).1 heq
  case still =>
    intro k hk hnot
    refine h.still k (fun hm => hk (hback k hm).1) fun i hi => ?_
    rw [← (hback i hi).2]
    exact hnot i (hback i hi).1
  case kept =>
    intro i hi hn
    by_cases hit : i = t
    · exact hit ▸ ht
    · rw [hids i hit] at hi
      exact h.kept i hi hn
  case used => exact h.used
  case counted => exact fun i hi => h.counted i (hmoved i hi).1

/-- A move of a cell beyond the first `used` to an empty one among them. -/
theorem move (h : Planned cells nKv nUsed s) (hi : nUsed ≤ i) (hn : i < nKv)
    (huse : ¬(s.cells i).isEmpty) (ht : t < nUsed) (hempty : (s.cells t).isEmpty)
    (hcont : cont = true → 0 < s.nMoves) :
    Planned cells nKv nUsed (s.move nUsed t i cont) := by
  have hti : t ≠ i := Nat.ne_of_lt (Nat.lt_of_lt_of_le ht hi)
  have htn : t ≠ nKv := Nat.ne_of_lt (ht.trans_le (hi.trans hn.le))
  obtain ⟨htm, htarget⟩ := h.untouched ht hempty
  have him : ¬s.Moved nKv i := fun hm => huse (by rw [h.left i hm]; exact Cell.isEmpty_empty)
  have hit : ∀ j, s.Moved nKv j → s.ids j ≠ i := fun j hj =>
    Nat.ne_of_lt ((h.target j hj).1.trans_le hi)
  have hi0 : s.cells i = cells i := h.still i him hit
  have ht0 : s.cells t = cells t := h.still t htm htarget
  have hself : (s.move nUsed t i cont).ids i = t := by
    rw [DefragState.move_ids, update_self]
  have hother : ∀ j, j ≠ i → (s.move nUsed t i cont).ids j = s.ids j := fun j hj => by
    rw [DefragState.move_ids, update_of_ne hj]
  have hcell : ∀ k, k ≠ i → k ≠ t → (s.move nUsed t i cont).cells k = s.cells k := by
    intro k hki hkt
    rw [DefragState.move_cells, update_of_ne hki, update_of_ne hkt]
  have hcellt : (s.move nUsed t i cont).cells t = s.cells i := by
    rw [DefragState.move_cells, update_of_ne hti, update_self]
  have hcelli : (s.move nUsed t i cont).cells i = Cell.empty := by
    rw [DefragState.move_cells, update_self]
  have hmovedi : (s.move nUsed t i cont).Moved nKv i := ⟨hself.trans_ne htn, hself.trans_ne hti⟩
  have hmoved : ∀ j, (s.move nUsed t i cont).Moved nKv j → j = i ∨ j ≠ i ∧ s.Moved nKv j := by
    intro j hj
    by_cases hji : j = i
    · exact .inl hji
    · exact .inr ⟨hji, hother j hji ▸ hj.1, hother j hji ▸ hj.2⟩
  have hback : ∀ j, s.Moved nKv j → j ≠ i ∧ (s.move nUsed t i cont).Moved nKv j := by
    intro j hj
    have hji : j ≠ i := by
      rintro rfl
      exact him hj
    exact ⟨hji, (hother j hji).symm ▸ hj.1, (hother j hji).symm ▸ hj.2⟩
  constructor
  case source =>
    intro j hj
    rcases hmoved j hj with rfl | ⟨hji, hj'⟩
    · exact ⟨hi, hn, hi0 ▸ huse⟩
    · exact h.source j hj'
  case target =>
    intro j hj
    rcases hmoved j hj with rfl | ⟨hji, hj'⟩
    · rw [hself]
      exact ⟨ht, ht0 ▸ hempty⟩
    · rw [hother j hji]
      exact h.target j hj'
  case arrived =>
    intro j hj
    rcases hmoved j hj with rfl | ⟨hji, hj'⟩
    · rw [hself, hcellt, hi0]
    · rw [hother j hji, hcell _ (hit j hj') (htarget j hj')]
      exact h.arrived j hj'
  case left =>
    intro j hj
    rcases hmoved j hj with rfl | ⟨hji, hj'⟩
    · exact hcelli
    · have hjt : j ≠ t := fun heq => htm (heq ▸ hj')
      rw [hcell j hji hjt]
      exact h.left j hj'
  case distinct =>
    intro j k hj hk heq
    rcases hmoved j hj with rfl | ⟨hji, hj'⟩
    · rcases hmoved k hk with rfl | ⟨hki, hk'⟩
      · rfl
      · rw [hself, hother k hki] at heq
        exact absurd heq.symm (htarget k hk')
    · rcases hmoved k hk with rfl | ⟨hki, hk'⟩
      · rw [hself, hother j hji] at heq
        exact absurd heq (htarget j hj')
      · rw [hother j hji, hother k hki] at heq
        exact h.distinct j k hj' hk' heq
  case still =>
    intro k hk hnot
    have hki : k ≠ i := by
      rintro rfl
      exact hk hmovedi
    have hkt : k ≠ t := by
      rintro rfl
      exact hnot i hmovedi hself
    rw [hcell k hki hkt]
    refine h.still k (fun hm => hk (hback k hm).2) fun j hj => ?_
    rw [← hother j (hback j hj).1]
    exact hnot j (hback j hj).2
  case kept =>
    intro j hj hjn
    by_cases hji : j = i
    · rw [hji, hself] at hj
      exact absurd hj hti
    · rw [hother j hji] at hj
      exact h.kept j hj hjn
  case used =>
    refine Eq.trans ?_ h.used
    apply Slots.count_move hn (ht.trans_le (hi.trans hn.le)) huse (not_not_intro hempty)
    · rw [hcelli]
      exact not_not_intro Cell.isEmpty_empty
    · rw [hcellt]
      exact huse
    · intro k hki hkt
      rw [hcell k hki hkt]
  case counted => exact fun _ _ => DefragState.nMoves_move_pos hcont

end Planned

/-! ## The search -/

namespace DefragState

variable {cells : ℕ → Cell} {nKv nUsed maxMoves : ℕ} {s : DefragState} {i0 nh nf : ℕ}

/-- The cells in use below a bound. -/
def full (s : DefragState) (n : ℕ) : ℕ := Nat.count (fun i => ¬(s.cells i).isEmpty) n

theorem full_succ_of_isEmpty {i : ℕ} (h : (s.cells i).isEmpty) : s.full (i + 1) = s.full i := by
  rw [full, count_succ, if_neg (not_not_intro h), add_zero, full]

theorem full_succ_of_not_isEmpty {i : ℕ} (h : ¬(s.cells i).isEmpty) :
    s.full (i + 1) = s.full i + 1 := by
  rw [full, count_succ, if_pos h, full]

theorem full_mono {m n : ℕ} (h : m ≤ n) : s.full m ≤ s.full n := count_monotone _ h

theorem full_add_le (m n : ℕ) : s.full (m + n) ≤ s.full m + n := by
  rw [full, full, Nat.count_add]
  exact Nat.add_le_add_left (Nat.count_le _) _

theorem holeSize_spec (hle : i0 + nh ≤ nUsed)
    (hempty : ∀ k, i0 ≤ k → k < i0 + nh → (s.cells k).isEmpty) :
    nh ≤ s.holeSize nUsed i0 nh ∧ i0 + s.holeSize nUsed i0 nh ≤ nUsed ∧
      ∀ k, i0 ≤ k → k < i0 + s.holeSize nUsed i0 nh → (s.cells k).isEmpty := by
  fun_induction holeSize s nUsed i0 nh with
  | case1 nh h ih =>
    have hnext : ∀ k, i0 ≤ k → k < i0 + (nh + 1) → (s.cells k).isEmpty := by
      intro k hk hlt
      rcases Nat.lt_succ_iff_lt_or_eq.mp hlt with hlt | rfl
      · exact hempty k hk hlt
      · exact h.2
    obtain ⟨hge, hrest⟩ := ih h.1 hnext
    exact ⟨Nat.le_of_succ_le hge, hrest⟩
  | case2 nh h => exact ⟨Nat.le_refl nh, hle, hempty⟩

/-- The search finds `nh` cells, all beyond the first `used`, when there are as many. -/
theorem findTail_spec (h : Planned cells nKv nUsed s) (hi0 : i0 < nUsed)
    (htail : s.full nUsed + nh ≤ nUsed) {is : ℕ} (his : is < nKv) (hnf : nf < nh)
    (hfound : s.full (is + 1) + nf = nUsed) :
    ∃ r, s.findTail nKv i0 nh is nf = (r, nh) ∧ nUsed ≤ r ∧ r < nKv ∧ s.full r + nh = nUsed := by
  have hbeyond : ∀ {is nf : ℕ}, nf < nh → s.full (is + 1) + nf = nUsed → nUsed ≤ is := by
    intro is nf hnf hfound
    apply Nat.le_of_not_lt
    intro hlt
    have hmono : s.full (is + 1) ≤ s.full nUsed := full_mono hlt
    omega
  induction is generalizing nf with
  | zero => exact absurd (hbeyond hnf hfound) (Nat.not_le.mpr (Nat.zero_lt_of_lt hi0))
  | succ is ih =>
    have hu : nUsed ≤ is + 1 := hbeyond hnf hfound
    rw [findTail, if_pos (hi0.trans_le hu)]
    by_cases hskip : s.skips nKv (is + 1)
    · rw [if_pos hskip]
      rw [full_succ_of_isEmpty ((h.skips_iff hu his).mp hskip)] at hfound
      exact ih (Nat.lt_of_succ_lt his) hnf hfound
    · rw [if_neg hskip]
      rw [h.skips_iff hu his] at hskip
      rw [full_succ_of_not_isEmpty hskip, Nat.add_assoc, Nat.add_comm 1 nf] at hfound
      by_cases hend : nf + 1 = nh
      · rw [if_pos hend, hend]
        exact ⟨is + 1, rfl, hu, his, hend ▸ hfound⟩
      · rw [if_neg hend]
        exact ih (Nat.lt_of_succ_lt his) (Nat.lt_of_le_of_ne hnf hend) hfound

section Move

variable {t i1 : ℕ} {cont : Bool}

theorem move_cells_source : (s.move nUsed t i1 cont).cells i1 = Cell.empty := by
  rw [move_cells, update_self]

theorem move_cells_target (h : t ≠ i1) : (s.move nUsed t i1 cont).cells t = s.cells i1 := by
  rw [move_cells, update_of_ne h, update_self]

theorem move_cells_of_ne {k : ℕ} (hi : k ≠ i1) (ht : k ≠ t) :
    (s.move nUsed t i1 cont).cells k = s.cells k := by
  rw [move_cells, update_of_ne hi, update_of_ne ht]

/-- Moves extend the part that is full from the left. -/
theorem Filled.move (h : s.Filled t) (ht : t < i1) (huse : ¬(s.cells i1).isEmpty) :
    (s.move nUsed t i1 cont).Filled (t + 1) := by
  intro k hk
  rcases Nat.lt_succ_iff_lt_or_eq.mp hk with hlt | rfl
  · rw [move_cells_of_ne (Nat.ne_of_lt (hlt.trans ht)) (Nat.ne_of_lt hlt)]
    exact h k hlt
  · rw [move_cells_target (Nat.ne_of_lt ht)]
    exact huse

theorem full_move (ht : t < i1) (huse : ¬(s.cells i1).isEmpty) (hempty : (s.cells t).isEmpty) :
    (s.move nUsed t i1 cont).full (i1 + 1) = s.full i1 + 1 := by
  rw [← full_succ_of_not_isEmpty huse]
  apply Slots.count_move (Nat.lt_succ_self i1) (ht.trans (Nat.lt_succ_self i1)) huse
    (not_not_intro hempty)
  · rw [move_cells_source]
    exact not_not_intro Cell.isEmpty_empty
  · rw [move_cells_target (Nat.ne_of_lt ht)]
    exact huse
  · intro k hki hkt
    rw [move_cells_of_ne hki hkt]

end Move

/-- Going back fills the hole, or stops because the budget is spent. -/
theorem moveBack_spec (h : Planned cells nKv nUsed s) (hhole : i0 + nh ≤ nUsed)
    {i1 : ℕ} {cont : Bool} (hnf : nf < nh) (hi1 : nUsed ≤ i1) (hfill : s.Filled (i0 + nf))
    (hempty : ∀ k, i0 + nf ≤ k → k < i0 + nh → (s.cells k).isEmpty)
    (hcount : s.full i1 + (nh - nf) = nUsed) (hcont : cont = true → 0 < s.nMoves) :
    Planned cells nKv nUsed (s.moveBack maxMoves nKv nUsed i0 nh i1 nf cont).1 ∧
      ((s.moveBack maxMoves nKv nUsed i0 nh i1 nf cont).1.nMoves = maxMoves ∨
        (s.moveBack maxMoves nKv nUsed i0 nh i1 nf cont).2 = false ∧
        (s.moveBack maxMoves nKv nUsed i0 nh i1 nf cont).1.Filled (i0 + nh)) := by
  fun_induction moveBack s maxMoves nKv nUsed i0 nh i1 nf cont with
  | case1 s i1 nf cont hlt hskip hmax => exact ⟨h, .inl hmax⟩
  | case2 s i1 nf cont hlt hskip hmax ih =>
    have hfree := (h.skips_iff hi1 hlt).mp hskip
    apply ih h hnf (Nat.le_succ_of_le hi1) hfill hempty
    · rw [full_succ_of_isEmpty hfree]
      exact hcount
    · exact fun heq => absurd heq Bool.false_ne_true
  | case3 s i1 nf cont hlt hskip hend =>
    have huse := mt (h.skips_iff hi1 hlt).mpr hskip
    have ht : i0 + nf < nUsed := (Nat.add_lt_add_left hnf i0).trans_le hhole
    have hfree := hempty (i0 + nf) (Nat.le_refl _) (Nat.add_lt_add_left hnf i0)
    refine ⟨h.move hi1 hlt huse ht hfree hcont, .inr ⟨rfl, ?_⟩⟩
    rw [← hend]
    exact hfill.move (ht.trans_le hi1) huse
  | case4 s i1 nf cont hlt hskip hend ih =>
    have huse := mt (h.skips_iff hi1 hlt).mpr hskip
    have ht : i0 + nf < nUsed := (Nat.add_lt_add_left hnf i0).trans_le hhole
    have hti : i0 + nf < i1 := ht.trans_le hi1
    have hfree := hempty (i0 + nf) (Nat.le_refl _) (Nat.add_lt_add_left hnf i0)
    apply ih (h.move hi1 hlt huse ht hfree hcont) (Nat.lt_of_le_of_ne hnf hend)
      (Nat.le_succ_of_le hi1) (hfill.move hti huse)
    · intro k hk hlt'
      have hki : k ≠ i1 := Nat.ne_of_lt ((hlt'.trans_le hhole).trans_le hi1)
      have hkt : k ≠ i0 + nf := Nat.ne_of_gt hk
      rw [move_cells_of_ne hki hkt]
      exact hempty k (Nat.le_of_succ_le hk) hlt'
    · rw [full_move hti huse hfree]
      omega
    · exact fun _ => nMoves_move_pos hcont
  | case5 s i1 nf cont hlt =>
    have hmono : s.full nKv ≤ s.full i1 := full_mono (Nat.le_of_not_lt hlt)
    have hused : s.full nKv = nUsed := h.used
    omega

/-- One hole: the cells to fill it are found, and moved there while the budget lasts. -/
theorem fill_hole (maxMoves : ℕ) (h : Planned cells nKv nUsed s) (hle : nUsed ≤ nKv)
    (hlt : i0 < nUsed)
    (hfill : s.Filled i0) (hempty : (s.cells i0).isEmpty) :
    ∃ nh r, s.holeSize nUsed i0 1 = nh ∧ 0 < nh ∧ s.findTail nKv i0 nh (nKv - 1) 0 = (r, nh) ∧
      Planned cells nKv nUsed (s.moveBack maxMoves nKv nUsed i0 nh r 0 false).1 ∧
      ((s.moveBack maxMoves nKv nUsed i0 nh r 0 false).1.nMoves = maxMoves ∨
        (s.moveBack maxMoves nKv nUsed i0 nh r 0 false).2 = false ∧
        (s.moveBack maxMoves nKv nUsed i0 nh r 0 false).1.Filled (i0 + nh)) := by
  have hfirst : ∀ k, i0 ≤ k → k < i0 + 1 → (s.cells k).isEmpty := by
    intro k hk hlt
    obtain rfl : k = i0 := Nat.le_antisymm (Nat.le_of_lt_succ hlt) hk
    exact hempty
  obtain ⟨hpos, hhole, hcells⟩ := holeSize_spec (s := s) (Nat.succ_le_of_lt hlt) hfirst
  have hroom : s.full nUsed + s.holeSize nUsed i0 1 ≤ nUsed := by
    obtain ⟨d, hd⟩ := Nat.exists_eq_add_of_le hhole
    have hstart : s.full i0 ≤ i0 := Nat.count_le _
    have hend := full_add_le (s := s) (i0 + s.holeSize nUsed i0 1) d
    have hskip : s.full (i0 + s.holeSize nUsed i0 1) = s.full i0 :=
      Slots.count_eq_of_free (Nat.le_add_right i0 _) fun k hk hlt =>
        not_not_intro (hcells k hk hlt)
    rw [hskip, ← hd] at hend
    omega
  have hn : nKv - 1 + 1 = nKv := Nat.sub_add_cancel (Nat.zero_lt_of_lt (hlt.trans_le hle))
  obtain ⟨r, hfound, hr, hrn, hcount⟩ := findTail_spec h hlt hroom (Nat.lt_of_succ_le hn.le) hpos
    (by rw [hn]; exact h.used)
  refine ⟨_, r, rfl, hpos, hfound, ?_⟩
  apply moveBack_spec h hhole hpos hr hfill hcells
  · rw [Nat.sub_zero]
    exact hcount
  · exact fun heq => absurd heq Bool.false_ne_true

/-- The outer loop never fails its assertion, and ends with the budget spent or the first
`used` cells full. -/
theorem fillHoles_spec (maxMoves : ℕ) (h : Planned cells nKv nUsed s) (hle : nUsed ≤ nKv)
    (hfill : s.Filled i0) :
    ∃ s', s.fillHoles maxMoves nKv nUsed i0 = some s' ∧ Planned cells nKv nUsed s' ∧
      (s'.nMoves = maxMoves ∨ s'.Filled nUsed) := by
  fun_induction fillHoles s maxMoves nKv nUsed i0 with
  | case1 s i0 hlt huse ih =>
    apply ih (h.keep hlt)
    intro k hk
    rcases Nat.lt_succ_iff_lt_or_eq.mp hk with hlt | rfl
    · exact hfill k hlt
    · exact huse
  | case2 s i0 hlt hempty nh found hfound moved hstop =>
    obtain ⟨_, r, rfl, _, hr, hplan, hend⟩ :=
      fill_hole maxMoves h hle hlt hfill (not_not.mp hempty)
    have hmoved : moved = s.moveBack maxMoves nKv nUsed i0 nh r 0 false :=
      congrArg (fun p => s.moveBack maxMoves nKv nUsed i0 nh p.1 0 false) hr
    rw [← hmoved] at hplan hend
    refine ⟨moved.1, rfl, hplan, .inl ?_⟩
    rcases hend with hmax | ⟨hgo, _⟩
    · exact hmax
    · exact hstop.resolve_left (by rw [hgo]; exact Bool.false_ne_true)
  | case3 s i0 hlt hempty nh found hfound moved hstop ih =>
    obtain ⟨_, r, rfl, hpos, hr, hplan, hend⟩ :=
      fill_hole maxMoves h hle hlt hfill (not_not.mp hempty)
    have hmoved : moved = s.moveBack maxMoves nKv nUsed i0 nh r 0 false :=
      congrArg (fun p => s.moveBack maxMoves nKv nUsed i0 nh p.1 0 false) hr
    rw [← hmoved] at hplan hend
    apply ih hplan
    rw [Nat.add_assoc, Nat.sub_add_cancel hpos]
    exact (hend.resolve_left fun hmax => hstop (.inr hmax)).2
  | case4 s i0 hlt hempty nh found hfound =>
    obtain ⟨_, r, rfl, _, hr, _⟩ :=
      fill_hole maxMoves h hle hlt hfill (not_not.mp hempty)
    exact absurd (congrArg Prod.snd hr) hfound
  | case5 s i0 hlt =>
    exact ⟨s, rfl, h, .inr fun k hk => hfill k (hk.trans_le (Nat.le_of_not_lt hlt))⟩

/-- Moves put the head behind the cells in use. -/
theorem head_moveBack {i1 head : ℕ} {cont : Bool} (h : s.head = head ∨ s.head = nUsed) :
    (s.moveBack maxMoves nKv nUsed i0 nh i1 nf cont).1.head = head ∨
      (s.moveBack maxMoves nKv nUsed i0 nh i1 nf cont).1.head = nUsed := by
  fun_induction moveBack s maxMoves nKv nUsed i0 nh i1 nf cont with
  | case1 => exact h
  | case2 s i1 nf cont hlt hskip hmax ih => exact ih h
  | case3 => exact .inr rfl
  | case4 s i1 nf cont hlt hskip hend ih => exact ih (.inr rfl)
  | case5 => exact h

theorem head_fillHoles {s' : DefragState} {head : ℕ} (h : s.head = head ∨ s.head = nUsed)
    (hs : s.fillHoles maxMoves nKv nUsed i0 = some s') : s'.head = head ∨ s'.head = nUsed := by
  fun_induction fillHoles s maxMoves nKv nUsed i0 with
  | case1 s i0 hlt huse ih => exact ih h hs
  | case2 s i0 hlt hempty nh found hfound moved hstop =>
    obtain rfl := Option.some.inj hs
    exact head_moveBack h
  | case3 s i0 hlt hempty nh found hfound moved hstop ih => exact ih (head_moveBack h) hs
  | case4 => cases hs
  | case5 s i0 hlt =>
    obtain rfl := Option.some.inj hs
    exact h

/-- Where the plan takes a cell. -/
def dest (s : DefragState) (nKv i : ℕ) : ℕ := if s.ids i = nKv then i else s.ids i

theorem dest_of_moved {i : ℕ} (h : s.Moved nKv i) : s.dest nKv i = s.ids i := if_neg h.1

theorem dest_of_not_moved {i : ℕ} (h : ¬s.Moved nKv i) : s.dest nKv i = i := by
  rw [dest]
  split
  case isTrue => rfl
  case isFalse hids =>
    by_contra hne
    exact h ⟨hids, hne⟩

end DefragState

/-! ## The cells afterwards -/

/-- What a finished search has done to the cells: `dest` takes the cells in use to the cells
in use afterwards, one to one, and each arrives unchanged. -/
structure Cache.Defragmented (cache : Cache) (maxMoves : ℕ) (s : DefragState) : Prop where
  /-- the plan only moves cells down, to cells that were empty -/
  lower : ∀ i, i < cache.cellMax → s.Moved cache.cellMax i →
    s.ids i < i ∧ (cache.cells (s.ids i)).isEmpty
  distinct : ∀ i j, s.Moved cache.cellMax i → s.Moved cache.cellMax j → s.ids i = s.ids j → i = j
  bijective : Set.BijOn (s.dest cache.cellMax) {i | i < cache.size ∧ ¬(cache.cells i).isEmpty}
    {k | k < cache.size ∧ ¬(s.cells k).isEmpty}
  arrived : ∀ i, i < cache.size → ¬(cache.cells i).isEmpty →
    s.cells (s.dest cache.cellMax i) = cache.cells i
  /-- with moves left over the first `used` cells are full and all others empty -/
  compact : s.nMoves < maxMoves → ∀ k, k < cache.size → (¬(s.cells k).isEmpty ↔ k < cache.used)

namespace Cache

variable {cache : Cache} {maxMoves : ℕ} {s : DefragState}

/-- `used` counts the cells with a sequence, and the last of them is in use. -/
structure Accurate (cache : Cache) : Prop where
  used : cache.used = Nat.count (fun i => ¬(cache.cells i).isEmpty) cache.size
  last : ∀ i, i < cache.size → ¬(cache.cells i).isEmpty →
    ∃ j, i ≤ j ∧ j < cache.size ∧ (cache.cells j).inUse

theorem Accurate.lt_cellMax (h : cache.Accurate) {i : ℕ} (hi : i < cache.size)
    (huse : ¬(cache.cells i).isEmpty) : i < cache.cellMax := by
  obtain ⟨j, hij, hj, hinUse⟩ := h.last i hi huse
  apply Nat.lt_of_le_of_lt hij
  exact Nat.lt_of_not_le fun hle => not_inUse_of_cellMaxBelow_le hle hj hinUse

theorem Accurate.count_cellMax (h : cache.Accurate) :
    Nat.count (fun i => ¬(cache.cells i).isEmpty) cache.cellMax = cache.used := by
  rw [h.used]
  symm
  apply Slots.count_eq_of_free (cellMax_le cache)
  intro k hk hsize huse
  exact absurd (h.lt_cellMax hsize huse) (not_lt.mpr hk)

theorem Accurate.planned (h : cache.Accurate) :
    Planned cache.cells cache.cellMax cache.used cache.defragStart := by
  have hnot : ∀ i, ¬cache.defragStart.Moved cache.cellMax i := fun i hi => hi.1 rfl
  exact {
    source := fun i hi => absurd hi (hnot i)
    target := fun i hi => absurd hi (hnot i)
    arrived := fun i hi => absurd hi (hnot i)
    left := fun i hi => absurd hi (hnot i)
    distinct := fun i _ hi => absurd hi (hnot i)
    still := fun _ _ _ => rfl
    kept := fun i hi hn => absurd hi.symm hn
    used := h.count_cellMax
    counted := fun i hi => absurd hi (hnot i) }

theorem Accurate.used_le (h : cache.Accurate) : cache.used ≤ cache.cellMax := by
  rw [← h.count_cellMax]
  exact count_le _

end Cache

namespace Planned

variable {cache : Cache} {maxMoves : ℕ} {s : DefragState}

/-- The other cells hold what they held. -/
theorem cells_of_not_target (h : Planned cache.cells cache.cellMax cache.used s) {k : ℕ}
    (hempty : ¬(cache.cells k).isEmpty) (hk : ¬s.Moved cache.cellMax k) :
    s.cells k = cache.cells k := by
  apply h.still k hk
  rintro i hi rfl
  exact hempty (h.target i hi).2

theorem cells_dest (h : Planned cache.cells cache.cellMax cache.used s) {i : ℕ}
    (huse : ¬(cache.cells i).isEmpty) : s.cells (s.dest cache.cellMax i) = cache.cells i := by
  by_cases hi : s.Moved cache.cellMax i
  · rw [DefragState.dest_of_moved hi]
    exact h.arrived i hi
  · rw [DefragState.dest_of_not_moved hi]
    exact h.cells_of_not_target huse hi

theorem bijOn (h : Planned cache.cells cache.cellMax cache.used s)
    (hused : cache.used ≤ cache.size) :
    Set.BijOn (s.dest cache.cellMax) {i | i < cache.size ∧ ¬(cache.cells i).isEmpty}
      {k | k < cache.size ∧ ¬(s.cells k).isEmpty} := by
  refine ⟨?_, ?_, ?_⟩
  · rintro i ⟨hsize, huse⟩
    constructor
    · by_cases hi : s.Moved cache.cellMax i
      · rw [DefragState.dest_of_moved hi]
        exact (h.target i hi).1.trans_le hused
      · rw [DefragState.dest_of_not_moved hi]
        exact hsize
    · rw [h.cells_dest huse]
      exact huse
  · rintro i ⟨_, hui⟩ j ⟨_, huj⟩ heq
    by_cases hi : s.Moved cache.cellMax i
    · rw [DefragState.dest_of_moved hi] at heq
      by_cases hj : s.Moved cache.cellMax j
      · rw [DefragState.dest_of_moved hj] at heq
        exact h.distinct i j hi hj heq
      · rw [DefragState.dest_of_not_moved hj] at heq
        exact absurd (h.target i hi).2 (heq ▸ huj)
    · rw [DefragState.dest_of_not_moved hi] at heq
      by_cases hj : s.Moved cache.cellMax j
      · rw [DefragState.dest_of_moved hj] at heq
        exact absurd (h.target j hj).2 (heq ▸ hui)
      · rwa [DefragState.dest_of_not_moved hj] at heq
  · rintro k ⟨hsize, huse⟩
    have hk : ¬s.Moved cache.cellMax k := by
      intro hk
      rw [h.left k hk] at huse
      exact huse Cell.isEmpty_empty
    by_cases htarget : ∃ i, s.Moved cache.cellMax i ∧ s.ids i = k
    · obtain ⟨i, hi, rfl⟩ := htarget
      obtain ⟨_, hn, hui⟩ := h.source i hi
      exact ⟨i, ⟨hn.trans_le (Cache.cellMax_le cache), hui⟩, DefragState.dest_of_moved hi⟩
    · have hstill := h.still k hk fun i hi heq => htarget ⟨i, hi, heq⟩
      exact ⟨k, ⟨hsize, hstill ▸ huse⟩, DefragState.dest_of_not_moved hk⟩

/-- With the first `used` cells full there is nothing beyond them. -/
theorem isEmpty_of_filled (h : Planned cache.cells cache.cellMax cache.used s)
    (hacc : cache.Accurate) (hfill : s.Filled cache.used) {k : ℕ} (hk : cache.used ≤ k)
    (hsize : k < cache.size) : (s.cells k).isEmpty := by
  by_contra huse
  rcases lt_or_ge k cache.cellMax with hlt | hge
  · have hall : count (fun i => ¬(s.cells i).isEmpty) cache.used = cache.used :=
      count_iff_forall.mpr hfill
    have hstrict : count (fun i => ¬(s.cells i).isEmpty) k <
        count (fun i => ¬(s.cells i).isEmpty) cache.cellMax := count_strict_mono huse hlt
    rw [h.used] at hstrict
    exact absurd (hall ▸ count_monotone _ hk) (not_le.mpr hstrict)
  · have hnot : ¬s.Moved cache.cellMax k := fun hm =>
      absurd (h.source k hm).2.1 (not_lt.mpr hge)
    have hstill : s.cells k = cache.cells k := by
      apply h.still k hnot
      rintro i hi rfl
      exact absurd (h.target i hi).1 (not_lt.mpr hk)
    exact absurd (hacc.lt_cellMax hsize (hstill ▸ huse)) (not_lt.mpr hge)

end Planned

/-- The search succeeds, and defragments the cells. -/
theorem Cache.Accurate.defragInternal {cache : Cache} (h : cache.Accurate) (maxMoves : ℕ) :
    ∃ s, cache.defragInternal maxMoves = some s ∧
      Planned cache.cells cache.cellMax cache.used s ∧ cache.Defragmented maxMoves s := by
  obtain ⟨s, hs, hplan, hend⟩ := DefragState.fillHoles_spec maxMoves h.planned
    h.used_le fun k hk => absurd hk (Nat.not_lt_zero k)
  have hsize : cache.used ≤ cache.size := h.used_le.trans (Cache.cellMax_le cache)
  refine ⟨s, (if_pos h.used_le).trans hs, hplan, ?_⟩
  constructor
  case lower =>
    intro i _ hi
    exact ⟨(hplan.target i hi).1.trans_le (hplan.source i hi).1, (hplan.target i hi).2⟩
  case distinct => exact hplan.distinct
  case bijective => exact hplan.bijOn hsize
  case arrived => exact fun i _ huse => hplan.cells_dest huse
  case compact =>
    intro hlt k hk
    have hfill := hend.resolve_left (Nat.ne_of_lt hlt)
    constructor
    · intro huse
      by_contra hge
      exact huse (hplan.isEmpty_of_filled h hfill (Nat.le_of_not_lt hge) hk)
    · exact hfill k

end ExpertPin.Kv
