import ExpertPin.Kv.CompactMap

/-!
# Where the search for cells ends

The search of `llama_kv_cache_find_slot` tries the windows of free cells in cyclic order
from `head`.  It ends at the first of them (`slotSearch_of_first`), so it finds a window where
there is one, and else it leaves the cells as they are (`findSlot_searches`).
-/

namespace ExpertPin.Kv

open Nat

/-- The `n` cells from `k` on are free. -/
def FreeWindow (cells : ℕ → Cell) (n k : ℕ) : Prop := ∀ j, j < n → (cells (k + j)).pos < 0

/-- The first free window in cyclic order from `head`. -/
structure FirstWindow (cells : ℕ → Cell) (size n head k : ℕ) : Prop where
  room : k + n ≤ size
  free : FreeWindow cells n k
  ahead : head ≤ k → ∀ i, head ≤ i → i < k → ¬FreeWindow cells n i
  around : k < head → (∀ i, head ≤ i → i + n ≤ size → ¬FreeWindow cells n i) ∧
    ∀ i, i < k → ¬FreeWindow cells n i

namespace Cache

variable {cells : ℕ → Cell} {size n head k nTested : ℕ}

theorem freeWindow_of_find?_eq_none
    (h : (List.range n).find? (fun i => 0 ≤ (cells (head + i)).pos) = none) :
    FreeWindow cells n head := by
  intro j hj
  have hfree := List.find?_eq_none.mp h j (List.mem_range.mpr hj)
  rw [decide_eq_true_eq] at hfree
  exact Int.not_le.mp hfree

theorem occupied_of_find?_eq_some {i : ℕ}
    (h : (List.range n).find? (fun i => 0 ≤ (cells (head + i)).pos) = some i) :
    i < n ∧ 0 ≤ (cells (head + i)).pos := by
  have hpos := List.find?_some h
  rw [decide_eq_true_eq] at hpos
  exact ⟨List.mem_range.mp (List.mem_of_find?_eq_some h), hpos⟩

/-- The search goes on to the next free window while it may test that far. -/
theorem slotSearch_ahead (hle : n ≤ size) (hroom : k + n ≤ size) (hfree : FreeWindow cells n k)
    (hhead : head ≤ k) (hno : ∀ i, head ≤ i → i < k → ¬FreeWindow cells n i)
    (htested : nTested + (k - head) < size) :
    slotSearch cells hle head nTested = (true, k) := by
  fun_induction slotSearch cells hle head nTested with
  | case1 head nTested hwrap ih =>
    exact absurd (Nat.add_le_add_right hhead n) (Nat.not_le.mpr (hroom.trans_lt hwrap))
  | case2 head nTested _ hnone =>
    have hwindow := freeWindow_of_find?_eq_none hnone
    rcases Nat.eq_or_lt_of_le hhead with rfl | hlt
    · rfl
    · exact absurd hwindow (hno head (Nat.le_refl head) hlt)
  | case3 head nTested _ i hfound hstop =>
    obtain ⟨hi, hpos⟩ := occupied_of_find?_eq_some hfound
    have hbefore : head + i < k := by
      by_contra hge
      have hin := hfree (head + i - k) (by omega)
      rw [Nat.add_sub_cancel' (Nat.le_of_not_lt hge)] at hin
      exact absurd hpos (Int.not_le.mpr hin)
    exact absurd hstop (by omega)
  | case4 head nTested _ i hfound _ ih =>
    obtain ⟨hi, hpos⟩ := occupied_of_find?_eq_some hfound
    have hbefore : head + i < k := by
      by_contra hge
      have hin := hfree (head + i - k) (by omega)
      rw [Nat.add_sub_cancel' (Nat.le_of_not_lt hge)] at hin
      exact absurd hpos (Int.not_le.mpr hin)
    refine ih hbefore (fun j hj => hno j ?_) ?_
    · exact (Nat.le_add_right head (i + 1)).trans hj
    · omega

/-- Where no free window is left before the end the search starts over. -/
theorem slotSearch_around (hle : n ≤ size) (hroom : k + n ≤ size) (hfree : FreeWindow cells n k)
    {start : ℕ} (hstart : k < start) (hhead : start ≤ head) (hsize : head ≤ size)
    (hrest : ∀ i, head ≤ i → i + n ≤ size → ¬FreeWindow cells n i)
    (hno : ∀ i, i < k → ¬FreeWindow cells n i) (htested : nTested = head - start) :
    slotSearch cells hle head nTested = (true, k) := by
  fun_induction slotSearch cells hle head nTested with
  | case1 head nTested hwrap _ =>
    apply slotSearch_ahead hle hroom hfree (Nat.zero_le k) fun i _ => hno i
    omega
  | case2 head nTested hfit hnone =>
    exact absurd (freeWindow_of_find?_eq_none hnone)
      (hrest head (Nat.le_refl head) (Nat.le_of_not_lt hfit))
  | case3 head nTested hfit i hfound hstop =>
    obtain ⟨hi, _⟩ := occupied_of_find?_eq_some hfound
    exact absurd hstop (by omega)
  | case4 head nTested hfit i hfound _ ih =>
    obtain ⟨hi, _⟩ := occupied_of_find?_eq_some hfound
    refine ih ?_ ?_ (fun j hj => hrest j ?_) ?_
    · omega
    · omega
    · omega
    · omega

/-- The search ends at the first free window. -/
theorem slotSearch_of_first (hle : n ≤ size) (hn : 0 < n) (hsize : head ≤ size)
    (h : FirstWindow cells size n head k) : slotSearch cells hle head 0 = (true, k) := by
  have hroom := h.room
  rcases Nat.lt_or_ge k head with hlt | hge
  · obtain ⟨hrest, hno⟩ := h.around hlt
    exact slotSearch_around hle h.room h.free hlt (Nat.le_refl head) hsize hrest hno
      (Nat.sub_self head).symm
  · exact slotSearch_ahead hle h.room h.free hge (h.ahead hge) (by omega)

/-- Of the free windows one is the first. -/
theorem exists_firstWindow (hroom : k + n ≤ size) (hfree : FreeWindow cells n k) (head : ℕ) :
    ∃ k', FirstWindow cells size n head k' := by
  classical
  by_cases hahead : ∃ i, head ≤ i ∧ i + n ≤ size ∧ FreeWindow cells n i
  · -- the least window from `head` on
    obtain ⟨hhead, hroom', hfree'⟩ := Nat.find_spec hahead
    refine ⟨Nat.find hahead, hroom', hfree', fun _ i hi hlt hwindow => ?_, fun hlt => ?_⟩
    · have hroom'' : i + n ≤ size := (Nat.add_le_add_right hlt.le n).trans hroom'
      exact Nat.find_min hahead hlt ⟨hi, hroom'', hwindow⟩
    · exact absurd hhead (Nat.not_le.mpr hlt)
  · -- the least window before it
    have hno : ∀ i, head ≤ i → i + n ≤ size → ¬FreeWindow cells n i :=
      fun i hi hroom' hwindow => hahead ⟨i, hi, hroom', hwindow⟩
    have hbefore : ∃ i, i + n ≤ size ∧ FreeWindow cells n i := ⟨k, hroom, hfree⟩
    obtain ⟨hroom', hfree'⟩ := Nat.find_spec hbefore
    have hleast : ∀ i, i < Nat.find hbefore → ¬FreeWindow cells n i := by
      intro i hlt hwindow
      exact Nat.find_min hbefore hlt ⟨(Nat.add_le_add_right hlt.le n).trans hroom', hwindow⟩
    refine ⟨Nat.find hbefore, hroom', hfree', fun hle => ?_, fun _ => ⟨hno, hleast⟩⟩
    exact absurd hfree' (hno _ hle hroom')

/-- The search finds a window if there is one. -/
theorem slotSearch_found_iff (hle : n ≤ size) (hsize : head ≤ size) :
    (slotSearch cells hle head 0).1 = true ↔ ∃ k, k + n ≤ size ∧ FreeWindow cells n k := by
  constructor
  · intro hfound
    obtain ⟨hroom, hfree⟩ := (slotSearch_spec cells 0 hle hsize).2 hfound
    exact ⟨_, hroom, hfree⟩
  · rintro ⟨k, hroom, hfree⟩
    rcases Nat.eq_zero_or_pos n with rfl | hn
    · have hroom' : ¬size < head + 0 := not_lt.mpr hsize
      rw [slotSearch, if_neg hroom']
      rfl
    · obtain ⟨k', hfirst⟩ := exists_firstWindow hroom hfree head
      rw [slotSearch_of_first hle hn hsize hfirst]

/-! ## The batch in its cells -/

/-- The tokens of the batch are in a window that was free, in their order, and the rest is as it
was. -/
structure Places (cache : Cache) (batch : List Token) (after : Cache) : Prop where
  room : after.head + batch.length ≤ cache.size
  free : FreeWindow cache.cells batch.length after.head
  placed : ∀ j (hj : j < batch.length),
    after.cells (after.head + j) = (cache.cells (after.head + j)).place batch[j]
  others : ∀ i, i < after.head ∨ after.head + batch.length ≤ i → after.cells i = cache.cells i
  fields : after = { cache with
    head := after.head, cells := after.cells, used := cache.used + batch.length }

variable {cache : Cache} {batch : List Token}

/-- What `llama_kv_cache_find_slot` makes of what its search finds. -/
theorem findSlot_of_le (hle : batch.length ≤ cache.size) : cache.findSlot batch =
      if (slotSearch cache.cells hle cache.head 0).1 then
        ({ cache with
          head := (slotSearch cache.cells hle cache.head 0).2
          cells := placeTokens cache.cells (slotSearch cache.cells hle cache.head 0).2 batch
          used := cache.used + batch.length }, true)
      else ({ cache with head := (slotSearch cache.cells hle cache.head 0).2 }, false) :=
  dif_pos hle

/-- **Slot search**: a batch is placed if and only if there are cells in a row for it, and a search
that fails moves nothing but `head`. -/
theorem findSlot_searches (hhead : cache.head ≤ cache.size) : ((cache.findSlot batch).2 = true ↔
      batch.length ≤ cache.size ∧
        ∃ k, k + batch.length ≤ cache.size ∧ FreeWindow cache.cells batch.length k) ∧
    ((cache.findSlot batch).2 = true → cache.Places batch (cache.findSlot batch).1) ∧
    ((cache.findSlot batch).2 = false →
      (cache.findSlot batch).1 = { cache with head := (cache.findSlot batch).1.head }) := by
  by_cases hle : batch.length ≤ cache.size
  · have hiff : (slotSearch cache.cells hle cache.head 0).1 = true ↔ _ :=
      slotSearch_found_iff hle hhead
    rw [findSlot_of_le hle]
    cases hfound : (slotSearch cache.cells hle cache.head 0).1 with
    | false =>
      have hno : ¬∃ k, k + batch.length ≤ cache.size ∧ FreeWindow cache.cells batch.length k :=
        fun hsome => Bool.false_ne_true (hfound.symm.trans (hiff.mpr hsome))
      refine ⟨?_, fun h => absurd h Bool.false_ne_true, fun _ => rfl⟩
      exact iff_of_false Bool.false_ne_true fun h => hno h.2
    | true =>
      obtain ⟨hroom, hfree⟩ := (slotSearch_spec cache.cells 0 hle hhead).2 hfound
      refine ⟨iff_of_true rfl ⟨hle, hiff.mp hfound⟩, fun _ => ?_, fun h => nomatch h⟩
      exact ⟨hroom, hfree, fun j hj => placeTokens_add hj,
        fun i hi => hi.elim placeTokens_of_lt placeTokens_of_ge, rfl⟩
  · rw [findSlot, dif_neg hle]
    refine ⟨?_, fun h => absurd h Bool.false_ne_true, fun _ => rfl⟩
    exact iff_of_false Bool.false_ne_true fun h => hle h.1

theorem findSlot_searches_fourSlots : ((fourSlots.findSlot [⟨0, [0]⟩]).2 = true ↔
      1 ≤ 4 ∧ ∃ k, k + 1 ≤ 4 ∧ FreeWindow fourSlots.cells 1 k) ∧
    ((fourSlots.findSlot [⟨0, [0]⟩]).2 = true →
      fourSlots.Places [⟨0, [0]⟩] (fourSlots.findSlot [⟨0, [0]⟩]).1) ∧
    ((fourSlots.findSlot [⟨0, [0]⟩]).2 = false → (fourSlots.findSlot [⟨0, [0]⟩]).1 =
        { fourSlots with head := (fourSlots.findSlot [⟨0, [0]⟩]).1.head }) :=
  findSlot_searches (zero_le 4)

end Cache

end ExpertPin.Kv
