import ExpertPin.Prefetch.Ranges
import ExpertPin.Lib.Fuel
import Mathlib.Data.Finset.Card

/-!
# The slices that ranges cover

The ranges of a selection cover the slices of the selected experts, but there is one
range for each run of consecutive experts (`length_selected_eq_slices_iff`); those of
a manifest are one for each entry (`length_ordered_eq_slices_iff`).
-/

namespace ExpertPin.Prefetch

open Intervals
open Finset
open Nat

/-- The number of distinct expert slices that the ranges cover. -/
def slices (w : Tensor) (ranges : List (ℕ × ℕ)) : ℕ :=
  (((range w.nAs).image (· * w.stride)).filter (Covers ranges)).card

theorem slices_eq_card {w : Tensor} (hstride : 0 < w.stride) (ranges : List (ℕ × ℕ)) :
    slices w ranges =
      ((range w.nAs).filter fun id => Covers ranges (id * w.stride)).card := by
  rw [slices, filter_image]
  exact card_image_of_injective _ fun a b h => eq_of_mul_eq_mul_right hstride h

/-! ## Runs of selected experts -/

/-- The expert is selected and the one before it is not. -/
def isStart (seen : ℕ → Bool) (id : ℕ) : Bool := seen id && (id = 0 || !seen (id - 1))

theorem map_fst_runsFrom (seen : ℕ → Bool) (n id : ℕ) : ((id = 0 ∨ seen (id - 1) = false) →
      (runsFrom seen n id none).map Prod.fst = (List.range' id n).filter (isStart seen)) ∧
    ∀ first, 0 < id → seen (id - 1) = true → (runsFrom seen n id (some first)).map Prod.fst =
        first :: (List.range' id n).filter (isStart seen) := by
  induction n generalizing id with
  | zero => exact ⟨fun _ => rfl, fun _ _ _ => rfl⟩
  | succ n ih =>
    obtain ⟨ihnone, ihsome⟩ := ih (id + 1)
    rw [List.range'_succ, List.filter_cons]
    cases hseen : seen id with
    | true =>
      constructor
      · intro hbefore
        have hstart : isStart seen id = true := by simpa [isStart, hseen] using hbefore
        rw [runsFrom, if_pos hseen, if_pos hstart]
        exact ihsome id (succ_pos id) hseen
      · intro first hpos hbefore
        have hstart : isStart seen id = false := by simp [isStart, hbefore, hpos.ne']
        rw [runsFrom, if_pos hseen, hstart]
        exact ihsome first (succ_pos id) hseen
    | false =>
      have hstart : isStart seen id = false := by simp [isStart, hseen]
      constructor
      · intro hbefore
        rw [runsFrom, hseen, hstart]
        exact ihnone (.inr hseen)
      · intro first hpos hbefore
        rw [runsFrom, hseen, hstart]
        exact congrArg (first :: ·) (ihnone (.inr hseen))

theorem lt_of_mem_runsFrom {seen : ℕ → Bool} {n id : ℕ} {openRun : Option ℕ}
    (hopen : ∀ first ∈ openRun, first < id) {run : ℕ × ℕ}
    (hrun : run ∈ runsFrom seen n id openRun) : run.1 < run.2 := by
  induction n generalizing id openRun with
  | zero =>
    cases openRun with
    | none => exact absurd hrun List.not_mem_nil
    | some first =>
      obtain rfl := List.mem_singleton.mp hrun
      exact hopen first rfl
  | succ n ih =>
    cases openRun with
    | none =>
      refine ih (fun first hfirst => ?_) hrun
      split at hfirst
      · obtain rfl := Option.some.inj hfirst
        exact lt_succ_self _
      · exact absurd hfirst (by simp)
    | some first =>
      rw [runsFrom] at hrun
      split at hrun
      · refine ih (fun other hother => ?_) hrun
        exact (hopen other hother).trans (lt_succ_self id)
      · rcases List.mem_cons.mp hrun with rfl | hrun
        · exact hopen first rfl
        · exact ih (by simp) hrun

/-- The runs hold the selected experts, and what an open run holds already. -/
theorem mem_runsFrom_iff {seen : ℕ → Bool} {n id : ℕ} (k : ℕ) :
    ((∃ run ∈ runsFrom seen n id none, run.1 ≤ k ∧ k < run.2) ↔
      id ≤ k ∧ k < id + n ∧ seen k = true) ∧
    ∀ first < id, (∃ run ∈ runsFrom seen n id (some first), run.1 ≤ k ∧ k < run.2) ↔
      first ≤ k ∧ k < id ∨ id ≤ k ∧ k < id + n ∧ seen k = true := by
  induction n generalizing id with
  | zero =>
    constructor
    · simp only [runsFrom, List.not_mem_nil, false_and, exists_false, false_iff]
      omega
    · intro first hfirst
      simp only [runsFrom, List.mem_singleton, exists_eq_left]
      omega
  | succ n ih =>
    obtain ⟨ihnone, ihsome⟩ := @ih (id + 1)
    -- the expert `id` counts on its own, and the others are left to the recursion
    have hstep : id ≤ k ∧ k < id + (n + 1) ∧ seen k = true ↔
        k = id ∧ seen id = true ∨ id + 1 ≤ k ∧ k < id + 1 + n ∧ seen k = true := by
      constructor
      · rintro ⟨hlo, hhi, hk⟩
        rcases hlo.eq_or_lt with rfl | hlt
        · exact .inl ⟨rfl, hk⟩
        · exact .inr ⟨hlt, by omega, hk⟩
      · rintro (⟨rfl, hk⟩ | ⟨hlo, hhi, hk⟩)
        · exact ⟨le_rfl, by omega, hk⟩
        · exact ⟨le_of_succ_le hlo, by omega, hk⟩
    rw [hstep]
    cases hseen : seen id with
    | true =>
      have hlast : ∀ first ≤ id, first ≤ k ∧ k < id + 1 ↔ first ≤ k ∧ k < id ∨ k = id := by
        omega
      constructor
      · have hempty : ¬(id ≤ k ∧ k < id) := fun h => h.1.not_gt h.2
        rw [runsFrom, if_pos hseen, ihsome id (lt_succ_self id), hlast id le_rfl,
          or_iff_right hempty, and_iff_left rfl]
      · intro first hfirst
        rw [runsFrom, if_pos hseen, ihsome first (hfirst.trans (lt_succ_self id)),
          hlast first hfirst.le, or_assoc, and_iff_left rfl]
    | false =>
      have hnot : ¬seen id = true := by simp [hseen]
      constructor
      · rw [runsFrom, if_neg hnot, ihnone]
        simp
      · intro first hfirst
        rw [runsFrom, if_neg hnot]
        simp [ihnone]

/-! ## The ranges of a selection -/

theorem runRange_isSome_iff {w : Tensor} (hstride : 0 < w.stride) {run : ℕ × ℕ}
    (hrun : run.1 < run.2) : (runRange w run).isSome ↔ run.1 * w.stride < w.nbytes := by
  have hlen : 0 < (run.2 - run.1) * w.stride := Nat.mul_pos (Nat.sub_pos_of_lt hrun) hstride
  simp only [runRange]
  split
  · simp_all
  · simp only [Option.isSome_none, Bool.false_eq_true, false_iff]
    omega

/-- The byte range of the experts from `run.1` up to `run.2`, each `stride` bytes long, in a tensor
of `nbytes` bytes. -/
def sliceRange (stride nbytes : ℕ) (run : ℕ × ℕ) : Option (ℕ × ℕ) :=
  let off := run.1 * stride
  let len := min ((run.2 - run.1) * stride) (nbytes - off)
  if off < nbytes ∧ len > 0 then some (off, len) else none

theorem runRange_eq (w : Tensor) : runRange w = sliceRange w.stride w.nbytes := rfl

theorem mem_sliceRange_iff {stride nbytes : ℕ} {run : ℕ × ℕ} (hrun : run.1 < run.2) (o : ℕ) :
    (∃ range, sliceRange stride nbytes run = some range ∧ Mem o range) ↔
      run.1 * stride ≤ o ∧ o < run.2 * stride ∧ o < nbytes := by
  have hle : run.1 * stride ≤ run.2 * stride := Nat.mul_le_mul_right _ hrun.le
  simp only [sliceRange, Nat.sub_mul]
  split
  · simp only [Option.some.injEq, exists_eq_left', Mem]
    omega
  · simp only [reduceCtorEq, false_and, exists_false, false_iff]
    omega

/-- The ranges of the runs hold the bytes of the selected experts. -/
theorem covers_slices {seen : ℕ → Bool} {nAs stride : ℕ} (hstride : 0 < stride) (nbytes o : ℕ) :
    Covers ((runsFrom seen nAs 0 none).filterMap (sliceRange stride nbytes)) o ↔
      o < nbytes ∧ o / stride < nAs ∧ seen (o / stride) = true := by
  have hruns : Covers ((runsFrom seen nAs 0 none).filterMap (sliceRange stride nbytes)) o ↔
      ∃ run ∈ runsFrom seen nAs 0 none, ∃ range, sliceRange stride nbytes run = some range ∧
        Mem o range := by
    simp only [Covers, List.mem_filterMap]
    constructor
    · rintro ⟨range, ⟨run, hrun, heq⟩, hmem⟩
      exact ⟨run, hrun, range, heq, hmem⟩
    · rintro ⟨run, hrun, range, heq, hmem⟩
      exact ⟨range, ⟨run, hrun, heq⟩, hmem⟩
  have hdiv : ∀ run : ℕ × ℕ, run.1 * stride ≤ o ∧ o < run.2 * stride ↔
      run.1 ≤ o / stride ∧ o / stride < run.2 := fun run => by
    rw [le_div_iff_mul_le hstride, div_lt_iff_lt_mul hstride]
  rw [hruns]
  constructor
  · rintro ⟨run, hrun, hrange⟩
    obtain ⟨hlo, hhi, hbytes⟩ :=
      (mem_sliceRange_iff (lt_of_mem_runsFrom (by simp) hrun) o).mp hrange
    obtain ⟨-, hlt, hseen⟩ := (mem_runsFrom_iff _).1.mp ⟨run, hrun, (hdiv run).mp ⟨hlo, hhi⟩⟩
    exact ⟨hbytes, by simpa using hlt, hseen⟩
  · rintro ⟨hbytes, hlt, hseen⟩
    obtain ⟨run, hrun, hmem⟩ := (mem_runsFrom_iff (o / stride)).1.mpr
      ⟨zero_le _, by simpa using hlt, hseen⟩
    obtain ⟨hlo, hhi⟩ := (hdiv run).mpr hmem
    exact ⟨run, hrun, (mem_sliceRange_iff (lt_of_mem_runsFrom (by simp) hrun) o).mpr
      ⟨hlo, hhi, hbytes⟩⟩

variable {w : Tensor} {ids : Ids}

/-- A selection covers the bytes of the selected slices. -/
theorem covers_collectSelectedRanges (hnAs : 1 < w.nAs) (hstride : 0 < w.stride) (o : ℕ) :
    Covers (collectSelectedRanges w ids) o ↔
      o < w.nbytes ∧ o / w.stride < w.nAs ∧ ids.seen (o / w.stride) = true := by
  rw [collectSelectedRanges, if_neg (by omega), runRange_eq]
  exact covers_slices hstride w.nbytes o

/-- There is one range for each run that begins within the tensor. -/
theorem length_collectSelectedRanges (hnAs : 1 < w.nAs) (hstride : 0 < w.stride) :
    (collectSelectedRanges w ids).length = ((range w.nAs).filter fun id =>
      isStart ids.seen id = true ∧ id * w.stride < w.nbytes).card := by
  have hinside : ∀ run ∈ runsFrom ids.seen w.nAs 0 none,
      ((runRange w run).isSome = true ↔ decide (run.1 * w.stride < w.nbytes) = true) :=
    fun run hrun => by
      rw [runRange_isSome_iff hstride (lt_of_mem_runsFrom (by simp) hrun), decide_eq_true_iff]
  rw [collectSelectedRanges, if_neg (by omega), List.length_filterMap_eq_countP,
    List.countP_congr hinside]
  calc (runsFrom ids.seen w.nAs 0 none).countP (fun run => run.1 * w.stride < w.nbytes)
      = ((runsFrom ids.seen w.nAs 0 none).map Prod.fst).countP
          (fun id => id * w.stride < w.nbytes) := by
        rw [List.countP_map]
        rfl
    _ = ((List.range w.nAs).filter (isStart ids.seen)).countP
          (fun id => id * w.stride < w.nbytes) := by
        rw [(map_fst_runsFrom _ _ _).1 (.inl rfl), List.range_eq_range']
    _ = _ := by
        rw [List.countP_filter, List.countP_eq_length_filter]
        simp only [card_def, filter_val, range_val, Multiset.range,
          Multiset.filter_coe, Multiset.coe_card, Bool.decide_and, Bool.decide_eq_true,
          Bool.and_comm]

theorem slices_collectSelectedRanges (hnAs : 1 < w.nAs) (hstride : 0 < w.stride) :
    slices w (collectSelectedRanges w ids) = ((range w.nAs).filter fun id =>
      ids.seen id = true ∧ id * w.stride < w.nbytes).card := by
  rw [slices_eq_card hstride]
  congr 1
  ext id
  rw [mem_filter, mem_filter, covers_collectSelectedRanges hnAs hstride,
    Nat.mul_div_cancel id hstride]
  constructor
  · rintro ⟨hid, hbytes, -, hseen⟩
    exact ⟨hid, hseen, hbytes⟩
  · rintro ⟨hid, hseen, hbytes⟩
    exact ⟨hid, hbytes, mem_range.mp hid, hseen⟩

/-- A selection has one range for each slice if no two consecutive experts are
selected; a slice that the tensor ends before does not matter. -/
theorem length_selected_eq_slices_iff (hnAs : 1 < w.nAs) (hstride : 0 < w.stride) :
    (collectSelectedRanges w ids).length = slices w (collectSelectedRanges w ids) ↔
      ∀ id, ids.seen id = true → ids.seen (id + 1) = true → id + 1 < w.nAs →
        w.nbytes ≤ (id + 1) * w.stride := by
  rw [length_collectSelectedRanges hnAs hstride, slices_collectSelectedRanges hnAs hstride]
  have hsub : (range w.nAs).filter (fun id =>
      isStart ids.seen id = true ∧ id * w.stride < w.nbytes) ⊆
      (range w.nAs).filter (fun id => ids.seen id = true ∧ id * w.stride < w.nbytes) := by
    intro id
    simp only [mem_filter, isStart, Bool.and_eq_true]
    rintro ⟨hid, ⟨hseen, -⟩, hbytes⟩
    exact ⟨hid, hseen, hbytes⟩
  constructor
  · intro hcard id hseen hnext hid
    by_contra hbytes
    have hmem : id + 1 ∈ (range w.nAs).filter (fun id =>
        ids.seen id = true ∧ id * w.stride < w.nbytes) :=
      mem_filter.mpr ⟨mem_range.mpr hid, hnext, not_le.mp hbytes⟩
    rw [← eq_of_subset_of_card_le hsub hcard.ge] at hmem
    have hstart := (mem_filter.mp hmem).2.1
    simp [isStart, hseen] at hstart
  · intro hplain
    refine congrArg card (Subset.antisymm hsub ?_)
    intro id hid
    obtain ⟨hlt, hseen, hbytes⟩ := mem_filter.mp hid
    refine mem_filter.mpr ⟨hlt, ?_, hbytes⟩
    cases id with
    | zero => simpa [isStart] using hseen
    | succ id =>
      have hbefore : ids.seen id = false := by
        by_contra h
        exact hbytes.not_ge (hplain id (by simpa using h) hseen (mem_range.mp hlt))
      simpa [isStart, hbefore] using hseen

/-- Without expert slices the whole tensor is one range. -/
theorem length_dense_eq_slices_iff (hdense : w.nAs ≤ 1 ∨ w.stride = 0) :
    (collectSelectedRanges w ids).length = slices w (collectSelectedRanges w ids) ↔
      0 < w.nbytes := by
  rw [collectSelectedRanges, if_pos hdense, List.length_singleton, eq_comm, slices,
    card_eq_one]
  have hzero : ∀ id < w.nAs, id * w.stride = 0 := by
    intro id hid
    rcases hdense with h | h
    · rw [Nat.lt_one_iff.mp (hid.trans_le h), Nat.zero_mul]
    · rw [h, Nat.mul_zero]
  constructor
  · rintro ⟨o, ho⟩
    have hmem : o ∈ ({o} : Finset ℕ) := mem_singleton_self o
    rw [← ho, mem_filter, covers_cons] at hmem
    rcases hmem.2 with h | h
    · exact (Nat.zero_le o).trans_lt (by simpa using h.2)
    · exact absurd h (not_covers_nil o)
  · intro hbytes
    have hnAs : 0 < w.nAs := by
      refine Nat.pos_of_ne_zero fun h => ?_
      rw [Tensor.nbytes, if_pos ⟨2, h⟩] at hbytes
      exact absurd hbytes (lt_irrefl 0)
    refine ⟨0, ?_⟩
    ext o
    simp only [mem_filter, mem_image, mem_range, mem_singleton]
    constructor
    · rintro ⟨⟨id, hid, rfl⟩, -⟩
      exact hzero id hid
    · rintro rfl
      exact ⟨⟨0, hnAs, Nat.zero_mul _⟩, covers_cons.mpr (.inl ⟨le_rfl, by simpa using hbytes⟩)⟩

/-! ## The ranges of a manifest -/

theorem expertRange_eq_some_iff {id : ℕ} {range : ℕ × ℕ} :
    expertRange w id = some range ↔ id < w.nAs ∧ id * w.stride < w.nbytes ∧
      range = (id * w.stride, min w.stride (w.nbytes - id * w.stride)) := by
  simp only [expertRange]
  split
  · simp only [reduceCtorEq, false_iff]
    omega
  · split
    · simp only [reduceCtorEq, false_iff]
      omega
    · simp only [Option.some.injEq]
      constructor
      · rintro rfl
        exact ⟨by omega, by omega, rfl⟩
      · rintro ⟨-, -, rfl⟩
        rfl

variable {ranges : List (ℕ × ℕ)} {expertIds : List ℕ}

theorem collectOrderedExpertRanges_eq_some
    (h : collectOrderedExpertRanges w expertIds = some ranges) :
    0 < w.stride ∧ expertIds.Forall₂ (fun id range => expertRange w id = some range) ranges := by
  unfold collectOrderedExpertRanges at h
  split at h
  case isTrue => exact absurd h (by simp)
  case isFalse hvalid =>
    simp only [not_or] at hvalid
    exact ⟨pos_of_ne_zero hvalid.2.2.2, forall₂_of_mapM h⟩

theorem mem_expertRange_iff (hstride : 0 < w.stride) {id : ℕ} {range : ℕ × ℕ}
    (h : expertRange w id = some range) (k : ℕ) : Mem (k * w.stride) range ↔ k = id := by
  obtain ⟨-, hbytes, rfl⟩ := expertRange_eq_some_iff.mp h
  constructor
  · rintro ⟨hlo, hhi⟩
    have hle : id ≤ k := Nat.le_of_mul_le_mul_right hlo hstride
    have hlt : k * w.stride < (id + 1) * w.stride := by
      rw [Nat.add_mul, Nat.one_mul]
      exact hhi.trans_le (Nat.add_le_add_left (min_le_left _ _) _)
    exact le_antisymm (Nat.lt_succ_iff.mp (Nat.lt_of_mul_lt_mul_right hlt)) hle
  · rintro rfl
    exact ⟨le_rfl, Nat.lt_add_of_pos_right (lt_min hstride (Nat.sub_pos_of_lt hbytes))⟩

/-- A manifest covers the slices that it lists. -/
theorem covers_ordered_iff (hstride : 0 < w.stride)
    (h : expertIds.Forall₂ (fun id range => expertRange w id = some range) ranges) (k : ℕ) :
    Covers ranges (k * w.stride) ↔ k ∈ expertIds := by
  induction h with
  | nil => simp
  | cons hrange _ ih => rw [covers_cons, mem_expertRange_iff hstride hrange, ih, List.mem_cons]

theorem lt_nAs_of_ordered
    (h : expertIds.Forall₂ (fun id range => expertRange w id = some range) ranges) :
    ∀ id ∈ expertIds, id < w.nAs := by
  induction h with
  | nil => exact fun _ h => absurd h List.not_mem_nil
  | cons hrange _ ih =>
    intro id hid
    rcases List.mem_cons.mp hid with rfl | hid
    · exact (expertRange_eq_some_iff.mp hrange).1
    · exact ih id hid

/-- A manifest has one range for each slice if it lists none twice. -/
theorem length_ordered_eq_slices_iff
    (h : collectOrderedExpertRanges w expertIds = some ranges) :
    ranges.length = slices w ranges ↔ expertIds.Nodup := by
  obtain ⟨hstride, hordered⟩ := collectOrderedExpertRanges_eq_some h
  have hfilter : (range w.nAs).filter (fun id => Covers ranges (id * w.stride)) =
      (expertIds : Multiset ℕ).toFinset := by
    ext id
    rw [mem_filter, covers_ordered_iff hstride hordered, Multiset.mem_toFinset,
      Multiset.mem_coe, mem_range]
    exact ⟨And.right, fun hid => ⟨lt_nAs_of_ordered hordered id hid, hid⟩⟩
  rw [slices_eq_card hstride, hfilter, ← hordered.length_eq, ← Multiset.coe_card, eq_comm,
    Multiset.toFinset_card_eq_card_iff_nodup, Multiset.coe_nodup]

end ExpertPin.Prefetch
