import ExpertPin.Prefetch.Ranges

/-!
# Resident ranges and what they leave

The registry keeps for each tensor the merged slices of its manifest experts, and
a lookahead streams the complement.  Neither the sorting and merging nor the walk
over the gaps changes which bytes are meant: `covers_mergeRanges` and
`covers_nonresidentFrom`.
-/

namespace ExpertPin.Prefetch

open Intervals

/-! ## Merging -/

theorem pairLe_iff {a b : ℕ × ℕ} : pairLe a b = true ↔ a.1 < b.1 ∨ a.1 = b.1 ∧ a.2 ≤ b.2 := by
  simp [pairLe]

theorem le_of_pairLe {a b : ℕ × ℕ} (h : pairLe a b = true) : a.1 ≤ b.1 := by
  rcases pairLe_iff.mp h with h | h
  · exact h.le
  · exact h.1.le

theorem ordered_mergeSort (ranges : List (ℕ × ℕ)) : Ordered (ranges.mergeSort pairLe) := by
  refine (List.pairwise_mergeSort ?_ ?_ ranges).imp fun h => le_of_pairLe h
  · intro a b c hab hbc
    rw [pairLe_iff] at hab hbc ⊢
    omega
  · intro a b
    rw [Bool.or_eq_true, pairLe_iff, pairLe_iff]
    omega

/-- What the merging loop keeps of its list, the back of which comes first. -/
structure Merging (merged : List (ℕ × ℕ)) (bound : ℕ) : Prop where
  ordered : Ordered merged.reverse
  le_bound : ∀ range ∈ merged, range.1 ≤ bound

variable {merged : List (ℕ × ℕ)}

theorem Merging.mergeStep {bound : ℕ} (h : Merging merged bound)
    {range : ℕ × ℕ} (hrange : bound ≤ range.1) :
    Merging (mergeStep merged range) range.1 ∧
      ∀ x, Covers (Prefetch.mergeStep merged range) x ↔ Covers merged x ∨ Mem x range := by
  cases merged with
  | nil =>
    refine ⟨⟨List.pairwise_singleton _ _, ?_⟩, fun x => ?_⟩
    · intro other hother
      rw [List.mem_singleton.mp hother]
    · simp [Prefetch.mergeStep]
  | cons back merged =>
    obtain ⟨hordered, hbound⟩ := h
    have hle : ∀ other ∈ back :: merged, other.1 ≤ range.1 :=
      fun other hother => (hbound other hother).trans hrange
    by_cases hgap : back.1 + back.2 < range.1
    · rw [Prefetch.mergeStep, if_pos hgap]
      refine ⟨⟨?_, ?_⟩, fun x => ?_⟩
      · rw [List.reverse_cons]
        refine List.pairwise_append.mpr ⟨hordered, List.pairwise_singleton _ _, ?_⟩
        intro other hother new hnew
        rw [List.mem_singleton.mp hnew]
        exact hle other (List.mem_reverse.mp hother)
      · intro other hother
        rcases List.mem_cons.mp hother with rfl | hother
        · exact le_rfl
        · exact hle other hother
      · rw [covers_cons, or_comm]
    · rw [Prefetch.mergeStep, if_neg hgap]
      refine ⟨⟨?_, ?_⟩, fun x => ?_⟩
      · rw [List.reverse_cons] at hordered ⊢
        obtain ⟨hmerged, -, hback⟩ := List.pairwise_append.mp hordered
        refine List.pairwise_append.mpr ⟨hmerged, List.pairwise_singleton _ _, ?_⟩
        intro other hother new hnew
        rw [List.mem_singleton.mp hnew]
        exact hback other hother back List.mem_cons_self
      · intro other hother
        rcases List.mem_cons.mp hother with rfl | hother
        · exact hle back List.mem_cons_self
        · exact hle other (List.mem_cons_of_mem _ hother)
      · rw [covers_cons, covers_cons, mem_union_iff (hle back List.mem_cons_self) (not_lt.mp hgap)]
        tauto

theorem Merging.foldl {sorted merged : List (ℕ × ℕ)} {bound : ℕ} (h : Merging merged bound)
    (hsorted : Ordered sorted) (hbound : ∀ range ∈ sorted, bound ≤ range.1) :
    Ordered (sorted.foldl Prefetch.mergeStep merged).reverse ∧
      ∀ x, Covers (sorted.foldl Prefetch.mergeStep merged) x ↔
        Covers merged x ∨ Covers sorted x := by
  induction sorted generalizing merged bound with
  | nil => exact ⟨h.ordered, fun x => by simp⟩
  | cons range sorted ih =>
    obtain ⟨hmerging, hcovers⟩ := h.mergeStep (hbound range List.mem_cons_self)
    obtain ⟨hordered, hrest⟩ := ih hmerging hsorted.tail
      fun other hother => List.rel_of_pairwise_cons hsorted hother
    refine ⟨hordered, fun x => ?_⟩
    rw [List.foldl_cons, hrest, hcovers, covers_cons, or_assoc]

theorem merging_nil : Merging [] 0 := ⟨List.Pairwise.nil, by simp⟩

theorem ordered_mergeRanges (ranges : List (ℕ × ℕ)) : Ordered (mergeRanges ranges) :=
  (merging_nil.foldl (ordered_mergeSort ranges) fun _ _ => Nat.zero_le _).1

/-- Merging keeps the bytes. -/
theorem covers_mergeRanges (ranges : List (ℕ × ℕ)) (x : ℕ) :
    Covers (mergeRanges ranges) x ↔ Covers ranges x := by
  have hmerged := (merging_nil.foldl (ordered_mergeSort ranges) fun _ _ => Nat.zero_le _).2 x
  rw [mergeRanges, covers_congr fun i => List.mem_reverse, hmerged,
    covers_congr fun i => List.mem_mergeSort]
  simp

/-! ## Separation -/

/-- Each range ends before the next begins, with bytes between them. -/
def Separated (ranges : List (ℕ × ℕ)) : Prop := ranges.Pairwise fun a b => a.1 + a.2 < b.1

/-- A turn of the merging loop, whose list has its back first, keeps the ranges apart. -/
theorem separated_mergeStep (h : Separated merged.reverse)
    (range : ℕ × ℕ) : Separated (mergeStep merged range).reverse := by
  rw [Separated, List.pairwise_reverse] at h ⊢
  cases merged with
  | nil => exact List.pairwise_singleton _ _
  | cons back merged =>
    obtain ⟨hback, hmerged⟩ := List.pairwise_cons.mp h
    rw [mergeStep]
    split
    case isTrue hgap =>
      refine List.pairwise_cons.mpr ⟨fun other hother => ?_, h⟩
      rcases List.mem_cons.mp hother with rfl | hother
      · exact hgap
      · exact (hback other hother).trans_le ((Nat.le_add_right _ _).trans hgap.le)
    case isFalse =>
      -- the start of the back stays, and only its start is compared with what is before
      exact List.pairwise_cons.mpr ⟨hback, hmerged⟩

theorem separated_foldl (sorted : List (ℕ × ℕ))
    (h : Separated merged.reverse) : Separated (sorted.foldl mergeStep merged).reverse := by
  induction sorted generalizing merged with
  | nil => exact h
  | cons range sorted ih =>
    rw [List.foldl_cons]
    exact ih (separated_mergeStep h range)

theorem separated_mergeRanges (ranges : List (ℕ × ℕ)) : Separated (mergeRanges ranges) :=
  separated_foldl _ List.Pairwise.nil

/-! ## The complement -/

variable {resident : List (ℕ × ℕ)}

/-- The walk over the gaps yields the bytes from the cursor on that are not
resident. -/
theorem covers_nonresidentFrom (h : Ordered resident)
    (wbytes cursor x : ℕ) :
    Covers (nonresidentFrom wbytes cursor resident) x ↔
      cursor ≤ x ∧ x < wbytes ∧ ¬Covers resident x := by
  induction resident generalizing cursor with
  | nil =>
    rw [nonresidentFrom]
    split
    case isTrue hlt =>
      simp only [covers_cons, not_covers_nil, or_false, Mem, not_false_eq_true, and_true]
      omega
    case isFalse hge =>
      simp only [not_covers_nil, false_iff]
      omega
  | cons range resident ih =>
    have hgap : Covers (if cursor < min range.1 wbytes then
        [(cursor, min range.1 wbytes - cursor)] else []) x ↔
        cursor ≤ x ∧ x < min range.1 wbytes := by
      split
      case isTrue hlt =>
        simp only [covers_cons, not_covers_nil, or_false, Mem]
        omega
      case isFalse hge =>
        simp only [not_covers_nil, false_iff]
        omega
    rw [nonresidentFrom, covers_append, hgap, ih h.tail, covers_cons]
    constructor
    · rintro (⟨hlo, hhi⟩ | ⟨hlo, hhi, hnot⟩)
      · have hbefore : x < range.1 := hhi.trans_le (min_le_left _ _)
        refine ⟨hlo, hhi.trans_le (min_le_right _ _), fun hcov => ?_⟩
        exact hbefore.not_ge (h.le_of_covers (covers_cons.mpr hcov))
      · refine ⟨(le_max_left _ _).trans hlo, hhi, ?_⟩
        rintro (hmem | hcov)
        · have hstop : min (range.1 + range.2) wbytes ≤ x := (le_max_right _ _).trans hlo
          exact (lt_min hmem.2 hhi).not_ge hstop
        · exact hnot hcov
    · rintro ⟨hlo, hhi, hnot⟩
      rw [not_or] at hnot
      rcases lt_or_ge x range.1 with hx | hx
      · exact .inl ⟨hlo, lt_min hx hhi⟩
      · refine .inr ⟨max_le hlo ?_, hhi, hnot.2⟩
        exact (min_le_left _ _).trans (not_lt.mp fun hlt => hnot.1 ⟨hx, hlt⟩)

theorem mem_gap {cursor start : ℕ} {range : ℕ × ℕ}
    (h : range ∈ if cursor < start then [(cursor, start - cursor)] else []) :
    cursor < start ∧ range = (cursor, start - cursor) := by
  split at h
  case isTrue hlt => exact ⟨hlt, List.mem_singleton.mp h⟩
  case isFalse => cases h

/-- No gap begins before the cursor, and none is empty. -/
theorem le_of_mem_nonresidentFrom {wbytes cursor : ℕ} {range : ℕ × ℕ}
    (h : range ∈ nonresidentFrom wbytes cursor resident) : cursor ≤ range.1 ∧ 0 < range.2 := by
  induction resident generalizing cursor with
  | nil =>
    obtain ⟨hlt, rfl⟩ := mem_gap h
    exact ⟨le_rfl, Nat.sub_pos_of_lt hlt⟩
  | cons pinned resident ih =>
    rcases List.mem_append.mp h with hgap | hrest
    · obtain ⟨hlt, rfl⟩ := mem_gap hgap
      exact ⟨le_rfl, Nat.sub_pos_of_lt hlt⟩
    · obtain ⟨hle, hpos⟩ := ih hrest
      exact ⟨(le_max_left _ _).trans hle, hpos⟩

/-- Each gap ends before the next begins. -/
theorem pairwise_nonresidentFrom (wbytes cursor : ℕ) (resident : List (ℕ × ℕ)) :
    (nonresidentFrom wbytes cursor resident).Pairwise fun a b => a.1 + a.2 ≤ b.1 := by
  induction resident generalizing cursor with
  | nil =>
    rw [nonresidentFrom]
    split
    · exact List.pairwise_singleton _ _
    · exact List.Pairwise.nil
  | cons pinned resident ih =>
    rw [nonresidentFrom]
    refine List.pairwise_append.mpr ⟨?_, ih _, fun gap hgap later hlater => ?_⟩
    · split
      · exact List.pairwise_singleton _ _
      · exact List.Pairwise.nil
    · obtain ⟨hlt, rfl⟩ := mem_gap hgap
      have hstart : min pinned.1 wbytes ≤ min (pinned.1 + pinned.2) wbytes :=
        min_le_min_right _ (Nat.le_add_right _ _)
      calc cursor + (min pinned.1 wbytes - cursor)
          = min pinned.1 wbytes := Nat.add_sub_cancel' hlt.le
        _ ≤ max cursor (min (pinned.1 + pinned.2) wbytes) := hstart.trans (le_max_right _ _)
        _ ≤ later.1 := (le_of_mem_nonresidentFrom hlater).1

/-! ## The registry -/

/-- A registry that manifests have been registered in, and mappings taken out of. -/
inductive Registered : Registry → Prop
  | empty : Registered fun _ => none
  | register {registry : Registry} {w : Tensor} {expertIds : List ℕ} {ranges : List (ℕ × ℕ)}
      (h : Registered registry) (collect : collectOrderedExpertRanges w expertIds = some ranges) :
      Registered (registerResidentRanges registry w ranges)
  | erase {registry : Registry} (h : Registered registry) (p : ℕ → Prop) [DecidablePred p] :
      Registered fun data => if p data then none else registry data

theorem Registered.ordered {registry : Registry} (h : Registered registry) {data : ℕ}
    (hdata : registry data = some resident) : Ordered resident := by
  induction h generalizing data with
  | empty => exact absurd hdata (by simp)
  | @register registry w _ ranges _ _ ih =>
    rcases eq_or_ne data w.data with rfl | hne
    · obtain rfl : mergeRanges ranges = resident := by
        simpa [registerResidentRanges] using hdata
      exact ordered_mergeRanges ranges
    · exact ih (by simpa [registerResidentRanges, hne] using hdata)
  | erase _ p ih =>
    by_cases hp : p data
    · exact absurd hdata (by simp [hp])
    · exact ih (by simpa [hp] using hdata)

/-- The byte at `o` of the tensor is registered as resident under its address. -/
def Registry.Resident (registry : Registry) (data o : ℕ) : Prop :=
  ∃ resident, registry data = some resident ∧ Covers resident o

theorem Registry.resident_iff {registry : Registry} {data o : ℕ} :
    registry.Resident data o ↔ Covers ((registry data).getD []) o := by
  cases hdata : registry data with
  | none => simp [Registry.Resident, hdata]
  | some resident => simp [Registry.Resident, hdata]

/-- A lookahead streams what is not registered. -/
theorem covers_collectNonresidentRanges {registry : Registry} (h : Registered registry)
    (w : Tensor) (o : ℕ) :
    Covers (collectNonresidentRanges registry w) o ↔
      o < w.nbytes ∧ ¬registry.Resident w.data o := by
  have hordered : Ordered ((registry w.data).getD []) := by
    cases hdata : registry w.data with
    | none => exact List.Pairwise.nil
    | some resident => exact h.ordered hdata
  rw [collectNonresidentRanges, covers_nonresidentFrom hordered, Registry.resident_iff]
  simp

/-- After ranges have been registered for a tensor the registry holds the same bytes in ranges
with others between them, and a lookahead of a tensor of any size at that address streams exactly
the bytes that they leave. -/
theorem lookahead_leaves_registered (registry : Registry) (w : Tensor) (ranges : List (ℕ × ℕ)) :
    (∃ merged, registerResidentRanges registry w ranges w.data = some merged ∧
      Separated merged ∧ ∀ x, Covers merged x ↔ Covers ranges x) ∧
    ∀ w' : Tensor,
      let rest := collectNonresidentRanges (registerResidentRanges registry w ranges)
        { w' with data := w.data }
      rest.Pairwise (fun a b => a.1 + a.2 ≤ b.1) ∧ (∀ range ∈ rest, 0 < range.2) ∧
        ∀ x, Covers rest x ↔ x < w'.nbytes ∧ ¬Covers ranges x := by
  have hmerged : registerResidentRanges registry w ranges w.data = some (mergeRanges ranges) :=
    Function.update_self _ _ _
  refine ⟨⟨_, hmerged, separated_mergeRanges ranges, covers_mergeRanges ranges⟩, ?_⟩
  intro w'
  rw [collectNonresidentRanges, hmerged, Option.getD_some]
  refine ⟨pairwise_nonresidentFrom _ _ _, fun range h => (le_of_mem_nonresidentFrom h).2, ?_⟩
  intro x
  rw [covers_nonresidentFrom (ordered_mergeRanges ranges), covers_mergeRanges]
  exact and_iff_right (Nat.zero_le x)

end ExpertPin.Prefetch
