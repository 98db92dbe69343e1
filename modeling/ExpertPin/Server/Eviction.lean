import ExpertPin.Lib.Gaps
import ExpertPin.Server.SlotFiles

/-!
# Which checkpoint is evicted

`evict_checkpoint_by_variance` looks for the least product of the gaps before and behind a
checkpoint, and so for the least variance of the gaps that are left (`Gaps.variance_le_variance`).
Its numbers are exact here.
-/

namespace ExpertPin.Server

open Gaps
open List

/-- `evict_checkpoint_by_variance`, as the place in the list. -/
def evictCheckpointByVariance (ckpts : List SlotFiles.Checkpoint) : ℕ :=
  if ckpts.length < 3 then 0
  else if ckpts.length = 3 then 1
  else
    let tokens := ckpts.map fun ckpt => (ckpt.posMax.toInt : ℚ)
    let n := tokens.length
    let start := 1
    let stop := n - 1
    let maxPos := tokens.getD (n - 1) 0
    let variance (i : ℕ) : ℚ :=
      let diff := tokens.getD i 0 - tokens.getD (i - 1) 0
      let diff2 := tokens.getD (i + 1) 0 - tokens.getD i 0
      diff * (diff2 / maxPos)
    ((List.range' (start + 1) (stop - (start + 1))).foldl (fun best i =>
      if variance i < best.1 then (variance i, i) else best) (variance start, start)).2

/-- The last positions of checkpoints. -/
def positions (ckpts : List SlotFiles.Checkpoint) : List ℚ :=
  ckpts.map fun ckpt => (ckpt.posMax.toInt : ℚ)

variable {ckpts : List SlotFiles.Checkpoint}

/-- The product is the least of all inner checkpoints. -/
theorem evictCheckpointByVariance_product (hlength : 3 ≤ ckpts.length)
    (hlast : 0 < (positions ckpts).getD (ckpts.length - 1) 0) :
    0 < evictCheckpointByVariance ckpts ∧ evictCheckpointByVariance ckpts + 1 < ckpts.length ∧
      ∀ j, 0 < j → j + 1 < ckpts.length →
        product (positions ckpts) (evictCheckpointByVariance ckpts) ≤
          product (positions ckpts) j := by
  rw [evictCheckpointByVariance, if_neg (Nat.not_lt.mpr hlength)]
  split
  case isTrue hthree =>
    refine ⟨Nat.one_pos, by omega, fun j hpos hj => ?_⟩
    rw [show j = 1 by omega]
  case isFalse hne =>
    rw [← positions]
    obtain ⟨i, hi, heq, hle⟩ := foldl_least
      (fun i => ((positions ckpts).getD i 0 - (positions ckpts).getD (i - 1) 0) *
        (((positions ckpts).getD (i + 1) 0 - (positions ckpts).getD i 0) /
          (positions ckpts).getD (ckpts.length - 1) 0))
      (range' 2 (ckpts.length - 3)) 1
    have hmem : ∀ j, j ∈ 1 :: range' 2 (ckpts.length - 3) ↔ 0 < j ∧ j + 1 < ckpts.length := by
      intro j
      rw [mem_cons, mem_range'_1]
      omega
    have hlen : (positions ckpts).length = ckpts.length := length_map _
    have hfold := congrArg Prod.snd heq
    simp only [hlen]
    rw [show ckpts.length - 1 - (1 + 1) = ckpts.length - 3 by omega, hfold]
    obtain ⟨hpos, hlt⟩ := (hmem i).mp hi
    refine ⟨hpos, hlt, fun j hj hj' => ?_⟩
    have hless := hle j ((hmem j).mpr ⟨hj, hj'⟩)
    simp only [← mul_div_assoc] at hless
    exact (div_le_div_iff_of_pos_right hlast).mp hless

/-- The first and the last checkpoint stay, and what is evicted leaves the least variance. -/
theorem evictCheckpointByVariance_spec (hlength : 3 ≤ ckpts.length)
    (hlast : 0 < (ckpts.getLast (List.ne_nil_of_length_pos (by omega))).posMax.toInt) :
    0 < evictCheckpointByVariance ckpts ∧ evictCheckpointByVariance ckpts + 1 < ckpts.length ∧
      ∀ j, 0 < j → j + 1 < ckpts.length →
        variance (gaps (positions (ckpts.eraseIdx (evictCheckpointByVariance ckpts)))) ≤
          variance (gaps (positions (ckpts.eraseIdx j))) := by
  have hpositions : 0 < (positions ckpts).getD (ckpts.length - 1) 0 := by
    rw [positions, getD_eq_getElem?_getD, getElem?_map, ← getLast?_eq_getElem?,
      getLast?_eq_some_getLast (ne_nil_of_length_pos (by omega))]
    exact Int.cast_pos.mpr hlast
  obtain ⟨hpos, hlt, hle⟩ := evictCheckpointByVariance_product hlength hpositions
  have hlen : (positions ckpts).length = ckpts.length := length_map _
  have herase : ∀ j, positions (ckpts.eraseIdx j) = (positions ckpts).eraseIdx j := fun j =>
    (eraseIdx_map _ ckpts j).symm
  refine ⟨hpos, hlt, fun j hj hj' => ?_⟩
  rw [herase, herase]
  exact variance_le_variance hpos (hlen ▸ hlt) hj (hlen ▸ hj') (hle j hj hj')

/-- A checkpoint whose last position is this one. -/
def checkpointAt (posMax : SlotFiles.Pos) : SlotFiles.Checkpoint where
  posMin := .ofNat _ 0
  posMax
  posMinPrompt := .ofNat _ 0
  posMaxPrompt := posMax
  nTokens := .ofNat _ 0
  data := ⟨[], (by decide : 0 < 256 ^ 8)⟩

/-- The third of four checkpoints is close to the last one. -/
theorem evictCheckpointByVariance_four :
    let ckpts := [0, 10, 18, 20].map checkpointAt
    0 < evictCheckpointByVariance ckpts ∧ evictCheckpointByVariance ckpts + 1 < 4 ∧
      ∀ j, 0 < j → j + 1 < 4 →
        variance (gaps (positions (ckpts.eraseIdx (evictCheckpointByVariance ckpts)))) ≤
          variance (gaps (positions (ckpts.eraseIdx j))) :=
  evictCheckpointByVariance_spec (by decide) (by decide)

end ExpertPin.Server
