import ExpertPin.Lib.Gaps
import Mathlib.Data.List.Sort
import Mathlib.Tactic.Linarith

/-!
# The tuner of the draft length

`spec_tuner` for a draft model whose arm 0 drafts nothing.  An arm is a draft length with the mean
of its rewards, and arms that are far worse than arm 0 are quarantined.  Rewards are exact; the
counters of the log are left out.
-/

namespace ExpertPin.Tuner

open List

/-! ## The tuner -/

/-- The `float` next to an integer, of 24 bits and even where there are two. -/
def toFloat (v : ℤ) : ℤ :=
  let m := 2 ^ (v.natAbs.log2 - 23)
  let q := v.natAbs / m
  let r := v.natAbs % m
  v.sign * (if 2 * r < m then q else if m < 2 * r then q + 1 else q + q % 2) * m

/-- `spec_tuner_arm`, whose value is an integer here. -/
structure Arm where
  value : ℤ
  q : ℚ := 0
  n : ℕ := 0
deriving Inhabited

/-- `spec_tuner_coord`. -/
structure Coord where
  arms : List Arm
  currentIdx : ℕ := 0
  bestIdx : ℕ := 0
  userIdx : ℕ := 0

/-- The fields of `common_params_speculative` that the tuner sets. -/
structure Params where
  nMax : ℤ
  nMin : ℤ
  pMin : ℚ
  ngramSizeN : ℕ
  ngramSizeM : ℕ
  ngramMinHits : ℕ

def dflashMinSamplesPerArm : ℕ := 3
def dflashRecoveryProbeInterval : ℕ := 128
def dflashQuarantineRatio : ℚ := 9 / 10
def stepEmaAlpha : ℚ := 1 / 20
def stepDropPct : ℚ := 3 / 10
def resetAfter : ℕ := 30
def cooldownMax : ℕ := 50
def emaAlpha : ℚ := 3 / 10

/-- `spec_tuner`, enabled for such a model: its only coordinate is that of `n_max`. -/
structure SpecTuner where
  configuredNMax : ℤ
  coord : Coord
  dflashQuarantined : List Bool
  dflashProbeCursor : ℕ := 0
  dflashLastExploratory : Bool := false
  dflashLastRecoveryProbe : Bool := false
  stepEma : ℚ := 0
  nLow : ℕ := 0
  cooldown : ℕ := 0
  nResets : ℕ := 0
  nCalls : ℕ := 0
  emaTps : ℚ := 0

namespace Coord

def arm (c : Coord) (i : ℕ) : Arm := c.arms.getD i default

/-- `find_nearest_arm`. -/
def findNearestArm (c : Coord) (value : ℤ) : ℕ :=
  ((List.range c.arms.length).foldl (fun (best : ℕ × ℤ) i =>
    let dist := |toFloat ((c.arm i).value - value)|
    if dist < best.2 then (i, dist) else best) (0, 10 ^ 30)).1

/-- The first arm with the highest mean of those that have been tried, in `update`. -/
def bestSampled (c : Coord) : ℚ × ℕ :=
  (List.range c.arms.length).foldl (fun best i =>
    if 0 < (c.arm i).n ∧ best.1 < (c.arm i).q then ((c.arm i).q, i) else best)
    (-10 ^ 30, c.bestIdx)

/-- The current arm gets a reward, in `update`. -/
def reward (c : Coord) (reward : ℚ) : Coord :=
  let arm := c.arm c.currentIdx
  let n := arm.n + 1
  { c with arms := c.arms.set c.currentIdx { arm with n, q := arm.q + (reward - arm.q) / n } }

/-- `update`. -/
def update (c : Coord) (reward : ℚ) : Coord :=
  let c := c.reward reward
  { c with bestIdx := c.bestSampled.2 }

/-- `reset_scores`. -/
def resetScores (c : Coord) : Coord :=
  { c with
    arms := c.arms.map fun arm => { arm with q := 0, n := 0 }
    currentIdx := c.userIdx
    bestIdx := c.userIdx }

/-- The first arm with the highest mean of those that are not quarantined. -/
def bestOf (c : Coord) (quarantined : List Bool) : Option ℕ :=
  (List.range c.arms.length).foldl (fun best i =>
    if quarantined.getD i false then best
    else match best with
      | none => some i
      | some j => if (c.arm j).q < (c.arm i).q then some i else some j) none

end Coord

/-- `build_grid_int`. -/
def buildGridInt (lo hi step userValue : ℤ) : List Arm :=
  let values := (List.range ((hi - lo) / step + 1).toNat).map fun i : ℕ => toFloat (lo + i * step)
  let values := if values.getLast? = some hi then values else values ++ [toFloat hi]
  let values := if userValue ∉ values ∧ lo ≤ userValue ∧ userValue ≤ hi then
    (values ++ [toFloat userValue]).mergeSort else values
  values.map fun value => { value }

namespace SpecTuner

/-- `init`. -/
def init (nMax : ℤ) : SpecTuner :=
  let configuredNMax := max 1 nMax
  let coord : Coord := { arms := buildGridInt 0 configuredNMax 1 nMax }
  { configuredNMax
    coord := { coord with userIdx := coord.findNearestArm (toFloat nMax) }
    dflashQuarantined := List.replicate coord.arms.length false }

/-- `has_dflash_target_only_arm`. -/
def hasDflashTargetOnlyArm (t : SpecTuner) : Bool := 0 < t.configuredNMax

/-- The flags where there is one for each arm, else none is set. -/
def flags (t : SpecTuner) : List Bool :=
  if t.dflashQuarantined.length = t.coord.arms.length then t.dflashQuarantined
  else List.replicate t.coord.arms.length false

/-- `reset_exploration`. -/
def resetExploration (t : SpecTuner) : SpecTuner :=
  let coord := t.coord.resetScores
  { t with
    coord := if t.hasDflashTargetOnlyArm ∧ coord.arms ≠ [] then
      { coord with currentIdx := 0, bestIdx := 0 } else coord
    dflashQuarantined := List.replicate t.dflashQuarantined.length false
    dflashProbeCursor := 0
    dflashLastExploratory := false
    dflashLastRecoveryProbe := false
    nLow := 0
    cooldown := cooldownMax
    stepEma := 0
    nResets := t.nResets + 1
    nCalls := 0 }

/-- The quarantined arm that is next to be tried again. -/
def recoveryProbe (t : SpecTuner) : Option ℕ :=
  let n := t.coord.arms.length
  if 0 < dflashRecoveryProbeInterval ∧ 0 < t.nCalls ∧
      t.nCalls % dflashRecoveryProbeInterval = 0 then
    ((List.range n).map fun offset => (t.dflashProbeCursor + offset) % n).find? fun i =>
      t.dflashQuarantined.getD i false
  else none

/-- `select_dflash_arm`, the result of which is then the current arm. -/
def selectDflashArm (t : SpecTuner) : SpecTuner :=
  let t := { t with
    dflashLastExploratory := false
    dflashLastRecoveryProbe := false
    dflashQuarantined := t.flags }
  let n := t.coord.arms.length
  match (List.range n).find? fun i => (t.coord.arm i).n < dflashMinSamplesPerArm with
  | some i => { t with dflashLastExploratory := true, coord := { t.coord with currentIdx := i } }
  | none =>
    match t.recoveryProbe with
    | some i =>
      { t with
        dflashProbeCursor := (i + 1) % n
        dflashLastExploratory := true
        dflashLastRecoveryProbe := true
        coord := { t.coord with currentIdx := i } }
    | none =>
      let best := (t.coord.bestOf t.dflashQuarantined).getD 0
      { t with coord := { t.coord with bestIdx := best, currentIdx := best } }

/-- `update_dflash_quarantine`. -/
def updateDflashQuarantine (t : SpecTuner) : SpecTuner :=
  if ¬t.hasDflashTargetOnlyArm ∨ t.coord.arms = [] then t
  else
    let t := { t with dflashQuarantined := t.flags }
    let zeroIdx := t.coord.findNearestArm 0
    let zero := t.coord.arm zeroIdx
    if zero.n < 3 ∨ zero.q ≤ 0 then t
    else
      let quarantined := (List.range t.coord.arms.length).map fun i =>
        if i = zeroIdx then t.dflashQuarantined.getD i false
        else decide (3 ≤ (t.coord.arm i).n ∧ (t.coord.arm i).q < zero.q * dflashQuarantineRatio)
      { t with
        dflashQuarantined := quarantined
        coord := { t.coord with bestIdx := (t.coord.bestOf quarantined).getD t.coord.bestIdx } }

/-- `enforce_constraints`. -/
def enforceConstraints (t : SpecTuner) (params : Params) : Params :=
  let nMax := max params.nMax (if t.hasDflashTargetOnlyArm then 0 else 1)
  { nMax
    nMin := min (max params.nMin 0) nMax
    -- 0.95f
    pMin := min (max params.pMin 0) (15938355 / 16777216)
    ngramSizeN := max params.ngramSizeN 1
    ngramSizeM := max params.ngramSizeM 1
    ngramMinHits := max params.ngramMinHits 1 }

/-- `propose`. -/
def propose (t : SpecTuner) (params : Params) : SpecTuner × Params :=
  let t := t.selectDflashArm
  (t, t.enforceConstraints { params with nMax := (t.coord.arm t.coord.currentIdx).value })

/-- The detection of a change of the task, in `accept_feedback`. -/
def detectChange (t : SpecTuner) (stepTps : ℚ) : SpecTuner :=
  let ema := stepEmaAlpha * stepTps + (1 - stepEmaAlpha) * t.stepEma
  if 0 < t.cooldown then
    { t with cooldown := t.cooldown - 1, stepEma := if t.stepEma ≤ 0 then stepTps else ema }
  else if t.stepEma ≤ 0 then { t with stepEma := stepTps }
  else if stepTps < t.stepEma * (1 - stepDropPct) then
    let t := { t with nLow := t.nLow + 1 }
    if resetAfter ≤ t.nLow then t.resetExploration else { t with stepEma := ema }
  else { t with nLow := 0, stepEma := ema }

/-- `accept_feedback`, whose counts of tokens are for the log. -/
def acceptFeedback (t : SpecTuner) (stepTps : ℚ) : SpecTuner :=
  let t := { t with nCalls := t.nCalls + 1, coord := t.coord.update stepTps }
  t.updateDflashQuarantine.detectChange stepTps

/-- `write_best`. -/
def writeBest (t : SpecTuner) (params : Params) : Params :=
  let val := (t.coord.arm t.coord.bestIdx).value
  { params with nMax := if val = 0 then t.configuredNMax else val }

/-- `end_of_request`. -/
def endOfRequest (t : SpecTuner) (slotTps : ℚ) (activeParams : Params) : SpecTuner × Params :=
  let t := { t with
    emaTps := if t.emaTps ≤ 0 then slotTps else emaAlpha * slotTps + (1 - emaAlpha) * t.emaTps }
  (t, t.enforceConstraints (t.writeBest activeParams))

end SpecTuner

/-! ## Arms -/

section Arms

variable {c : Coord}

theorem toFloat_pos {v : ℤ} (h : 0 < v) : 0 < toFloat v := by
  have hq : 0 < v.natAbs / 2 ^ (v.natAbs.log2 - 23) := by
    apply Nat.div_pos _ (Nat.two_pow_pos _)
    calc
      2 ^ (v.natAbs.log2 - 23) ≤ 2 ^ v.natAbs.log2 := by gcongr <;> omega
      _ ≤ v.natAbs := Nat.log2_self_le (Int.natAbs_pos.mpr h.ne').ne'
  rw [toFloat, Int.sign_eq_one_of_pos h, one_mul]
  apply mul_pos _ (by positivity)
  split_ifs <;> omega

/-- What a scan of the first indices keeps holds of it. -/
theorem foldl_range {α : Type*} {f : α → ℕ → α} {P : ℕ → α → Prop} {a : α} (zero : P 0 a)
    (succ : ∀ n b, P n b → P (n + 1) (f b n)) (n : ℕ) : P n ((List.range n).foldl f a) := by
  induction n with
  | zero => exact zero
  | succ n ih =>
    rw [range_succ, foldl_append]
    exact succ n _ ih

/-- The arm of 0 is the first one. -/
theorem Coord.findNearestArm_zero (h : (c.arm 0).value = 0) : c.findNearestArm 0 = 0 := by
  have hscan := foldl_range (P := fun n best => best = if n = 0 then (0, 10 ^ 30) else (0, 0))
    (a := (0, 10 ^ 30)) (f := fun (best : ℕ × ℤ) i =>
      let dist := |toFloat ((c.arm i).value - 0)|
      if dist < best.2 then (i, dist) else best) rfl (fun n best ih => ?_) c.arms.length
  · rw [findNearestArm, hscan]
    split <;> rfl
  · subst ih
    cases n with
    | zero =>
      rw [h]
      rfl
    | succ n => exact if_neg (not_lt.mpr (abs_nonneg _))

theorem Coord.findNearestArm_lt (h : 0 < c.arms.length) (value : ℤ) :
    c.findNearestArm value < c.arms.length := by
  rw [findNearestArm]
  refine foldlRecOn (motive := fun best : ℕ × ℤ => best.1 < c.arms.length) _ _ h
    fun best hbest i hi => ?_
  dsimp only
  split
  · exact mem_range.mp hi
  · exact hbest

/-- The list begins with its least value, which is 0. -/
def FromZero (l : List ℤ) : Prop := l.head? = some 0 ∧ ∀ v ∈ l, 0 ≤ v

theorem FromZero.append {l : List ℤ} {v : ℤ} (h : FromZero l) (hv : 0 ≤ v) : FromZero (l ++ [v]) :=
  ⟨head?_append_of_ne_nil l (by rintro rfl; cases h.1) ▸ h.1,
    forall_mem_append.mpr ⟨h.2, forall_mem_singleton.mpr hv⟩⟩

theorem FromZero.mergeSort {l : List ℤ} (h : FromZero l) : FromZero l.mergeSort := by
  have hle : ∀ v ∈ l.mergeSort, 0 ≤ v := fun v hv => h.2 v (mem_mergeSort.mp hv)
  have hmem : 0 ∈ l.mergeSort := mem_mergeSort.mpr (mem_of_head? h.1)
  refine ⟨?_, hle⟩
  have hsorted : l.mergeSort.Pairwise (· ≤ ·) := pairwise_mergeSort' _ l
  cases hl : l.mergeSort with
  | nil => exact absurd (hl ▸ hmem) not_mem_nil
  | cons a as =>
    rw [hl] at hle hmem hsorted
    rcases mem_cons.mp hmem with rfl | hmem
    · rfl
    · have ha : a ≤ 0 := rel_of_pairwise_cons hsorted hmem
      exact congrArg some (le_antisymm ha (hle a mem_cons_self))

theorem toFloat_nonneg {v : ℤ} (h : 0 ≤ v) : 0 ≤ toFloat v := by
  rcases h.eq_or_lt with rfl | h
  · exact le_rfl
  · exact (toFloat_pos h).le

/-- The first arm drafts nothing. -/
theorem buildGridInt_zero {hi userValue : ℤ} (hhi : 0 < hi) :
    ∃ arms, buildGridInt 0 hi 1 userValue = { value := 0 } :: arms := by
  rw [buildGridInt]
  generalize hfirst : (range ((hi - 0) / 1 + 1).toNat).map (fun i : ℕ =>
    toFloat (0 + i * 1)) = first
  have hfirst' : FromZero first := by
    rw [← hfirst]
    refine ⟨?_, fun v hv => ?_⟩
    · obtain ⟨n, hn⟩ := Nat.exists_eq_succ_of_ne_zero (n := ((hi - 0) / 1 + 1).toNat) (by omega)
      rw [hn, range_succ_eq_map]
      rfl
    · obtain ⟨i, -, rfl⟩ := mem_map.mp hv
      exact toFloat_nonneg (by omega)
  generalize hsecond : (if first.getLast? = some hi then first else first ++ [toFloat hi]) = second
  have hsecond' : FromZero second := by
    rw [← hsecond]
    split
    · exact hfirst'
    · exact hfirst'.append (toFloat_nonneg hhi.le)
  have hvalues : FromZero (if userValue ∉ second ∧ 0 ≤ userValue ∧ userValue ≤ hi then
      (second ++ [toFloat userValue]).mergeSort else second) := by
    split
    case isTrue huser => exact (hsecond'.append (toFloat_nonneg huser.2.1)).mergeSort
    case isFalse => exact hsecond'
  obtain ⟨values, hvalues⟩ := head?_eq_some_iff.mp hvalues.1
  exact ⟨_, congrArg (map fun value : ℤ => ({ value } : Arm)) hvalues⟩

theorem Coord.bestSampled_spec {i : ℕ} (hi : i < c.arms.length) (hn : 0 < (c.arm i).n)
    (hq : -10 ^ 30 < (c.arm i).q) : c.bestSampled.2 < c.arms.length ∧
      0 < (c.arm c.bestSampled.2).n ∧
      ∀ j < c.arms.length, 0 < (c.arm j).n → (c.arm j).q ≤ (c.arm c.bestSampled.2).q := by
  have hscan := foldl_range (P := fun n best =>
    (best.1 = -10 ^ 30 ∨ best.2 < n ∧ 0 < (c.arm best.2).n ∧ (c.arm best.2).q = best.1) ∧
      ∀ j < n, 0 < (c.arm j).n → (c.arm j).q ≤ best.1) (a := (-10 ^ 30, c.bestIdx))
    (f := fun (best : ℚ × ℕ) i =>
      if 0 < (c.arm i).n ∧ best.1 < (c.arm i).q then ((c.arm i).q, i) else best)
    ⟨.inl rfl, fun j hj => absurd hj j.not_lt_zero⟩ (fun n best ⟨hbest, hle⟩ => ?_) c.arms.length
  · obtain ⟨heq | ⟨hlt, hpos, heq⟩, hle⟩ := hscan
    · exact absurd heq (hq.trans_le (hle i hi hn)).ne'
    · exact ⟨hlt, hpos, fun j hj hnj => heq ▸ hle j hj hnj⟩
  · simp only [Nat.forall_lt_succ_right]
    split
    case isTrue hbetter =>
      exact ⟨.inr ⟨n.lt_succ_self, hbetter.1, rfl⟩,
        fun j hj hnj => (hle j hj hnj).trans hbetter.2.le, fun _ => le_rfl⟩
    case isFalse hworse =>
      exact ⟨hbest.imp_right fun h => ⟨Nat.lt_succ_of_lt h.1, h.2⟩, hle,
        fun hnn => not_lt.mp fun hlt => hworse ⟨hnn, hlt⟩⟩

theorem Coord.bestOf_spec {flags : List Bool} {i : ℕ} (hi : i < c.arms.length)
    (hflag : flags.getD i false = false) : ∃ j < c.arms.length, c.bestOf flags = some j ∧
      flags.getD j false = false ∧
      ∀ i < c.arms.length, flags.getD i false = false → (c.arm i).q ≤ (c.arm j).q := by
  have hscan := foldl_range (P := fun n best => (best = none ∧ ∀ i < n, flags.getD i false = true) ∨
      ∃ j < n, best = some j ∧ flags.getD j false = false ∧
        ∀ i < n, flags.getD i false = false → (c.arm i).q ≤ (c.arm j).q) (a := none)
    (f := fun best i => if flags.getD i false then best else match best with
      | none => some i
      | some j => if (c.arm j).q < (c.arm i).q then some i else some j)
    (.inl ⟨rfl, fun j hj => absurd hj j.not_lt_zero⟩) (fun n best ih => ?_) c.arms.length
  · rcases hscan with ⟨-, hall⟩ | hbest
    · exact absurd (hflag.symm.trans (hall i hi)) Bool.false_ne_true
    · exact hbest
  · simp only [Nat.forall_lt_succ_right]
    cases hn : flags.getD n false with
    | true =>
      rcases ih with ⟨rfl, hall⟩ | ⟨j, hj, rfl, hflag, hle⟩
      · exact .inl ⟨rfl, hall, rfl⟩
      · exact .inr ⟨j, Nat.lt_succ_of_lt hj, rfl, hflag, hle, nofun⟩
    | false =>
      refine .inr ?_
      rcases ih with ⟨rfl, hall⟩ | ⟨j, hj, rfl, hflag, hle⟩
      · exact ⟨n, n.lt_succ_self, rfl, hn,
          fun i hi h => absurd (h.symm.trans (hall i hi)) Bool.false_ne_true, fun _ => le_rfl⟩
      · by_cases hlt : (c.arm j).q < (c.arm n).q
        · exact ⟨n, n.lt_succ_self, if_pos hlt, hn, fun i hi h => (hle i hi h).trans hlt.le,
            fun _ => le_rfl⟩
        · exact ⟨j, Nat.lt_succ_of_lt hj, if_neg hlt, hflag, hle, fun _ => not_lt.mp hlt⟩

theorem Coord.arm_reward (h : c.currentIdx < c.arms.length) (r : ℚ) :
    (c.reward r).arm = Function.update c.arm c.currentIdx { c.arm c.currentIdx with
      n := (c.arm c.currentIdx).n + 1
      q := (c.arm c.currentIdx).q +
        (r - (c.arm c.currentIdx).q) / ((c.arm c.currentIdx).n + 1 : ℕ) } := by
  funext i
  rw [arm, reward, getD_eq_getElem?_getD, getElem?_set, Function.update_apply]
  by_cases hi : c.currentIdx = i
  · subst hi
    rw [if_pos rfl, if_pos h, if_pos rfl]
    rfl
  · rw [if_neg hi, if_neg (Ne.symm hi), ← getD_eq_getElem?_getD]
    rfl

@[simp] theorem Coord.length_arms_reward (r : ℚ) : (c.reward r).arms.length = c.arms.length :=
  length_set

end Arms

/-! ## Runs -/

open Gaps (mean)

/-- The rewards of each arm since the last reset. -/
abbrev History := ℕ → List ℚ

namespace SpecTuner

def IsQuarantined (t : SpecTuner) (i : ℕ) : Prop := t.dflashQuarantined.getD i false = true

/-- The means of an arm and of arm 0 are known, and that of arm 0 is far better. -/
def IsSlow (t : SpecTuner) (i : ℕ) : Prop :=
  3 ≤ (t.coord.arm i).n ∧ 3 ≤ (t.coord.arm 0).n ∧ 0 < (t.coord.arm 0).q ∧
    (t.coord.arm i).q < (t.coord.arm 0).q * dflashQuarantineRatio

/-- The indices are those of arms, each of which has the number and the mean of its rewards. -/
structure Counts (t : SpecTuner) (h : History) : Prop where
  configured : 0 < t.configuredNMax
  zero : (t.coord.arm 0).value = 0
  current : t.coord.currentIdx < t.coord.arms.length
  best : t.coord.bestIdx < t.coord.arms.length
  user : t.coord.userIdx < t.coord.arms.length
  cursor : t.dflashProbeCursor < t.coord.arms.length
  flags : t.dflashQuarantined.length = t.coord.arms.length
  count : ∀ i < t.coord.arms.length, (t.coord.arm i).n = (h i).length
  average : ∀ i < t.coord.arms.length, (t.coord.arm i).q = mean (h i)
  positive : ∀ i, ∀ r ∈ h i, 0 < r

/-- The arms that are quarantined are the slow ones. -/
structure Keeps (t : SpecTuner) (h : History) : Prop extends t.Counts h where
  slow : ∀ i < t.coord.arms.length, t.IsQuarantined i ↔ t.IsSlow i

/-- The best arm has the highest mean of those that have been tried and are not quarantined. -/
structure IsBest (t : SpecTuner) : Prop where
  free : ¬t.IsQuarantined t.coord.bestIdx
  sampled : 0 < (t.coord.arm t.coord.bestIdx).n
  le : ∀ i < t.coord.arms.length, 0 < (t.coord.arm i).n → ¬t.IsQuarantined i →
    (t.coord.arm i).q ≤ (t.coord.arm t.coord.bestIdx).q

def push (h : History) (i : ℕ) (r : ℚ) : History := Function.update h i (h i ++ [r])

/-- The history after a feedback. -/
def next (t : SpecTuner) (h : History) (r : ℚ) : History :=
  if (t.acceptFeedback r).nResets = t.nResets then push h t.coord.currentIdx r else fun _ => []

/-- A run, with the rewards of each arm since the last reset. -/
inductive Run (nMax : ℤ) : SpecTuner → History → Prop
  | init : Run nMax (init nMax) fun _ => []
  | propose {t : SpecTuner} {h : History} (params : Params) :
    Run nMax t h → Run nMax (t.propose params).1 h
  | acceptFeedback {t : SpecTuner} {h : History} {r : ℚ} :
    0 < r → Run nMax t h → Run nMax (t.acceptFeedback r) (t.next h r)
  | endOfRequest {t : SpecTuner} {h : History} (slotTps : ℚ) (activeParams : Params) :
    Run nMax t h → Run nMax (t.endOfRequest slotTps activeParams).1 h

variable {t : SpecTuner} {h : History}

theorem not_isSlow_zero : ¬t.IsSlow 0 := by
  rintro ⟨-, -, hpos, hlt⟩
  rw [dflashQuarantineRatio] at hlt
  linarith

theorem Keeps.not_isQuarantined_zero (hk : t.Keeps h) : ¬t.IsQuarantined 0 :=
  mt (hk.slow 0 (Nat.zero_lt_of_lt hk.current)).mp not_isSlow_zero

theorem mean_append_singleton (rs : List ℚ) (r : ℚ) :
    mean (rs ++ [r]) = mean rs + (r - mean rs) / (rs.length + 1 : ℕ) := by
  rw [mean, mean, sum_append, sum_singleton, length_append, length_singleton]
  obtain rfl | hne := eq_or_ne rs []
  · simp
  · have hlength : (rs.length : ℚ) ≠ 0 := Nat.cast_ne_zero.mpr (length_pos_iff.mpr hne).ne'
    push_cast
    field_simp
    ring

theorem mean_pos {rs : List ℚ} (hpos : ∀ r ∈ rs, 0 < r) (hne : rs ≠ []) : 0 < mean rs :=
  div_pos (sum_pos _ hpos hne) (Nat.cast_pos.mpr (length_pos_iff.mpr hne))

theorem Counts.average_pos (hc : t.Counts h) {i : ℕ} (hi : i < t.coord.arms.length)
    (hn : 0 < (t.coord.arm i).n) : 0 < (t.coord.arm i).q := by
  rw [hc.count i hi] at hn
  rw [hc.average i hi]
  exact mean_pos (hc.positive i) (length_pos_iff.mp hn)

/-! ### Feedback -/

/-- The current arm gets a reward, before the quarantine is brought up to date. -/
def rewarded (t : SpecTuner) (r : ℚ) : SpecTuner :=
  { t with nCalls := t.nCalls + 1, coord := t.coord.update r }

/-- Best is an arm with the highest mean, be it quarantined or not. -/
structure IsTop (t : SpecTuner) : Prop where
  sampled : 0 < (t.coord.arm t.coord.bestIdx).n
  le : ∀ i < t.coord.arms.length, 0 < (t.coord.arm i).n →
    (t.coord.arm i).q ≤ (t.coord.arm t.coord.bestIdx).q

theorem Counts.rewarded (hc : t.Counts h) {r : ℚ} (hr : 0 < r) :
    (t.rewarded r).Counts (push h t.coord.currentIdx r) ∧ (t.rewarded r).IsTop := by
  have hpositive (i : ℕ) : ∀ r' ∈ push h t.coord.currentIdx r i, 0 < r' := by
    rw [push, Function.update_apply]
    split
    · exact forall_mem_append.mpr ⟨hc.positive _, forall_mem_singleton.mpr hr⟩
    · exact hc.positive i
  have harm : ∀ i < t.coord.arms.length, ((t.coord.reward r).arm i).value = (t.coord.arm i).value ∧
      ((t.coord.reward r).arm i).n = (push h t.coord.currentIdx r i).length ∧
      ((t.coord.reward r).arm i).q = mean (push h t.coord.currentIdx r i) := by
    intro i hi
    rw [Coord.arm_reward hc.current, push]
    obtain rfl | hne := eq_or_ne i t.coord.currentIdx
    · rw [Function.update_self, Function.update_self, length_append, mean_append_singleton,
        ← hc.count _ hi, ← hc.average _ hi]
      exact ⟨rfl, rfl, rfl⟩
    · rw [Function.update_of_ne hne, Function.update_of_ne hne]
      exact ⟨rfl, hc.count i hi, hc.average i hi⟩
  have hcurrent := harm _ hc.current
  have hne : push h t.coord.currentIdx r t.coord.currentIdx ≠ [] := by
    rw [push, Function.update_self]
    exact append_ne_nil_of_right_ne_nil _ (cons_ne_nil _ _)
  have hq : -10 ^ 30 < ((t.coord.reward r).arm t.coord.currentIdx).q := by
    rw [hcurrent.2.2]
    exact (neg_nonpos.mpr (by positivity)).trans_lt (mean_pos (hpositive _) hne)
  obtain ⟨hbest, hn, hle⟩ := Coord.bestSampled_spec (c := t.coord.reward r)
    (hc.current.trans_eq (Coord.length_arms_reward r).symm)
    (hcurrent.2.1 ▸ length_pos_iff.mpr hne) hq
  have hlength : (t.rewarded r).coord.arms.length = t.coord.arms.length :=
    Coord.length_arms_reward r
  refine ⟨?_, hn, hle⟩
  exact {
    configured := hc.configured
    zero := (harm 0 (Nat.zero_lt_of_lt hc.current)).1.trans hc.zero
    current := hc.current.trans_eq hlength.symm
    best := hbest
    user := hc.user.trans_eq hlength.symm
    cursor := hc.cursor.trans_eq hlength.symm
    flags := hc.flags.trans hlength.symm
    count := fun i hi => (harm i (hi.trans_eq hlength)).2.1
    average := fun i hi => (harm i (hi.trans_eq hlength)).2.2
    positive := hpositive }

/-- After a feedback, where no flag is set until the mean of arm 0 is known. -/
theorem Counts.updateDflashQuarantine (hc : t.Counts h) (htop : t.IsTop) (h0 : ¬t.IsQuarantined 0)
    (hflags : ∀ i < t.coord.arms.length, t.IsQuarantined i → 3 ≤ (t.coord.arm 0).n) :
    t.updateDflashQuarantine.Keeps h ∧ t.updateDflashQuarantine.IsBest := by
  have hpos : 0 < t.coord.arms.length := Nat.zero_lt_of_lt hc.current
  have hkind : ¬(¬t.hasDflashTargetOnlyArm ∨ t.coord.arms = []) := by
    rintro (hnot | hnil)
    · exact hnot (decide_eq_true hc.configured)
    · exact absurd hpos (by rw [hnil]; exact Nat.lt_irrefl 0)
  have hsame : t.flags = t.dflashQuarantined := if_pos hc.flags
  rw [SpecTuner.updateDflashQuarantine, if_neg hkind]
  simp only [hsame, Coord.findNearestArm_zero hc.zero]
  split
  case isTrue hfew =>
    have hthree : ¬3 ≤ (t.coord.arm 0).n := by
      intro hthree
      rcases hfew with hlt | hle
      · exact absurd hthree (not_le.mpr hlt)
      · exact absurd (hc.average_pos hpos (by omega)) (not_lt.mpr hle)
    have hnone : ∀ i < t.coord.arms.length, ¬t.IsQuarantined i :=
      fun i hi hflag => hthree (hflags i hi hflag)
    refine ⟨{ hc with slow := fun i hi => ⟨fun hflag => absurd hflag (hnone i hi), ?_⟩ },
      ⟨hnone _ hc.best, htop.sampled, fun i hi hn _ => htop.le i hi hn⟩⟩
    exact fun hslow => absurd hslow.2.1 hthree
  case isFalse hmany =>
    obtain ⟨hthree, hq⟩ := not_or.mp hmany
    generalize hflags' : (range t.coord.arms.length).map (fun i =>
      if i = 0 then t.dflashQuarantined.getD i false
      else decide (3 ≤ (t.coord.arm i).n ∧
        (t.coord.arm i).q < (t.coord.arm 0).q * dflashQuarantineRatio)) = quarantined
    have hslow : ∀ i < t.coord.arms.length, quarantined.getD i false = true ↔ t.IsSlow i := by
      intro i hi
      rw [← hflags', getD_eq_getElem?_getD, getElem?_map, getElem?_range hi,
        Option.map_some, Option.getD_some]
      obtain rfl | hne := eq_or_ne i 0
      · rw [if_pos rfl]
        exact iff_of_false h0 not_isSlow_zero
      · rw [if_neg hne, decide_eq_true_iff]
        exact ⟨fun h => ⟨h.1, not_lt.mp hthree, not_le.mp hq, h.2⟩, fun h => ⟨h.1, h.2.2.2⟩⟩
    obtain ⟨j, hj, hbest, hfree, hle⟩ := Coord.bestOf_spec hpos
      (Bool.eq_false_of_not_eq_true (mt (hslow 0 hpos).mp not_isSlow_zero))
    have hqj : 0 < (t.coord.arm j).q := (not_le.mp hq).trans_le (hle 0 hpos
      (Bool.eq_false_of_not_eq_true (mt (hslow 0 hpos).mp not_isSlow_zero)))
    have hnj : 0 < (t.coord.arm j).n := by
      apply Nat.pos_of_ne_zero
      intro hn
      rw [hc.count j hj, length_eq_zero_iff] at hn
      rw [hc.average j hj, hn, mean, sum_nil, zero_div] at hqj
      exact lt_irrefl _ hqj
    rw [hbest, Option.getD_some]
    refine ⟨{ hc with best := hj, flags := ?_, slow := hslow }, ne_true_of_eq_false hfree, hnj, ?_⟩
    · rw [← hflags', length_map, length_range]
    · exact fun i hi _ hflag => hle i hi (Bool.eq_false_of_not_eq_true hflag)

/-- Without rewards nothing is slow, and nothing is to be quarantined. -/
theorem Counts.keeps_nil {n : ℕ} (hc : t.Counts fun _ => [])
    (hflags : t.dflashQuarantined = List.replicate n false) : t.Keeps fun _ => [] where
  toCounts := hc
  slow i hi := by
    refine iff_of_false ?_ fun hslow => ?_
    · rw [IsQuarantined, hflags, getD_eq_getElem?_getD, getElem?_replicate]
      split <;> exact Bool.false_ne_true
    · exact absurd (hslow.1.trans_eq (hc.count i hi)) (Nat.not_succ_le_zero 2)

theorem Keeps.resetExploration (hk : t.Keeps h) :
    t.resetExploration.Keeps (fun _ => []) ∧ t.resetExploration.coord.bestIdx = 0 := by
  have hpos : 0 < t.coord.arms.length := Nat.zero_lt_of_lt hk.current
  have hlength : (t.coord.arms.map fun arm => { arm with q := 0, n := 0 }).length =
      t.coord.arms.length := length_map _
  have hkind : t.hasDflashTargetOnlyArm ∧ t.coord.resetScores.arms ≠ [] :=
    ⟨decide_eq_true hk.configured, ne_nil_of_length_pos (hpos.trans_eq hlength.symm)⟩
  have harm : ∀ i < t.coord.arms.length,
      t.coord.resetScores.arm i = { t.coord.arm i with q := 0, n := 0 } := by
    intro i hi
    rw [Coord.arm, Coord.resetScores, getD_eq_getElem?_getD, getElem?_map,
      getElem?_eq_getElem hi, Coord.arm, getD_eq_getElem?_getD,
      getElem?_eq_getElem hi]
    rfl
  rw [SpecTuner.resetExploration]
  simp only [if_pos hkind]
  refine ⟨Counts.keeps_nil {
    configured := hk.configured
    zero := (congrArg Arm.value (harm 0 hpos)).trans hk.zero
    current := hpos.trans_eq hlength.symm
    best := hpos.trans_eq hlength.symm
    user := hk.user.trans_eq hlength.symm
    cursor := hpos.trans_eq hlength.symm
    flags := length_replicate.trans (hk.flags.trans hlength.symm)
    count := fun i hi => congrArg Arm.n (harm i (hi.trans_eq hlength))
    average := fun i hi => (congrArg Arm.q (harm i (hi.trans_eq hlength))).trans (by simp [mean])
    positive := fun i => forall_mem_nil _ } rfl, trivial⟩

theorem detectChange_cases (t : SpecTuner) (stepTps : ℚ) :
    (∃ nLow, t.detectChange stepTps = { t with nLow }.resetExploration) ∨
    ∃ cooldown stepEma nLow, t.detectChange stepTps = { t with cooldown, stepEma, nLow } := by
  rw [detectChange]
  dsimp only
  split_ifs
  · exact .inr ⟨_, _, t.nLow, rfl⟩
  · exact .inr ⟨_, _, t.nLow, rfl⟩
  · exact .inr ⟨t.cooldown, _, t.nLow, rfl⟩
  · exact .inl ⟨_, rfl⟩
  · exact .inr ⟨t.cooldown, _, _, rfl⟩
  · exact .inr ⟨t.cooldown, _, _, rfl⟩

theorem nResets_updateDflashQuarantine : t.updateDflashQuarantine.nResets = t.nResets := by
  rw [SpecTuner.updateDflashQuarantine]
  dsimp only
  split_ifs <;> rfl

theorem Keeps.acceptFeedback (hk : t.Keeps h) {r : ℚ} (hr : 0 < r) :
    (t.acceptFeedback r).Keeps (t.next h r) ∧
      if (t.acceptFeedback r).nResets = t.nResets then (t.acceptFeedback r).IsBest
      else (t.acceptFeedback r).coord.bestIdx = 0 := by
  obtain ⟨hc, htop⟩ := hk.rewarded hr
  have hflags : ∀ i < (t.rewarded r).coord.arms.length, (t.rewarded r).IsQuarantined i →
      3 ≤ ((t.rewarded r).coord.arm 0).n := by
    intro i hi hflag
    have hpos : 0 < t.coord.arms.length := Nat.zero_lt_of_lt hk.current
    have hlength := Coord.length_arms_reward (c := t.coord) r
    have hold := ((hk.slow i (hi.trans_eq hlength)).mp hflag).2.1
    rw [hk.count 0 hpos] at hold
    rw [hc.count 0 (hpos.trans_eq hlength.symm), push, Function.update_apply]
    split
    case isTrue h0 =>
      rw [← h0, length_append]
      exact Nat.le_add_right_of_le hold
    case isFalse => exact hold
  obtain ⟨hkeeps, hbest⟩ := hc.updateDflashQuarantine htop hk.not_isQuarantined_zero hflags
  have hresets : (t.rewarded r).updateDflashQuarantine.nResets = t.nResets :=
    nResets_updateDflashQuarantine
  rw [next]
  rcases detectChange_cases (t.rewarded r).updateDflashQuarantine r with
    ⟨nLow, heq⟩ | ⟨cooldown, stepEma, nLow, heq⟩
  · have hreset : t.acceptFeedback r =
        { (t.rewarded r).updateDflashQuarantine with nLow }.resetExploration := heq
    have hne : (t.acceptFeedback r).nResets ≠ t.nResets := by
      rw [hreset, ← hresets]
      exact Nat.succ_ne_self _
    rw [if_neg hne, if_neg hne, hreset]
    have hk' : { (t.rewarded r).updateDflashQuarantine with nLow }.Keeps _ := { hkeeps with }
    exact hk'.resetExploration
  · have hgo : t.acceptFeedback r =
        { (t.rewarded r).updateDflashQuarantine with cooldown, stepEma, nLow } := heq
    have hsame : (t.acceptFeedback r).nResets = t.nResets := by rw [hgo, ← hresets]
    rw [if_pos hsame, if_pos hsame, hgo]
    exact ⟨{ hkeeps with }, { hbest with }⟩

/-! ### Proposals -/

theorem of_recoveryProbe {i : ℕ} (hpos : 0 < t.coord.arms.length) (h : t.recoveryProbe = some i) :
    i < t.coord.arms.length ∧ 0 < t.nCalls ∧ t.nCalls % dflashRecoveryProbeInterval = 0 := by
  rw [recoveryProbe] at h
  split at h
  case isTrue hturn =>
    obtain ⟨offset, -, rfl⟩ := mem_map.mp (mem_of_find?_eq_some h)
    exact ⟨Nat.mod_lt _ hpos, hturn.2⟩
  case isFalse => cases h

/-- The arm that is tried is not a quarantined one, unless it is tried again. -/
structure Selects (t : SpecTuner) : Prop where
  probe : t.IsQuarantined t.coord.currentIdx → t.dflashLastRecoveryProbe = true
  turn : t.dflashLastRecoveryProbe = true →
    0 < t.nCalls ∧ t.nCalls % dflashRecoveryProbeInterval = 0

theorem Keeps.selectDflashArm (hk : t.Keeps h) :
    t.selectDflashArm.Keeps h ∧ t.selectDflashArm.Selects := by
  have hpos : 0 < t.coord.arms.length := Nat.zero_lt_of_lt hk.current
  have hsame : t.flags = t.dflashQuarantined := if_pos hk.flags
  rw [SpecTuner.selectDflashArm]
  simp only [hsame]
  split
  case h_1 i hfew =>
    have hi : i < t.coord.arms.length := mem_range.mp (mem_of_find?_eq_some hfew)
    have hn : (t.coord.arm i).n < dflashMinSamplesPerArm := by simpa using find?_some hfew
    refine ⟨{ hk with current := hi }, fun hflag => ?_, fun hprobe => nomatch hprobe⟩
    exact absurd ((hk.slow i hi).mp hflag).1 (not_le.mpr hn)
  case h_2 =>
    split
    case h_1 i hprobe =>
      obtain ⟨hi, hturn⟩ := of_recoveryProbe hpos hprobe
      exact ⟨{ hk with current := hi, cursor := Nat.mod_lt _ hpos }, fun _ => rfl, fun _ => hturn⟩
    case h_2 =>
      obtain ⟨j, hj, hbest, hfree, -⟩ := Coord.bestOf_spec hpos
        (Bool.eq_false_of_not_eq_true hk.not_isQuarantined_zero)
      rw [hbest, Option.getD_some]
      refine ⟨{ hk with current := hj, best := hj }, fun hflag => ?_, fun hprobe => nomatch hprobe⟩
      exact absurd hflag (ne_true_of_eq_false hfree)

/-! ### Runs from the start -/

theorem keeps_init (nMax : ℤ) : (init nMax).Keeps fun _ => [] := by
  obtain ⟨arms, harms⟩ := @buildGridInt_zero _ nMax
    (Int.lt_of_lt_of_le Int.one_pos (Int.le_max_left 1 nMax))
  have hnew : ∀ arm ∈ buildGridInt 0 (max 1 nMax) 1 nMax, arm.n = 0 ∧ arm.q = 0 := by
    intro arm harm
    obtain ⟨value, -, rfl⟩ := mem_map.mp harm
    exact ⟨rfl, rfl⟩
  have hpos : 0 < (init nMax).coord.arms.length :=
    length_pos_iff.mpr (ne_of_eq_of_ne harms (cons_ne_nil _ _))
  have harm : ∀ i < (init nMax).coord.arms.length,
      ((init nMax).coord.arm i).n = 0 ∧ ((init nMax).coord.arm i).q = 0 := by
    intro i hi
    rw [Coord.arm, getD_eq_getElem?_getD, getElem?_eq_getElem hi]
    exact hnew _ (getElem_mem hi)
  exact Counts.keeps_nil {
    configured := Int.lt_of_lt_of_le Int.one_pos (Int.le_max_left 1 nMax)
    zero := congrArg (fun arms => (getD arms 0 default).value) harms
    current := hpos
    best := hpos
    user := Coord.findNearestArm_lt hpos _
    cursor := hpos
    flags := length_replicate
    count := fun i hi => (harm i hi).1
    average := fun i hi => (harm i hi).2.trans (by simp [mean])
    positive := fun i => forall_mem_nil _ } rfl

theorem Run.keeps {nMax : ℤ} (hrun : Run nMax t h) : t.Keeps h := by
  induction hrun with
  | init => exact keeps_init nMax
  | propose params _ ih => exact ih.selectDflashArm.1
  | acceptFeedback hr _ ih => exact (ih.acceptFeedback hr).1
  | endOfRequest slotTps activeParams _ ih => exact { ih with }

/-- In every run the indices are those of arms, an arm has the number and the mean of its rewards
since the last reset, and the quarantined arms are the slow ones, of which arm 0 is none.  What is
proposed next is not one of them, unless it is tried again, and after a feedback the best arm is the
best of the others that have been tried, or arm 0 after a reset. -/
theorem Run.quarantine_spec {nMax : ℤ} (hrun : Run nMax t h) :
    t.Keeps h ∧ ¬t.IsQuarantined 0 ∧ (∀ params, (t.propose params).1.Selects) ∧
    ∀ r, 0 < r → (t.acceptFeedback r).Keeps (t.next h r) ∧
      if (t.acceptFeedback r).nResets = t.nResets then (t.acceptFeedback r).IsBest
      else (t.acceptFeedback r).coord.bestIdx = 0 :=
  ⟨hrun.keeps, hrun.keeps.not_isQuarantined_zero, fun _ => hrun.keeps.selectDflashArm.2,
    fun _ hr => hrun.keeps.acceptFeedback hr⟩

theorem quarantine_spec_two : (((init 2).acceptFeedback 4).acceptFeedback 6).Keeps
      (((init 2).acceptFeedback 4).next ((init 2).next (fun _ => []) 4) 6) ∧
    ¬(((init 2).acceptFeedback 4).acceptFeedback 6).IsQuarantined 0 := by
  obtain ⟨hkeeps, hzero, -⟩ := Run.quarantine_spec (.acceptFeedback (by norm_num : (0 : ℚ) < 6)
    (.acceptFeedback (by norm_num : (0 : ℚ) < 4) (.init : Run 2 _ _)))
  exact ⟨hkeeps, hzero⟩

end SpecTuner

end ExpertPin.Tuner
