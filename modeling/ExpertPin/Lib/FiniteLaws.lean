import Mathlib.Algebra.BigOperators.Ring.List
import Mathlib.Algebra.Order.BigOperators.Group.List
import Mathlib.Tactic.Linarith
import Mathlib.Tactic.Ring

/-!
# Finite laws

A law is a finite list of outcomes with nonnegative rational weights that add up to one.  An
outcome may stand in the list more than once.  Laws are drawn from one after the other in a monad,
and are compared by their expectations, of which probabilities are a case.
-/

namespace ExpertPin.FiniteLaws

open List

universe u v

structure Law (α : Type u) where
  weights : List (α × ℚ)
  nonneg : ∀ w ∈ weights, 0 ≤ w.2
  total : (weights.map Prod.snd).sum = 1

namespace Law

variable {α : Type u} {β : Type v}

def expect (d : Law α) (f : α → ℚ) : ℚ := (d.weights.map fun w => w.2 * f w.1).sum

/-- The probability of an event. -/
def prob (d : Law α) (p : α → Prop) [DecidablePred p] : ℚ := d.expect fun a => if p a then 1 else 0

/-! ## Expectations -/

theorem expect_const (d : Law α) (c : ℚ) : (d.expect fun _ => c) = c := by
  rw [expect, sum_map_mul_right, d.total, one_mul]

theorem expect_add (d : Law α) (f g : α → ℚ) :
    (d.expect fun a => f a + g a) = d.expect f + d.expect g := by
  simp only [expect, mul_add, sum_map_add]

theorem expect_mul_left (d : Law α) (c : ℚ) (f : α → ℚ) :
    (d.expect fun a => c * f a) = c * d.expect f := by
  rw [expect, expect, ← sum_map_mul_left]
  simp only [mul_left_comm]

theorem expect_mul_right (d : Law α) (f : α → ℚ) (c : ℚ) :
    (d.expect fun a => f a * c) = d.expect f * c := by
  simp only [mul_comm _ c, expect_mul_left]

theorem expect_sub_left (d : Law α) (c : ℚ) (f : α → ℚ) :
    (d.expect fun a => c - f a) = c - d.expect f := by
  have hadd := d.expect_add (fun a => c - f a) f
  simp only [sub_add_cancel, expect_const] at hadd
  linarith

theorem expect_ite (d : Law α) (p : Prop) [Decidable p] (f : α → ℚ) :
    (d.expect fun a => if p then f a else 0) = if p then d.expect f else 0 := by
  by_cases h : p
  · simp only [h, if_true]
  · simp only [h, if_false, expect_const]

theorem expect_sum {ι : Type v} (d : Law α) (l : List ι) (f : ι → α → ℚ) :
    (d.expect fun a => (l.map fun i => f i a).sum) = (l.map fun i => d.expect (f i)).sum := by
  induction l with
  | nil => simp only [map_nil, sum_nil, expect_const]
  | cons i l ih => simp only [map_cons, sum_cons, expect_add, ih]

/-- The weight of one outcome, wherever it stands in the list. -/
def weight [DecidableEq α] (d : Law α) (a : α) : ℚ :=
  ((d.weights.filter (·.1 = a)).map Prod.snd).sum

theorem expect_single [DecidableEq α] (d : Law α) (a : α) (f : α → ℚ) :
    (d.expect fun b => if b = a then f b else 0) = d.weight a * f a := by
  rw [expect, weight]
  induction d.weights with
  | nil => simp only [map_nil, filter_nil, sum_nil, zero_mul]
  | cons w l ih =>
    rw [map_cons, sum_cons, ih, filter_cons]
    by_cases h : w.1 = a
    · simp only [h, if_true, decide_true, map_cons, sum_cons, add_mul]
    · simp only [h, if_false, decide_false, mul_zero, zero_add, Bool.false_eq_true]

theorem weight_nonneg [DecidableEq α] (d : Law α) (a : α) : 0 ≤ d.weight a := by
  apply sum_nonneg
  intro r hr
  obtain ⟨w, hw, rfl⟩ := mem_map.mp hr
  exact d.nonneg w (mem_filter.mp hw).1

/-! ## Draws -/

protected def pure (a : α) : Law α where
  weights := [(a, 1)]
  nonneg := by simp
  total := by simp

theorem sum_bind (l : List (α × ℚ)) (k : α → List (β × ℚ)) (f : β → ℚ) :
    ((l.flatMap fun w => (k w.1).map fun v => (v.1, w.2 * v.2)).map fun v => v.2 * f v.1).sum =
      (l.map fun w => w.2 * ((k w.1).map fun v => v.2 * f v.1).sum).sum := by
  induction l with
  | nil => rfl
  | cons w l ih =>
    rw [flatMap_cons, map_append, sum_append, ih, map_cons, sum_cons,
      map_map, ← sum_map_mul_left]
    simp only [Function.comp_def, mul_assoc]

protected def bind (d : Law α) (k : α → Law β) : Law β where
  weights := d.weights.flatMap fun w => (k w.1).weights.map fun v => (v.1, w.2 * v.2)
  nonneg v hv := by
    obtain ⟨w, hw, hv⟩ := List.mem_flatMap.mp hv
    obtain ⟨u, hu, rfl⟩ := List.mem_map.mp hv
    exact mul_nonneg (d.nonneg w hw) ((k w.1).nonneg u hu)
  total := by
    have hsum := sum_bind d.weights (fun a => (k a).weights) fun _ => 1
    simp only [mul_one, (k _).total] at hsum
    exact hsum.trans d.total

instance : Monad Law where
  pure := Law.pure
  bind := Law.bind

@[simp] theorem expect_pure (a : α) (f : α → ℚ) : (pure a : Law α).expect f = f a := by
  show (Law.pure a).expect f = f a
  simp [expect, Law.pure]

variable {γ : Type u}

@[simp] theorem expect_bind (d : Law α) (k : α → Law γ) (f : γ → ℚ) :
    (d >>= k).expect f = d.expect fun a => (k a).expect f :=
  sum_bind d.weights (fun a => (k a).weights) f

/-- A coin that shows `true` with a probability. -/
def coin (r : ℚ) (h : 0 ≤ r ∧ r ≤ 1) : Law Bool where
  weights := [(true, r), (false, 1 - r)]
  nonneg := by
    rintro w hw
    rcases List.mem_pair.mp hw with rfl | rfl
    · exact h.1
    · exact sub_nonneg.mpr h.2
  total := by simp

theorem expect_coin {r : ℚ} (h : 0 ≤ r ∧ r ≤ 1) (f : Bool → ℚ) :
    (coin r h).expect f = r * f true + (1 - r) * f false := by
  simp [expect, coin]

/-- Weights that do not add up to one are divided by their sum. -/
def normalized (weights : List (α × ℚ)) (hnonneg : ∀ w ∈ weights, 0 ≤ w.2)
    (hpos : 0 < (weights.map Prod.snd).sum) : Law α where
  weights := weights.map fun w => (w.1, w.2 / (weights.map Prod.snd).sum)
  nonneg v hv := by
    obtain ⟨w, hw, rfl⟩ := List.mem_map.mp hv
    exact div_nonneg (hnonneg w hw) hpos.le
  total := by
    rw [List.map_map]
    simp only [Function.comp_def, div_eq_mul_inv, List.sum_map_mul_right]
    exact mul_inv_cancel₀ hpos.ne'

theorem expect_normalized {weights : List (α × ℚ)} (hnonneg : ∀ w ∈ weights, 0 ≤ w.2)
    (hpos : 0 < (weights.map Prod.snd).sum) (f : α → ℚ) :
    (normalized weights hnonneg hpos).expect f =
      (weights.map fun w => w.2 * f w.1).sum / (weights.map Prod.snd).sum := by
  rw [expect, normalized, map_map, div_eq_mul_inv, ← sum_map_mul_right]
  simp only [Function.comp_def, div_eq_mul_inv, mul_right_comm]

end Law

end ExpertPin.FiniteLaws
