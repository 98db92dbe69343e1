import Mathlib.Data.Nat.Notation

/-!
# Rounding up to a multiple

`(x + d - 1) / d * d`, the usual way to round `x` up to a multiple of `d`.  It is the least
multiple that is not below `x` (`le_roundUp`, `roundUp_le`), and less than `d` above it.
-/

namespace ExpertPin.Rounding

def roundUp (x d : ℕ) : ℕ := (x + d - 1) / d * d

variable {x y d : ℕ}

theorem dvd_roundUp : d ∣ roundUp x d := Nat.dvd_mul_left d _

theorem roundUp_lt (hd : 0 < d) : roundUp x d < x + d := by
  have h : roundUp x d ≤ x + d - 1 := Nat.div_mul_le_self _ _
  exact Nat.lt_of_le_of_lt h (Nat.sub_lt (Nat.add_pos_right x hd) Nat.one_pos)

theorem le_roundUp (hd : 0 < d) : x ≤ roundUp x d := by
  have h : x + d - 1 < (x + d - 1) / d * d + d := Nat.lt_div_mul_add hd
  rw [roundUp]
  omega

theorem roundUp_le (hd : 0 < d) (hy : d ∣ y) (h : x ≤ y) : roundUp x d ≤ y := by
  obtain ⟨k, rfl⟩ := hy
  have hlt : roundUp x d < d * (k + 1) := calc
    roundUp x d < x + d := roundUp_lt hd
    _ ≤ d * k + d := Nat.add_le_add_right h d
  obtain ⟨j, hj⟩ : d ∣ roundUp x d := dvd_roundUp
  rw [hj] at hlt ⊢
  exact Nat.mul_le_mul_left d (Nat.le_of_lt_succ (Nat.lt_of_mul_lt_mul_left hlt))

/-- The multiple that is not below `x` and less than `d` above it. -/
theorem roundUp_eq (hd : 0 < d) (hy : d ∣ y) (hle : x ≤ y) (hlt : y < x + d) : roundUp x d = y := by
  apply Nat.le_antisymm (roundUp_le hd hy hle)
  obtain ⟨j, rfl⟩ := hy
  obtain ⟨k, hk⟩ : d ∣ roundUp x d := dvd_roundUp
  have hnext : d * j < d * (k + 1) := calc
    d * j < x + d := hlt
    _ ≤ roundUp x d + d := Nat.add_le_add_right (le_roundUp hd) d
    _ = d * (k + 1) := by rw [hk, Nat.mul_add_one]
  rw [hk]
  exact Nat.mul_le_mul_left d (Nat.le_of_lt_succ (Nat.lt_of_mul_lt_mul_left hnext))

end ExpertPin.Rounding
