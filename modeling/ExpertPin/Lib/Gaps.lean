import Mathlib.Tactic.FieldSimp
import Mathlib.Tactic.Positivity
import Mathlib.Tactic.Ring

/-!
# The variance of gaps

The gaps of a list of positions add up to the distance of its ends.  So where an inner position is
left out their mean stays what it is for all, and the variance is the least where the product of the
two gaps that become one is.
-/

universe u

namespace ExpertPin.Gaps

open List

variable {K : Type u} [Field K]

def mean (xs : List K) : K := xs.sum / xs.length

/-- The mean of the squares of the distances from the mean. -/
def variance (xs : List K) : K := mean (xs.map fun x => (x - mean xs) ^ 2)

def gaps : List K → List K
  | a :: b :: xs => (b - a) :: gaps (b :: xs)
  | _ => []

/-- The product of the gaps before and behind an inner position. -/
def product (xs : List K) (i : ℕ) : K :=
  (xs.getD i 0 - xs.getD (i - 1) 0) * (xs.getD (i + 1) 0 - xs.getD i 0)

theorem sum_sq_sub (xs : List K) (m : K) : (xs.map fun x => (x - m) ^ 2).sum =
    (xs.map (· ^ 2)).sum - 2 * m * xs.sum + xs.length * m ^ 2 := by
  induction xs with
  | nil => simp
  | cons x xs ih =>
    rw [map_cons, sum_cons, ih, map_cons, sum_cons, sum_cons,
      length_cons]
    push_cast
    ring

/-- The mean of the squares without the square of the mean. -/
theorem variance_eq [CharZero K] (xs : List K) :
    variance xs = mean (xs.map (· ^ 2)) - mean xs ^ 2 := by
  cases xs with
  | nil => simp [variance, mean]
  | cons x xs =>
    have hlength : ((x :: xs).length : K) ≠ 0 := Nat.cast_ne_zero.mpr (by simp)
    rw [variance, mean, sum_sq_sub, mean, mean, length_map, length_map]
    field_simp
    ring

theorem length_gaps (xs : List K) : (gaps xs).length = xs.length - 1 := by
  induction xs using gaps.induct with
  | case1 a b xs ih => simp [gaps, ih]
  | case2 xs h =>
    match xs, h with
    | [], _ => rfl
    | [_], _ => rfl
    | a :: b :: xs, h => exact absurd rfl (h a b xs)

/-- Where an inner position is left out, two gaps become one. -/
theorem sum_gaps_eraseIdx (f : K → K) {xs : List K} {i : ℕ} (h : i + 2 < xs.length) :
    ((gaps (xs.eraseIdx (i + 1))).map f).sum = ((gaps xs).map f).sum +
      (f ((xs.getD (i + 1) 0 - xs.getD i 0) + (xs.getD (i + 2) 0 - xs.getD (i + 1) 0)) -
        f (xs.getD (i + 1) 0 - xs.getD i 0) - f (xs.getD (i + 2) 0 - xs.getD (i + 1) 0)) := by
  induction i generalizing xs with
  | zero =>
    match xs, h with
    | a :: b :: c :: xs, _ =>
      simp [gaps]
      ring
  | succ i ih =>
    match xs, h with
    | a :: b :: xs, h =>
      have hrest := @ih (b :: xs) (Nat.lt_of_succ_lt_succ h)
      rw [eraseIdx_cons_succ] at hrest
      rw [eraseIdx_cons_succ, eraseIdx_cons_succ, gaps, gaps, map_cons,
        sum_cons, hrest, map_cons, sum_cons, add_assoc]
      rfl

/-- The variances differ by the products. -/
theorem variance_eraseIdx [CharZero K] {xs : List K} {i : ℕ} (hpos : 0 < i)
    (h : i + 1 < xs.length) : variance (gaps (xs.eraseIdx i)) =
      (((gaps xs).map (· ^ 2)).sum + 2 * product xs i) / (xs.length - 2 : ℕ) -
        ((gaps xs).sum / (xs.length - 2 : ℕ)) ^ 2 := by
  obtain ⟨i, rfl⟩ := Nat.exists_eq_succ_of_ne_zero hpos.ne'
  have hlength : (gaps (xs.eraseIdx (i + 1))).length = xs.length - 2 := by
    rw [length_gaps, length_eraseIdx_of_lt (Nat.lt_of_succ_lt h)]
    omega
  have hsum := sum_gaps_eraseIdx id h
  have hsquares := sum_gaps_eraseIdx (· ^ 2) h
  rw [map_id, map_id, id, id, id, add_sub_cancel_left, sub_self, add_zero] at hsum
  rw [variance_eq, mean, mean, length_map, hlength, hsum, hsquares, product, Nat.succ_sub_one]
  ring

/-- The variance is less where the product is. -/
theorem variance_le_variance [LinearOrder K] [IsStrictOrderedRing K] {xs : List K} {i j : ℕ}
    (hi : 0 < i) (hi' : i + 1 < xs.length) (hj : 0 < j) (hj' : j + 1 < xs.length)
    (h : product xs i ≤ product xs j) :
    variance (gaps (xs.eraseIdx i)) ≤ variance (gaps (xs.eraseIdx j)) := by
  rw [variance_eraseIdx hi hi', variance_eraseIdx hj hj']
  gcongr

/-- What is the least so far, and where, is the least at the end. -/
theorem foldl_least {M : Type u} [LinearOrder M] (f : ℕ → M) (is : List ℕ) (k : ℕ) :
    ∃ i ∈ k :: is, is.foldl (fun best i => if f i < best.1 then (f i, i) else best) (f k, k) =
      (f i, i) ∧ ∀ j ∈ k :: is, f i ≤ f j := by
  induction is generalizing k with
  | nil => exact ⟨k, mem_cons_self, rfl, by simp⟩
  | cons j is ih =>
    rw [foldl_cons]
    split
    case isTrue hlt =>
      obtain ⟨i, hi, heq, hle⟩ := ih j
      refine ⟨i, mem_cons_of_mem _ hi, heq, forall_mem_cons.mpr ⟨?_, hle⟩⟩
      exact (hle j mem_cons_self).trans hlt.le
    case isFalse hge =>
      obtain ⟨i, hi, heq, hle⟩ := ih k
      obtain ⟨hk, hrest⟩ := forall_mem_cons.mp hle
      refine ⟨i, ?_, heq, forall_mem_cons.mpr ⟨hk, forall_mem_cons.mpr ⟨?_, hrest⟩⟩⟩
      · rcases mem_cons.mp hi with rfl | hi
        · exact mem_cons_self
        · exact mem_cons_of_mem _ (mem_cons_of_mem _ hi)
      · exact hk.trans (not_lt.mp hge)

end ExpertPin.Gaps
