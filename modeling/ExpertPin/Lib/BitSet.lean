import Mathlib.Data.List.Basic
import Mathlib.Algebra.GroupWithZero.Nat

/-!
# Sets of small numbers as bits

A set of natural numbers below a bound, packed into words of 32 bits: the number `i` is the bit
`i & 31` of the word `i >> 5`.
-/

namespace ExpertPin

/-- The words of a set. -/
abbrev BitSet := List (BitVec 32)

namespace BitSet

/-- The empty set, with room for the numbers below `n`. -/
def empty (n : ℕ) : BitSet := List.replicate ((n + 31) / 32) 0

/-- The bit of a number in its word. -/
def bit (i : ℕ) : BitVec 32 := 1 <<< (i &&& 31)

def insert (s : BitSet) (i : ℕ) : BitSet := s.modify (i >>> 5) (· ||| bit i)

def contains (s : BitSet) (i : ℕ) : Bool := s.getD (i >>> 5) 0 &&& bit i != 0

theorem bit_eq (i : ℕ) : bit i = BitVec.twoPow 32 (i % 32) := by
  rw [bit, BitVec.twoPow_eq, Nat.and_two_pow_sub_one_eq_mod i 5]
  rfl

theorem contains_eq (s : BitSet) (i : ℕ) : s.contains i = (s.getD (i / 32) 0).getLsbD (i % 32) := by
  have hne : BitVec.twoPow 32 (i % 32) ≠ 0#32 := by
    intro hzero
    have hget := congrArg (BitVec.getLsbD · (i % 32)) hzero
    simp [Nat.mod_lt i (show 32 > 0 by decide)] at hget
  rw [contains, bit_eq, Nat.shiftRight_eq_div_pow, BitVec.and_twoPow]
  cases hbit : (s.getD (i / 2 ^ 5) 0).getLsbD (i % 32) with
  | true => simp [hne]
  | false => simp

@[simp] theorem length_empty (n : ℕ) : (empty n).length = (n + 31) / 32 :=
  List.length_replicate

@[simp] theorem length_insert (s : BitSet) (i : ℕ) : (s.insert i).length = s.length :=
  List.length_modify _ _ _

/-- The word of a number that the set has room for. -/
theorem div_lt_length_empty {n i : ℕ} (h : i < n) : i / 32 < (empty n).length := by
  rw [length_empty]
  omega

theorem contains_empty (n i : ℕ) : (empty n).contains i = false := by
  have hword : (empty n).getD (i / 32) 0 = 0 := by
    rw [empty, List.getD_eq_getElem?_getD, List.getElem?_replicate]
    split
    · rfl
    · rfl
  rw [contains_eq, hword]
  exact BitVec.getLsbD_zero

/-- Inserting a number changes nothing about the others. -/
theorem contains_insert {s : BitSet} {i : ℕ} (h : i / 32 < s.length) (j : ℕ) :
    (s.insert i).contains j = (s.contains j || decide (i = j)) := by
  by_cases hword : i / 32 = j / 32
  · have hget : (s.insert i).getD (j / 32) 0 = s.getD (j / 32) 0 ||| bit i := by
      rw [← hword, insert, Nat.shiftRight_eq_div_pow]
      simp [List.getElem?_eq_getElem h]
    have hbit : i % 32 = j % 32 ↔ i = j := by omega
    rw [contains_eq, contains_eq, hget, BitVec.getLsbD_or, bit_eq, BitVec.getLsbD_twoPow,
      decide_eq_true (Nat.mod_lt i (by decide)), Bool.true_and, decide_eq_decide.mpr hbit]
  · have hget : (s.insert i).getD (j / 32) 0 = s.getD (j / 32) 0 := by
      rw [insert, Nat.shiftRight_eq_div_pow, List.getD_eq_getElem?_getD,
        List.getElem?_modify_ne _ _ hword, ← List.getD_eq_getElem?_getD]
    have hne : i ≠ j := fun heq => hword (congrArg (· / 32) heq)
    rw [contains_eq, contains_eq, hget, decide_eq_false hne, Bool.or_false]

end BitSet

end ExpertPin
