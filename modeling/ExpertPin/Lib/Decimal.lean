import Mathlib.Data.Nat.Digits.Lemmas

/-!
# Decimal numerals

Lists of decimal digits, the first one first, with their values.  A numeral without superfluous
zeros is the one that is written for its value (`decimal_value`), and numerals of one length are
in the order of their values.
-/

namespace ExpertPin.Decimal

open List
open Nat

/-- The value of a numeral. -/
def value : List ℕ → ℕ
  | [] => 0
  | d :: ds => d * 10 ^ ds.length + value ds

def IsNumeral (ds : List ℕ) : Prop := ∀ d ∈ ds, d < 10

/-- The numeral that is written for a number. -/
def decimal (n : ℕ) : List ℕ := if n = 0 then [0] else (Nat.digits 10 n).reverse

/-- The numeral has no zero in front of another digit. -/
def Plain (ds : List ℕ) : Prop := ds = [0] ∨ ∃ d tail, ds = d :: tail ∧ d ≠ 0

variable {n k d : ℕ} {ds es : List ℕ}

@[simp] theorem value_nil : value [] = 0 := rfl

@[simp] theorem value_cons : value (d :: ds) = d * 10 ^ ds.length + value ds := rfl

theorem value_append : value (ds ++ es) = value ds * 10 ^ es.length + value es := by
  induction ds with
  | nil => simp
  | cons d ds ih =>
    rw [cons_append, value_cons, ih, value_cons, length_append, pow_add]
    ring

theorem value_eq_ofDigits (ds : List ℕ) : value ds = Nat.ofDigits 10 ds.reverse := by
  induction ds with
  | nil => rfl
  | cons d ds ih => rw [value_cons, ih, ofDigits_reverse_cons, add_comm, mul_comm]

theorem isNumeral_cons : IsNumeral (d :: ds) ↔ d < 10 ∧ IsNumeral ds := forall_mem_cons

theorem isNumeral_append : IsNumeral (ds ++ es) ↔ IsNumeral ds ∧ IsNumeral es :=
  forall_mem_append

theorem isNumeral_replicate (h : d < 10) : IsNumeral (List.replicate n d) := by
  intro e he
  rw [eq_of_mem_replicate he]
  exact h

theorem value_lt (h : IsNumeral ds) : value ds < 10 ^ ds.length := by
  rw [value_eq_ofDigits, ← length_reverse]
  exact ofDigits_lt_base_pow_length (by decide) fun d hd => h d (mem_reverse.mp hd)

@[simp] theorem value_zeros : value (List.replicate n 0) = 0 := by
  induction n with
  | zero => rfl
  | succ n ih => rw [replicate_succ, value_cons, ih, zero_mul]

theorem value_nines : value (List.replicate n 9) + 1 = 10 ^ n := by
  induction n with
  | zero => rfl
  | succ n ih =>
    rw [replicate_succ, value_cons, length_replicate, add_assoc, ih, pow_succ]
    ring

/-- Numerals of one length are told apart by their values. -/
theorem eq_of_value_eq (hd : IsNumeral ds) (he : IsNumeral es) (hlength : ds.length = es.length)
    (h : value ds = value es) : ds = es := by
  rw [value_eq_ofDigits, value_eq_ofDigits] at h
  rw [← reverse_inj]
  refine ofDigits_inj_of_len_eq (by decide) (by simpa using hlength) ?_ ?_ h
  · exact fun d hmem => hd d (mem_reverse.mp hmem)
  · exact fun d hmem => he d (mem_reverse.mp hmem)

theorem eq_zeros_iff (h : IsNumeral ds) : ds = List.replicate ds.length 0 ↔ value ds = 0 := by
  refine ⟨fun heq => by rw [heq, value_zeros], fun hzero => ?_⟩
  exact eq_of_value_eq h (isNumeral_replicate (by decide)) length_replicate.symm
    (hzero.trans value_zeros.symm)

theorem eq_nines_iff (h : IsNumeral ds) :
    ds = List.replicate ds.length 9 ↔ value ds + 1 = 10 ^ ds.length := by
  refine ⟨fun heq => ?_, fun hnines => ?_⟩
  · rw [heq, value_nines, length_replicate]
  · refine eq_of_value_eq h (isNumeral_replicate (by decide)) length_replicate.symm ?_
    exact succ.inj (hnines.trans value_nines.symm)

/-! ## Writing -/

theorem decimal_of_ne (h : n ≠ 0) : decimal n = (Nat.digits 10 n).reverse := if_neg h

theorem isNumeral_decimal (n : ℕ) : IsNumeral (decimal n) := by
  by_cases h : n = 0
  · subst h
    exact forall_mem_singleton.mpr (by decide)
  · rw [decimal_of_ne h]
    exact fun d hd => digits_lt_base (by decide) (mem_reverse.mp hd)

@[simp] theorem value_decimal (n : ℕ) : value (decimal n) = n := by
  by_cases h : n = 0
  · subst h
    rfl
  · rw [decimal_of_ne h, value_eq_ofDigits, reverse_reverse, ofDigits_digits]

theorem plain_decimal (n : ℕ) : Plain (decimal n) := by
  by_cases h : n = 0
  · subst h
    exact .inl rfl
  · right
    have hne : digits 10 n ≠ [] := digits_ne_nil_iff_ne_zero.mpr h
    refine ⟨(digits 10 n).getLast hne, (digits 10 n).dropLast.reverse, ?_,
      getLast_digit_ne_zero 10 h⟩
    rw [decimal_of_ne h, ← reverse_concat, dropLast_append_getLast hne]

theorem decimal_value (h : IsNumeral ds) (hplain : Plain ds) : decimal (value ds) = ds := by
  rcases hplain with rfl | ⟨d, tail, rfl, hd⟩
  · rfl
  · have hpos : value (d :: tail) ≠ 0 := by
      rw [value_cons]
      exact Nat.ne_of_gt (Nat.add_pos_left (Nat.mul_pos (Nat.pos_of_ne_zero hd) (by positivity)) _)
    rw [decimal_of_ne hpos, value_eq_ofDigits, Nat.digits_ofDigits 10 (by decide),
      reverse_reverse]
    · exact fun e he => h e (mem_reverse.mp he)
    · intro hne
      rw [getLast_reverse, head_cons]
      exact hd

theorem decimal_ne_nil (n : ℕ) : decimal n ≠ [] := by
  rcases plain_decimal n with h | ⟨d, tail, h, -⟩
  · rw [h]
    exact cons_ne_nil _ _
  · rw [h]
    exact cons_ne_nil _ _

/-- A numeral without superfluous zeros has as many digits as its value needs. -/
theorem le_value_of_plain (h : d ≠ 0) : 10 ^ ds.length ≤ value (d :: ds) := by
  rw [value_cons]
  calc 10 ^ ds.length = 1 * 10 ^ ds.length := (one_mul _).symm
    _ ≤ d * 10 ^ ds.length := mul_le_mul_right _ (pos_of_ne_zero h)
    _ ≤ d * 10 ^ ds.length + value ds := le_add_right _ _

theorem length_decimal_le_iff (hk : 0 < k) : (decimal n).length ≤ k ↔ n < 10 ^ k := by
  constructor
  · intro hle
    calc n = value (decimal n) := (value_decimal n).symm
      _ < 10 ^ (decimal n).length := value_lt (isNumeral_decimal n)
      _ ≤ 10 ^ k := Nat.pow_le_pow_right (by decide) hle
  · intro hlt
    rcases plain_decimal n with heq | ⟨d, tail, heq, hd⟩
    · rw [heq]
      exact hk
    · have hle : 10 ^ tail.length ≤ n := by
        have h := @le_value_of_plain d tail hd
        rwa [← heq, value_decimal] at h
      rw [heq]
      exact (Nat.pow_lt_pow_iff_right (by decide)).mp (hle.trans_lt hlt)

theorem length_decimal_pos (n : ℕ) : 0 < (decimal n).length :=
  length_pos_iff.mpr (decimal_ne_nil n)

theorem length_decimal_mono (h : n ≤ k) : (decimal n).length ≤ (decimal k).length := by
  rw [length_decimal_le_iff (length_decimal_pos k)]
  exact h.trans_lt ((length_decimal_le_iff (length_decimal_pos k)).mp (le_refl _))

/-- A numeral without superfluous zeros has the length that its value needs. -/
theorem plain_iff (hds : IsNumeral ds) (hne : ds ≠ []) :
    Plain ds ↔ ds.length = 1 ∨ 10 ^ (ds.length - 1) ≤ value ds := by
  obtain ⟨d, tail, rfl⟩ := exists_cons_of_ne_nil hne
  obtain ⟨-, htail⟩ := isNumeral_cons.mp hds
  have hlt := value_lt htail
  rw [length_cons, Nat.add_sub_cancel, value_cons]
  constructor
  · rintro (heq | ⟨d', tail', heq, hd⟩)
    · obtain ⟨rfl, rfl⟩ := cons.inj heq
      exact .inl rfl
    · obtain ⟨rfl, rfl⟩ := cons.inj heq
      exact .inr (le_value_of_plain hd)
  · rintro (hone | hle)
    · obtain rfl := eq_nil_of_length_eq_zero (Nat.succ.inj hone)
      by_cases hd : d = 0
      · exact .inl (hd ▸ rfl)
      · exact .inr ⟨d, [], rfl, hd⟩
    · refine .inr ⟨d, tail, rfl, ?_⟩
      rintro rfl
      rw [Nat.zero_mul, Nat.zero_add] at hle
      exact absurd hlt (Nat.not_lt.mpr hle)

theorem le_of_length_decimal (n : ℕ) :
    (decimal n).length = 1 ∨ 10 ^ ((decimal n).length - 1) ≤ n := by
  have h := (plain_iff (isNumeral_decimal n) (decimal_ne_nil n)).mp (plain_decimal n)
  rwa [value_decimal] at h

end ExpertPin.Decimal
