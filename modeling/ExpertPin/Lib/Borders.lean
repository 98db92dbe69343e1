import Mathlib.Data.List.Infix

/-!
# The longest beginning of a pattern at the end of a text

A text that is read symbol by symbol is matched against a pattern by the longest beginning of the
pattern that the text ends with.  One more symbol makes that one longer, or a shorter one that is
both a beginning and an end of it (`Longest.border`).
-/

namespace ExpertPin.Borders

open List

variable {α : Type} {p s : List α} {a : α} {j k : ℕ}

/-- The longest beginning of a pattern that a text ends with. -/
structure Longest (p s : List α) (k : ℕ) : Prop where
  le : k ≤ p.length
  ends : p.take k <:+ s
  max : ∀ j ≤ p.length, p.take j <:+ s → j ≤ k

theorem longest_nil (p : List α) : Longest p [] 0 where
  le := Nat.zero_le _
  ends := suffix_rfl
  max := by
    intro j hj hends
    have hlength := hends.length_le
    rwa [length_take, Nat.min_eq_left hj] at hlength

theorem append_singleton_suffix_iff {l : List α} {b : α} :
    l ++ [b] <:+ s ++ [a] ↔ b = a ∧ l <:+ s := by
  rw [← reverse_prefix, reverse_append, reverse_append, reverse_singleton,
    reverse_singleton, singleton_append, singleton_append, cons_prefix_cons,
    reverse_prefix]

theorem take_succ_suffix_iff (hj : j < p.length) :
    p.take (j + 1) <:+ s ++ [a] ↔ p[j]? = some a ∧ p.take j <:+ s := by
  rw [take_succ_eq_append_getElem hj, append_singleton_suffix_iff,
    getElem?_eq_getElem hj, Option.some_inj]

/-- The whole pattern is its longest beginning. -/
theorem Longest.suffix_iff (h : Longest p s k) : p <:+ s ↔ k = p.length := by
  constructor
  · intro hends
    rw [← take_length (l := p)] at hends
    exact Nat.le_antisymm h.le (h.max p.length (Nat.le_refl _) hends)
  · rintro rfl
    have hends := h.ends
    rwa [take_length] at hends

/-- A beginning of the pattern that the text ends with ends the longest one. -/
theorem Longest.border (h : Longest p s k) (hj : j ≤ p.length) (hends : p.take j <:+ s) :
    p.take j <:+ p.take k := by
  refine suffix_of_suffix_length_le hends h.ends ?_
  rw [length_take_of_le hj, length_take_of_le h.le]
  exact h.max j hj hends

/-- The next symbol of the pattern. -/
theorem Longest.extend (h : Longest p s k) (ha : p[k]? = some a) :
    Longest p (s ++ [a]) (k + 1) := by
  have hk : k < p.length := (List.getElem?_eq_some_iff.mp ha).1
  refine ⟨hk, (take_succ_suffix_iff hk).mpr ⟨ha, h.ends⟩, ?_⟩
  intro j hj hends
  cases j with
  | zero => exact Nat.zero_le _
  | succ j =>
    obtain ⟨-, hborder⟩ := (take_succ_suffix_iff hj).mp hends
    exact Nat.succ_le_succ (h.max j (Nat.le_of_succ_le hj) hborder)

/-- With another symbol only a border can go on. -/
theorem Longest.border_of_ne (h : Longest p s k) (ha : p[k]? ≠ some a) (hj : j < p.length)
    (hends : p.take (j + 1) <:+ s ++ [a]) : p[j]? = some a ∧ j < k ∧ p.take j <:+ p.take k := by
  obtain ⟨hnext, hborder⟩ := (take_succ_suffix_iff hj).mp hends
  refine ⟨hnext, ?_, h.border (Nat.le_of_lt hj) hborder⟩
  refine Nat.lt_of_le_of_ne (h.max j (Nat.le_of_lt hj) hborder) ?_
  rintro rfl
  exact ha hnext

/-- A border of a beginning is where the pattern repeats itself. -/
theorem getElem?_of_border (hk : k ≤ p.length) (hj : j ≤ k) (h : p.take j <:+ p.take k) {i : ℕ}
    (hi : i < j) : p[k - j + i]? = p[i]? := by
  obtain ⟨t, ht⟩ := h
  have hlength := congrArg length ht
  rw [length_append, length_take_of_le (Nat.le_trans hj hk),
    length_take_of_le hk] at hlength
  have htlen : t.length = k - j := by omega
  have hat : (t ++ p.take j)[k - j + i]? = (p.take k)[k - j + i]? := congrArg (·[k - j + i]?) ht
  rw [getElem?_append_right (by omega), htlen, Nat.add_sub_cancel_left,
    getElem?_take_of_lt hi, getElem?_take_of_lt (by omega)] at hat
  exact hat.symm

/-- Where a list is not the beginning of another. -/
theorem exists_mismatch {l m : List α} (h : ¬l <+: m) (hlength : l.length ≤ m.length) :
    ∃ c x y u v, l = c ++ x :: u ∧ m = c ++ y :: v ∧ x ≠ y := by
  induction l generalizing m with
  | nil => exact absurd nil_prefix h
  | cons x u ih =>
    cases m with
    | nil => exact absurd hlength (Nat.not_succ_le_zero _)
    | cons y v =>
      by_cases hxy : x = y
      · subst hxy
        have hrest : ¬u <+: v := fun hu => h (cons_prefix_cons.mpr ⟨rfl, hu⟩)
        obtain ⟨c, x', y', u', v', rfl, rfl, hne⟩ := ih hrest (Nat.le_of_succ_le_succ hlength)
        exact ⟨x :: c, x', y', u', v', rfl, rfl, hne⟩
      · exact ⟨[], x, y, u, v, rfl, rfl, hxy⟩

end ExpertPin.Borders
