import Mathlib.Data.List.Dedup
import Mathlib.Data.List.Infix
import Mathlib.Algebra.Order.BigOperators.Group.List
import Mathlib.Algebra.GroupWithZero.Nat

/-!
# Longest prefixes within a budget

A weight `w : α → ℕ` and a budget `b` select from a list its longest prefix
whose total weight is at most `b`.  `fit` computes it greedily from the front;
dropping the last element as long as the total is over budget ends at the same
prefix (`fit_append_singleton_of_lt`, `fit_eq_self`), which is what lets a
structure that only ever evicts from its tail be compared with a specification
that only ever looks at its front.

The last section is about *recency lists*: `promote` moves an element to the
front, and `recency` lists the distinct elements of a history, latest first.
-/

namespace ExpertPin.Budget

open List

variable {α β : Type*} (w : α → ℕ)

/-- The total weight of a list. -/
def weight (l : List α) : ℕ := (l.map w).sum

@[simp] theorem weight_nil : weight w [] = 0 := rfl

@[simp] theorem weight_cons (x : α) (l : List α) : weight w (x :: l) = w x + weight w l := by
  simp [weight]

@[simp] theorem weight_append (l m : List α) : weight w (l ++ m) = weight w l + weight w m := by
  simp [weight]

theorem weight_le_of_sublist {l m : List α} (h : l.Sublist m) : weight w l ≤ weight w m := by
  induction h with
  | slnil => exact le_refl _
  | cons x _ ih => rw [weight_cons]; omega
  | cons_cons x _ ih => rw [weight_cons, weight_cons]; omega

variable {l : List α}

theorem le_weight_of_mem {x : α} (h : x ∈ l) : w x ≤ weight w l := by
  simpa using weight_le_of_sublist w (singleton_sublist.mpr h)

/-- Weights are counted with multiplicity, so a list is as heavy as any of its
rearrangements. -/
theorem weight_perm {l m : List α} (h : l.Perm m) : weight w l = weight w m :=
  (h.map w).sum_eq

/-- Weighing images is weighing along the map. -/
theorem weight_map (f : β → α) (l : List β) : weight w (l.map f) = weight (w ∘ f) l := by
  rw [weight, map_map, weight]

/-! ## The greedy prefix -/

/-- The longest prefix of `l` that weighs at most `b`. -/
def fit : ℕ → List α → List α
  | _, [] => []
  | b, x :: l => if w x ≤ b then x :: fit (b - w x) l else []

@[simp] theorem fit_nil (b : ℕ) : fit w b [] = [] := rfl

variable {b : ℕ}

theorem fit_cons_of_le {x : α} (l : List α) (h : w x ≤ b) :
    fit w b (x :: l) = x :: fit w (b - w x) l := if_pos h

theorem fit_cons_of_lt {x : α} (l : List α) (h : b < w x) :
    fit w b (x :: l) = [] := if_neg (not_le.mpr h)

theorem isPrefix_fit (b : ℕ) (l : List α) : fit w b l <+: l := by
  induction l generalizing b with
  | nil => exact prefix_refl _
  | cons x l ih =>
    by_cases h : w x ≤ b
    · rw [fit_cons_of_le w l h]
      exact (prefix_cons_inj x).mpr (ih _)
    · rw [fit_cons_of_lt w l (not_le.mp h)]
      exact nil_prefix

theorem weight_fit_le (b : ℕ) (l : List α) : weight w (fit w b l) ≤ b := by
  induction l generalizing b with
  | nil => exact Nat.zero_le _
  | cons x l ih =>
    by_cases h : w x ≤ b
    · rw [fit_cons_of_le w l h, weight_cons]
      have := ih (b - w x)
      omega
    · rw [fit_cons_of_lt w l (not_le.mp h)]
      exact Nat.zero_le _

/-- Every prefix within the budget is a prefix of the greedy one: `fit` is
longest. -/
theorem prefix_fit {l q : List α} (hq : q <+: l) (hw : weight w q ≤ b) :
    q <+: fit w b l := by
  induction l generalizing b q with
  | nil => rw [prefix_nil.mp hq]; exact nil_prefix
  | cons x l ih =>
    cases q with
    | nil => exact nil_prefix
    | cons y q =>
      obtain ⟨rfl, hq'⟩ := cons_prefix_cons.mp hq
      rw [weight_cons] at hw
      rw [fit_cons_of_le w l (by omega)]
      exact (prefix_cons_inj y).mpr (ih hq' (by omega))

/-- A prefix within the budget that no longer prefix within the budget extends
is the greedy one. -/
theorem eq_fit {l p : List α} (hp : p <+: l) (hw : weight w p ≤ b)
    (hmax : ∀ q, q <+: l → weight w q ≤ b → q.length ≤ p.length) : p = fit w b l :=
  (prefix_fit w hp hw).eq_of_length_le (hmax _ (isPrefix_fit w b l) (weight_fit_le w b l))

theorem fit_eq_self (h : weight w l ≤ b) : fit w b l = l :=
  (eq_fit w (prefix_refl l) h fun _ hq _ => hq.length_le).symm

/-- The greedy prefix of images is the image of the greedy prefix. -/
theorem fit_map (f : β → α) (b : ℕ) (l : List β) : fit w b (l.map f) = (fit (w ∘ f) b l).map f := by
  induction l generalizing b with
  | nil => rfl
  | cons x l ih =>
    by_cases h : w (f x) ≤ b
    · rw [map_cons, fit_cons_of_le w _ h, ih, fit_cons_of_le (w ∘ f) _ h, map_cons]
      rfl
    · rw [map_cons, fit_cons_of_lt w _ (not_le.mp h),
        fit_cons_of_lt (w ∘ f) _ (not_le.mp h), map_nil]

/-- The element right after the greedy prefix does not fit. -/
theorem lt_of_fit_append_cons {l t : List α} {y : α} (h : fit w b l ++ y :: t = l) :
    b - weight w (fit w b l) < w y := by
  by_contra hc
  have hle := weight_fit_le w b l
  have hpre : fit w b l ++ [y] <+: l := ⟨t, by rw [append_assoc]; exact h⟩
  have hfit : weight w (fit w b l ++ [y]) ≤ b := by
    rw [weight_append, weight_cons, weight_nil]
    omega
  have hlen := (prefix_fit w hpre hfit).length_le
  rw [length_append, length_singleton] at hlen
  omega

/-- A larger budget keeps a longer prefix. -/
theorem fit_isPrefix_fit {b b' : ℕ} (h : b ≤ b') (l : List α) : fit w b l <+: fit w b' l :=
  prefix_fit w (isPrefix_fit w b l) ((weight_fit_le w b l).trans h)

/-- A list that is over budget hides what is appended to it. -/
theorem fit_append_of_lt (h : b < weight w l) (m : List α) :
    fit w b (l ++ m) = fit w b l := by
  induction l generalizing b with
  | nil => exact absurd h (Nat.not_lt_zero b)
  | cons x l ih =>
    rw [cons_append]
    by_cases hx : w x ≤ b
    · rw [fit_cons_of_le w _ hx, fit_cons_of_le w _ hx, ih]
      rw [weight_cons] at h
      omega
    · rw [fit_cons_of_lt w _ (not_le.mp hx), fit_cons_of_lt w _ (not_le.mp hx)]

/-- A list within the budget is kept whole, and the rest of the budget is spent
on what is appended to it. -/
theorem fit_append_of_le (h : weight w l ≤ b) (m : List α) :
    fit w b (l ++ m) = l ++ fit w (b - weight w l) m := by
  induction l generalizing b with
  | nil => simp
  | cons x l ih =>
    rw [weight_cons] at h
    rw [cons_append, fit_cons_of_le w _ (by omega), ih (by omega), weight_cons,
      Nat.sub_sub, cons_append]

/-- Over budget, the last element makes no difference: dropping elements from
the back as long as the list is over budget ends at the greedy prefix. -/
theorem fit_append_singleton_of_lt {x : α}
    (h : b < weight w (l ++ [x])) : fit w b (l ++ [x]) = fit w b l := by
  by_cases hl : b < weight w l
  · exact fit_append_of_lt w hl [x]
  · rw [not_lt] at hl
    rw [weight_append, weight_cons, weight_nil] at h
    rw [fit_append_of_le w hl, fit_cons_of_lt w [] (by omega), append_nil, fit_eq_self w hl]

/-! ## Recency lists -/

variable [DecidableEq α]

/-- Move `k` to the front, inserting it if it is absent. -/
def promote (k : α) (l : List α) : List α := k :: l.erase k

theorem promote_perm {k : α} (h : k ∈ l) : (promote k l).Perm l :=
  (perm_cons_erase h).symm

theorem promote_map [DecidableEq β] {f : β → α} (hf : Function.Injective f) (k : β) (l : List β) :
    promote (f k) (l.map f) = (promote k l).map f := by
  induction l with
  | nil => rfl
  | cons x l ih =>
    rw [promote, promote, map_cons, cons.injEq] at ih
    by_cases hx : x = k
    · subst hx
      simp [promote]
    · rw [promote, promote, map_cons, erase_cons_tail (by simpa [hf.eq_iff] using hx),
        erase_cons_tail (by simpa using hx), map_cons, map_cons, ih.2]

theorem promote_eq_filter (h : l.Nodup) (k : α) :
    promote k l = k :: l.filter fun x => x ≠ k := by
  rw [promote, h.erase_eq_filter]
  congr 1
  exact filter_congr fun x _ => by by_cases hx : x = k <;> simp [hx]

/-- The distinct elements of a history, the latest one first. -/
def recency (history : List α) : List α := history.dedup.reverse

@[simp] theorem mem_recency {k : α} {history : List α} : k ∈ recency history ↔ k ∈ history := by
  simp [recency]

@[simp] theorem recency_nil : recency ([] : List α) = [] := rfl

theorem dedup_append_singleton (history : List α) (k : α) :
    (history ++ [k]).dedup = history.dedup.erase k ++ [k] := by
  induction history with
  | nil => simp
  | cons x l ih =>
    by_cases hx : x = k
    · subst hx
      rw [cons_append, dedup_cons_of_mem (by simp), ih]
      by_cases hl : x ∈ l
      · rw [dedup_cons_of_mem hl]
      · rw [dedup_cons_of_notMem hl, erase_cons_head,
          erase_of_not_mem (by simpa using hl)]
    · by_cases hl : x ∈ l
      · rw [cons_append, dedup_cons_of_mem (by simp [hl]), ih,
          dedup_cons_of_mem hl]
      · rw [cons_append, dedup_cons_of_notMem (by simp [hl, hx]), ih,
          dedup_cons_of_notMem hl, erase_cons_tail (by simpa using hx),
          cons_append]

/-- One more event promotes its element. -/
theorem recency_append_singleton (history : List α) (k : α) :
    recency (history ++ [k]) = promote k (recency history) := by
  rw [recency, recency, promote, dedup_append_singleton, reverse_append,
    (nodup_dedup history).erase_eq_filter,
    (nodup_reverse.mpr (nodup_dedup history)).erase_eq_filter, filter_reverse]
  rfl

/-- Promoting an element the greedy prefix holds rearranges that prefix. -/
theorem fit_promote_of_mem {k : α} (hk : k ∈ fit w b l) :
    fit w b (promote k l) = promote k (fit w b l) := by
  obtain ⟨t, ht⟩ := isPrefix_fit w b l
  have hl : promote k l = promote k (fit w b l) ++ t := by
    rw [promote, promote, cons_append, ← erase_append_left _ hk, ht]
  have hw : weight w (promote k (fit w b l)) = weight w (fit w b l) :=
    weight_perm w (promote_perm hk)
  have hle : weight w (promote k (fit w b l)) ≤ b := hw.le.trans (weight_fit_le w b l)
  rw [hl, fit_append_of_le w hle, hw]
  cases t with
  | nil => simp
  | cons y t =>
    have hy : b - weight w (fit w b l) < w y := lt_of_fit_append_cons w ht
    rw [fit_cons_of_lt w t hy, append_nil]

/-- Promoting an element that the greedy prefix does not hold, but that is
within the budget by itself, puts it before what still fits of that prefix. -/
theorem fit_promote_of_notMem {k : α} (hk : k ∉ fit w b l)
    (hb : w k ≤ b) : fit w b (promote k l) = k :: fit w (b - w k) (fit w b l) := by
  obtain ⟨t, ht⟩ := isPrefix_fit w b l
  have hl : l.erase k = fit w b l ++ t.erase k := by
    conv_lhs => rw [← ht]
    exact erase_append_right _ hk
  rw [promote, fit_cons_of_le w _ hb, hl]
  by_cases hw : b - w k < weight w (fit w b l)
  · rw [fit_append_of_lt w hw]
  · rw [not_lt] at hw
    rw [fit_append_of_le w hw, fit_eq_self w hw]
    cases t with
    | nil => simp
    | cons y t =>
      have hy : b - weight w (fit w b l) < w y := lt_of_fit_append_cons w ht
      -- so the element right after the prefix is not `k`, and still does not fit
      have hne : y ≠ k := fun hc => by rw [hc] at hy; omega
      rw [erase_cons_tail (by simpa using hne), fit_cons_of_lt w _ (by omega), append_nil]

end ExpertPin.Budget
