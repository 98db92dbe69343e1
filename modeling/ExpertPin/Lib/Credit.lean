import Mathlib.Algebra.BigOperators.Group.Finset.Piecewise
import Mathlib.Algebra.Order.BigOperators.Group.Finset

/-!
# Credit

An amortised bound for two counters that are increased at different places.  The one
counts what is earned, and each time it is increased the account of some key is
opened anew; the other counts what is spent from accounts.  As long as each spending
is backed by its account, no more is spent than earned (`spent_le_earned`).
-/

namespace ExpertPin.Credit

open List

universe u

variable {K : Type u} [DecidableEq K]

inductive Entry (K : Type u) where
  /-- Open the account of `k` with `n`; what was left of the old one is forfeited. -/
  | earn (k : K) (n : ℕ)
  /-- Spend `n` from the account of `k`. -/
  | spend (k : K) (n : ℕ)
  /-- Close all accounts and start counting from zero. -/
  | clear

/-- The accounts after an entry. -/
def settle (balance : K → ℕ) : Entry K → K → ℕ
  | .earn k n => Function.update balance k n
  | .spend k n => Function.update balance k (balance k - n)
  | .clear => fun _ => 0

def balance (log : List (Entry K)) : K → ℕ := log.foldl settle fun _ => 0

/-- An entry spends no more than its account holds. -/
def Entry.BackedBy (balance : K → ℕ) : Entry K → Prop
  | .spend k n => n ≤ balance k
  | _ => True

/-- Every spending is backed by the entries before it. -/
def Backed (log : List (Entry K)) : Prop :=
  ∀ past e, past ++ [e] <+: log → e.BackedBy (balance past)

theorem backed_nil : Backed ([] : List (Entry K)) := fun past e h =>
  absurd (prefix_nil.mp h) (append_ne_nil_of_right_ne_nil past (cons_ne_nil e []))

theorem backed_append_singleton {log : List (Entry K)} {e : Entry K} :
    Backed (log ++ [e]) ↔ Backed log ∧ e.BackedBy (balance log) := by
  constructor
  · intro h
    exact ⟨fun past e' h' => h past e' (h'.trans (prefix_append log [e])),
      h log e (prefix_refl _)⟩
  · rintro ⟨hlog, hbacked⟩ past e' h
    rcases prefix_concat_iff.mp h with heq | hpre
    · obtain ⟨rfl, hlast⟩ := append_inj' heq rfl
      obtain rfl := singleton_inj.mp hlast
      exact hbacked
    · exact hlog past e' hpre

/-- What was earned and what was spent. -/
structure Totals where
  earned : ℕ := 0
  spent : ℕ := 0

def Totals.add {K : Type u} (totals : Totals) : Entry K → Totals
  | .earn _ n => { totals with earned := totals.earned + n }
  | .spend _ n => { totals with spent := totals.spent + n }
  | .clear => {}

def totals {K : Type u} (log : List (Entry K)) : Totals := log.foldl Totals.add {}

theorem balance_append_singleton (log : List (Entry K)) (e : Entry K) :
    balance (log ++ [e]) = settle (balance log) e := by
  rw [balance, foldl_append, foldl_cons, foldl_nil, ← balance]

theorem totals_append_singleton {K : Type u} (log : List (Entry K)) (e : Entry K) :
    totals (log ++ [e]) = (totals log).add e := by
  rw [totals, foldl_append, foldl_cons, foldl_nil, ← totals]

/-- What a sum becomes when one of its terms is replaced. -/
theorem sum_update_add (f : K → ℕ) (k : K) (n : ℕ) (S : Finset K) :
    ∑ j ∈ S, Function.update f k n j + (if k ∈ S then f k else 0) =
      ∑ j ∈ S, f j + if k ∈ S then n else 0 := by
  split
  case isTrue hk =>
    rw [Finset.sum_update_of_mem hk, ← Finset.sum_sdiff (Finset.singleton_subset_iff.mpr hk),
      Finset.sum_singleton]
    ac_rfl
  case isFalse hk => rw [Finset.sum_update_of_notMem hk]

/-- What is left in any accounts has been earned and not spent. -/
theorem spent_add_sum_le_earned {log : List (Entry K)} (h : Backed log) (S : Finset K) :
    (totals log).spent + ∑ k ∈ S, balance log k ≤ (totals log).earned := by
  induction log using reverseRecOn generalizing S with
  | nil => simp [totals, balance]
  | append_singleton log e ih =>
    obtain ⟨hlog, hbacked⟩ := backed_append_singleton.mp h
    rw [totals_append_singleton, balance_append_singleton]
    cases e with
    | earn k n =>
      have hsum := sum_update_add (balance log) k n S
      have hbound := ih hlog S
      simp only [settle, Totals.add]
      split at hsum <;> omega
    | spend k n =>
      -- the account that is drawn on is taken into the sum
      have hbound := ih hlog (insert k S)
      have hsum := sum_update_add (balance log) k (balance log k - n) (insert k S)
      have hsub : ∑ j ∈ S, Function.update (balance log) k (balance log k - n) j ≤
          ∑ j ∈ insert k S, Function.update (balance log) k (balance log k - n) j :=
        Finset.sum_le_sum_of_subset (Finset.subset_insert k S)
      have hle : n ≤ balance log k := hbacked
      rw [if_pos (Finset.mem_insert_self k S), if_pos (Finset.mem_insert_self k S)] at hsum
      simp only [settle, Totals.add]
      omega
    | clear => simp [settle, Totals.add]

theorem spent_le_earned {log : List (Entry K)} (h : Backed log) :
    (totals log).spent ≤ (totals log).earned := by
  simpa using spent_add_sum_le_earned h ∅

end ExpertPin.Credit
