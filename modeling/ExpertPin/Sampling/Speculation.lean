import Mathlib.MeasureTheory.Measure.Lebesgue.Basic
import ExpertPin.Draft.SuffixTree
import ExpertPin.Lib.FiniteLaws

/-!
# Speculative sampling

A drafted token is kept with the probability with which the target prefers it to the draft, and
where it is not kept a token is drawn from what the draft has left of the target.  A token that is
sampled so has the law of the target, whatever the draft.  Draws are independent and ideal here:
probabilities are rational numbers, and the sampler's state is what its laws depend on, the tokens
before.
-/

namespace ExpertPin.Speculation

open FiniteLaws
open Draft (Token)
open List

/-! ## The sampler -/

/-- What `common_sampler_get_candidates` returns: the candidates that the samplers have left, each
with its probability. -/
structure Candidates where
  law : Law Token
  nodup : (law.weights.map Prod.fst).Nodup

namespace Candidates

/-- The probability of the first candidate that is a token. -/
def p (c : Candidates) (id : Token) : ℚ :=
  match c.law.weights.find? (·.1 = id) with
  | some candidate => candidate.2
  | none => 0

/-- What a draft leaves of the candidates. -/
def residual (c : Candidates) (q : Law Token) : List (Token × ℚ) :=
  c.law.weights.map fun candidate => (candidate.1, max 0 (candidate.2 - q.weight candidate.1))

def residualSum (c : Candidates) (q : Law Token) : ℚ := ((c.residual q).map Prod.snd).sum

theorem residual_nonneg (c : Candidates) (q : Law Token) : ∀ w ∈ c.residual q, 0 ≤ w.2 := by
  intro w hw
  obtain ⟨candidate, -, rfl⟩ := mem_map.mp hw
  exact le_max_left _ _

theorem p_nonneg (c : Candidates) (id : Token) : 0 ≤ c.p id := by
  unfold p
  split
  case h_1 candidate hfind => exact c.law.nonneg candidate (mem_of_find?_eq_some hfind)
  case h_2 => exact le_refl 0

end Candidates

/-- How likely it is that `q > 0` and `u * q ≤ p` for a draw `u` from the unit interval. -/
def acceptance (c : Candidates) (q : Law Token) (id : Token) : ℚ :=
  if 0 < q.weight id then min 1 (c.p id / q.weight id) else 0

theorem acceptance_mem_unit (c : Candidates) (q : Law Token) (id : Token) :
    0 ≤ acceptance c q id ∧ acceptance c q id ≤ 1 := by
  unfold acceptance
  split
  case isTrue h => exact ⟨le_min zero_le_one (div_nonneg (c.p_nonneg id) h.le), min_le_left _ _⟩
  case isFalse h => exact ⟨le_refl 0, zero_le_one⟩

def accept (c : Candidates) (q : Law Token) (id : Token) : Law Bool :=
  .coin (acceptance c q id) (acceptance_mem_unit c q id)

/-- The token in the place of a drafted one: from what the draft leaves, if it leaves anything. -/
def replacement (c : Candidates) (q : Law Token) (fallback : Token) : Law Token :=
  if h : 0 < c.residualSum q then .normalized (c.residual q) (c.residual_nonneg q) h
  else pure fallback

/-- `common_sampler_sample_and_accept_n` with `dists`: the tokens that it emits after those of
`prev`, for a draft with the distribution of each of its tokens. -/
def sampleAndAcceptN (p : List Token → Candidates) :
    List Token → List (Token × Law Token) → Law (List Token)
  | prev, [] => do
      let id ← (p prev).law
      pure [id]
  | prev, (id, q) :: draft => do
      let fallback ← (p prev).law
      let accepted ← accept (p prev) q id
      if accepted then
        let rest ← sampleAndAcceptN p (prev ++ [id]) draft
        pure (id :: rest)
      else
        let id ← replacement (p prev) q fallback
        pure [id]

/-- Tokens that are sampled and accepted one at a time. -/
def sampled (p : List Token → Law Token) : ℕ → List Token → Law (List Token)
  | 0, _ => pure []
  | n + 1, prev => do
      let id ← p prev
      let rest ← sampled p n (prev ++ [id])
      pure (id :: rest)

/-- A draft: each token is drawn given the ones before, and keeps its distribution. -/
def drafted (q : List Token → Law Token) : ℕ → List Token → Law (List (Token × Law Token))
  | 0, _ => pure []
  | n + 1, prev => do
      let id ← q prev
      let rest ← drafted q n (prev ++ [id])
      pure ((id, q prev) :: rest)

/-- What is emitted for a draft of `n` tokens, and `m` tokens that are sampled after it. -/
def speculative (p : List Token → Candidates) (q : List Token → Law Token) (n m : ℕ)
    (prev : List Token) : Law (List Token) := do
  let draft ← drafted q n prev
  let result ← sampleAndAcceptN p prev draft
  let rest ← sampled (fun prev => (p prev).law) m (prev ++ result)
  pure (result ++ rest)

/-! ## One token -/

variable (c : Candidates) (q : Law Token)

namespace Candidates

theorem weight_of_mem {v : Token × ℚ} (hv : v ∈ c.law.weights) : c.law.weight v.1 = v.2 := by
  obtain ⟨before, after, hsplit⟩ := append_of_mem hv
  have hnodup := c.nodup
  rw [hsplit, map_append, map_cons, nodup_middle, nodup_cons] at hnodup
  have hnone : (before ++ after).filter (fun w => w.1 = v.1) = [] := by
    rw [filter_eq_nil_iff]
    intro w hw hid
    rw [← map_append] at hnodup
    exact hnodup.1 (of_decide_eq_true hid ▸ mem_map_of_mem hw)
  rw [filter_append, append_eq_nil_iff] at hnone
  rw [Law.weight, hsplit, filter_append, filter_cons, hnone.1, hnone.2]
  simp only [decide_true, if_true, nil_append, map_cons, map_nil, sum_cons,
    sum_nil, add_zero]

theorem weight_of_not_mem {id : Token} (hid : id ∉ c.law.weights.map Prod.fst) :
    c.law.weight id = 0 := by
  have hnone : c.law.weights.filter (fun w => w.1 = id) = [] := by
    rw [filter_eq_nil_iff]
    intro w hw heq
    exact hid (of_decide_eq_true heq ▸ mem_map_of_mem hw)
  rw [Law.weight, hnone, map_nil, sum_nil]

/-- A sum over the candidates that only one token contributes to. -/
theorem sum_single (id : Token) (f : Token → ℚ) (hf : id ∉ c.law.weights.map Prod.fst → f id = 0) :
    (c.law.weights.map fun v => if v.1 = id then f v.1 else 0).sum = f id := by
  have hids : (c.law.weights.map fun v => if v.1 = id then f v.1 else 0) =
      (c.law.weights.map Prod.fst).map fun i => if i = id then f i else 0 := by
    rw [map_map]
    rfl
  rw [hids, sum_map_eq_nsmul_single id _ fun i hi _ => if_neg hi, c.nodup.count, if_pos rfl]
  by_cases hid : id ∈ c.law.weights.map Prod.fst
  · rw [if_pos hid, one_nsmul]
  · rw [if_neg hid, zero_nsmul, hf hid]

theorem p_eq_weight (id : Token) : c.p id = c.law.weight id := by
  unfold p
  split
  case h_1 candidate hfind =>
    have hid : candidate.1 = id := of_decide_eq_true (find?_some hfind :)
    rw [← hid, c.weight_of_mem (mem_of_find?_eq_some hfind)]
  case h_2 hfind =>
    refine (c.weight_of_not_mem fun hid => ?_).symm
    obtain ⟨w, hw, rfl⟩ := mem_map.mp hid
    exact find?_eq_none.mp hfind w hw (decide_eq_true rfl)

end Candidates

/-- A token that is drawn and kept. -/
theorem weight_mul_acceptance (id : Token) :
    q.weight id * acceptance c q id = min (c.law.weight id) (q.weight id) := by
  rw [acceptance, c.p_eq_weight]
  split
  case isTrue h => rw [mul_min_of_nonneg _ _ h.le, mul_one, mul_div_cancel₀ _ h.ne', min_comm]
  case isFalse h =>
    have hzero : q.weight id = 0 := le_antisymm (not_lt.mp h) (q.weight_nonneg id)
    rw [hzero, mul_zero, min_eq_right (c.law.weight_nonneg id)]

/-- The probability that some token is drawn and kept is what the residual leaves. -/
theorem expect_acceptance : q.expect (acceptance c q) = 1 - c.residualSum q := by
  have hpoint : ∀ t, acceptance c q t =
      (c.law.weights.map fun v => if t = v.1 then acceptance c q t else 0).sum := by
    intro t
    have hsingle := c.sum_single t (fun _ => acceptance c q t) fun ht => by
      rw [acceptance, c.p_eq_weight, c.weight_of_not_mem ht, zero_div, min_eq_right zero_le_one,
        ite_self]
    simp only [@eq_comm _ t, hsingle]
  have hmin : q.expect (acceptance c q) =
      (c.law.weights.map fun v => min v.2 (q.weight v.1)).sum := by
    calc q.expect (acceptance c q)
      _ = q.expect fun t =>
          (c.law.weights.map fun v => if t = v.1 then acceptance c q t else 0).sum := by
        exact congrArg q.expect (funext hpoint)
      _ = (c.law.weights.map fun v => q.weight v.1 * acceptance c q v.1).sum := by
        simp only [Law.expect_sum, Law.expect_single]
      _ = (c.law.weights.map fun v => min v.2 (q.weight v.1)).sum := by
        congr 1
        refine map_congr_left fun v hv => ?_
        rw [weight_mul_acceptance, c.weight_of_mem hv]
  have htotal : (c.law.weights.map Prod.snd).sum =
      (c.law.weights.map fun v => min v.2 (q.weight v.1)).sum + c.residualSum q := by
    rw [Candidates.residualSum, Candidates.residual, map_map, ← sum_map_add]
    congr 1
    refine map_congr_left fun v _ => ?_
    simp only [Function.comp_def]
    rcases le_total v.2 (q.weight v.1) with h | h
    · rw [min_eq_left h, max_eq_left (sub_nonpos.mpr h), add_zero]
    · rw [min_eq_right h, max_eq_right (sub_nonneg.mpr h), add_sub_cancel]
  rw [hmin, ← c.law.total, htotal, add_sub_cancel_right]

theorem residual_single (id : Token) :
    ((c.residual q).map fun w => w.2 * if w.1 = id then 1 else 0).sum =
      max 0 (c.law.weight id - q.weight id) := by
  rw [Candidates.residual, map_map,
    ← c.sum_single id (fun id => max 0 (c.law.weight id - q.weight id))]
  · congr 1
    refine map_congr_left fun v hv => ?_
    simp only [Function.comp_def, mul_ite, mul_one, mul_zero, c.weight_of_mem hv]
  · intro hid
    rw [c.weight_of_not_mem hid, zero_sub]
    exact max_eq_left (neg_nonpos.mpr (q.weight_nonneg id))

theorem residual_eq_zero (hzero : ¬0 < c.residualSum q) (id : Token) :
    max 0 (c.law.weight id - q.weight id) = 0 := by
  have hnonneg : ∀ r ∈ (c.residual q).map Prod.snd, 0 ≤ r := by
    intro r hr
    obtain ⟨w, hw, rfl⟩ := mem_map.mp hr
    exact c.residual_nonneg q w hw
  have hsum : c.residualSum q = 0 := le_antisymm (not_lt.mp hzero) (sum_nonneg hnonneg)
  rw [← residual_single]
  refine sum_eq_zero fun r hr => ?_
  obtain ⟨w, hw, rfl⟩ := mem_map.mp hr
  rw [all_zero_of_le_zero_le_of_sum_eq_zero hnonneg hsum (mem_map_of_mem hw), zero_mul]

theorem prob_replacement (id : Token) : (1 - q.expect (acceptance c q)) *
        (c.law.expect fun fallback => (replacement c q fallback).prob (· = id)) =
      max 0 (c.law.weight id - q.weight id) := by
  rw [expect_acceptance, sub_sub_cancel]
  by_cases h : 0 < c.residualSum q
  · have hdraw : (Law.normalized (c.residual q) (c.residual_nonneg q) h).prob (· = id) =
        max 0 (c.law.weight id - q.weight id) / c.residualSum q := by
      rw [← residual_single]
      exact Law.expect_normalized (c.residual_nonneg q) h _
    simp only [replacement, dif_pos h, hdraw, Law.expect_const]
    exact mul_div_cancel₀ _ h.ne'
  · -- nothing is left, so that a draft is never refused
    have hsum : c.residualSum q = 0 := by
      refine le_antisymm (not_lt.mp h) (sum_nonneg fun r hr => ?_)
      obtain ⟨w, hw, rfl⟩ := mem_map.mp hr
      exact c.residual_nonneg q w hw
    rw [hsum, zero_mul, residual_eq_zero c q h]

/-- A token that is drafted and verified has the law of the target. -/
theorem weight_verified (id : Token) :
    (q.expect fun drafted => if drafted = id then acceptance c q drafted else 0) +
      (1 - q.expect (acceptance c q)) *
        (c.law.expect fun fallback => (replacement c q fallback).prob (· = id)) =
    c.law.weight id := by
  rw [prob_replacement, q.expect_single, weight_mul_acceptance]
  rcases le_total (c.law.weight id) (q.weight id) with h | h
  · rw [min_eq_left h, max_eq_left (sub_nonpos.mpr h), add_zero]
  · rw [min_eq_right h, max_eq_right (sub_nonneg.mpr h), add_sub_cancel]

/-! ## Texts -/

variable (p : List Token → Candidates)

/-- The probability that tokens are sampled one after the other. -/
def chain (p : List Token → Candidates) : List Token → List Token → ℚ
  | _, [] => 1
  | prev, id :: x => (p prev).law.weight id * chain p (prev ++ [id]) x

/-- What a token says about the texts that it begins. -/
theorem indicator_cons (id a : Token) (x rest : List Token) :
    (if a :: x <+: id :: rest then (1 : ℚ) else 0) =
      if id = a then (if x <+: rest then 1 else 0) else 0 := by
  by_cases h : id = a
  · rw [if_pos h, h]
    exact if_congr (prefix_cons_inj a) rfl rfl
  · rw [if_neg h, if_neg]
    intro hle
    exact h (cons_prefix_cons.mp hle).1.symm

theorem prob_sampled (prev x : List Token) (m : ℕ) :
    (sampled (fun prev => (p prev).law) (x.length + m) prev).prob (x <+: ·) = chain p prev x := by
  induction x generalizing prev with
  | nil => simp only [Law.prob, nil_prefix, if_true, Law.expect_const, chain]
  | cons a x ih =>
    rw [length_cons, Nat.add_right_comm, sampled]
    simp only [Law.prob, Law.expect_bind, Law.expect_pure, indicator_cons, Law.expect_ite]
    rw [Law.expect_single, chain, ← ih (prev ++ [a])]
    rfl

theorem prob_sampled_eq (prev x : List Token) :
    (sampled (fun prev => (p prev).law) x.length prev).prob (· = x) = chain p prev x := by
  induction x generalizing prev with
  | nil => simp only [length_nil, sampled, Law.prob, Law.expect_pure, if_true, chain]
  | cons a x ih =>
    have hcons : ∀ (id : Token) (rest : List Token), (if id :: rest = a :: x then (1 : ℚ) else 0) =
          if id = a then (if rest = x then 1 else 0) else 0 := by
      intro id rest
      rw [← ite_and]
      exact if_congr cons_eq_cons rfl rfl
    rw [length_cons, sampled]
    simp only [Law.prob, Law.expect_bind, Law.expect_pure, hcons, Law.expect_ite]
    rw [Law.expect_single, chain, ← ih (prev ++ [a])]
    rfl

/-- Whether a text begins with tokens once those of a result are followed by more. -/
def extended (prev x result : List Token) (m : ℕ) : ℚ :=
  (sampled (fun prev => (p prev).law) m (prev ++ result)).prob fun rest => x <+: result ++ rest

theorem extended_nil (prev result : List Token) (m : ℕ) : extended p prev [] result m = 1 := by
  simp only [extended, Law.prob, nil_prefix, if_true, Law.expect_const]

theorem extended_cons (prev x result : List Token) (id a : Token) (m : ℕ) :
    extended p prev (a :: x) (id :: result) m =
      if id = a then extended p (prev ++ [id]) x result m else 0 := by
  simp only [extended, Law.prob, cons_append, indicator_cons, Law.expect_ite,
    append_assoc, nil_append]

theorem extended_end (prev x : List Token) (m : ℕ) :
    extended p prev x [] (x.length + m) = chain p prev x := by
  rw [← prob_sampled p prev x m, extended, append_nil]
  rfl

theorem guarded_chain (prev x : List Token) (id a : Token) :
    (if id = a then chain p (prev ++ [id]) x else 0) =
      if id = a then chain p (prev ++ [a]) x else 0 := by
  by_cases h : id = a
  · rw [h]
  · rw [if_neg h, if_neg h]

theorem speculative_prob (n m : ℕ) (prev x : List Token) (q : List Token → Law Token) :
    (speculative p q n m prev).prob (x <+: ·) = (drafted q n prev).expect fun draft =>
        (sampleAndAcceptN p prev draft).expect fun result => extended p prev x result m := by
  simp only [speculative, Law.prob, Law.expect_bind, Law.expect_pure, extended]

/-- The first of the drafted tokens is kept, or it is replaced and ends the result. -/
theorem expect_sampleAndAcceptN_cons (prev : List Token) (id : Token) (q : Law Token)
    (draft : List (Token × Law Token)) (f : List Token → ℚ) :
    (sampleAndAcceptN p prev ((id, q) :: draft)).expect f = acceptance (p prev) q id *
          (sampleAndAcceptN p (prev ++ [id]) draft).expect (fun rest => f (id :: rest)) +
        (1 - acceptance (p prev) q id) * (p prev).law.expect fun fallback =>
            (replacement (p prev) q fallback).expect fun id => f [id] := by
  simp only [sampleAndAcceptN, Law.expect_bind, accept, Law.expect_coin, if_true,
    Bool.false_eq_true, if_false, Law.expect_pure, Law.expect_add, Law.expect_const,
    Law.expect_mul_left]

/-- One drafted token and the chain of what comes after it. -/
theorem expect_verified (prev : List Token) (q : Law Token) (a : Token) (r : ℚ) :
    (q.expect fun id => acceptance (p prev) q id * (if id = a then r else 0) +
        (1 - acceptance (p prev) q id) * (p prev).law.expect fun fallback =>
          (replacement (p prev) q fallback).expect fun id => if id = a then r else 0) =
      (p prev).law.weight a * r := by
  have hkept : ∀ id, acceptance (p prev) q id * (if id = a then r else 0) =
      (if id = a then acceptance (p prev) q id else 0) * r := by
    intro id
    rw [mul_ite, mul_zero, ite_mul, zero_mul]
  have hreplaced : ∀ fallback,
      ((replacement (p prev) q fallback).expect fun id => if id = a then r else 0) =
        (replacement (p prev) q fallback).prob (· = a) * r := by
    intro fallback
    rw [Law.prob, ← Law.expect_mul_right]
    simp only [ite_mul, one_mul, zero_mul]
  simp only [hkept, hreplaced, Law.expect_add, Law.expect_mul_right, Law.expect_sub_left]
  rw [← mul_assoc, ← add_mul, weight_verified]

theorem expect_extended (q : List Token → Law Token) (n m : ℕ) (prev x : List Token) :
    ((drafted q n prev).expect fun draft =>
      (sampleAndAcceptN p prev draft).expect fun result =>
        extended p prev x result (x.length + m)) = chain p prev x := by
  induction n generalizing prev x m with
  | zero =>
    cases x with
    | nil => simp only [extended_nil, Law.expect_const, chain]
    | cons a x =>
      rw [length_cons, Nat.add_right_comm]
      simp only [drafted, sampleAndAcceptN, Law.expect_bind, Law.expect_pure, Nat.add_assoc,
        extended_cons, extended_end, guarded_chain]
      rw [Law.expect_single, chain]
  | succ n ih =>
    cases x with
    | nil => simp only [extended_nil, Law.expect_const, chain]
    | cons a x =>
      rw [length_cons, Nat.add_right_comm]
      simp only [drafted, Law.expect_bind, Law.expect_pure, expect_sampleAndAcceptN_cons,
        Nat.add_assoc, extended_cons, extended_end, guarded_chain, Law.expect_ite,
        Law.expect_add, Law.expect_mul_left, Law.expect_const, ih]
      rw [← Law.expect_add, expect_verified, chain]

/-- The tokens that are emitted for a draft, with those that are sampled after them, have the law
of tokens that are sampled one at a time. -/
theorem prob_speculative (p : List Token → Candidates) (q : List Token → Law Token) (n m : ℕ)
    (prev x : List Token) :
    (speculative p q n (x.length + m) prev).prob (x <+: ·) =
      (sampled (fun prev => (p prev).law) x.length prev).prob (· = x) := by
  rw [prob_sampled_eq, speculative_prob, expect_extended]

end ExpertPin.Speculation
