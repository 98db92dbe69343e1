import Mathlib.Data.List.Basic
import Mathlib.Order.Lattice

/-!
# Merging neighbours

Some pairs of things have keys, and a list of things is merged down: of the neighbours that have a
key the leftmost of the least key are merged, until no neighbours have one.
-/

namespace ExpertPin.GreedyMerging

open List

universe u v

variable {α : Type u} {K : Type v} [LinearOrder K]

/-- The least key of a list, and where it is first. -/
def leftmostLeast : List (Option K) → Option (K × ℕ)
  | [] => none
  | none :: keys => (leftmostLeast keys).map fun (k, i) => (k, i + 1)
  | some k :: keys =>
    match leftmostLeast keys with
    | none => some (k, 0)
    | some (k', i) => if k' < k then some (k', i + 1) else some (k, 0)

variable (key : α → α → Option K) (merge : α → α → α)

/-- The keys of the neighbours. -/
def pairKeys : List α → List (Option K)
  | a :: b :: l => key a b :: pairKeys (b :: l)
  | _ => []

/-- The thing at a position is merged with the next one. -/
def mergeAt : ℕ → List α → List α
  | 0, a :: b :: l => merge a b :: l
  | i + 1, a :: l => a :: mergeAt i l
  | _, l => l

/-- Neighbours are merged as long as there are any with a key: each merge makes the list shorter,
so that its length is enough. -/
def greedyWithin : ℕ → List α → List α
  | 0, l => l
  | n + 1, l =>
    match leftmostLeast (pairKeys key l) with
    | none => l
    | some (_, i) => greedyWithin n (mergeAt merge i l)

def greedy (l : List α) : List α := greedyWithin key merge l.length l

variable {key merge} {k : K} {i : ℕ} {keys : List (Option K)} {l x y : List α} {a b : α}

/-! ## The least key -/

theorem leftmostLeast_eq_none (h : ∀ (i : ℕ) k, keys[i]? ≠ some (some k)) :
    leftmostLeast keys = none := by
  induction keys with
  | nil => rfl
  | cons o keys ih =>
    have htail : leftmostLeast keys = none := ih fun i k => h (i + 1) k
    cases o with
    | none => rw [leftmostLeast, htail]; rfl
    | some k => exact absurd rfl (h 0 k)

theorem getElem?_of_leftmostLeast (h : leftmostLeast keys = some (k, i)) :
    keys[i]? = some (some k) := by
  induction keys generalizing k i with
  | nil => cases h
  | cons o keys ih =>
    cases o with
    | none =>
      obtain ⟨⟨k', j⟩, htail, hp⟩ := Option.map_eq_some_iff.mp h
      cases hp
      exact ih htail
    | some k₀ =>
      rw [leftmostLeast] at h
      cases htail : leftmostLeast keys with
      | none =>
        rw [htail] at h
        cases h
        rfl
      | some p =>
        obtain ⟨k', j⟩ := p
        rw [htail] at h
        dsimp only at h
        split_ifs at h with hlt
        · cases h
          exact ih htail
        · cases h
          rfl

/-- A key that is less than all others, or first among the least. -/
theorem leftmostLeast_eq_some (hi : keys[i]? = some (some k))
    (hleast : ∀ (j : ℕ) k', keys[j]? = some (some k') → k < k' ∨ k = k' ∧ i ≤ j) :
    leftmostLeast keys = some (k, i) := by
  induction keys generalizing i with
  | nil => cases hi
  | cons o keys ih =>
    cases i with
    | zero =>
      obtain rfl : o = some k := Option.some.inj hi
      rw [leftmostLeast]
      cases htail : leftmostLeast keys with
      | none => rfl
      | some p =>
        obtain ⟨k', j⟩ := p
        have hj : keys[j]? = some (some k') := getElem?_of_leftmostLeast htail
        refine if_neg ?_
        rcases hleast (j + 1) k' hj with hlt | ⟨rfl, -⟩
        · exact lt_asymm hlt
        · exact lt_irrefl k
    | succ i =>
      have htail := ih hi fun j k' hj => by
        rcases hleast (j + 1) k' hj with hlt | ⟨heq, hle⟩
        · exact .inl hlt
        · exact .inr ⟨heq, Nat.succ_le_succ_iff.mp hle⟩
      cases o with
      | none => rw [leftmostLeast, htail]; rfl
      | some k' =>
        rw [leftmostLeast, htail]
        refine if_pos ?_
        rcases hleast 0 k' rfl with hlt | ⟨-, hle⟩
        · exact hlt
        · exact absurd hle (Nat.not_succ_le_zero i)

/-! ## Neighbours as splits of the list -/

theorem getElem?_pairKeys_iff : (pairKeys key l)[i]? = some (some k) ↔
      ∃ x a b y, l = x ++ a :: b :: y ∧ x.length = i ∧ key a b = some k := by
  induction l generalizing i with
  | nil => simp [pairKeys]
  | cons c l ih =>
    cases l with
    | nil =>
      constructor
      · intro h
        cases h
      · rintro ⟨x, a, b, y, hl, -⟩
        have hlen := congrArg length hl
        simp only [length_cons, length_nil, length_append] at hlen
        omega
    | cons d l =>
      cases i with
      | zero =>
        constructor
        · intro h
          exact ⟨[], c, d, l, rfl, rfl, Option.some.inj h⟩
        · rintro ⟨x, a, b, y, hl, hx, hk⟩
          obtain rfl := length_eq_zero_iff.mp hx
          cases hl
          exact congrArg some hk
      | succ i =>
        refine Iff.trans ih ?_
        constructor
        · rintro ⟨x, a, b, y, hl, rfl, hk⟩
          exact ⟨c :: x, a, b, y, congrArg (c :: ·) hl, rfl, hk⟩
        · rintro ⟨x, a, b, y, hl, hx, hk⟩
          cases x with
          | nil => cases hx
          | cons c' x =>
            obtain ⟨-, hl⟩ := cons.inj hl
            exact ⟨x, a, b, y, hl, Nat.succ.inj hx, hk⟩

/-- Two neighbours in a list with an element: before it, with it, or after it. -/
theorem pair_infix_append_cons {c u v : α} : [u, v] <:+: x ++ c :: y ↔
      [u, v] <:+: x ∨ x.getLast? = some u ∧ v = c ∨ u = c ∧ y.head? = some v ∨ [u, v] <:+: y := by
  have hprefix : ∀ d (l : List α), [u, v] <+: d :: l ↔ u = d ∧ l.head? = some v := by
    intro d l
    rw [cons_prefix_cons]
    cases l with
    | nil => simp
    | cons e l => simp [eq_comm]
  induction x with
  | nil => simp [infix_cons_iff, hprefix]
  | cons d x ih =>
    rw [cons_append, infix_cons_iff, infix_cons_iff, hprefix, hprefix,
      getLast?_cons]
    refine (or_congr_right ih).trans ?_
    cases x with
    | nil =>
      have hcomm : u = d ∧ c = v ↔ d = u ∧ v = c := and_congr eq_comm eq_comm
      simp [hcomm]
    | cons e x =>
      rw [getLast?_cons]
      simp [or_assoc]

theorem mergeAt_append : mergeAt merge x.length (x ++ a :: b :: y) = x ++ merge a b :: y := by
  induction x with
  | nil => rfl
  | cons c x ih => exact congrArg (c :: ·) ih

/-! ## Rules -/

theorem greedy_of_none (h : ∀ x a b y, l = x ++ a :: b :: y → key a b = none) :
    greedy key merge l = l := by
  have hnone : leftmostLeast (pairKeys key l) = none := by
    refine leftmostLeast_eq_none fun i k hi => ?_
    obtain ⟨x, a, b, y, hl, -, hk⟩ := getElem?_pairKeys_iff.mp hi
    rw [h x a b y hl] at hk
    cases hk
  rw [greedy]
  cases l.length with
  | zero => rfl
  | succ n => rw [greedyWithin, hnone]

/-- Of the neighbours with a key those are merged that have a lesser key than all others, or are
the leftmost with the least. -/
theorem greedy_of_least (hk : key a b = some k)
    (hleast : ∀ x' a' b' y' k', x ++ a :: b :: y = x' ++ a' :: b' :: y' → key a' b' = some k' →
      k < k' ∨ k = k' ∧ x.length ≤ x'.length) :
    greedy key merge (x ++ a :: b :: y) = greedy key merge (x ++ merge a b :: y) := by
  have hsome : leftmostLeast (pairKeys key (x ++ a :: b :: y)) = some (k, x.length) := by
    refine leftmostLeast_eq_some (getElem?_pairKeys_iff.mpr ⟨x, a, b, y, rfl, rfl, hk⟩) ?_
    intro j k' hj
    obtain ⟨x', a', b', y', hl, rfl, hk'⟩ := getElem?_pairKeys_iff.mp hj
    exact hleast x' a' b' y' k' hl hk'
  have hlen : (x ++ a :: b :: y).length = (x ++ merge a b :: y).length + 1 := by
    simp only [length_append, length_cons]
    omega
  rw [greedy, hlen, greedyWithin, hsome]
  dsimp only
  rw [mergeAt_append, greedy]

end ExpertPin.GreedyMerging
