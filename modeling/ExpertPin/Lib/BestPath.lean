import Mathlib.Algebra.Order.Monoid.Defs

/-!
# Best paths by a table

Positions are numbers, and an edge leads from a position to a later one with a label and a weight.
A table keeps for each position the edge by which a path of the best score known so far comes to
it.  When every edge has been tried, going back through the table gives a path of the best score
(`Solved.best`).
-/

namespace ExpertPin.BestPath

universe u v

variable {L : Type u} {S : Type v}

/-- The last edge of a path, and the score of the path. -/
structure Entry (L : Type u) (S : Type v) where
  label : L
  source : ℕ
  score : S

section relax

variable [LinearOrder S] {T : ℕ → Entry L S} {p q : ℕ} {e : Entry L S}

/-- A path to a position takes the place of the one that is known if it is better. -/
def relax (T : ℕ → Entry L S) (q : ℕ) (e : Entry L S) : ℕ → Entry L S :=
  if (T q).score < e.score then Function.update T q e else T

theorem relax_of_ne (h : p ≠ q) : relax T q e p = T p := by
  rw [relax]
  split
  · exact Function.update_of_ne h e T
  · rfl

theorem relax_cases : relax T q e p = T p ∨ p = q ∧ relax T q e p = e := by
  by_cases hpq : p = q
  case neg => exact .inl (relax_of_ne hpq)
  case pos =>
    subst hpq
    rw [relax]
    split
    · exact .inr ⟨rfl, Function.update_self p e T⟩
    · exact .inl rfl

theorem score_le_relax : (T p).score ≤ (relax T q e p).score := by
  by_cases hpq : p = q
  case neg => rw [relax_of_ne hpq]
  case pos =>
    subst hpq
    rw [relax]
    split
    case isTrue h =>
      rw [Function.update_self]
      exact h.le
    case isFalse => exact le_rfl

theorem le_relax_score : e.score ≤ (relax T q e q).score := by
  rw [relax]
  split
  case isTrue => rw [Function.update_self]
  case isFalse h => exact not_lt.mp h

end relax

/-- The edges back to the first position, from the last one on. -/
def backtrack (T : ℕ → Entry L S) : ℕ → ℕ → Option (List (L × ℕ))
  | 0, _ => none
  | fuel + 1, q =>
    if (T q).source = 0 then some [((T q).label, (T q).source)]
    else (backtrack T fuel (T q).source).map (((T q).label, (T q).source) :: ·)

/-- The label, the source and the weight of an edge to a position. -/
abbrev Edges (L : Type u) (S : Type v) : Type (max u v) := ℕ → L → ℕ → S → Prop

/-- A path to a position, with its score. -/
inductive Path [AddMonoid S] (E : Edges L S) : ℕ → List (L × ℕ) → S → Prop
  | nil : Path E 0 [] 0
  | snoc {p q : ℕ} {steps : List (L × ℕ)} {s w : S} {l : L} (h : Path E p steps s)
      (he : E p l q w) : Path E q (steps ++ [(l, p)]) (s + w)

/-- Every edge has been tried, and those of the table are edges. -/
structure Solved [Add S] [Zero S] [LE S] (E : Edges L S) (Reached : ℕ → Prop)
    (T : ℕ → Entry L S) : Prop where
  start : (T 0).score = 0
  taken {q : ℕ} (hq : Reached q) (hne : q ≠ 0) : (T q).source < q ∧ Reached (T q).source ∧
    ∃ w, E (T q).source (T q).label q w ∧ (T q).score = (T (T q).source).score + w
  tried {p q : ℕ} {l : L} {w : S} (hp : Reached p) (he : E p l q w) :
    Reached q ∧ (T p).score + w ≤ (T q).score
  reached_zero : Reached 0

namespace Solved

variable [AddCommMonoid S] [LinearOrder S] [IsOrderedAddMonoid S] {E : Edges L S}
  {Reached : ℕ → Prop} {T : ℕ → Entry L S} {q : ℕ}

theorem score_le (h : Solved E Reached T) {steps : List (L × ℕ)} {s : S}
    (hpath : Path E q steps s) : Reached q ∧ s ≤ (T q).score := by
  induction hpath with
  | nil => exact ⟨h.reached_zero, h.start.ge⟩
  | snoc _ he ih =>
    obtain ⟨hp, hle⟩ := ih
    obtain ⟨hq, htried⟩ := h.tried hp he
    exact ⟨hq, le_trans (add_le_add_left hle _) htried⟩

omit [IsOrderedAddMonoid S] in
theorem exists_path (h : Solved E Reached T) (hq : Reached q) (hne : q ≠ 0) {fuel : ℕ}
    (hfuel : q ≤ fuel) :
    ∃ steps, backtrack T fuel q = some steps ∧ Path E q steps.reverse (T q).score := by
  induction fuel generalizing q with
  | zero => exact absurd (Nat.le_zero.mp hfuel) hne
  | succ fuel ih =>
    obtain ⟨hlt, hsource, w, he, hscore⟩ := h.taken hq hne
    rw [backtrack]
    split
    case isTrue hzero =>
      have hpath := Path.snoc (.nil (E := E)) (hzero ▸ he)
      rw [hzero, h.start] at hscore
      exact ⟨_, rfl, by rwa [hscore, List.reverse_singleton, hzero]⟩
    case isFalse hnonzero =>
      obtain ⟨steps, hsteps, hpath⟩ := ih hsource hnonzero (by omega)
      refine ⟨_, by rw [hsteps]; rfl, ?_⟩
      rw [List.reverse_cons, hscore]
      exact hpath.snoc he

/-- **The path of the table is a best one.** -/
theorem best (h : Solved E Reached T) (hq : Reached q) (hne : q ≠ 0) :
    ∃ steps, backtrack T q q = some steps ∧ Path E q steps.reverse (T q).score ∧
      ∀ other s, Path E q other s → s ≤ (T q).score := by
  obtain ⟨steps, hsteps, hpath⟩ := h.exists_path hq hne le_rfl
  exact ⟨steps, hsteps, hpath, fun other s hother => (h.score_le hother).2⟩

end Solved

end ExpertPin.BestPath
