import Mathlib.Data.Nat.Notation

/-!
# Lanes

A lane is a part of a state that some of the inputs work on.  It does not change with the others,
and what an input makes of it depends on nothing else of the state.  After any list of inputs a
lane is then what its own inputs make of it (`Lane.foldl`).
-/

namespace ExpertPin

universe u v w

variable {σ : Type u} {τ : Type v} {ι : Type w}

/-- The part of a state that `view` shows belongs to the inputs in `mine`. -/
structure Lane (step : σ → ι → σ) (mine : ι → Bool) (view : σ → τ) : Prop where
  /-- Other inputs leave it as it is. -/
  frame : ∀ s i, mine i = false → view (step s i) = view s
  /-- Its inputs see nothing else. -/
  local_eq : ∀ s s' i, mine i = true → view s = view s' → view (step s i) = view (step s' i)

namespace Lane

variable {step : σ → ι → σ} {mine : ι → Bool} {view : σ → τ}

theorem foldl_filter (h : Lane step mine view) {s s' : σ} (hview : view s = view s')
    (is : List ι) : view (is.foldl step s) = view ((is.filter mine).foldl step s') := by
  induction is generalizing s s' with
  | nil => exact hview
  | cons i is ih =>
    rw [List.foldl_cons]
    cases hmine : mine i with
    | false =>
      rw [List.filter_cons_of_neg (hmine ▸ Bool.false_ne_true)]
      exact ih ((h.frame s i hmine).trans hview)
    | true =>
      rw [List.filter_cons_of_pos hmine, List.foldl_cons]
      exact ih (h.local_eq s s' i hmine hview)

/-- The inputs of other lanes might as well not have been. -/
theorem foldl (h : Lane step mine view) (s : σ) (is : List ι) :
    view (is.foldl step s) = view ((is.filter mine).foldl step s) :=
  h.foldl_filter rfl is

end Lane

end ExpertPin
