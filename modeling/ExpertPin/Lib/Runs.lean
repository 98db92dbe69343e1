import Mathlib.Data.Nat.Notation

/-!
# Runs of labelled transition systems

A system is a relation `R s e t`: from state `s` it can step to `t`, and `e` is
what is observed of the step.  `Steps R s tr t` is a run with the observations
`tr`, oldest first.  An induction over runs is packaged twice: for invariants of
states (`Steps.invariant`) and for invariants that relate the observations so far
to the state reached (`Steps.history`).
-/

namespace ExpertPin.Runs

universe u v w

variable {σ : Type u} {ε : Type v} {R : σ → ε → σ → Prop}

/-- The runs of a system. -/
inductive Steps (R : σ → ε → σ → Prop) (s : σ) : List ε → σ → Prop
  | refl : Steps R s [] s
  | snoc {tr : List ε} {t : σ} {e : ε} {u : σ} (run : Steps R s tr t) (step : R t e u) :
      Steps R s (tr ++ [e]) u

namespace Steps

variable {s t u : σ} {tr tr' : List ε} {e : ε}

theorem single (h : R s e t) : Steps R s [e] t := .snoc .refl h

theorem trans (h : Steps R s tr t) (h' : Steps R t tr' u) : Steps R s (tr ++ tr') u := by
  induction h' with
  | refl => simpa using h
  | snoc _ step ih =>
    rw [← List.append_assoc]
    exact .snoc ih step

theorem cons (h : R s e t) (h' : Steps R t tr u) : Steps R s (e :: tr) u := (single h).trans h'

/-- What every step preserves holds at the end of a run. -/
theorem invariant {P : σ → Prop} (hstep : ∀ s e t, P s → R s e t → P t) (h : Steps R s tr t)
    (hs : P s) : P t := by
  induction h with
  | refl => exact hs
  | snoc _ step ih => exact hstep _ _ _ ih step

/-- The same for what relates the observations so far to the state reached. -/
theorem history {P : List ε → σ → Prop}
    (hstep : ∀ tr t e u, Steps R s tr t → P tr t → R t e u → P (tr ++ [e]) u)
    (h : Steps R s tr t) (hs : P [] s) : P tr t := by
  induction h with
  | refl => exact hs
  | snoc run step ih => exact hstep _ _ _ _ run ih step

end Steps

/-! ## Systems given by a partial function -/

variable {α : Type w} (step : σ → α → Option (ε × σ))

/-- The system whose steps are the defined ones of a function. -/
def ofFunction (s : σ) (e : ε) (t : σ) : Prop := ∃ a, step s a = some (e, t)

/-- Perform actions one after the other. -/
def perform (s : σ) : List α → Option (List ε × σ)
  | [] => some ([], s)
  | a :: as => (step s a).bind fun p => (perform p.2 as).map fun q => (p.1 :: q.1, q.2)

theorem steps_of_perform {s t : σ} {as : List α} {tr : List ε}
    (h : perform step s as = some (tr, t)) : Steps (ofFunction step) s tr t := by
  induction as generalizing s tr with
  | nil =>
    obtain ⟨rfl, rfl⟩ := Prod.mk.inj (Option.some.inj h)
    exact .refl
  | cons a as ih =>
    obtain ⟨⟨e, u⟩, hstep, hrest⟩ := Option.bind_eq_some_iff.mp h
    obtain ⟨⟨tr', t'⟩, hperform, heq⟩ := Option.map_eq_some_iff.mp hrest
    obtain ⟨rfl, rfl⟩ := Prod.mk.inj heq
    exact .cons ⟨a, hstep⟩ (ih hperform)

end ExpertPin.Runs
