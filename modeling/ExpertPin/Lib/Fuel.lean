import Mathlib.Data.List.Forall2

/-!
# Fuel

A function that runs on fuel and gives `none` when it has too little.  More fuel keeps its
results (`FuelMono`), and so do the folds of such functions.  A fold or a map of steps that may
give `none` returns if all of them do.
-/

namespace ExpertPin

open List
open Option

universe u v

variable {α : Type u} {β : Type v}

/-- More fuel keeps the results of each step. -/
def FuelMono (f : ℕ → α → β → Option α) : Prop :=
  ∀ n m a b a', n ≤ m → f n a b = some a' → f m a b = some a'

variable {f : ℕ → α → β → Option α} {a a' : α} {bs : List β}

theorem FuelMono.foldlM (h : FuelMono f) {n m : ℕ} (hle : n ≤ m)
    (hrun : bs.foldlM (f n) a = some a') : bs.foldlM (f m) a = some a' := by
  induction bs generalizing a with
  | nil => exact hrun
  | cons b bs ih =>
    rw [foldlM_cons] at hrun ⊢
    obtain ⟨a₁, hstep, hrest⟩ := bind_eq_some_iff.mp hrun
    exact bind_eq_some_iff.mpr ⟨a₁, h n m a b a₁ hle hstep, ih hrest⟩

/-- A fold whose steps all return with enough fuel returns with enough fuel. -/
theorem FuelMono.exists_foldlM (h : FuelMono f) {P : α → Prop} (ha : P a)
    (hstep : ∀ a b, b ∈ bs → P a → ∃ n a', f n a b = some a' ∧ P a') :
    ∃ n a', bs.foldlM (f n) a = some a' ∧ P a' := by
  induction bs generalizing a with
  | nil => exact ⟨0, a, rfl, ha⟩
  | cons b bs ih =>
    obtain ⟨n, a₁, hone, ha₁⟩ := hstep a b mem_cons_self ha
    obtain ⟨m, a₂, hrest, ha₂⟩ := ih ha₁ fun a c hc => hstep a c (mem_cons_of_mem b hc)
    refine ⟨max n m, a₂, ?_, ha₂⟩
    rw [foldlM_cons]
    exact bind_eq_some_iff.mpr ⟨a₁, h n _ a b a₁ (Nat.le_max_left n m) hone,
      h.foldlM (Nat.le_max_right n m) hrest⟩

/-- What the step at each element preserves holds of what the fold returns. -/
theorem foldlM_invariant_of_mem {f : α → β → Option α} {P : α → Prop}
    (hstep : ∀ b ∈ bs, ∀ a a', P a → f a b = some a' → P a') (h : bs.foldlM f a = some a')
    (ha : P a) : P a' := by
  induction bs generalizing a with
  | nil =>
    cases h
    exact ha
  | cons b bs ih =>
    rw [foldlM_cons] at h
    obtain ⟨a₁, hone, hrest⟩ := bind_eq_some_iff.mp h
    have ha₁ := hstep b mem_cons_self a a₁ ha hone
    exact ih (fun c hc => hstep c (mem_cons_of_mem b hc)) hrest ha₁

/-- What each step of a fold preserves holds of what the fold returns. -/
theorem foldlM_invariant {f : α → β → Option α} {P : α → Prop}
    (hstep : ∀ a b a', P a → f a b = some a' → P a') (h : bs.foldlM f a = some a') (ha : P a) :
    P a' :=
  foldlM_invariant_of_mem (fun b _ a a' => hstep a b a') h ha

/-- A fold that returns has returned at each element. -/
theorem exists_of_foldlM {f : α → β → Option α} {b : β} (h : bs.foldlM f a = some a')
    (hb : b ∈ bs) : ∃ a₁ a₂, f a₁ b = some a₂ := by
  induction bs generalizing a with
  | nil => exact absurd hb not_mem_nil
  | cons c bs ih =>
    rw [foldlM_cons] at h
    obtain ⟨a₁, hone, hrest⟩ := bind_eq_some_iff.mp h
    rcases mem_cons.mp hb with rfl | hb
    · exact ⟨a, a₁, hone⟩
    · exact ih hrest hb

/-- A map that returns has returned what it has at each place. -/
theorem forall₂_of_mapM {f : α → Option β} {as : List α} (h : as.mapM f = some bs) :
    as.Forall₂ (fun a b => f a = some b) bs := by
  induction as generalizing bs with
  | nil =>
    cases h
    exact .nil
  | cons a as ih =>
    rw [mapM_cons] at h
    obtain ⟨b, hb, h⟩ := bind_eq_some_iff.mp h
    obtain ⟨bs', hbs, h⟩ := bind_eq_some_iff.mp h
    cases h
    exact .cons hb (ih hbs)

theorem exists_mapM {f : α → Option β} {as : List α} (h : ∀ a ∈ as, (f a).isSome) :
    ∃ bs, as.mapM f = some bs := by
  induction as with
  | nil => exact ⟨[], rfl⟩
  | cons a as ih =>
    obtain ⟨b, hb⟩ := isSome_iff_exists.mp (h a mem_cons_self)
    obtain ⟨bs, hbs⟩ := ih fun c hc => h c (mem_cons_of_mem a hc)
    exact ⟨b :: bs, by rw [mapM_cons, hb, hbs]; rfl⟩

end ExpertPin
