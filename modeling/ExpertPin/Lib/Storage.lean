import Mathlib.Data.Set.Basic
import Mathlib.Order.Nat

/-!
# Variables in a shared memory

A straight-line program works on variables, each of which has cells.  A placement says at which
location of a memory a cell stands, and two variables may share locations.  Two memories with a
placement each agree on a set of variables when the cells of these hold the same there.  A store
keeps the agreement on every variable it does not overlap (`Agree.store`), so the variables that
are live after each instruction are all that must be kept apart (`agree_run`).
-/

namespace ExpertPin.Storage

open List

universe u v w

variable {V : Type u} {L L' : Type v} {β : Type w}

/-! ## Storing a range of cells -/

section Store

variable [DecidableEq L] {place : ℕ → L} {n k : ℕ} {new : ℕ → β} {mem : L → β} {l : L}

/-- The memory after storing the first `n` cells at their places. -/
def store (place : ℕ → L) (n : ℕ) (new : ℕ → β) (mem : L → β) : L → β := fun l =>
  match (List.range n).find? fun k => place k = l with
  | some k => new k
  | none => mem l

theorem store_of_ne (h : ∀ k < n, place k ≠ l) : store place n new mem l = mem l := by
  have hnone : (range n).find? (fun k => place k = l) = none := by
    refine find?_eq_none.mpr fun k hk => ?_
    simpa using h k (mem_range.mp hk)
  rw [store, hnone]

theorem store_at (hinj : ∀ i < n, ∀ j < n, place i = place j → i = j) (hk : k < n) :
    store place n new mem (place k) = new k := by
  have hsome : (range n).find? (fun i => place i = place k) = some k := by
    cases hfind : (range n).find? fun i => place i = place k with
    | none =>
      have := find?_eq_none.mp hfind k (mem_range.mpr hk)
      simp at this
    | some i =>
      have hi : i < n := mem_range.mp (mem_of_find?_eq_some hfind)
      have heq : place i = place k := by simpa using find?_some hfind
      rw [hinj i hi k hk heq]
  rw [store, hsome]

end Store

/-! ## Agreement of two memories -/

/-- The cells of the variables hold the same in both memories. -/
def Agree (cell : V → ℕ → Prop) (place : V → ℕ → L) (place' : V → ℕ → L') (live : Set V)
    (mem : L → β) (mem' : L' → β) : Prop :=
  ∀ v ∈ live, ∀ k, cell v k → mem (place v k) = mem' (place' v k)

/-- A range of cells of one variable shares no location with another variable. -/
def Apart (cell : V → ℕ → Prop) (place : V → ℕ → L) (v : V) (first n : ℕ) (u : V) : Prop :=
  ∀ i < n, ∀ k, cell u k → place v (first + i) ≠ place u k

section Agree

variable {cell : V → ℕ → Prop} {place : V → ℕ → L} {place' : V → ℕ → L'} {live live' : Set V}
  {mem : L → β} {mem' : L' → β} {v : V} {first n : ℕ} {new : ℕ → β}

theorem Agree.mono (h : Agree cell place place' live mem mem') (hsub : live' ⊆ live) :
    Agree cell place place' live' mem mem' :=
  fun v hv => h v (hsub hv)

/-- Storing the same into both memories keeps the agreement on what the store does not overlap, and
the variable stored to agrees as far as it is overwritten or agreed before. -/
theorem Agree.store [DecidableEq L] [DecidableEq L'] (h : Agree cell place place' live mem mem')
    (hinj : Function.Injective (place v)) (hinj' : Function.Injective (place' v))
    (hlive : ∀ u ∈ live', u ≠ v → u ∈ live)
    (hself : v ∈ live' → v ∈ live ∨ ∀ k, cell v k → first ≤ k ∧ k < first + n)
    (hapart : ∀ u ∈ live', u ≠ v → Apart cell place v first n u)
    (hapart' : ∀ u ∈ live', u ≠ v → Apart cell place' v first n u) :
    Agree cell place place' live' (store (fun i => place v (first + i)) n new mem)
      (Storage.store (fun i => place' v (first + i)) n new mem') := by
  intro u hu k hk
  by_cases huv : u = v
  case neg =>
    rw [store_of_ne fun i hi => hapart u hu huv i hi k hk,
      store_of_ne fun i hi => hapart' u hu huv i hi k hk]
    exact h u (hlive u hu huv) k hk
  case pos =>
    subst huv
    by_cases hin : first ≤ k ∧ k < first + n
    · obtain ⟨i, rfl⟩ := Nat.exists_eq_add_of_le hin.1
      have hi : i < n := Nat.lt_of_add_lt_add_left hin.2
      rw [store_at (fun i _ j _ hij => Nat.add_left_cancel (hinj hij)) hi,
        store_at (fun i _ j _ hij => Nat.add_left_cancel (hinj' hij)) hi]
    · have hout (i : ℕ) (hi : i < n) : first + i ≠ k := by
        rintro rfl
        exact hin ⟨Nat.le_add_right _ _, Nat.add_lt_add_left hi _⟩
      rw [store_of_ne fun i hi heq => hout i hi (hinj heq),
        store_of_ne fun i hi heq => hout i hi (hinj' heq)]
      rcases hself hu with hbefore | hall
      · exact h u hbefore k hk
      · exact absurd (hall k hk) hin

end Agree

/-! ## Live variables -/

section Live

variable {I : Type u} (uses kills : I → Set V)

/-- The variables that are live before some instructions, given those that are live after them. -/
def live (final : Set V) : List I → Set V
  | [] => final
  | i :: rest => (live final rest \ kills i) ∪ uses i

variable {final : Set V} {M M' : Type w}

/-- When each instruction turns agreement on what is live before it into agreement on what is live
after it, so does a run of them. -/
theorem agree_run {R : Set V → M → M' → Prop} {step : I → M → M} {step' : I → M' → M'}
    {program : List I}
    (hstep : ∀ pre i rest, program = pre ++ i :: rest → ∀ m m',
      R (live uses kills final (i :: rest)) m m' →
        R (live uses kills final rest) (step i m) (step' i m'))
    {m : M} {m' : M'} (h : R (live uses kills final program) m m') :
    R final (program.foldl (fun m i => step i m) m) (program.foldl (fun m i => step' i m) m') := by
  induction program generalizing m m' with
  | nil => exact h
  | cons i rest ih =>
    refine ih ?_ (hstep [] i rest rfl m m' h)
    intro pre j rest' heq
    exact hstep (i :: pre) j rest' (by rw [heq, cons_append])

end Live

end ExpertPin.Storage
