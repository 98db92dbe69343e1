import Mathlib.Data.Nat.Notation

/-!
# Programs that return

`Returns x P` says that a program of `Except` ends without an error and with a value of which
`P` holds, and `Ensures x P` that `P` holds of its value if it ends without an error.  The rules
follow the way programs are put together.

`Settles x p a` is about a program that runs on fuel: it ends with `a` on enough fuel if `p` holds,
and never with another value or if `p` does not hold.
-/

namespace ExpertPin

universe u v w

variable {ε : Type u} {α : Type v} {β : Type v}

def Returns (x : Except ε α) (P : α → Prop) : Prop := ∃ a, x = .ok a ∧ P a

namespace Returns

variable {x : Except ε α} {f : α → Except ε β} {P P' : α → Prop} {Q : β → Prop} {a : α}

theorem ok (h : P a) : Returns (.ok a : Except ε α) P := ⟨a, rfl, h⟩

theorem pure (h : P a) : Returns (Pure.pure a : Except ε α) P := ⟨a, rfl, h⟩

theorem mono (h : Returns x P) (hP : ∀ a, P a → P' a) : Returns x P' := by
  obtain ⟨a, hx, ha⟩ := h
  exact ⟨a, hx, hP a ha⟩

theorem bind (h : Returns x P) (hf : ∀ a, P a → Returns (f a) Q) : Returns (x >>= f) Q := by
  obtain ⟨a, rfl, ha⟩ := h
  exact hf a ha

theorem ite {c : Prop} [Decidable c] {y : Except ε α} (h : c → Returns x P)
    (h' : ¬c → Returns y P) : Returns (if c then x else y) P := by
  by_cases hc : c
  · rw [if_pos hc]
    exact h hc
  · rw [if_neg hc]
    exact h' hc

theorem of_eq_ok (h : Returns x P) (ha : x = .ok a) : P a := by
  obtain ⟨a', hx, ha'⟩ := h
  rw [hx, Except.ok.injEq] at ha
  exact ha ▸ ha'

end Returns

def Ensures (x : Except ε α) (P : α → Prop) : Prop := ∀ a, x = .ok a → P a

namespace Ensures

variable {x : Except ε α} {f : α → Except ε β} {P P' : α → Prop} {Q : β → Prop} {a : α}

theorem ok (h : P a) : Ensures (.ok a : Except ε α) P := by
  intro a' ha
  cases ha
  exact h

theorem pure (h : P a) : Ensures (Pure.pure a : Except ε α) P := ok h

theorem error (e : ε) : Ensures (.error e : Except ε α) P := by
  intro a ha
  cases ha

theorem mono (h : Ensures x P) (hP : ∀ a, P a → P' a) : Ensures x P' :=
  fun a ha => hP a (h a ha)

theorem trivial (x : Except ε α) : Ensures x fun _ => True := fun _ _ => True.intro

theorem bind (h : Ensures x P) (hf : ∀ a, P a → Ensures (f a) Q) : Ensures (x >>= f) Q := by
  intro b hb
  cases x with
  | error e => cases hb
  | ok a => exact hf a (h a rfl) b hb

theorem ite {c : Prop} [Decidable c] {y : Except ε α} (h : c → Ensures x P)
    (h' : ¬c → Ensures y P) : Ensures (if c then x else y) P := by
  by_cases hc : c
  · rw [if_pos hc]
    exact h hc
  · rw [if_neg hc]
    exact h' hc

theorem mapError {ε' : Type u} {g : ε → ε'} (h : Ensures x P) : Ensures (x.mapError g) P := by
  cases x with
  | error e => exact error _
  | ok a => exact ok (h a rfl)

end Ensures

/-! ## Fuel -/

structure Settles (x : ℕ → Except ε α) (p : Prop) (a : α) : Prop where
  ensures (n : ℕ) : Ensures (x n) fun a' => p ∧ a' = a
  returns (h : p) : ∃ N, ∀ n, N ≤ n → x n = .ok a

namespace Settles

variable {x : ℕ → Except ε α} {f : ℕ → α → Except ε β} {p q : Prop} {a : α} {b : β}

theorem of_eq (hp : p) (h : ∀ n, x n = .ok a) : Settles x p a :=
  ⟨fun n => h n ▸ Ensures.ok ⟨hp, rfl⟩, fun _ => ⟨0, fun n _ => h n⟩⟩

theorem of_error {e : ε} (hp : ¬p) (h : ∀ n, x n = .error e) : Settles x p a :=
  ⟨fun n => h n ▸ Ensures.error e, fun h => absurd h hp⟩

theorem congr (h : Settles x p a) (hpq : p ↔ q) : Settles x q a :=
  ⟨fun n => (h.ensures n).mono fun _ => And.imp_left hpq.mp, fun hq => h.returns (hpq.mpr hq)⟩

theorem bind (h : Settles x p a) (hf : Settles (f · a) q b) :
    Settles (fun n => x n >>= f n) (p ∧ q) b where
  ensures n := (h.ensures n).bind fun a' ha' =>
    (ha'.2 ▸ hf.ensures n : Ensures (f n a') _).mono fun _ hb => ⟨⟨ha'.1, hb.1⟩, hb.2⟩
  returns := by
    rintro ⟨hp, hq⟩
    obtain ⟨N, hN⟩ := h.returns hp
    obtain ⟨M, hM⟩ := hf.returns hq
    refine ⟨max N M, fun n hn => ?_⟩
    rw [hN n (Nat.le_trans (Nat.le_max_left N M) hn)]
    exact hM n (Nat.le_trans (Nat.le_max_right N M) hn)

theorem map (h : Settles x p a) (g : α → β) :
    Settles (fun n => x n >>= fun a => .ok (g a)) p (g a) :=
  (h.bind (f := fun _ a => .ok (g a)) (of_eq True.intro fun _ => rfl)).congr (by rw [and_true])

/-- A step that takes fuel. -/
theorem succ {x' : ℕ → Except ε α} {e : ε} (h : Settles x p a) (hzero : x' 0 = .error e)
    (hsucc : ∀ n, x' (n + 1) = x n) : Settles x' p a where
  ensures n := by
    cases n with
    | zero => exact hzero ▸ Ensures.error e
    | succ n => exact hsucc n ▸ h.ensures n
  returns hp := by
    obtain ⟨N, hN⟩ := h.returns hp
    refine ⟨N + 1, fun n hn => ?_⟩
    obtain ⟨n, rfl⟩ := Nat.exists_eq_add_of_le' (Nat.le_trans (Nat.le_add_left 1 N) hn)
    rw [hsucc, hN n (Nat.le_of_add_le_add_right hn)]

theorem succ_ok {e : ε} (hp : p) (hzero : x 0 = .error e) (hsucc : ∀ n, x (n + 1) = .ok a) :
    Settles x p a :=
  succ (x := fun _ => .ok a) (of_eq hp fun _ => rfl) hzero hsucc

theorem succ_error {e e' : ε} (hp : ¬p) (hzero : x 0 = .error e)
    (hsucc : ∀ n, x (n + 1) = .error e') : Settles x p a :=
  succ (x := fun _ => .error e') (of_error hp fun _ => rfl) hzero hsucc

/-- On some fuel it ends, and then with this value. -/
theorem exists_iff (h : Settles x p a) {a' : α} : (∃ n, x n = .ok a') ↔ p ∧ a' = a := by
  constructor
  · rintro ⟨n, hn⟩
    exact h.ensures n a' hn
  · rintro ⟨hp, rfl⟩
    obtain ⟨N, hN⟩ := h.returns hp
    exact ⟨N, hN N (Nat.le_refl N)⟩

end Settles

end ExpertPin
