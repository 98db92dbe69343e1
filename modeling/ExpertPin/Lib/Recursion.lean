import Mathlib.Data.Nat.Notation
import Mathlib.Logic.Relation

/-!
# Programs that call themselves

The body of a recursive program is a tree: it returns, it throws, or it calls the program at
a key and goes on with the answer.  A body for each key is a program, `run` on fuel, and what
it returns with enough fuel are the answers that its bodies give (`evaluates_iff`).

There is an induction over what a program returns (`Evaluates.induct`), in which the answers to
the calls of a body have what is to be shown, and a program returns at each key from which its
calls go down (`exists_evaluates`).
-/

namespace ExpertPin.Recursion

universe u v

inductive Body (κ : Type u) (ρ : Type v)
  | returns (r : ρ)
  | throws
  | calls (k : κ) (next : ρ → Body κ ρ)

namespace Body

variable {κ : Type u} {ρ : Type v}

/-- The value of a body where the calls are those of a function. -/
def eval (f : κ → Option ρ) : Body κ ρ → Option ρ
  | .returns r => some r
  | .throws => none
  | .calls k next => (f k).bind fun a => (next a).eval f

variable (R : κ → ρ → Prop)

/-- The values that a body can have where the answers to its calls are in a relation. -/
def Gives : Body κ ρ → ρ → Prop
  | .returns a, r => r = a
  | .throws, _ => False
  | .calls k next, r => ∃ a, R k a ∧ (next a).Gives r

/-- The keys at which a body calls. -/
def Asks : Body κ ρ → κ → Prop
  | .returns _, _ => False
  | .throws, _ => False
  | .calls k next, k' => k' = k ∨ ∃ a, R k a ∧ (next a).Asks k'

/-- The bodies that can throw. -/
def Throws : Body κ ρ → Prop
  | .returns _ => False
  | .throws => True
  | .calls k next => ∃ a, R k a ∧ (next a).Throws

variable {R} {R' : κ → ρ → Prop} {a r : ρ} {k k' : κ} {next : ρ → Body κ ρ} {b : Body κ ρ}

theorem Gives.mono (hR : ∀ k a, b.Asks R k → R k a → R' k a) (h : b.Gives R r) :
    b.Gives R' r := by
  induction b with
  | returns a => exact h
  | throws => exact h
  | calls k next ih =>
    obtain ⟨a, ha, hnext⟩ := h
    exact ⟨a, hR k a (.inl rfl) ha, ih a (fun k' a' hk' => hR k' a' (.inr ⟨a, ha, hk'⟩)) hnext⟩

theorem eval_eq_some_iff {f : κ → Option ρ} :
    b.eval f = some r ↔ b.Gives (fun k a => f k = some a) r := by
  induction b with
  | returns a =>
    rw [eval, Option.some.injEq, eq_comm]
    exact Iff.rfl
  | throws => exact iff_of_false nofun id
  | calls k next ih =>
    rw [eval, Option.bind_eq_some_iff]
    exact exists_congr fun a => and_congr Iff.rfl (ih a)

/-- A body whose calls are all answered gives a value, or it throws. -/
theorem exists_gives (hasks : ∀ k, b.Asks R k → ∃ a, R k a) (hthrows : ¬b.Throws R) :
    ∃ r, b.Gives R r := by
  induction b with
  | returns a => exact ⟨a, rfl⟩
  | throws => exact absurd trivial hthrows
  | calls k next ih =>
    obtain ⟨a, ha⟩ := hasks k (.inl rfl)
    obtain ⟨r, hr⟩ := ih a (fun k' hk' => hasks k' (.inr ⟨a, ha, hk'⟩))
      fun hnext => hthrows ⟨a, ha, hnext⟩
    exact ⟨r, a, ha, hr⟩

end Body

variable {κ : Type u} {ρ : Type v} (body : κ → Body κ ρ)

/-- The program of a body for each key, with a bound on the depth of its calls. -/
def run : ℕ → κ → Option ρ
  | 0, _ => none
  | fuel + 1, k => (body k).eval (run fuel)

/-- What a program returns with enough fuel. -/
def Evaluates (k : κ) (r : ρ) : Prop := ∃ fuel, run body fuel k = some r

/-- The calls that a program makes at a key. -/
def Calls (k k' : κ) : Prop := (body k).Asks (Evaluates body) k'

/-- The keys at which a program is called in the course of a run, the first one among them. -/
def Tries : κ → κ → Prop := Relation.ReflTransGen (Calls body)

variable {body} {k k' : κ} {r r' : ρ}

theorem run_succ_eq_some_iff {fuel : ℕ} : run body (fuel + 1) k = some r ↔
    (body k).Gives (fun k a => run body fuel k = some a) r := Body.eval_eq_some_iff

theorem run_mono {fuel fuel' : ℕ} (hle : fuel ≤ fuel') (h : run body fuel k = some r) :
    run body fuel' k = some r := by
  induction fuel generalizing fuel' k r with
  | zero => exact absurd h nofun
  | succ fuel ih =>
    cases fuel' with
    | zero => exact absurd hle (Nat.not_succ_le_zero fuel)
    | succ fuel' =>
      rw [run_succ_eq_some_iff] at h ⊢
      exact h.mono fun k a _ => ih (Nat.le_of_succ_le_succ hle)

theorem Evaluates.of_gives {b : Body κ ρ} (h : b.Gives (Evaluates body) r) :
    ∃ fuel, b.Gives (fun k a => run body fuel k = some a) r := by
  induction b with
  | returns a => exact ⟨0, h⟩
  | throws => exact absurd h id
  | calls k next ih =>
    obtain ⟨a, ⟨fuel, ha⟩, hnext⟩ := h
    obtain ⟨fuel', hnext⟩ := ih a hnext
    refine ⟨max fuel fuel', a, run_mono (Nat.le_max_left fuel fuel') ha, ?_⟩
    exact hnext.mono fun k a _ => run_mono (Nat.le_max_right fuel fuel')

/-- A program returns what its body gives. -/
theorem evaluates_iff : Evaluates body k r ↔ (body k).Gives (Evaluates body) r := by
  constructor
  · rintro ⟨fuel, h⟩
    cases fuel with
    | zero => exact absurd h nofun
    | succ fuel => exact (run_succ_eq_some_iff.mp h).mono fun k a _ ha => ⟨fuel, ha⟩
  · intro h
    obtain ⟨fuel, h⟩ := Evaluates.of_gives h
    exact ⟨fuel + 1, run_succ_eq_some_iff.mpr h⟩

theorem Evaluates.unique (h : Evaluates body k r) (h' : Evaluates body k r') : r = r' := by
  obtain ⟨fuel, h⟩ := h
  obtain ⟨fuel', h'⟩ := h'
  have hleft := run_mono (Nat.le_max_left fuel fuel') h
  rw [run_mono (Nat.le_max_right fuel fuel') h', Option.some.injEq] at hleft
  exact hleft.symm

/-- What holds of the value of each body when it holds of the answers to its calls holds of
what the program returns. -/
theorem Evaluates.induct {P : κ → ρ → Prop} (hstep : ∀ k r, (body k).Gives
      (fun k' a => Calls body k k' ∧ Evaluates body k' a ∧ P k' a) r → P k r)
    (h : Evaluates body k r) : P k r := by
  obtain ⟨fuel, h⟩ := h
  induction fuel generalizing k r with
  | zero => exact absurd h nofun
  | succ fuel ih =>
    have hreturns := (run_succ_eq_some_iff.mp h).mono fun k a _ ha =>
      (⟨⟨fuel, ha⟩, ih ha⟩ : Evaluates body k a ∧ P k a)
    refine hstep k r (hreturns.mono fun k' a hasks ha => ⟨?_, ha⟩)
    suffices hmono : ∀ b : Body κ ρ, b.Asks (fun k a => Evaluates body k a ∧ P k a) k' →
        b.Asks (Evaluates body) k' from hmono _ hasks
    intro b
    induction b with
    | returns a => exact id
    | throws => exact id
    | calls k next ih =>
      rintro (rfl | ⟨a, ha, hnext⟩)
      · exact .inl rfl
      · exact .inr ⟨a, ha.1, ih a hnext⟩

/-- A program returns at each key from which its calls go down and where it does not throw. -/
theorem exists_evaluates {S : κ → Prop} {lt : κ → κ → Prop} (hwf : WellFounded lt)
    (hcalls : ∀ k k', S k → Calls body k k' → S k' ∧ lt k' k)
    (hthrows : ∀ k, S k → ¬(body k).Throws (Evaluates body)) (hk : S k) :
    ∃ r, Evaluates body k r := by
  induction k using hwf.induction with
  | _ k ih =>
    have hgives : ∃ r, (body k).Gives (Evaluates body) r :=
      Body.exists_gives
        (fun k' hk' => ih k' (hcalls k k' hk hk').2 (hcalls k k' hk hk').1) (hthrows k hk)
    obtain ⟨r, hr⟩ := hgives
    exact ⟨r, evaluates_iff.mpr hr⟩

end ExpertPin.Recursion
