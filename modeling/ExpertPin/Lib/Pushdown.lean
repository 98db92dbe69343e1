import ExpertPin.Lib.TopRewriting
import Mathlib.Data.List.Infix

/-!
# The pushdown recogniser of a grammar

A grammar gives each rule a list of alternatives; an alternative is a sequence of symbols,
each a reference to a rule or a class of characters.  The recogniser keeps the remainders
of the alternatives it is in on a stack.  Without reading it replaces a reference on top
by an alternative (`Eps`); reading, it drops a class that has the character (`Read`).

What it can still read after `w` are the continuations of `w` in the language
(`exists_reaches_iff`).  The height of the stacks reachable without reading is bounded unless
some remainder comes back to itself on a taller stack (`length_le_of_epsStar`,
`not_growing_of_bounded`).
-/

namespace ExpertPin.Pushdown

open TopRewriting (Rewrites Leads length_le_of_leads)
open List

/-! ## Grammars -/

inductive Sym (C : Type) : Type
  | ref (rule : ℕ)
  | cls (c : C)
deriving DecidableEq, Repr

/-- The alternatives of each rule. -/
abbrev Grammar (C : Type) : Type := List (List (List (Sym C)))

def Grammar.alts {C : Type} (G : Grammar C) (A : ℕ) : List (List (Sym C)) := G[A]?.getD []

section Derivations

variable {C T : Type} (G : Grammar C) (mem : C → T → Prop)

/-- A sequence of symbols derives a string, with so many uses of rules. -/
inductive Derives : ℕ → List (Sym C) → List T → Prop
  | nil : Derives 0 [] []
  | char {n : ℕ} {c : C} {t : T} {α : List (Sym C)} {w : List T} (hmem : mem c t)
      (rest : Derives n α w) : Derives n (.cls c :: α) (t :: w)
  | rule {m n A : ℕ} {alt α : List (Sym C)} {u v : List T} (halt : alt ∈ G.alts A)
      (inner : Derives m alt u) (rest : Derives n α v) :
      Derives (m + n + 1) (.ref A :: α) (u ++ v)

def Generates (α : List (Sym C)) (w : List T) : Prop := ∃ n, Derives G mem n α w

end Derivations

variable {C T : Type} {G : Grammar C} {mem : C → T → Prop} {α β : List (Sym C)} {u v w : List T}

theorem Derives.append {m n : ℕ} (h : Derives G mem m α u) (h' : Derives G mem n β v) :
    Derives G mem (m + n) (α ++ β) (u ++ v) := by
  induction h with
  | nil =>
    rw [Nat.zero_add]
    exact h'
  | char hmem _ ih => exact .char hmem ih
  | rule halt inner _ _ ih =>
    rw [append_assoc, Nat.add_right_comm, Nat.add_assoc _ _ n]
    exact .rule halt inner ih

/-- A derivation of two sequences is one of each. -/
theorem Derives.split {n : ℕ} (h : Derives G mem n (α ++ β) w) :
    ∃ k m u v, n = k + m ∧ w = u ++ v ∧ Derives G mem k α u ∧ Derives G mem m β v := by
  induction α generalizing n w with
  | nil => exact ⟨0, n, [], w, (Nat.zero_add n).symm, rfl, .nil, h⟩
  | cons x α ih =>
    cases h with
    | char hmem rest =>
      obtain ⟨k, m, u, v, rfl, rfl, hα, hβ⟩ := ih rest
      exact ⟨k, m, _ :: u, v, rfl, rfl, .char hmem hα, hβ⟩
    | @rule j _ _ _ _ x _ halt inner rest =>
      obtain ⟨k, m, u, v, rfl, rfl, hα, hβ⟩ := ih rest
      refine ⟨j + k + 1, m, x ++ u, v, ?_, (append_assoc x u v).symm, .rule halt inner hα, hβ⟩
      rw [← Nat.add_assoc j k m, Nat.add_right_comm]

theorem Generates.append (h : Generates G mem α u) (h' : Generates G mem β v) :
    Generates G mem (α ++ β) (u ++ v) := by
  obtain ⟨m, hα⟩ := h
  obtain ⟨n, hβ⟩ := h'
  exact ⟨m + n, hα.append hβ⟩

theorem generates_nil_iff : Generates G mem [] w ↔ w = [] := by
  constructor
  · rintro ⟨n, h⟩
    cases h
    rfl
  · rintro rfl
    exact ⟨0, .nil⟩

/-- Where each symbol derives some string the sequence does. -/
theorem exists_generates (h : ∀ x ∈ α, ∃ w, Generates G mem [x] w) : ∃ w, Generates G mem α w := by
  induction α with
  | nil => exact ⟨[], 0, .nil⟩
  | cons x α ih =>
    obtain ⟨u, hx⟩ := h x mem_cons_self
    obtain ⟨v, hα⟩ := ih fun y hy => h y (mem_cons_of_mem x hy)
    exact ⟨u ++ v, hx.append hα⟩

/-! ## The recogniser -/

/-- The remainders of alternatives, the top one first. -/
abbrev Stack (C : Type) : Type := List (List (Sym C))

/-- An empty remainder is not pushed. -/
def push (α : List (Sym C)) (s : Stack C) : Stack C :=
  match α with
  | [] => s
  | x :: α => (x :: α) :: s

theorem flatten_push (α : List (Sym C)) (s : Stack C) : (push α s).flatten = α ++ s.flatten := by
  cases α with
  | nil => rfl
  | cons x α => rfl

theorem push_append (α : List (Sym C)) (s s' : Stack C) : push α (s ++ s') = push α s ++ s' := by
  cases α with
  | nil => rfl
  | cons x α => rfl

section Steps

variable (G mem)

/-- A reference on top is replaced by an alternative and what follows the reference. -/
inductive Eps : Stack C → Stack C → Prop
  | mk {A : ℕ} {β alt : List (Sym C)} {s : Stack C} (halt : alt ∈ G.alts A) :
      Eps ((.ref A :: β) :: s) (push alt (push β s))

def EpsStar : Stack C → Stack C → Prop := Relation.ReflTransGen (Eps G)

/-- A class on top has the character. -/
inductive Read (t : T) : Stack C → Stack C → Prop
  | mk {c : C} {β : List (Sym C)} {s : Stack C} (hmem : mem c t) :
      Read t ((.cls c :: β) :: s) (push β s)

/-- The stacks after reading a string from one of the initial stacks. -/
inductive Reaches (init : Stack C → Prop) : List T → Stack C → Prop
  | start {s : Stack C} (h : init s) : Reaches init [] s
  | eps {w : List T} {s s' : Stack C} (h : Reaches init w s) (step : Eps G s s') : Reaches init w s'
  | read {w : List T} {t : T} {s s' : Stack C} (h : Reaches init w s) (step : Read mem t s s') :
      Reaches init (w ++ [t]) s'

/-- The stack is empty or has a class on top. -/
inductive Terminal : Stack C → Prop
  | nil : Terminal []
  | cls {c : C} {β : List (Sym C)} {s : Stack C} : Terminal ((.cls c :: β) :: s)

/-- Each element is a remainder of an alternative, and none is empty. -/
def Within (s : Stack C) : Prop := ∀ α ∈ s, α ≠ [] ∧ ∃ A, ∃ alt ∈ G.alts A, α <:+ alt

end Steps

variable {s s' r : Stack C} {t : T} {init : Stack C → Prop}

theorem Within.nil : Within G [] := fun _ h => absurd h not_mem_nil

theorem Within.push (h : Within G s) {A : ℕ} {alt : List (Sym C)} (halt : alt ∈ G.alts A)
    (hα : α <:+ alt) : Within G (push α s) := by
  cases α with
  | nil => exact h
  | cons x α =>
    intro γ hγ
    rcases mem_cons.mp hγ with rfl | hγ
    · exact ⟨cons_ne_nil x α, A, alt, halt, hα⟩
    · exact h γ hγ

theorem Within.tail (h : Within G (α :: s)) : Within G s :=
  fun γ hγ => h γ (mem_cons_of_mem α hγ)

/-- What is left after the top symbol. -/
theorem Within.rest {x : Sym C} (h : Within G ((x :: β) :: s)) : Within G (Pushdown.push β s) := by
  obtain ⟨_, A, alt, halt, hsuffix⟩ := h (x :: β) mem_cons_self
  exact h.tail.push halt ((suffix_cons x β).trans hsuffix)

theorem Within.eps (h : Within G s) (step : Eps G s s') : Within G s' := by
  obtain ⟨halt⟩ := step
  exact h.rest.push halt (suffix_refl _)

theorem Within.epsStar (h : Within G s) (steps : EpsStar G s s') : Within G s' := by
  induction steps with
  | refl => exact h
  | tail _ step ih => exact ih.eps step

theorem Within.read (h : Within G s) (step : Read mem t s s') : Within G s' := by
  obtain ⟨_⟩ := step
  exact h.rest

theorem Reaches.within (h : Reaches G mem init w s) (hinit : ∀ s, init s → Within G s) :
    Within G s := by
  induction h with
  | start h => exact hinit _ h
  | eps _ step ih => exact ih.eps step
  | read _ step ih => exact ih.read step

theorem Reaches.epsStar (h : Reaches G mem init w s) (steps : EpsStar G s s') :
    Reaches G mem init w s' := by
  induction steps with
  | refl => exact h
  | tail _ step ih => exact ih.eps step

/-! ## What is recognised -/

/-- What the new stack derives the old one does. -/
theorem generates_of_eps (step : Eps G s s') (h : Generates G mem s'.flatten w) :
    Generates G mem s.flatten w := by
  obtain ⟨halt⟩ := step
  rw [flatten_push, flatten_push] at h
  obtain ⟨n, h⟩ := h
  obtain ⟨k, m, u, v, _, rfl, halt', hrest⟩ := h.split
  exact ⟨_, .rule halt halt' hrest⟩

/-- What a stack derives one with a class on top does. -/
theorem exists_terminal (n : ℕ) : ∀ s : Stack C, Within G s → Derives G mem n s.flatten w →
    ∃ r, EpsStar G s r ∧ Terminal r ∧ Generates G mem r.flatten w := by
  induction n using Nat.strong_induction_on with
  | _ n ih =>
    intro s hs h
    cases s with
    | nil => exact ⟨[], .refl, .nil, n, h⟩
    | cons α s =>
      cases α with
      | nil => exact absurd rfl (hs [] mem_cons_self).1
      | cons x β =>
        cases x with
        | cls c => exact ⟨_, .refl, .cls, n, h⟩
        | ref A =>
          rw [flatten_cons, cons_append] at h
          cases h with
          | @rule m k _ alt _ u v halt inner rest =>
            have hstep : Eps G ((.ref A :: β) :: s) (push alt (push β s)) := .mk halt
            have hderives : Derives G mem (m + k) (push alt (push β s)).flatten (u ++ v) := by
              rw [flatten_push, flatten_push]
              exact inner.append rest
            obtain ⟨r, hsteps, hterminal, hr⟩ :=
              ih (m + k) (Nat.lt_succ_self _) _ (hs.eps hstep) hderives
            exact ⟨r, .head hstep hsteps, hterminal, hr⟩

/-- After `w` the stacks derive nothing but continuations of `w`. -/
theorem Reaches.sound (h : Reaches G mem init w s) (hs : Generates G mem s.flatten v) :
    ∃ s₀, init s₀ ∧ Generates G mem s₀.flatten (w ++ v) := by
  induction h generalizing v with
  | start h => exact ⟨_, h, hs⟩
  | eps _ step ih => exact ih (generates_of_eps step hs)
  | read _ step ih =>
    obtain ⟨hmem⟩ := step
    rw [flatten_push] at hs
    obtain ⟨n, hs⟩ := hs
    rw [append_assoc]
    exact ih ⟨n, .char hmem hs⟩

/-- The continuations of `w` are what the stacks after `w` derive. -/
theorem exists_reaches_iff (hinit : ∀ s, init s → Within G s) (w v : List T) :
    (∃ s, Reaches G mem init w s ∧ Generates G mem s.flatten v) ↔
      ∃ s₀, init s₀ ∧ Generates G mem s₀.flatten (w ++ v) := by
  constructor
  · rintro ⟨s, hreach, hs⟩
    exact hreach.sound hs
  · intro h
    induction w using reverseRecOn generalizing v with
    | nil =>
      obtain ⟨s, hs, hgen⟩ := h
      exact ⟨s, .start hs, hgen⟩
    | append_singleton w t ih =>
      rw [append_assoc] at h
      obtain ⟨s, hreach, n, hs⟩ := ih _ h
      obtain ⟨r, hsteps, hterminal, m, hr⟩ := exists_terminal n s (hreach.within hinit) hs
      cases hterminal with
      | nil => cases hr
      | @cls c β s =>
        rw [flatten_cons, cons_append] at hr
        cases hr with
        | char hmem rest =>
          refine ⟨push β s, (hreach.epsStar hsteps).read (.mk hmem), m, ?_⟩
          rw [flatten_push]
          exact rest

/-- The same for the stacks that are empty or have a class on top. -/
theorem exists_terminal_iff (hinit : ∀ s, init s → Within G s) (w v : List T) :
    (∃ s, (Reaches G mem init w s ∧ Terminal s) ∧ Generates G mem s.flatten v) ↔
      ∃ s₀, init s₀ ∧ Generates G mem s₀.flatten (w ++ v) := by
  rw [← exists_reaches_iff hinit]
  constructor
  · rintro ⟨s, ⟨hreach, _⟩, hs⟩
    exact ⟨s, hreach, hs⟩
  · rintro ⟨s, hreach, n, hs⟩
    obtain ⟨r, hsteps, hterminal, hr⟩ := exists_terminal n s (hreach.within hinit) hs
    exact ⟨r, ⟨hreach.epsStar hsteps, hterminal⟩, hr⟩

theorem reaches_nil_iff : Reaches G mem init [] s ↔ ∃ s₀, init s₀ ∧ EpsStar G s₀ s := by
  constructor
  · intro h
    generalize hw : ([] : List T) = w at h
    induction h with
    | start h => exact ⟨_, h, .refl⟩
    | eps _ step ih =>
      obtain ⟨s₀, hs₀, hsteps⟩ := ih hw
      exact ⟨s₀, hs₀, hsteps.tail step⟩
    | read => exact absurd hw.symm (append_ne_nil_of_right_ne_nil _ (cons_ne_nil _ _))
  · rintro ⟨s₀, hs₀, hsteps⟩
    exact (Reaches.start hs₀).epsStar hsteps

theorem reaches_snoc_iff : Reaches G mem init (w ++ [t]) s ↔
    ∃ r r', Reaches G mem init w r ∧ Read mem t r r' ∧ EpsStar G r' s := by
  constructor
  · intro h
    generalize hw : w ++ [t] = w' at h
    induction h with
    | start => exact absurd hw (append_ne_nil_of_right_ne_nil _ (cons_ne_nil _ _))
    | eps _ step ih =>
      obtain ⟨r, r', hr, hread, hsteps⟩ := ih hw
      exact ⟨r, r', hr, hread, hsteps.tail step⟩
    | read h step =>
      obtain ⟨rfl, heq⟩ := append_inj' hw rfl
      obtain rfl := singleton_inj.mp heq
      exact ⟨_, _, h, step, .refl⟩
  · rintro ⟨r, r', hr, hread, hsteps⟩
    exact (hr.read hread).epsStar hsteps

theorem Read.terminal (h : Read mem t s s') : Terminal s := by
  obtain ⟨_⟩ := h
  exact .cls

/-! ## Growth -/

/-- Without reading the remainder comes back to itself, with something left below it. -/
def Growing (G : Grammar C) (α : List (Sym C)) : Prop :=
  ∃ r : Stack C, r ≠ [] ∧ EpsStar G [α] (α :: r)

/-- A reference gives way to an alternative, with the rest below it. -/
inductive Expands (G : Grammar C) : List (Sym C) → Stack C → Prop
  | mk {A : ℕ} {alt β : List (Sym C)} (h : alt ∈ G.alts A) :
      Expands G (.ref A :: β) (push alt (push β []))

theorem Expands.length_le {r : Stack C} (h : Expands G α r) : r.length ≤ 2 := by
  obtain @⟨_, alt, β, _⟩ := h
  cases alt <;> cases β <;> simp [push]

theorem eps_iff_rewrites : Eps G s s' ↔ Rewrites (Expands G) s s' := by
  constructor
  · rintro @⟨A, β, alt, s, halt⟩
    have h : Rewrites (Expands G) ((.ref A :: β) :: s) (push alt (push β []) ++ s) :=
      .mk (.mk halt) s
    rwa [← push_append, ← push_append, nil_append] at h
  · rintro ⟨⟨halt⟩, s⟩
    rw [← push_append, ← push_append, nil_append]
    exact .mk halt

theorem epsStar_iff_leads : EpsStar G s s' ↔ Leads (Expands G) s s' := by
  have heq : Eps G = Rewrites (Expands G) :=
    funext fun _ => funext fun _ => propext eps_iff_rewrites
  rw [EpsStar, Leads, heq]

theorem growing_iff : Growing G α ↔ TopRewriting.Growing (Expands G) α :=
  exists_congr fun _ => and_congr Iff.rfl epsStar_iff_leads

variable {s₀ : Stack C}

/-- The remainders of a grammar. -/
def remainders (G : Grammar C) : List (List (Sym C)) := G.flatten.flatMap List.tails

theorem Within.mem_remainders (h : Within G s) (hα : α ∈ s) : α ∈ remainders G := by
  obtain ⟨_, A, alt, halt, hsuffix⟩ := h α hα
  refine mem_flatMap.mpr ⟨alt, ?_, (mem_tails α alt).mpr hsuffix⟩
  rw [Grammar.alts] at halt
  cases hA : G[A]? with
  | none =>
    rw [hA] at halt
    exact absurd halt not_mem_nil
  | some alts =>
    rw [hA] at halt
    exact mem_flatten_of_mem (mem_of_getElem? hA) halt

/-- Where nothing grows the stacks reachable without reading have bounded height. -/
theorem length_le_of_epsStar (h : Within G s₀)
    (hno : ∀ α r, EpsStar G s₀ (α :: r) → ¬Growing G α) (hs : EpsStar G s₀ s) :
    s.length ≤ s₀.length + (remainders G).length := by
  refine length_le_of_leads (fun _ _ => Expands.length_le) ?_ ?_ (epsStar_iff_leads.mp hs)
  · intro γ r hr
    have hreach := h.epsStar (epsStar_iff_leads.mpr hr)
    exact hreach.mem_remainders mem_cons_self
  · intro γ r hr hgrow
    exact hno γ r (epsStar_iff_leads.mpr hr) (growing_iff.mpr hgrow)

/-- Where only stacks up to some height are reachable nothing grows. -/
theorem not_growing_of_bounded {n : ℕ} (hbound : ∀ s, EpsStar G s₀ s → s.length ≤ n)
    (h : EpsStar G s₀ (α :: s)) : ¬Growing G α := by
  intro hgrow
  refine TopRewriting.not_growing_of_bounded (n := n) (fun s hs => ?_) (epsStar_iff_leads.mp h)
    (growing_iff.mp hgrow)
  exact hbound s (epsStar_iff_leads.mpr hs)

end ExpertPin.Pushdown
