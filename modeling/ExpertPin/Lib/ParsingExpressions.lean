import Mathlib.Order.WellFoundedSet

/-!
# Parsing expressions

A parsing expression is tried at a position of a text and fails, or it is consumed up to
another position.  What the letters of the text are is left to the terminals, which are
functions of positions; names are given their expressions by a grammar.

An expression has one outcome at most (`Parses.unique`), and in a grammar without left
recursion it has one everywhere (`exists_parses_call`).
-/

namespace ExpertPin.ParsingExpressions

open List
open Nat

universe u

inductive Expr (ι : Type u)
  | empty
  | fail
  | terminal (m : ℕ → Option ℕ)
  | seq (a b : Expr ι)
  | choice (a b : Expr ι)
  | star (a : Expr ι)
  | and (a : Expr ι)
  | not (a : Expr ι)
  | call (i : ι)

variable {ι : Type u}

/-- The outcome of an expression at a position: the end of what it consumes, or none where it
fails.  An iteration that consumes nothing is the last one. -/
inductive Parses (G : ι → Option (Expr ι)) : Expr ι → ℕ → Option ℕ → Prop
  | empty (p : ℕ) : Parses G .empty p (some p)
  | fail (p : ℕ) : Parses G .fail p none
  | terminal (m : ℕ → Option ℕ) (p : ℕ) : Parses G (.terminal m) p (m p)
  | seq {a b : Expr ι} {p q : ℕ} {o : Option ℕ} (ha : Parses G a p (some q))
      (hb : Parses G b q o) : Parses G (.seq a b) p o
  | seqFail {a b : Expr ι} {p : ℕ} (ha : Parses G a p none) : Parses G (.seq a b) p none
  | choice {a b : Expr ι} {p q : ℕ} (ha : Parses G a p (some q)) :
      Parses G (.choice a b) p (some q)
  | choiceElse {a b : Expr ι} {p : ℕ} {o : Option ℕ} (ha : Parses G a p none)
      (hb : Parses G b p o) : Parses G (.choice a b) p o
  | starFail {a : Expr ι} {p : ℕ} (ha : Parses G a p none) : Parses G (.star a) p (some p)
  | starEmpty {a : Expr ι} {p : ℕ} (ha : Parses G a p (some p)) : Parses G (.star a) p (some p)
  | star {a : Expr ι} {p q : ℕ} {o : Option ℕ} (ha : Parses G a p (some q)) (hne : q ≠ p)
      (hstar : Parses G (.star a) q o) : Parses G (.star a) p o
  | and {a : Expr ι} {p q : ℕ} (ha : Parses G a p (some q)) : Parses G (.and a) p (some p)
  | andFail {a : Expr ι} {p : ℕ} (ha : Parses G a p none) : Parses G (.and a) p none
  | not {a : Expr ι} {p : ℕ} (ha : Parses G a p none) : Parses G (.not a) p (some p)
  | notFail {a : Expr ι} {p q : ℕ} (ha : Parses G a p (some q)) : Parses G (.not a) p none
  | call {i : ι} {e : Expr ι} {p : ℕ} {o : Option ℕ} (hi : G i = some e) (he : Parses G e p o) :
      Parses G (.call i) p o

variable {G : ι → Option (Expr ι)} {a b e : Expr ι} {p q n : ℕ} {o o' : Option ℕ} {i : ι}

theorem Parses.unique (h : Parses G e p o) (h' : Parses G e p o') : o = o' := by
  induction h generalizing o' with
  | empty p =>
    cases h' with
    | empty => rfl
  | fail p =>
    cases h' with
    | fail => rfl
  | terminal m p =>
    cases h' with
    | terminal => rfl
  | seq ha hb iha ihb =>
    cases h' with
    | seq ha' hb' =>
      cases iha ha'
      exact ihb hb'
    | seqFail ha' => cases iha ha'
  | seqFail ha iha =>
    cases h' with
    | seq ha' hb' => cases iha ha'
    | seqFail ha' => rfl
  | choice ha iha =>
    cases h' with
    | choice ha' => exact iha ha'
    | choiceElse ha' hb' => cases iha ha'
  | choiceElse ha hb iha ihb =>
    cases h' with
    | choice ha' => cases iha ha'
    | choiceElse ha' hb' => exact ihb hb'
  | starFail ha iha =>
    cases h' with
    | starFail ha' => rfl
    | starEmpty ha' => rfl
    | star ha' hne hstar => cases iha ha'
  | starEmpty ha iha =>
    cases h' with
    | starFail ha' => rfl
    | starEmpty ha' => rfl
    | star ha' hne hstar =>
      cases iha ha'
      exact absurd rfl hne
  | star ha hne hstar iha ihstar =>
    cases h' with
    | starFail ha' => cases iha ha'
    | starEmpty ha' =>
      cases iha ha'
      exact absurd rfl hne
    | star ha' hne' hstar' =>
      cases iha ha'
      exact ihstar hstar'
  | and ha iha =>
    cases h' with
    | and ha' => rfl
    | andFail ha' => cases iha ha'
  | andFail ha iha =>
    cases h' with
    | and ha' => cases iha ha'
    | andFail ha' => rfl
  | not ha iha =>
    cases h' with
    | not ha' => rfl
    | notFail ha' => cases iha ha'
  | notFail ha iha =>
    cases h' with
    | not ha' => cases iha ha'
    | notFail ha' => rfl
  | call hi he ihe =>
    cases h' with
    | call hi' he' =>
      rw [hi, Option.some.injEq] at hi'
      exact ihe (hi' ▸ he')

/-! ## One rule for each expression -/

@[simp] theorem parses_empty : Parses G .empty p o ↔ o = some p := by
  constructor
  · intro h
    cases h with
    | empty => rfl
  · rintro rfl
    exact .empty p

@[simp] theorem parses_fail : Parses G .fail p o ↔ o = none := by
  constructor
  · intro h
    cases h with
    | fail => rfl
  · rintro rfl
    exact .fail p

@[simp] theorem parses_terminal {m : ℕ → Option ℕ} : Parses G (.terminal m) p o ↔ o = m p := by
  constructor
  · intro h
    cases h with
    | terminal => rfl
  · rintro rfl
    exact .terminal m p

theorem parses_seq : Parses G (.seq a b) p o ↔
    (∃ q, Parses G a p (some q) ∧ Parses G b q o) ∨ Parses G a p none ∧ o = none := by
  constructor
  · intro h
    cases h with
    | seq ha hb => exact .inl ⟨_, ha, hb⟩
    | seqFail ha => exact .inr ⟨ha, rfl⟩
  · rintro (⟨q, ha, hb⟩ | ⟨ha, rfl⟩)
    · exact .seq ha hb
    · exact .seqFail ha

theorem parses_star_step (ha : Parses G a p (some q)) (hne : q ≠ p) :
    Parses G (.star a) p o ↔ Parses G (.star a) q o := by
  constructor
  · intro h
    cases h with
    | starFail ha' => cases ha.unique ha'
    | starEmpty ha' =>
      cases ha.unique ha'
      exact absurd rfl hne
    | star ha' hne' hstar =>
      cases ha.unique ha'
      exact hstar
  · exact .star ha hne

theorem parses_call (hi : G i = some e) : Parses G (.call i) p o ↔ Parses G e p o := by
  constructor
  · intro h
    cases h with
    | call hi' he =>
      rw [hi, Option.some.injEq] at hi'
      exact hi' ▸ he
  · exact .call hi

/-! ## Lists of expressions and repetitions -/

/-- One expression after the other. -/
def seqs (es : List (Expr ι)) : Expr ι := es.foldr .seq .empty

/-- The first expression that does not fail. -/
def choices (es : List (Expr ι)) : Expr ι := es.foldr .choice .fail

/-- An expression a number of times. -/
def times (a : Expr ι) : ℕ → Expr ι
  | 0 => .empty
  | n + 1 => .seq a (times a n)

/-- An expression a number of times at most. -/
def upTo (a : Expr ι) : ℕ → Expr ι
  | 0 => .empty
  | n + 1 => .choice (.seq a (upTo a n)) .empty

/-- An expression so many times at least, and a number of times at most if there is a bound. -/
def repeated (a : Expr ι) (least : ℕ) : Option ℕ → Expr ι
  | none => .seq (times a least) (.star a)
  | some most => .seq (times a least) (if most < least then .fail else upTo a (most - least))

@[simp] theorem seqs_nil : seqs ([] : List (Expr ι)) = .empty := rfl

@[simp] theorem seqs_cons (es : List (Expr ι)) : seqs (e :: es) = .seq e (seqs es) := rfl

@[simp] theorem choices_nil : choices ([] : List (Expr ι)) = .fail := rfl

@[simp] theorem choices_cons (es : List (Expr ι)) :
    choices (e :: es) = .choice e (choices es) := rfl

@[simp] theorem upTo_succ : upTo a (n + 1) = .choice (.seq a (upTo a n)) .empty := rfl

theorem parses_seqs_append {es es' : List (Expr ι)} : Parses G (seqs (es ++ es')) p o ↔
    Parses G (.seq (seqs es) (seqs es')) p o := by
  induction es generalizing p with
  | nil => simp [parses_seq]
  | cons e es ih =>
    simp only [cons_append, seqs_cons, parses_seq, ih]
    constructor
    · rintro (⟨q, he, ⟨q', hes, hes'⟩ | ⟨hes, rfl⟩⟩ | ⟨he, rfl⟩)
      · exact .inl ⟨q', .inl ⟨q, he, hes⟩, hes'⟩
      · exact .inr ⟨.inl ⟨q, he, hes⟩, rfl⟩
      · exact .inr ⟨.inr ⟨he, trivial⟩, rfl⟩
    · rintro (⟨q', ⟨q, he, hes⟩ | ⟨-, hnone⟩, hes'⟩ | ⟨⟨q, he, hes⟩ | ⟨he, -⟩, rfl⟩)
      · exact .inl ⟨q, he, .inl ⟨q', hes, hes'⟩⟩
      · cases hnone
      · exact .inl ⟨q, he, .inr ⟨hes, rfl⟩⟩
      · exact .inr ⟨he, rfl⟩

theorem parses_choice : Parses G (.choice a b) p o ↔
    (∃ q, Parses G a p (some q) ∧ o = some q) ∨ Parses G a p none ∧ Parses G b p o := by
  constructor
  · intro h
    cases h with
    | choice ha => exact .inl ⟨_, ha, rfl⟩
    | choiceElse ha hb => exact .inr ⟨ha, hb⟩
  · rintro (⟨q, ha, rfl⟩ | ⟨ha, hb⟩)
    · exact .choice ha
    · exact .choiceElse ha hb

theorem parses_choices_append {es es' : List (Expr ι)} : Parses G (choices (es ++ es')) p o ↔
    Parses G (.choice (choices es) (choices es')) p o := by
  induction es generalizing p with
  | nil => simp [parses_choice]
  | cons e es ih =>
    simp only [cons_append, choices_cons, parses_choice, ih]
    constructor
    · rintro (⟨q, he, rfl⟩ | ⟨he, ⟨q, hes, rfl⟩ | ⟨hes, hes'⟩⟩)
      · exact .inl ⟨q, .inl ⟨q, he, rfl⟩, rfl⟩
      · exact .inl ⟨q, .inr ⟨he, hes⟩, rfl⟩
      · exact .inr ⟨.inr ⟨he, hes⟩, hes'⟩
    · rintro (⟨q, ⟨q', he, hq⟩ | ⟨he, hes⟩, rfl⟩ | ⟨⟨q, he, hnone⟩ | ⟨he, hes⟩, hes'⟩)
      · exact .inl ⟨q', he, hq⟩
      · exact .inr ⟨he, .inl ⟨q, hes, rfl⟩⟩
      · cases hnone
      · exact .inr ⟨he, .inr ⟨hes, hes'⟩⟩

/-! ## Expressions with the same outcomes -/

/-- The outcomes of two expressions are the same everywhere. -/
def Equivalent (G : ι → Option (Expr ι)) (a b : Expr ι) : Prop :=
  ∀ p o, Parses G a p o ↔ Parses G b p o

namespace Equivalent

variable {a' b' : Expr ι}

theorem refl (a : Expr ι) : Equivalent G a a := fun _ _ => Iff.rfl

theorem symm (h : Equivalent G a b) : Equivalent G b a := fun p o => (h p o).symm

theorem trans {c : Expr ι} (h : Equivalent G a b) (h' : Equivalent G b c) : Equivalent G a c :=
  fun p o => (h p o).trans (h' p o)

theorem of_call (hi : G i = some e) : Equivalent G (.call i) e := fun _ _ => parses_call hi

theorem seq (ha : Equivalent G a a') (hb : Equivalent G b b') :
    Equivalent G (.seq a b) (.seq a' b') := by
  intro p o
  rw [parses_seq, parses_seq, ha p none]
  exact or_congr (exists_congr fun q => and_congr (ha p (some q)) (hb q o)) Iff.rfl

theorem choice (ha : Equivalent G a a') (hb : Equivalent G b b') :
    Equivalent G (.choice a b) (.choice a' b') := by
  intro p o
  rw [parses_choice, parses_choice, ha p none, hb p o]
  exact or_congr (exists_congr fun q => and_congr (ha p (some q)) Iff.rfl) Iff.rfl

theorem seq_empty (a : Expr ι) : Equivalent G (.seq a .empty) a := by
  intro p o
  rw [parses_seq]
  constructor
  · rintro (⟨q, ha, hempty⟩ | ⟨ha, rfl⟩)
    · exact parses_empty.mp hempty ▸ ha
    · exact ha
  · intro ha
    cases o with
    | none => exact .inr ⟨ha, rfl⟩
    | some q => exact .inl ⟨q, ha, .empty q⟩

theorem choice_fail (a : Expr ι) : Equivalent G (.choice a .fail) a := by
  intro p o
  rw [parses_choice]
  constructor
  · rintro (⟨q, ha, rfl⟩ | ⟨ha, hfail⟩)
    · exact ha
    · exact parses_fail.mp hfail ▸ ha
  · intro ha
    cases o with
    | none => exact .inr ⟨ha, .fail p⟩
    | some q => exact .inl ⟨q, ha, rfl⟩

theorem parses_star_of (ha : Equivalent G a a') (h : Parses G (.star a) p o) :
    Parses G (.star a') p o := by
  generalize he : Expr.star a = e at h
  induction h with
  | starFail h => cases he; exact .starFail ((ha _ _).mp h)
  | starEmpty h => cases he; exact .starEmpty ((ha _ _).mp h)
  | star h hne hstar ih ihstar => cases he; exact .star ((ha _ _).mp h) hne (ihstar rfl)
  | _ => cases he

theorem star (ha : Equivalent G a a') : Equivalent G (.star a) (.star a') :=
  fun _ _ => ⟨parses_star_of ha, parses_star_of ha.symm⟩

theorem parses_and_of (ha : Equivalent G a a') (h : Parses G (.and a) p o) :
    Parses G (.and a') p o := by
  cases h with
  | and h => exact .and ((ha _ _).mp h)
  | andFail h => exact .andFail ((ha _ _).mp h)

theorem and (ha : Equivalent G a a') : Equivalent G (.and a) (.and a') :=
  fun _ _ => ⟨parses_and_of ha, parses_and_of ha.symm⟩

theorem parses_not_of (ha : Equivalent G a a') (h : Parses G (.not a) p o) :
    Parses G (.not a') p o := by
  cases h with
  | not h => exact .not ((ha _ _).mp h)
  | notFail h => exact .notFail ((ha _ _).mp h)

theorem not (ha : Equivalent G a a') : Equivalent G (.not a) (.not a') :=
  fun _ _ => ⟨parses_not_of ha, parses_not_of ha.symm⟩

theorem times (ha : Equivalent G a a') (n : ℕ) : Equivalent G (times a n) (times a' n) := by
  induction n with
  | zero => exact refl _
  | succ n ih => exact ha.seq ih

theorem upTo (ha : Equivalent G a a') (n : ℕ) : Equivalent G (upTo a n) (upTo a' n) := by
  induction n with
  | zero => exact refl _
  | succ n ih => exact (ha.seq ih).choice (refl _)

theorem repeated (ha : Equivalent G a a') (least : ℕ) (most : Option ℕ) :
    Equivalent G (repeated a least most) (repeated a' least most) := by
  cases most with
  | none => exact (ha.times least).seq ha.star
  | some most =>
    refine (ha.times least).seq ?_
    split
    · exact refl _
    · exact ha.upTo _

theorem seqs {es es' : List (Expr ι)} (h : List.Forall₂ (Equivalent G) es es') :
    Equivalent G (seqs es) (seqs es') := by
  induction h with
  | nil => exact refl _
  | cons he _ ih => exact he.seq ih

theorem choices {es es' : List (Expr ι)} (h : List.Forall₂ (Equivalent G) es es') :
    Equivalent G (choices es) (choices es') := by
  induction h with
  | nil => exact refl _
  | cons he _ ih => exact he.choice ih

/-- A sequence of sequences is one of their parts. -/
theorem seqs_flatMap {κ : Type*} {ks : List κ} {f : κ → List (Expr ι)} {g : κ → Expr ι}
    (h : ∀ k ∈ ks, Equivalent G (ParsingExpressions.seqs (f k)) (g k)) :
    Equivalent G (ParsingExpressions.seqs (ks.flatMap f)) (ParsingExpressions.seqs (ks.map g)) := by
  induction ks with
  | nil => exact refl _
  | cons k ks ih =>
    have happend : Equivalent G (ParsingExpressions.seqs ((k :: ks).flatMap f))
        (.seq (ParsingExpressions.seqs (f k)) (ParsingExpressions.seqs (ks.flatMap f))) :=
      fun p o => parses_seqs_append
    exact happend.trans ((h k mem_cons_self).seq
      (ih fun k' hk' => h k' (mem_cons_of_mem k hk')))

/-- A choice of choices is one of their parts. -/
theorem choices_flatMap {κ : Type*} {ks : List κ} {f : κ → List (Expr ι)} {g : κ → Expr ι}
    (h : ∀ k ∈ ks, Equivalent G (ParsingExpressions.choices (f k)) (g k)) :
    Equivalent G (ParsingExpressions.choices (ks.flatMap f))
      (ParsingExpressions.choices (ks.map g)) := by
  induction ks with
  | nil => exact refl _
  | cons k ks ih =>
    have happend : Equivalent G (ParsingExpressions.choices ((k :: ks).flatMap f))
        (.choice (ParsingExpressions.choices (f k)) (ParsingExpressions.choices (ks.flatMap f))) :=
      fun p o => parses_choices_append
    exact happend.trans ((h k mem_cons_self).choice
      (ih fun k' hk' => h k' (mem_cons_of_mem k hk')))

end Equivalent

/-- Derivations of a grammar are those of another in which its names have their outcomes. -/
theorem Parses.of_grammar {G' : ι → Option (Expr ι)}
    (hG : ∀ i e p o, G i = some e → Parses G' e p o → Parses G' (.call i) p o)
    (h : Parses G e p o) : Parses G' e p o := by
  induction h with
  | empty p => exact .empty p
  | fail p => exact .fail p
  | terminal m p => exact .terminal m p
  | seq ha hb iha ihb => exact .seq iha ihb
  | seqFail ha iha => exact .seqFail iha
  | choice ha iha => exact .choice iha
  | choiceElse ha hb iha ihb => exact .choiceElse iha ihb
  | starFail ha iha => exact .starFail iha
  | starEmpty ha iha => exact .starEmpty iha
  | star ha hne hstar iha ihstar => exact .star iha hne ihstar
  | and ha iha => exact .and iha
  | andFail ha iha => exact .andFail iha
  | not ha iha => exact .not iha
  | notFail ha iha => exact .notFail iha
  | call hi he ihe => exact hG _ _ _ _ hi ihe

/-! ## Repetitions that match nothing -/

theorem Parses.times_self (ha : Parses G a p (some p)) (n : ℕ) :
    Parses G (times a n) p (some p) := by
  induction n with
  | zero => exact .empty p
  | succ n ih => exact .seq ha ih

theorem Parses.upTo_self (ha : Parses G a p (some p)) (n : ℕ) : Parses G (upTo a n) p (some p) := by
  induction n with
  | zero => exact .empty p
  | succ n ih => exact .choice (.seq ha ih)

theorem Parses.upTo_fail (ha : Parses G a p none) (n : ℕ) : Parses G (upTo a n) p (some p) := by
  cases n with
  | zero => exact .empty p
  | succ n => exact .choiceElse (.seqFail ha) (.empty p)

/-! ## The iterations of a repetition -/

theorem Parses.not_upTo_none (h : Parses G (upTo a n) p none) : False := by
  cases n with
  | zero => cases h
  | succ n =>
    cases h with
    | choiceElse _ hb => cases hb

theorem exists_times (htotal : ∀ p, ∃ o, Parses G a p o) (n p : ℕ) :
    ∃ o, Parses G (times a n) p o := by
  induction n generalizing p with
  | zero => exact ⟨_, .empty p⟩
  | succ n ih =>
    obtain ⟨o, ha⟩ := htotal p
    cases o with
    | none => exact ⟨_, .seqFail ha⟩
    | some q =>
      obtain ⟨o, ho⟩ := ih q
      exact ⟨o, .seq ha ho⟩

section Repeated

variable {least : ℕ} {most : Option ℕ}

theorem parses_seq_step {x : Expr ι} (ha : Parses G a p (some q)) :
    Parses G (.seq (.seq a b) x) p o ↔ Parses G (.seq b x) q o := by
  constructor
  · intro h
    cases h with
    | seq hab hx =>
      cases hab with
      | seq ha' hb =>
        cases ha.unique ha'
        exact .seq hb hx
    | seqFail hab =>
      cases hab with
      | seq ha' hb =>
        cases ha.unique ha'
        exact .seqFail hb
      | seqFail ha' => cases ha.unique ha'
  · intro h
    cases h with
    | seq hb hx => exact .seq (.seq ha hb) hx
    | seqFail hb => exact .seqFail (.seq ha hb)

theorem parses_empty_seq : Parses G (.seq .empty a) p o ↔ Parses G a p o := by
  constructor
  · intro h
    cases h with
    | seq hempty ha =>
      cases hempty
      exact ha
    | seqFail hempty => cases hempty
  · exact .seq (.empty p)

theorem parses_upTo_step (ha : Parses G a p (some q)) :
    Parses G (upTo a (n + 1)) p o ↔ Parses G (upTo a n) q o := by
  rw [upTo_succ, parses_choice]
  constructor
  · rintro (⟨r, hseq, rfl⟩ | ⟨hseq, -⟩)
    · cases hseq with
      | seq ha' hupTo =>
        cases ha.unique ha'
        exact hupTo
    · cases hseq with
      | seq ha' hupTo => exact absurd hupTo Parses.not_upTo_none
      | seqFail ha' => cases ha.unique ha'
  · intro h
    cases o with
    | none => exact absurd h Parses.not_upTo_none
    | some r => exact .inl ⟨r, .seq ha h, rfl⟩

/-- A repetition goes on behind an iteration as one with an iteration less. -/
theorem parses_repeated_step (ha : Parses G a p (some q)) (hne : q ≠ p) (hmost : most ≠ some 0) :
    Parses G (repeated a least most) p o ↔
      Parses G (repeated a (least - 1) (most.map (· - 1))) q o := by
  cases least with
  | zero =>
    cases most with
    | none =>
      exact parses_empty_seq.trans ((parses_star_step ha hne).trans parses_empty_seq.symm)
    | some most =>
      cases most with
      | zero => exact absurd rfl hmost
      | succ most =>
        refine parses_empty_seq.trans (Iff.trans ?_ parses_empty_seq.symm)
        rw [if_neg (Nat.not_lt_zero _), if_neg (Nat.not_lt_zero _)]
        exact parses_upTo_step ha
  | succ least =>
    cases most with
    | none => exact parses_seq_step ha
    | some most =>
      cases most with
      | zero => exact absurd rfl hmost
      | succ most =>
        have hsame : (if most + 1 < least + 1 then Expr.fail
            else upTo a (most + 1 - (least + 1))) =
            if most < least then Expr.fail else upTo a (most - least) := by
          rw [Nat.add_sub_add_right]
          exact if_congr Nat.succ_lt_succ_iff rfl rfl
        rw [repeated, hsame]
        exact parses_seq_step ha

/-- A repetition is over where an iteration fails. -/
theorem Parses.repeated_fail (ha : Parses G a p none) (least : ℕ) (most : Option ℕ) :
    Parses G (repeated a least most) p (if least = 0 then some p else none) := by
  cases least with
  | zero =>
    cases most with
    | none => exact .seq (.empty p) (.starFail ha)
    | some most =>
      refine .seq (.empty p) ?_
      rw [if_neg (not_lt_zero _)]
      exact ha.upTo_fail _
  | succ least =>
    cases most with
    | none => exact .seqFail (.seqFail ha)
    | some most => exact .seqFail (.seqFail ha)

/-- A repetition matches nothing where an iteration does. -/
theorem Parses.repeated_self (ha : Parses G a p (some p)) (hmost : ∀ n, most = some n → least ≤ n) :
    Parses G (repeated a least most) p (some p) := by
  cases most with
  | none => exact .seq (ha.times_self least) (.starEmpty ha)
  | some most =>
    refine .seq (ha.times_self least) ?_
    rw [if_neg (not_lt.mpr (hmost most rfl))]
    exact ha.upTo_self _

theorem Parses.repeated_zero (p : ℕ) : Parses G (repeated a 0 (some 0)) p (some p) :=
  .seq (.empty p) (.empty p)

/-- More iterations are asked for than there may be. -/
theorem Parses.repeated_lt (htotal : ∀ p, ∃ o, Parses G a p o) (hlt : n < least) (p : ℕ) :
    Parses G (repeated a least (some n)) p none := by
  obtain ⟨o, ho⟩ := exists_times htotal least p
  cases o with
  | none => exact .seqFail ho
  | some q =>
    refine .seq ho ?_
    rw [if_pos hlt]
    exact .fail q

end Repeated

/-- So many iterations in a row, each of which consumes something. -/
inductive Iterates (G : ι → Option (Expr ι)) (a : Expr ι) : ℕ → ℕ → ℕ → Prop
  | zero (p : ℕ) : Iterates G a 0 p p
  | succ {k p q r : ℕ} (ha : Parses G a p (some q)) (hne : q ≠ p) (h : Iterates G a k q r) :
      Iterates G a (k + 1) p r

/-! ## What is consumed -/

/-- The terminals of an expression go on, up to the end of the text at most. -/
def Expr.Fits (n : ℕ) : Expr ι → Prop
  | .terminal m => ∀ p q, m p = some q → p ≤ q ∧ q ≤ max p n
  | .seq a b => a.Fits n ∧ b.Fits n
  | .choice a b => a.Fits n ∧ b.Fits n
  | .star a => a.Fits n
  | .and a => a.Fits n
  | .not a => a.Fits n
  | _ => True

theorem Parses.bounds (hG : ∀ i e, G i = some e → e.Fits n) (h : Parses G e p o) (he : e.Fits n) :
    ∀ q, o = some q → p ≤ q ∧ q ≤ max p n := by
  induction h with
  | empty | starFail | and | not =>
    rintro q ⟨⟩
    exact ⟨Nat.le_refl _, Nat.le_max_left _ n⟩
  | fail | seqFail | andFail | notFail => exact nofun
  | terminal m p => exact he p
  | @seq a b p q o ha hb iha ihb =>
    intro q' hq'
    have hfirst := iha he.1 q rfl
    have hsecond := ihb he.2 q' hq'
    refine ⟨Nat.le_trans hfirst.1 hsecond.1, Nat.le_trans hsecond.2 ?_⟩
    exact Nat.max_le.mpr ⟨hfirst.2, Nat.le_max_right p n⟩
  | choice ha iha => exact iha he.1
  | choiceElse ha hb iha ihb => exact ihb he.2
  | starEmpty ha iha => exact iha he
  | @star a p q o ha hne hstar iha ihstar =>
    intro q' hq'
    have hfirst := iha he q rfl
    have hsecond := ihstar he q' hq'
    refine ⟨Nat.le_trans hfirst.1 hsecond.1, Nat.le_trans hsecond.2 ?_⟩
    exact Nat.max_le.mpr ⟨hfirst.2, Nat.le_max_right p n⟩
  | call hi he' ihe => exact ihe (hG _ _ hi)

section Lists

variable {es : List (Expr ι)}

theorem fits_seqs (h : ∀ e ∈ es, e.Fits n) : (seqs es).Fits n := by
  induction es with
  | nil => trivial
  | cons e es ih =>
    exact ⟨h e mem_cons_self, ih fun e' he' => h e' (mem_cons_of_mem e he')⟩

theorem fits_choices (h : ∀ e ∈ es, e.Fits n) : (choices es).Fits n := by
  induction es with
  | nil => trivial
  | cons e es ih =>
    exact ⟨h e mem_cons_self, ih fun e' he' => h e' (mem_cons_of_mem e he')⟩

theorem fits_times (h : a.Fits n) (m : ℕ) : (times a m).Fits n := by
  induction m with
  | zero => trivial
  | succ m ih => exact ⟨h, ih⟩

theorem fits_upTo (h : a.Fits n) (m : ℕ) : (upTo a m).Fits n := by
  induction m with
  | zero => trivial
  | succ m ih => exact ⟨⟨h, ih⟩, trivial⟩

theorem fits_repeated (h : a.Fits n) (least : ℕ) (most : Option ℕ) :
    (repeated a least most).Fits n := by
  cases most with
  | none => exact ⟨fits_times h least, h⟩
  | some most =>
    refine ⟨fits_times h least, ?_⟩
    split
    · trivial
    · exact fits_upTo h (most - least)

end Lists

/-- The expressions that may succeed and consume nothing. -/
inductive Nullable (G : ι → Option (Expr ι)) : Expr ι → Prop
  | empty : Nullable G .empty
  | terminal {m : ℕ → Option ℕ} {p : ℕ} (h : m p = some p) : Nullable G (.terminal m)
  | seq {a b : Expr ι} (ha : Nullable G a) (hb : Nullable G b) : Nullable G (.seq a b)
  | choiceLeft {a b : Expr ι} (ha : Nullable G a) : Nullable G (.choice a b)
  | choiceRight {a b : Expr ι} (hb : Nullable G b) : Nullable G (.choice a b)
  | star (a : Expr ι) : Nullable G (.star a)
  | and (a : Expr ι) : Nullable G (.and a)
  | not (a : Expr ι) : Nullable G (.not a)
  | call {i : ι} {e : Expr ι} (hi : G i = some e) (he : Nullable G e) : Nullable G (.call i)

theorem Parses.nullable (hG : ∀ i e, G i = some e → e.Fits n) (h : Parses G e p o)
    (he : e.Fits n) : o = some p → Nullable G e := by
  induction h with
  | empty p => exact fun _ => .empty
  | fail p => exact nofun
  | terminal m p => exact .terminal
  | @seq a b p q o ha hb iha ihb =>
    rintro rfl
    obtain rfl : q = p := le_antisymm (hb.bounds hG he.2 p rfl).1 (ha.bounds hG he.1 q rfl).1
    exact .seq (iha he.1 rfl) (ihb he.2 rfl)
  | seqFail ha iha => exact nofun
  | choice ha iha => exact fun hq => .choiceLeft (iha he.1 hq)
  | choiceElse ha hb iha ihb => exact fun hq => .choiceRight (ihb he.2 hq)
  | starFail ha iha => exact fun _ => .star _
  | starEmpty ha iha => exact fun _ => .star _
  | star ha hne hstar iha ihstar => exact fun _ => .star _
  | and ha iha => exact fun _ => .and _
  | andFail ha iha => exact nofun
  | not ha iha => exact fun _ => .not _
  | notFail ha iha => exact nofun
  | call hi he' ihe => exact fun hq => .call hi (ihe (hG _ _ hi) hq)

/-! ## Left recursion -/

/-- A name that an expression may try where it is tried itself. -/
def Leftmost (G : ι → Option (Expr ι)) : Expr ι → ι → Prop
  | .seq a b, i => Leftmost G a i ∨ Nullable G a ∧ Leftmost G b i
  | .choice a b, i => Leftmost G a i ∨ Leftmost G b i
  | .star a, i => Leftmost G a i
  | .and a, i => Leftmost G a i
  | .not a, i => Leftmost G a i
  | .call j, i => i = j
  | _, _ => False

/-- A name that the expression of another one may try first of all. -/
def LeftCalls (G : ι → Option (Expr ι)) (i j : ι) : Prop := ∃ e, G i = some e ∧ Leftmost G e j

/-- No name comes back to itself before something is consumed. -/
def NotLeftRecursive (G : ι → Option (Expr ι)) : Prop := ∀ i, ¬Relation.TransGen (LeftCalls G) i i

theorem NotLeftRecursive.wellFounded (h : NotLeftRecursive G)
    (hfinite : {i | (G i).isSome}.Finite) :
    WellFounded fun j i => LeftCalls G i j := by
  have : Finite {i | (G i).isSome} := hfinite
  have houtside : ∀ i, G i = none → Acc (fun j i => LeftCalls G i j) i := by
    intro i hi
    refine Acc.intro i fun j hj => ?_
    obtain ⟨e, he, -⟩ := hj
    rw [hi] at he
    cases he
  let r : {i | (G i).isSome} → {i | (G i).isSome} → Prop :=
    fun j i => Relation.TransGen (LeftCalls G) i j
  have htrans : IsTrans _ r := ⟨fun _ _ _ hab hbc => hbc.trans hab⟩
  have hirrefl : Std.Irrefl r := ⟨fun i => h i⟩
  have hwf : WellFounded r := Finite.wellFounded_of_trans_of_irrefl r
  have hinside : ∀ i : {i | (G i).isSome}, Acc (fun j i => LeftCalls G i j) i.val := by
    intro i
    induction i using hwf.induction with
    | _ i ih =>
      refine Acc.intro i.val fun j hj => ?_
      cases hGj : G j with
      | none => exact houtside j hGj
      | some e => exact ih ⟨j, by simp [hGj]⟩ (.single hj)
  refine ⟨fun i => ?_⟩
  cases hGi : G i with
  | none => exact houtside i hGi
  | some e => exact hinside ⟨i, by simp [hGi]⟩

/-- The names in an expression have expressions. -/
def Expr.Closed (G : ι → Option (Expr ι)) : Expr ι → Prop
  | .seq a b => a.Closed G ∧ b.Closed G
  | .choice a b => a.Closed G ∧ b.Closed G
  | .star a => a.Closed G
  | .and a => a.Closed G
  | .not a => a.Closed G
  | .call i => (G i).isSome
  | _ => True

section Lists

variable {es : List (Expr ι)}

theorem nullable_repeated_zero (a : Expr ι) (most : Option ℕ) : Nullable G (repeated a 0 most) := by
  cases most with
  | none => exact .seq .empty (.star a)
  | some most =>
    refine .seq .empty ?_
    rw [if_neg (not_lt_zero most)]
    cases most with
    | zero => exact .empty
    | succ most => exact .choiceRight .empty

theorem leftmost_repeated (h : Leftmost G a i) (least : ℕ) {most : Option ℕ}
    (hmost : most ≠ some 0) : Leftmost G (repeated a least most) i := by
  cases least with
  | zero =>
    cases most with
    | none => exact .inr ⟨.empty, h⟩
    | some most =>
      refine .inr ⟨.empty, ?_⟩
      rw [if_neg (not_lt_zero most)]
      cases most with
      | zero => exact absurd rfl hmost
      | succ most => exact .inl (.inl h)
  | succ least =>
    cases most with
    | none => exact .inl (.inl h)
    | some most => exact .inl (.inl h)

theorem closed_seqs (h : ∀ e ∈ es, e.Closed G) : (seqs es).Closed G := by
  induction es with
  | nil => trivial
  | cons e es ih =>
    exact ⟨h e mem_cons_self, ih fun e' he' => h e' (mem_cons_of_mem e he')⟩

theorem closed_choices (h : ∀ e ∈ es, e.Closed G) : (choices es).Closed G := by
  induction es with
  | nil => trivial
  | cons e es ih =>
    exact ⟨h e mem_cons_self, ih fun e' he' => h e' (mem_cons_of_mem e he')⟩

theorem closed_times (h : a.Closed G) (m : ℕ) : (times a m).Closed G := by
  induction m with
  | zero => trivial
  | succ m ih => exact ⟨h, ih⟩

theorem closed_upTo (h : a.Closed G) (m : ℕ) : (upTo a m).Closed G := by
  induction m with
  | zero => trivial
  | succ m ih => exact ⟨⟨h, ih⟩, trivial⟩

theorem closed_repeated (h : a.Closed G) (least : ℕ) (most : Option ℕ) :
    (repeated a least most).Closed G := by
  cases most with
  | none => exact ⟨closed_times h least, h⟩
  | some most =>
    refine ⟨closed_times h least, ?_⟩
    split
    · trivial
    · exact closed_upTo h (most - least)

end Lists

/-- An expression has an outcome when its names have one further on, and those that it may try
first have one where it is tried. -/
theorem exists_parses_of (hG : ∀ i e, G i = some e → e.Fits n) (hfits : e.Fits n)
    (hclosed : e.Closed G)
    (hfurther : ∀ i q, (G i).isSome → p < q → q ≤ n → ∃ o, Parses G (.call i) q o)
    (hhere : ∀ i, (G i).isSome → Leftmost G e i → ∃ o, Parses G (.call i) p o) :
    ∃ o, Parses G e p o := by
  induction e generalizing p with
  | empty => exact ⟨_, .empty p⟩
  | fail => exact ⟨_, .fail p⟩
  | terminal m => exact ⟨_, .terminal m p⟩
  | seq a b iha ihb =>
    obtain ⟨o, ha⟩ := iha hfits.1 hclosed.1 hfurther fun i hi hleft => hhere i hi (.inl hleft)
    cases o with
    | none => exact ⟨_, .seqFail ha⟩
    | some q =>
      obtain ⟨hle, hmax⟩ := ha.bounds hG hfits.1 q rfl
      rcases Nat.eq_or_lt_of_le hle with rfl | hlt
      · have hnullable := ha.nullable hG hfits.1 rfl
        obtain ⟨o, hb⟩ := ihb hfits.2 hclosed.2 hfurther fun i hi hleft =>
          hhere i hi (.inr ⟨hnullable, hleft⟩)
        exact ⟨o, .seq ha hb⟩
      · have hqn : q ≤ n := by omega
        obtain ⟨o, hb⟩ := ihb hfits.2 hclosed.2
          (fun i q' hi hq' => hfurther i q' hi (Nat.lt_trans hlt hq'))
          fun i hi _ => hfurther i q hi hlt hqn
        exact ⟨o, .seq ha hb⟩
  | choice a b iha ihb =>
    obtain ⟨o, ha⟩ := iha hfits.1 hclosed.1 hfurther fun i hi hleft => hhere i hi (.inl hleft)
    cases o with
    | some q => exact ⟨_, .choice ha⟩
    | none =>
      obtain ⟨o, hb⟩ := ihb hfits.2 hclosed.2 hfurther fun i hi hleft => hhere i hi (.inr hleft)
      exact ⟨o, .choiceElse ha hb⟩
  | star a iha =>
    -- each iteration that is not the last one leaves less of the text
    induction hrest : n - p using Nat.strong_induction_on generalizing p with
    | _ rest ih =>
      obtain ⟨o, ha⟩ := iha hfits hclosed hfurther hhere
      cases o with
      | none => exact ⟨_, .starFail ha⟩
      | some q =>
        obtain ⟨hle, hmax⟩ := ha.bounds hG hfits q rfl
        rcases Nat.eq_or_lt_of_le hle with rfl | hlt
        · exact ⟨_, .starEmpty ha⟩
        · have hqn : q ≤ n := by omega
          obtain ⟨o, hstar⟩ := ih (n - q) (by omega)
            (fun i q' hi hq' => hfurther i q' hi (Nat.lt_trans hlt hq'))
            (fun i hi _ => hfurther i q hi hlt hqn) rfl
          exact ⟨o, .star ha (Nat.ne_of_gt hlt) hstar⟩
  | and a iha =>
    obtain ⟨o, ha⟩ := iha hfits hclosed hfurther hhere
    cases o with
    | none => exact ⟨_, .andFail ha⟩
    | some q => exact ⟨_, .and ha⟩
  | not a iha =>
    obtain ⟨o, ha⟩ := iha hfits hclosed hfurther hhere
    cases o with
    | none => exact ⟨_, .not ha⟩
    | some q => exact ⟨_, .notFail ha⟩
  | call i => exact hhere i hclosed rfl

/-- A grammar without left recursion has an outcome for each of its names everywhere. -/
theorem exists_parses_call (hG : ∀ i e, G i = some e → e.Fits n)
    (hclosed : ∀ i e, G i = some e → e.Closed G) (hwf : WellFounded fun j i => LeftCalls G i j)
    (hi : (G i).isSome) (p : ℕ) : ∃ o, Parses G (.call i) p o := by
  induction hrest : n - p using Nat.strong_induction_on generalizing p i with
  | _ rest ihrest =>
    induction i using hwf.induction with
    | _ i ih =>
      obtain ⟨e, he⟩ := Option.isSome_iff_exists.mp hi
      obtain ⟨o, ho⟩ := exists_parses_of hG (hG i e he) (hclosed i e he)
        (fun j q hj hlt hq => ihrest (n - q) (by omega) hj q rfl)
        fun j hj hleft => ih j ⟨e, he, hleft⟩ hj
      exact ⟨o, .call he ho⟩

end ExpertPin.ParsingExpressions
