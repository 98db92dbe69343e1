import Mathlib.Data.Nat.Count

/-!
# Moving the contents of slots

Two facts about arrays whose slots are full or empty.  Filling or freeing one slot
changes the number of full ones by one (`Slots.count_fill`, `Slots.count_free`).  And
copies of ranges of slots that are executed one after the other have the effect of one
simultaneous relocation, provided that no slot is both read and written and that no slot
is written from two places (`Relocation.execute_target`, `Relocation.execute_other`).
-/

namespace ExpertPin

open List
open Nat

universe u

/-! ## Counting full slots -/

namespace Slots

variable {p q : ℕ → Prop} [DecidablePred p] [DecidablePred q] {i n : ℕ}

theorem count_congr (h : ∀ j, j < n → (p j ↔ q j)) : Nat.count p n = Nat.count q n :=
  le_antisymm (count_mono_left fun j hj => (h j hj).mp)
    (count_mono_left fun j hj => (h j hj).mpr)

/-- One more slot is full. -/
theorem count_fill (hi : i < n) (hp : ¬p i) (hq : q i)
    (h : ∀ j, j < n → j ≠ i → (q j ↔ p j)) : Nat.count q n = Nat.count p n + 1 := by
  induction n with
  | zero => exact absurd hi (Nat.not_lt_zero i)
  | succ n ih =>
    rw [Nat.count_succ, Nat.count_succ]
    rcases Nat.lt_succ_iff_lt_or_eq.mp hi with hlt | rfl
    · have hn : q n ↔ p n := h n (Nat.lt_succ_self n) (Nat.ne_of_gt hlt)
      rw [ih hlt fun j hj => h j (Nat.lt_succ_of_lt hj), if_congr hn rfl rfl,
        Nat.add_right_comm]
    · rw [if_pos hq, if_neg hp]
      have hrest : Nat.count q i = Nat.count p i :=
        count_congr fun j hj => h j (Nat.lt_succ_of_lt hj) (Nat.ne_of_lt hj)
      rw [hrest, Nat.add_zero]

/-- One slot less is full. -/
theorem count_free (hi : i < n) (hp : p i) (hq : ¬q i)
    (h : ∀ j, j < n → j ≠ i → (q j ↔ p j)) : Nat.count q n + 1 = Nat.count p n :=
  (count_fill hi hq hp fun j hj hji => (h j hj hji).symm).symm

/-- A slot is freed and another one filled. -/
theorem count_move {k : ℕ} (hi : i < n) (hk : k < n) (hpi : p i) (hpk : ¬p k) (hqi : ¬q i)
    (hqk : q k) (h : ∀ j, j ≠ i → j ≠ k → (q j ↔ p j)) : Nat.count q n = Nat.count p n := by
  have hik : i ≠ k := fun heq => hpk (heq ▸ hpi)
  let r : ℕ → Prop := fun j => p j ∨ j = k
  have hfill : count r n = count p n + 1 :=
    count_fill hk hpk (.inr rfl) fun j _ hjk => or_iff_left hjk
  have hfree : count q n + 1 = count r n := by
    apply count_free hi (.inl hpi) hqi
    intro j _ hji
    by_cases hjk : j = k
    · exact iff_of_true (hjk ▸ hqk) (.inr hjk)
    · exact (h j hji hjk).trans (or_iff_left hjk).symm
  exact succ.inj (hfree.trans hfill)

/-- Empty slots at the end do not count. -/
theorem count_eq_of_free {m : ℕ} (hmn : m ≤ n) (h : ∀ k, m ≤ k → k < n → ¬p k) :
    Nat.count p n = Nat.count p m := by
  induction n with
  | zero => rw [le_zero.mp hmn]
  | succ n ih =>
    rcases lt_or_eq_of_le hmn with hlt | rfl
    · have hle := le_of_lt_succ hlt
      rw [count_succ, if_neg (h n hle (lt_succ_self n)), add_zero]
      exact ih hle fun k hk hkn => h k hk (lt_succ_of_lt hkn)
    · rfl

end Slots

/-! ## Copies of ranges -/

namespace Relocation

variable {α : Type u}

/-- Copy `len` slots from `src` on to `dst` on. -/
structure Run where
  src : ℕ
  dst : ℕ
  len : ℕ
deriving DecidableEq, Repr

/-- The slots after a copy; what is read is the state before it. -/
def Run.copy (r : Run) (m : ℕ → α) : ℕ → α := fun k =>
  if r.dst ≤ k ∧ k < r.dst + r.len then m (r.src + (k - r.dst)) else m k

/-- The copies one after the other. -/
def execute (runs : List Run) (m : ℕ → α) : ℕ → α := runs.foldl (fun m r => r.copy m) m

theorem execute_cons (r : Run) (runs : List Run) (m : ℕ → α) :
    execute (r :: runs) m = execute runs (r.copy m) := rfl

variable {m : ℕ → α} {r : Run} {runs : List Run} {k e : ℕ}

theorem Run.copy_target (he : e < r.len) : r.copy m (r.dst + e) = m (r.src + e) := by
  rw [Run.copy, if_pos ⟨Nat.le_add_right _ _, Nat.add_lt_add_left he _⟩, Nat.add_sub_cancel_left]

theorem Run.copy_other (h : ∀ e, e < r.len → k ≠ r.dst + e) : r.copy m k = m k := by
  apply if_neg
  rintro ⟨hle, hlt⟩
  exact h (k - r.dst) (Nat.sub_lt_left_of_lt_add hle hlt) (Nat.add_sub_cancel' hle).symm

/-- What no copy writes is unchanged. -/
theorem execute_other (h : ∀ r ∈ runs, ∀ e, e < r.len → k ≠ r.dst + e) :
    execute runs m k = m k := by
  induction runs generalizing m with
  | nil => rfl
  | cons r runs ih =>
    rw [execute_cons, ih fun s hs => h s (mem_cons_of_mem _ hs)]
    exact Run.copy_other (h r mem_cons_self)

/-- No slot is both read and written, and none is written from two places. -/
structure Separate (runs : List Run) : Prop where
  apart : ∀ r ∈ runs, ∀ e, e < r.len → ∀ s ∈ runs, ∀ f, f < s.len → r.src + e ≠ s.dst + f
  unique : ∀ r ∈ runs, ∀ e, e < r.len → ∀ s ∈ runs, ∀ f, f < s.len →
    r.dst + e = s.dst + f → r.src + e = s.src + f

theorem Separate.tail (h : Separate (r :: runs)) : Separate runs where
  apart s hs e he t ht := h.apart s (mem_cons_of_mem _ hs) e he t (mem_cons_of_mem _ ht)
  unique s hs e he t ht :=
    h.unique s (mem_cons_of_mem _ hs) e he t (mem_cons_of_mem _ ht)

/-- What separate copies write is what the source held before all of them. -/
theorem execute_target (hsep : Separate runs) (hr : r ∈ runs) (he : e < r.len) :
    execute runs m (r.dst + e) = m (r.src + e) := by
  induction runs generalizing m r e with
  | nil => exact absurd hr not_mem_nil
  | cons s runs ih =>
    rw [execute_cons]
    by_cases hlater : ∃ t ∈ runs, ∃ f, f < t.len ∧ r.dst + e = t.dst + f
    · obtain ⟨t, ht, f, hf, heq⟩ := hlater
      have hmem := mem_cons_of_mem s ht
      rw [hsep.unique r hr e he t hmem f hf heq, heq, ih hsep.tail ht hf]
      exact Run.copy_other fun g hg => hsep.apart t hmem f hf s mem_cons_self g hg
    · have hnot : ∀ t ∈ runs, ∀ f, f < t.len → r.dst + e ≠ t.dst + f :=
        fun t ht f hf heq => hlater ⟨t, ht, f, hf, heq⟩
      rw [execute_other hnot]
      rcases mem_cons.mp hr with rfl | hmem
      · exact Run.copy_target he
      · exact absurd rfl (hnot r hmem e he)

theorem execute_append (rs ss : List Run) (m : ℕ → α) :
    execute (rs ++ ss) m = execute ss (execute rs m) := foldl_append

/-! ## Slots of several units

A slot may take several units of a larger memory; `addr k c` is where component `c` of slot
`k` lies.  The copy of a range of slots is then a list of copies of units. -/

section Encoded

variable {κ : Type} {addr : ℕ → κ → ℕ} {n : ℕ} {f : Run → List Run} {mem : ℕ → α}

/-- The unit copies `f r` move each component of each slot of `r`, and nothing else. -/
structure Encodes (addr : ℕ → κ → ℕ) (r : Run) (units : List Run) : Prop where
  sound : ∀ b ∈ units, ∀ e, e < b.len → ∃ j, j < r.len ∧ ∃ c,
    b.src + e = addr (r.src + j) c ∧ b.dst + e = addr (r.dst + j) c
  complete : ∀ j, j < r.len → ∀ c, ∃ b ∈ units, ∃ e, e < b.len ∧
    b.src + e = addr (r.src + j) c ∧ b.dst + e = addr (r.dst + j) c

/-- Components of the slots below `n` have addresses of their own. -/
def Distinct (addr : ℕ → κ → ℕ) (n : ℕ) : Prop :=
  ∀ k l c d, k < n → l < n → addr k c = addr l d → k = l ∧ c = d

theorem Distinct.mono {m : ℕ} (h : Distinct addr n) (hmn : m ≤ n) : Distinct addr m :=
  fun k l c d hk hl => h k l c d (hk.trans_le hmn) (hl.trans_le hmn)

/-- The copies stay below `n`. -/
def Within (n : ℕ) (runs : List Run) : Prop :=
  ∀ r ∈ runs, ∀ e, e < r.len → r.src + e < n ∧ r.dst + e < n

theorem Separate.encoded (hsep : Separate runs) (hin : Within n runs) (hd : Distinct addr n)
    (henc : ∀ r ∈ runs, Encodes addr r (f r)) : Separate (runs.flatMap f) where
  apart b hb e he b' hb' e' he' heq := by
    obtain ⟨r, hr, hbr⟩ := mem_flatMap.mp hb
    obtain ⟨r', hr', hbr'⟩ := mem_flatMap.mp hb'
    obtain ⟨j, hj, c, hsrc, _⟩ := (henc r hr).sound b hbr e he
    obtain ⟨j', hj', c', _, hdst⟩ := (henc r' hr').sound b' hbr' e' he'
    rw [hsrc, hdst] at heq
    exact hsep.apart r hr j hj r' hr' j' hj'
      (hd _ _ c c' (hin r hr j hj).1 (hin r' hr' j' hj').2 heq).1
  unique b hb e he b' hb' e' he' heq := by
    obtain ⟨r, hr, hbr⟩ := mem_flatMap.mp hb
    obtain ⟨r', hr', hbr'⟩ := mem_flatMap.mp hb'
    obtain ⟨j, hj, c, hsrc, hdst⟩ := (henc r hr).sound b hbr e he
    obtain ⟨j', hj', c', hsrc', hdst'⟩ := (henc r' hr').sound b' hbr' e' he'
    rw [hdst, hdst'] at heq
    obtain ⟨hslot, rfl⟩ := hd _ _ c c' (hin r hr j hj).2 (hin r' hr' j' hj').2 heq
    rw [hsrc, hsrc', hsep.unique r hr j hj r' hr' j' hj' hslot]

/-- A slot that is written holds what its source held. -/
theorem execute_encoded_target (hsep : Separate runs) (hin : Within n runs)
    (hd : Distinct addr n) (henc : ∀ r ∈ runs, Encodes addr r (f r)) (hr : r ∈ runs)
    (he : e < r.len) (c : κ) :
    execute (runs.flatMap f) mem (addr (r.dst + e) c) = mem (addr (r.src + e) c) := by
  obtain ⟨b, hb, i, hi, hsrc, hdst⟩ := (henc r hr).complete e he c
  rw [← hsrc, ← hdst]
  exact execute_target (hsep.encoded hin hd henc) (mem_flatMap.mpr ⟨r, hr, hb⟩) hi

/-- The others are unchanged. -/
theorem execute_encoded_other (hin : Within n runs) (hd : Distinct addr n)
    (henc : ∀ r ∈ runs, Encodes addr r (f r)) (hk : k < n)
    (h : ∀ r ∈ runs, ∀ e, e < r.len → k ≠ r.dst + e) (c : κ) :
    execute (runs.flatMap f) mem (addr k c) = mem (addr k c) := by
  apply execute_other
  intro b hb i hi heq
  obtain ⟨r, hr, hbr⟩ := mem_flatMap.mp hb
  obtain ⟨j, hj, d, _, hdst⟩ := (henc r hr).sound b hbr i hi
  rw [hdst] at heq
  exact h r hr j hj (hd _ _ c d hk (hin r hr j hj).2 heq).1

end Encoded

end Relocation

end ExpertPin
