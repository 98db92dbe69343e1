import Mathlib.Data.Fintype.Card

/-!
# The barrier of the compute threads

Between the operations of a graph the threads meet in `ggml_barrier_impl`, over and over with
the same two counters.  In no interleaving of their atomic operations does a thread get
through a barrier that another has not come to, or do they all wait for each other
(`run_spec`).
-/

namespace ExpertPin.Ggml.Barrier

open Function (update update_self update_of_ne)

/-- The next atomic operation of a thread. -/
inductive Phase where
  | outside
  | loaded (passedOld : Int32)
  | waiting (passedOld : Int32)
  /-- The last thread sets `n_barrier` back, and then counts up `n_barrier_passed`. -/
  | resetting
  | releasing

structure Thread where
  phase : Phase := .outside
  /-- The barriers that it got through. -/
  rounds : ℕ := 0

/-- The barriers that it came to. -/
def Thread.arrivals (t : Thread) : ℕ :=
  match t.phase with
  | .outside | .loaded _ => t.rounds
  | _ => t.rounds + 1

structure State (n : ℕ) where
  nBarrier : ℕ := 0
  nBarrierPassed : Int32 := 0
  threads : Fin n → Thread := fun _ => {}

variable {n : ℕ}

def State.set (s : State n) (i : Fin n) (t : Thread) : State n :=
  { s with threads := update s.threads i t }

/-- An operation of a thread, which calls `ggml_barrier_impl` again and again. -/
def step (s : State n) (i : Fin n) : State n :=
  match s.threads i with
  | ⟨.outside, r⟩ => s.set i (if n = 1 then ⟨.outside, r + 1⟩ else ⟨.loaded s.nBarrierPassed, r⟩)
  | ⟨.loaded passedOld, r⟩ => { s with nBarrier := s.nBarrier + 1 }.set i
    ⟨if s.nBarrier = n - 1 then .resetting else .waiting passedOld, r⟩
  | ⟨.waiting passedOld, r⟩ =>
    if s.nBarrierPassed ≠ passedOld then s.set i ⟨.outside, r + 1⟩ else s
  | ⟨.resetting, r⟩ => { s with nBarrier := 0 }.set i ⟨.releasing, r⟩
  | ⟨.releasing, r⟩ =>
    { s with nBarrierPassed := s.nBarrierPassed + 1 }.set i ⟨.outside, r + 1⟩

/-- A thread that is not counted in a round. -/
inductive Early : Int32 → ℕ → Thread → Prop
  | outside {p r} : Early p r ⟨.outside, r⟩
  | loaded {p r} : Early p r ⟨.loaded p, r⟩
  | late {p r} : Early (p + 1) (r + 1) ⟨.waiting p, r⟩

/-- Until the last has come to a round, `n_barrier` counts those that wait. -/
inductive Inv (s : State n) (r : ℕ) : Prop
  | counting (arrived : Finset (Fin n)) (count : s.nBarrier = arrived.card) (lt : arrived.card < n)
      (wait : ∀ i ∈ arrived, s.threads i = ⟨.waiting s.nBarrierPassed, r⟩)
      (early : ∀ i ∉ arrived, Early s.nBarrierPassed r (s.threads i))
  | closing (i : Fin n)
      (close : s.threads i = ⟨.resetting, r⟩ ∨ s.threads i = ⟨.releasing, r⟩ ∧ s.nBarrier = 0)
      (wait : ∀ j ≠ i, s.threads j = ⟨.waiting s.nBarrierPassed, r⟩)

variable {s : State n} {r : ℕ} {i j : Fin n} {t : Thread}

theorem set_self : (s.set i t).threads i = t := update_self ..

theorem set_of_ne (h : j ≠ i) : (s.set i t).threads j = s.threads j := update_of_ne h ..

theorem step_of_waiting (h : s.threads i = ⟨.waiting s.nBarrierPassed, r⟩) : step s i = s := by
  simp [step, h]

theorem Inv.set {arrived : Finset (Fin n)} (count : s.nBarrier = arrived.card)
    (lt : arrived.card < n)
    (wait : ∀ j ∈ arrived, j ≠ i → s.threads j = ⟨.waiting s.nBarrierPassed, r⟩)
    (early : ∀ j ∉ arrived, j ≠ i → Early s.nBarrierPassed r (s.threads j))
    (hi : if i ∈ arrived then t = ⟨.waiting s.nBarrierPassed, r⟩ else Early s.nBarrierPassed r t) :
    Inv (s.set i t) r := by
  refine .counting arrived count lt (fun j hj => ?_) fun j hj => ?_ <;> by_cases h : j = i
  · subst h
    exact set_self.trans ((if_pos hj).mp hi)
  · exact (set_of_ne h).trans (wait j hj h)
  · subst h
    exact set_self.symm ▸ (if_neg hj).mp hi
  · exact (set_of_ne h).symm ▸ early j hj h

theorem Inv.step (h : Inv s r) (i : Fin n) : ∃ r', Inv (step s i) r' := by
  cases h with
  | counting arrived count lt wait early =>
    by_cases hi : i ∈ arrived
    · exact ⟨r, (step_of_waiting (wait i hi)).symm ▸ .counting arrived count lt wait early⟩
    · have hearly := early i hi
      have hset (t : Thread) (ht : Early s.nBarrierPassed r t) : Inv (s.set i t) r :=
        Inv.set count lt (fun j hj _ => wait j hj) (fun j hj _ => early j hj) (by rwa [if_neg hi])
      have hcard := (Finset.card_insert_of_notMem hi).trans (congrArg (· + 1) count.symm)
      rw [Barrier.step]
      generalize s.threads i = t at hearly
      generalize hp : s.nBarrierPassed = p at *
      cases hearly with
      | outside =>
        by_cases hn : n = 1
        · subst hn
          obtain rfl := Finset.card_eq_zero.mp (Nat.lt_one_iff.mp lt)
          exact ⟨r + 1, Inv.set count lt (fun j _ hj => absurd (Subsingleton.elim j i) hj)
            (fun j _ hj => absurd (Subsingleton.elim j i) hj) .outside⟩
        · exact ⟨r, by simpa only [if_neg hn] using hset _ .loaded⟩
      | loaded =>
        refine ⟨r, ?_⟩
        by_cases hlast : s.nBarrier = n - 1
        · have hall : insert i arrived = Finset.univ :=
            Finset.eq_univ_of_card _ (by rw [hcard, Fintype.card_fin]; omega)
          refine .closing i (.inl (set_self.trans (by rw [if_pos hlast]))) fun j hj => ?_
          have hmem := Finset.mem_of_mem_insert_of_ne (hall ▸ Finset.mem_univ j) hj
          exact (set_of_ne hj).trans (hp ▸ wait j hmem)
        · simp only [if_neg hlast]
          exact Inv.set hcard.symm (by omega)
            (fun j hj hne => wait j (Finset.mem_of_mem_insert_of_ne hj hne))
            (fun j hj _ => early j (mt Finset.mem_insert_of_mem hj))
            (if_pos (Finset.mem_insert_self i arrived) ▸ rfl)
      | late => exact ⟨_, by simpa using hset _ .outside⟩
  | closing c close wait =>
    by_cases hi : i = c
    · subst hi
      rcases close with hc | ⟨hc, hzero⟩
      · exact ⟨r, by
          rw [Barrier.step, hc]
          exact .closing i (.inr ⟨set_self, rfl⟩) fun j hj => (set_of_ne hj).trans (wait j hj)⟩
      · refine ⟨r + 1, ?_⟩
        rw [Barrier.step, hc]
        refine Inv.set (hzero.trans Finset.card_empty.symm) i.pos (fun j hj => ?_)
          (fun j _ hj => ?_) ?_
        · simp at hj
        · rw [wait j hj]
          exact .late
        · rw [if_neg (Finset.notMem_empty i)]
          exact .outside
    · exact ⟨r, (step_of_waiting (wait i hi)).symm ▸ .closing c close wait⟩

theorem Early.rounds_le {p : Int32} (h : Early p r t) : t.rounds ≤ r ∧ r ≤ t.arrivals := by
  cases h <;> simp [Thread.arrivals]

theorem Inv.rounds_le (h : Inv s r) (i : Fin n) :
    (s.threads i).rounds ≤ r ∧ r ≤ (s.threads i).arrivals := by
  have hwait (hi : s.threads i = ⟨.waiting s.nBarrierPassed, r⟩) :
      (s.threads i).rounds ≤ r ∧ r ≤ (s.threads i).arrivals := by simp [hi, Thread.arrivals]
  cases h with
  | counting arrived count lt wait early =>
    by_cases hi : i ∈ arrived
    · exact hwait (wait i hi)
    · exact (early i hi).rounds_le
  | closing c close wait =>
    by_cases hi : i = c
    · subst hi
      rcases close with hc | ⟨hc, -⟩ <;> simp [hc, Thread.arrivals]
    · exact hwait (wait i hi)

theorem Early.step_ne (h : Early s.nBarrierPassed r (s.threads i)) :
    (Barrier.step s i).threads i ≠ s.threads i := by
  rw [Barrier.step]
  generalize s.threads i = t at h
  generalize s.nBarrierPassed = p at *
  cases h with
  | outside => by_cases hn : n = 1 <;> simp [hn, set_self]
  | loaded => by_cases hlast : s.nBarrier = n - 1 <;> simp [hlast, set_self]
  | late => simp [set_self]

theorem Inv.exists_step_ne (h : Inv s r) : ∃ i, (Barrier.step s i).threads i ≠ s.threads i := by
  cases h with
  | counting arrived _ lt _ early =>
    obtain ⟨i, -, hi⟩ := Finset.exists_mem_notMem_of_card_lt_card
      (lt.trans_eq (Finset.card_fin n).symm)
    exact ⟨i, (early i hi).step_ne⟩
  | closing i close =>
    refine ⟨i, ?_⟩
    rcases close with hc | ⟨hc, -⟩ <;> simp [Barrier.step, hc, set_self]

/-- From any value of `n_barrier_passed`, for any order of the operations. -/
theorem run_spec (nBarrierPassed : Int32) (turns : List (Fin (n + 1))) :
    let s := turns.foldl step { nBarrierPassed }
    (∀ i j, (s.threads i).rounds ≤ (s.threads j).arrivals) ∧
      ∃ i, (step s i).threads i ≠ s.threads i := by
  have hrun : ∃ r, Inv (turns.foldl step { nBarrierPassed }) r := by
    refine List.foldlRecOn turns step (motive := fun s => ∃ r, Inv s r) ⟨0, ?_⟩
      fun s ⟨_, h⟩ i _ => h.step i
    exact .counting ∅ rfl n.succ_pos nofun fun _ _ => .outside
  obtain ⟨r, h⟩ := hrun
  exact ⟨fun i j => (h.rounds_le i).1.trans (h.rounds_le j).2, h.exists_step_ne⟩

end ExpertPin.Ggml.Barrier
