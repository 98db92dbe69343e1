import Mathlib.Data.List.Induction

/-!
# Lifecycles

A lifecycle is a partial function that says which actions are in order in a phase, and to which
phase they lead.  Where the actions of many parties are logged together, each party follows its own
actions.

A list of parties that act one after the other in one pass is given by `Pass`: each makes its own
move, and `Pass.actionsOf` reads the actions of one of them back from what the pass logs.
-/

namespace ExpertPin.Lifecycle

open List

universe u v w

variable {φ : Type u} {α : Type v} {ι : Type w}

/-! ## Following actions -/

/-- The phase that a list of actions leads to, if they are in order. -/
def follow (next : φ → α → Option φ) : φ → List α → Option φ
  | p, [] => some p
  | p, a :: as => (next p a).bind fun q => follow next q as

variable {next : φ → α → Option φ} {p q : φ} {a : α} {as bs : List α}

theorem follow_append :
    follow next p (as ++ bs) = (follow next p as).bind fun q => follow next q bs := by
  induction as generalizing p with
  | nil => rfl
  | cons a as ih =>
    cases hnext : next p a with
    | none => simp [follow, hnext]
    | some q => simp [follow, hnext, ih]

theorem follow_split (h : follow next p (as ++ bs) = some q) :
    ∃ m, follow next p as = some m ∧ follow next m bs = some q := by
  rw [follow_append] at h
  exact Option.bind_eq_some_iff.mp h

theorem follow_cons (h : follow next p (a :: as) = some q) :
    ∃ m, next p a = some m ∧ follow next m as = some q :=
  Option.bind_eq_some_iff.mp h

theorem follow_trans {m : φ} (h : follow next p as = some m) (h' : follow next m bs = some q) :
    follow next p (as ++ bs) = some q := by
  rw [follow_append, h]
  exact h'

/-- An action that leads to where it is done may be repeated. -/
theorem follow_replicate (h : next p a = some p) (n : ℕ) :
    follow next p (List.replicate n a) = some p := by
  induction n with
  | zero => rfl
  | succ n ih => simp [replicate_succ, follow, h, ih]

/-- What holds at first and is kept by each action that is in order holds of all actions and the
phase that they lead to. -/
theorem follow_history {P : List α → φ → Prop} (hfirst : P [] p)
    (hstep : ∀ as m a q, P as m → next m a = some q → P (as ++ [a]) q)
    (h : follow next p as = some q) : P as q := by
  induction as using reverseRecOn generalizing q with
  | nil =>
    obtain rfl := Option.some.inj h
    exact hfirst
  | append_singleton as a ih =>
    obtain ⟨m, hm, hlast⟩ := follow_split h
    obtain ⟨q', hq', hrest⟩ := follow_cons hlast
    obtain rfl := Option.some.inj hrest
    exact hstep as m a q' (ih hm) hq'

/-- In a phase that is never left all actions are such as are in order in it. -/
theorem follow_last {Q : α → Prop} (hlast : ∀ a q, next p a = some q → q = p ∧ Q a)
    (h : follow next p as = some q) : ∀ a ∈ as, Q a := by
  induction as with
  | nil => exact fun a ha => absurd ha not_mem_nil
  | cons b as ih =>
    obtain ⟨m, hm, hrest⟩ := follow_cons h
    obtain ⟨rfl, hQ⟩ := hlast b m hm
    intro a ha
    rcases mem_cons.mp ha with rfl | ha
    · exact hQ
    · exact ih hrest a ha

/-! ## Passes -/

/-- What is logged of a party, if that has a name. -/
def entries (owner : Option ι) (as : List α) : List (ι × α) :=
  match owner with
  | some i => as.map fun a => (i, a)
  | none => []

@[simp] theorem entries_nil {owner : Option ι} : entries owner ([] : List α) = [] := by
  cases owner <;> rfl

variable {σ : Type*} {owner : σ → Option ι} {Moves : σ → σ → List α → Prop}

/-- All of a list of parties move, each once and in order. -/
inductive Pass (owner : σ → Option ι) (Moves : σ → σ → List α → Prop) :
    List σ → List σ → List (ι × α) → Prop
  | nil : Pass owner Moves [] [] []
  | cons {s s' : σ} {as : List α} {ss ss' : List σ} {log : List (ι × α)} (move : Moves s s' as)
      (rest : Pass owner Moves ss ss' log) :
      Pass owner Moves (s :: ss) (s' :: ss') (entries (owner s) as ++ log)

variable {s : σ} {ss ss' : List σ} {i : ι} {log log' : List (ι × α)}

/-- Every move keeps the owner, so a pass keeps the list of owners. -/
theorem Pass.filterMap_owner (howner : ∀ s s' as, Moves s s' as → owner s' = owner s)
    (h : Pass owner Moves ss ss' log) : ss'.filterMap owner = ss.filterMap owner := by
  induction h with
  | nil => rfl
  | cons move _ ih => rw [filterMap_cons, filterMap_cons, howner _ _ _ move, ih]

/-- Everyone in the list after a pass has made a move. -/
theorem Pass.exists_moves {s' : σ} (h : Pass owner Moves ss ss' log) (hs' : s' ∈ ss') :
    ∃ s ∈ ss, ∃ as, Moves s s' as := by
  induction h with
  | nil => exact absurd hs' not_mem_nil
  | cons move _ ih =>
    rcases mem_cons.mp hs' with rfl | hs'
    · exact ⟨_, mem_cons_self, _, move⟩
    · obtain ⟨s, hs, as, hmove⟩ := ih hs'
      exact ⟨s, mem_cons_of_mem _ hs, as, hmove⟩

/-- Where the names are distinct there is one party with a name. -/
theorem eq_of_owner (hdistinct : (ss.filterMap owner).Nodup) {t : σ} (hs : s ∈ ss) (ht : t ∈ ss)
    (hsi : owner s = some i) (hti : owner t = some i) : s = t := by
  induction ss with
  | nil => exact absurd hs not_mem_nil
  | cons r ss ih =>
    have hnot (hri : owner r = some i) : ∀ t ∈ ss, owner t ≠ some i := by
      intro t ht hti
      rw [filterMap_cons_some hri] at hdistinct
      exact (nodup_cons.mp hdistinct).1 (mem_filterMap.mpr ⟨t, ht, hti⟩)
    rcases mem_cons.mp hs with rfl | hs'
    · rcases mem_cons.mp ht with rfl | ht'
      · rfl
      · exact absurd hti (hnot hsi t ht')
    · rcases mem_cons.mp ht with rfl | ht'
      · exact absurd hsi (hnot hti s hs')
      · exact ih (hdistinct.sublist ((sublist_cons_self r ss).filterMap owner)) hs' ht'

/-! ## The actions of one party -/

variable [DecidableEq ι]

/-- What one party has done. -/
def actionsOf (log : List (ι × α)) (i : ι) : List α :=
  log.filterMap fun entry => if entry.1 = i then some entry.2 else none

@[simp] theorem actionsOf_nil : actionsOf ([] : List (ι × α)) i = [] := rfl

@[simp] theorem actionsOf_append :
    actionsOf (log ++ log') i = actionsOf log i ++ actionsOf log' i :=
  filterMap_append

theorem actionsOf_cons_self : actionsOf ((i, a) :: log) i = a :: actionsOf log i :=
  filterMap_cons_some (if_pos rfl)

theorem actionsOf_cons_of_ne {j : ι} (h : j ≠ i) : actionsOf ((j, a) :: log) i = actionsOf log i :=
  filterMap_cons_none (if_neg h)

@[simp] theorem actionsOf_entries_self : actionsOf (entries (some i) as) i = as := by
  induction as with
  | nil => rfl
  | cons a as ih => exact actionsOf_cons_self.trans (congrArg (cons a) ih)

theorem actionsOf_entries_of_ne {owner : Option ι} (h : owner ≠ some i) :
    actionsOf (entries owner as) i = [] := by
  cases owner with
  | none => rfl
  | some j =>
    induction as with
    | nil => rfl
    | cons a as ih => exact (actionsOf_cons_of_ne fun hji => h (congrArg some hji)).trans ih

/-- A party that is not among those of a pass logs nothing. -/
theorem Pass.actionsOf_of_forall_ne (h : Pass owner Moves ss ss' log)
    (hne : ∀ s ∈ ss, owner s ≠ some i) : actionsOf log i = [] := by
  induction h with
  | nil => rfl
  | cons _ _ ih =>
    rw [actionsOf_append, actionsOf_entries_of_ne (hne _ mem_cons_self),
      ih fun s hs => hne s (mem_cons_of_mem _ hs), append_nil]

/-- The names are distinct, so what the party with a name logs in a pass is read back. -/
theorem Pass.exists_actions (hdistinct : (ss.filterMap owner).Nodup)
    (h : Pass owner Moves ss ss' log) (hs : s ∈ ss) (hi : owner s = some i) :
    ∃ s' ∈ ss', Moves s s' (actionsOf log i) := by
  induction h with
  | nil => exact absurd hs not_mem_nil
  | @cons t t' as ss ss' log move rest ih =>
    rw [actionsOf_append]
    rcases mem_cons.mp hs with rfl | hs
    · have hrest : ∀ r ∈ ss, owner r ≠ some i := by
        intro r hr hri
        rw [filterMap_cons_some hi] at hdistinct
        exact (nodup_cons.mp hdistinct).1 (mem_filterMap.mpr ⟨r, hr, hri⟩)
      rw [hi, actionsOf_entries_self, rest.actionsOf_of_forall_ne hrest, append_nil]
      exact ⟨t', mem_cons_self, move⟩
    · have ht : owner t ≠ some i := by
        intro hti
        rw [filterMap_cons_some hti] at hdistinct
        exact (nodup_cons.mp hdistinct).1 (mem_filterMap.mpr ⟨s, hs, hi⟩)
      have hdistinct' : (ss.filterMap owner).Nodup :=
        hdistinct.sublist ((sublist_cons_self t ss).filterMap owner)
      obtain ⟨s', hs', hmove⟩ := ih hdistinct' hs
      rw [actionsOf_entries_of_ne ht, nil_append]
      exact ⟨s', mem_cons_of_mem _ hs', hmove⟩

end ExpertPin.Lifecycle
