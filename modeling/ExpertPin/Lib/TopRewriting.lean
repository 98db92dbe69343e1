import Mathlib.Data.List.Perm.Subperm

/-!
# Rewriting the top of a stack

The top element of a stack is replaced by a word of at most two elements.  The height of the
stacks that come of one is bounded unless an element comes back to itself with something below
it (`length_le_of_leads`, `not_growing_of_bounded`).  Whether a stack leads to one that is empty or
has a terminal on top is told by what its elements can begin with (`exists_ends_iff`).
-/

namespace ExpertPin.TopRewriting

open List

universe u

variable {Γ : Type u}

section Defs

variable (Step : Γ → List Γ → Prop) (Final : Γ → Prop)

/-- The top is replaced. -/
inductive Rewrites : List Γ → List Γ → Prop
  | mk {γ : Γ} {w : List Γ} (h : Step γ w) (s : List Γ) : Rewrites (γ :: s) (w ++ s)

def Leads : List Γ → List Γ → Prop := Relation.ReflTransGen (Rewrites Step)

/-- The element comes back to itself, with something left below it. -/
def Growing (γ : Γ) : Prop := ∃ r : List Γ, r ≠ [] ∧ Leads Step [γ] (γ :: r)

/-- All of a word can go. -/
inductive Vanishes : List Γ → Prop
  | nil : Vanishes []
  | cons {γ : Γ} {w s : List Γ} (h : Step γ w) (hw : Vanishes w) (hs : Vanishes s) :
      Vanishes (γ :: s)

/-- A word can begin with a final element. -/
inductive Begins : List Γ → Prop
  | final {γ : Γ} {s : List Γ} (h : Final γ) : Begins (γ :: s)
  | expand {γ : Γ} {w s : List Γ} (h : Step γ w) (hw : Begins w) : Begins (γ :: s)
  | skip {γ : Γ} {w s : List Γ} (h : Step γ w) (hw : Vanishes Step w) (hs : Begins s) :
    Begins (γ :: s)

/-- The stack is empty or has a final element on top. -/
inductive Ends : List Γ → Prop
  | nil : Ends []
  | final {γ : Γ} {s : List Γ} (h : Final γ) : Ends (γ :: s)

end Defs

variable {Step : Γ → List Γ → Prop} {Final : Γ → Prop} {α γ δ : Γ} {s s' s₀ r w : List Γ}

theorem Rewrites.append (h : Rewrites Step s s') (r : List Γ) :
    Rewrites Step (s ++ r) (s' ++ r) := by
  obtain ⟨h, s⟩ := h
  rw [append_assoc]
  exact .mk h (s ++ r)

theorem Leads.append (h : Leads Step s s') (r : List Γ) : Leads Step (s ++ r) (s' ++ r) := by
  induction h with
  | refl => exact .refl
  | tail _ step ih => exact ih.tail (step.append r)

/-! ## What a stack can begin with -/

theorem vanishes_append : Vanishes Step (w ++ s) ↔ Vanishes Step w ∧ Vanishes Step s := by
  constructor
  · intro h
    induction w with
    | nil => exact ⟨.nil, h⟩
    | cons γ w ih =>
      cases h with
      | cons hstep hw hs => exact ⟨.cons hstep hw (ih hs).1, (ih hs).2⟩
  · rintro ⟨hw, hs⟩
    induction hw with
    | nil => exact hs
    | cons hstep hw _ _ ih => exact .cons hstep hw ih

theorem begins_append : Begins Step Final (w ++ s) ↔
    Begins Step Final w ∨ Vanishes Step w ∧ Begins Step Final s := by
  constructor
  · intro h
    induction w with
    | nil => exact .inr ⟨.nil, h⟩
    | cons γ w ih =>
      cases h with
      | final hfinal => exact .inl (.final hfinal)
      | expand hstep hw => exact .inl (.expand hstep hw)
      | skip hstep hw hs =>
        rcases ih hs with hbegins | ⟨hvanishes, hs⟩
        · exact .inl (.skip hstep hw hbegins)
        · exact .inr ⟨.cons hstep hw hvanishes, hs⟩
  · rintro (hw | ⟨hw, hs⟩)
    · induction hw with
      | final hfinal => exact .final hfinal
      | expand hstep hw _ => exact .expand hstep hw
      | skip hstep hw _ ih => exact .skip hstep hw ih
    · induction hw with
      | nil => exact hs
      | cons hstep hw _ _ ih => exact .skip hstep hw ih

theorem vanishes_of_rewrites (h : Rewrites Step s s') (hs : Vanishes Step s') :
    Vanishes Step s := by
  obtain ⟨hstep, r⟩ := h
  obtain ⟨hw, hr⟩ := vanishes_append.mp hs
  exact .cons hstep hw hr

theorem begins_of_rewrites (h : Rewrites Step s s') (hs : Begins Step Final s') :
    Begins Step Final s := by
  obtain ⟨hstep, r⟩ := h
  rcases begins_append.mp hs with hw | ⟨hw, hr⟩
  · exact .expand hstep hw
  · exact .skip hstep hw hr

theorem leads_of_vanishes (h : Vanishes Step s) : Leads Step s [] := by
  induction h with
  | nil => exact .refl
  | @cons γ w s hstep _ _ ihw ihs =>
    have hrest := ihw.append s
    exact .head (.mk hstep s) (hrest.trans ihs)

theorem exists_final_of_begins (h : Begins Step Final s) :
    ∃ γ r, Leads Step s (γ :: r) ∧ Final γ := by
  induction h with
  | final hfinal => exact ⟨_, _, .refl, hfinal⟩
  | @expand γ w s hstep _ ih =>
    obtain ⟨δ, r, hsteps, hfinal⟩ := ih
    exact ⟨δ, r ++ s, .head (.mk hstep s) (hsteps.append s), hfinal⟩
  | @skip γ w s hstep hw _ ih =>
    obtain ⟨δ, r, hsteps, hfinal⟩ := ih
    have hrest := (leads_of_vanishes hw).append s
    exact ⟨δ, r, .head (.mk hstep s) (hrest.trans hsteps), hfinal⟩

/-- **Leads**: whether a stack leads to an empty one, or one with a final element on top. -/
theorem exists_ends_iff : (∃ r, Leads Step s r ∧ Ends Final r) ↔
    Begins Step Final s ∨ Vanishes Step s := by
  constructor
  · rintro ⟨r, hsteps, hends⟩
    induction hsteps using Relation.ReflTransGen.head_induction_on with
    | refl =>
      cases hends with
      | nil => exact .inr .nil
      | final hfinal => exact .inl (.final hfinal)
    | head step _ ih => exact ih.imp (begins_of_rewrites step) (vanishes_of_rewrites step)
  · rintro (hbegins | hvanishes)
    · obtain ⟨γ, r, hsteps, hfinal⟩ := exists_final_of_begins hbegins
      exact ⟨γ :: r, hsteps, .final hfinal⟩
    · exact ⟨[], leads_of_vanishes hvanishes, .nil⟩

/-! ## Growth -/

/-- A stack above the height of the first one is built from elements that each grew by one. -/
inductive Spine (Step : Γ → List Γ → Prop) (s₀ : List Γ) : List Γ → Prop
  | base {s : List Γ} (h : Leads Step s₀ s) (hlen : s.length ≤ s₀.length) : Spine Step s₀ s
  | grow {α γ δ : Γ} {s : List Γ} (h : Spine Step s₀ (α :: s)) (hgrow : Leads Step [α] [γ, δ]) :
      Spine Step s₀ (γ :: δ :: s)

theorem Spine.leads (h : Spine Step s₀ s) : Leads Step s₀ s := by
  induction h with
  | base h => exact h
  | @grow _ _ _ s _ hgrow ih => exact ih.trans (hgrow.append s)

/-- The top is replaced by one element. -/
theorem Spine.replace (h : Spine Step s₀ (α :: s)) (hs : Leads Step [α] [γ]) :
    Spine Step s₀ (γ :: s) := by
  cases h with
  | base h hlen => exact .base (h.trans (hs.append s)) hlen
  | @grow _ _ δ _ h hgrow => exact .grow h (hgrow.trans (hs.append [δ]))

/-- The top is dropped. -/
theorem Spine.pop (h : Spine Step s₀ (α :: s)) (hs : Leads Step [α] []) : Spine Step s₀ s := by
  cases h with
  | base h hlen => exact .base (h.trans (hs.append s)) (Nat.le_of_succ_le hlen)
  | @grow _ _ δ _ h hgrow => exact h.replace (hgrow.trans (hs.append [δ]))

theorem Spine.rewrites (htwo : ∀ γ w, Step γ w → w.length ≤ 2) (h : Spine Step s₀ s)
    (step : Rewrites Step s s') : Spine Step s₀ s' := by
  obtain @⟨γ, w, hstep, s⟩ := step
  have hlen := htwo γ w hstep
  have hone : Leads Step [γ] w := by
    have h : Rewrites Step [γ] (w ++ []) := .mk hstep []
    rw [append_nil] at h
    exact .single h
  match w with
  | [] => exact h.pop hone
  | [α] => exact h.replace hone
  | [α, β] => exact .grow h hone
  | α :: β :: δ :: w => exact absurd hlen (Nat.not_le.mpr (Nat.le_add_left 3 w.length))

theorem spine_of_leads (htwo : ∀ γ w, Step γ w → w.length ≤ 2) (h : Leads Step s₀ s) :
    Spine Step s₀ s := by
  induction h with
  | refl => exact .base .refl (Nat.le_refl _)
  | tail _ step ih => exact ih.rewrites htwo step

/-- Where nothing grows the elements of a spine are distinct. -/
theorem Spine.exists_chain (h : Spine Step s₀ s)
    (hno : ∀ γ r, Leads Step s₀ (γ :: r) → ¬Growing Step γ) :
    ∃ chain : List Γ, chain.Nodup ∧ s.length ≤ s₀.length + chain.length ∧
      (∀ γ ∈ chain, ∃ r, Leads Step s₀ (γ :: r)) ∧
      ∀ γ ∈ chain, ∃ α r r', s = α :: r ∧ r' ≠ [] ∧ Leads Step [γ] (α :: r') := by
  induction h with
  | base _ hlen =>
    exact ⟨[], nodup_nil, hlen, fun _ h => absurd h not_mem_nil,
      fun _ h => absurd h not_mem_nil⟩
  | @grow α γ δ s h hgrow ih =>
    obtain ⟨chain, hnodup, hlen, hreach, htop⟩ := ih
    have hα : Leads Step s₀ (α :: s) := h.leads
    refine ⟨α :: chain, nodup_cons.mpr ⟨?_, hnodup⟩, ?_, ?_, ?_⟩
    · intro hmem
      obtain ⟨_, _, r', heq, hne, hsteps⟩ := htop α hmem
      obtain ⟨rfl, rfl⟩ := cons.inj heq
      exact hno _ _ hα ⟨r', hne, hsteps⟩
    · rw [length_cons, length_cons, length_cons, ← Nat.add_assoc]
      rw [length_cons] at hlen
      exact Nat.succ_le_succ hlen
    · intro η hη
      rcases mem_cons.mp hη with rfl | hη
      · exact ⟨s, hα⟩
      · exact hreach η hη
    · intro η hη
      rcases mem_cons.mp hη with rfl | hη
      · exact ⟨γ, δ :: s, [δ], rfl, cons_ne_nil _ _, hgrow⟩
      · obtain ⟨_, _, r', heq, _, hsteps⟩ := htop η hη
        obtain ⟨rfl, rfl⟩ := cons.inj heq
        exact ⟨γ, δ :: s, δ :: r', rfl, cons_ne_nil _ _, hsteps.trans (hgrow.append r')⟩

/-- **Bounded**: where nothing grows the stacks that come of one have bounded height. -/
theorem length_le_of_leads (htwo : ∀ γ w, Step γ w → w.length ≤ 2) {all : List Γ}
    (hall : ∀ γ r, Leads Step s₀ (γ :: r) → γ ∈ all)
    (hno : ∀ γ r, Leads Step s₀ (γ :: r) → ¬Growing Step γ) (hs : Leads Step s₀ s) :
    s.length ≤ s₀.length + all.length := by
  obtain ⟨chain, hnodup, hlen, hreach, _⟩ := (spine_of_leads htwo hs).exists_chain hno
  have hsubset : chain ⊆ all := by
    intro γ hγ
    obtain ⟨r, hr⟩ := hreach γ hγ
    exact hall γ r hr
  exact Nat.le_trans hlen (Nat.add_le_add_left (hnodup.subperm hsubset).length_le _)

/-- Where only stacks up to some height come of one nothing grows. -/
theorem not_growing_of_bounded {n : ℕ} (hbound : ∀ s, Leads Step s₀ s → s.length ≤ n)
    (h : Leads Step s₀ (γ :: s)) : ¬Growing Step γ := by
  rintro ⟨r, hne, hgrow⟩
  have hpump : ∀ k, ∃ r', k ≤ r'.length ∧ Leads Step s₀ (γ :: r') := by
    intro k
    induction k with
    | zero => exact ⟨s, Nat.zero_le _, h⟩
    | succ k ih =>
      obtain ⟨r', hlen, hr'⟩ := ih
      refine ⟨r ++ r', ?_, hr'.trans (hgrow.append r')⟩
      rw [length_append, Nat.add_comm k]
      exact Nat.add_le_add (length_pos_iff.mpr hne) hlen
  obtain ⟨r', hlen, hr'⟩ := hpump n
  exact absurd (hbound _ hr') (Nat.not_le.mpr (Nat.lt_succ_of_le hlen))

end ExpertPin.TopRewriting
