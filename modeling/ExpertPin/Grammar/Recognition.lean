import ExpertPin.Grammar.Rules
import ExpertPin.Lib.Fuel
import Mathlib.Data.Set.Finite.List

/-!
# What the engine recognises

The stacks of the engine stand for stacks of the pushdown recogniser (`Stands`), and each of
its steps is one of the recogniser's.  After reading `w` its stacks stand for exactly the
ones with a class on top, or empty, that the recogniser reaches (`Holds`).  The engine
returns after every string when no remainder that the recogniser reaches comes back to
itself on a taller stack.  The check for left recursion is there to exclude this, but it
overlooks a rule that derives the empty string without an empty alternative.
-/

namespace ExpertPin.Grammar

open Search Pushdown
open List

variable {G : Grammar CharClass} {X Y : PosStack} {S S' : Stack CharClass} {pos : Pos}
  {α β : List (Sym CharClass)} {fuel : ℕ} {news news' : List PosStack} {chr : UInt32}

/-! ## Stacks of pointers -/

/-- Each pointer points to its remainder. -/
def Stands (G : Grammar CharClass) (X : PosStack) (S : Stack CharClass) : Prop :=
  List.Forall₂ (Remains (encode G)) X S

theorem Stands.length (h : Stands G X S) : X.length = S.length := List.Forall₂.length_eq h

theorem Stands.pushPos (h : Stands G X S) (hpos : Remains (encode G) pos α) :
    Stands G (pushPos (encode G) pos X) (push α S) := by
  rw [Grammar.pushPos]
  cases α with
  | nil =>
    rw [if_pos (hpos.isEndOfSequence_iff.mpr rfl)]
    exact h
  | cons x α =>
    rw [if_neg fun hend => cons_ne_nil x α (hpos.isEndOfSequence_iff.mp hend)]
    exact .cons hpos h

/-- The top of a stack with a class there. -/
theorem Stands.visit_terminal (h : Stands G X S) (hS : Terminal S) :
    visit (encode G) X = .emit := by
  cases hS with
  | nil =>
    cases h
    rfl
  | cls =>
    obtain _ | ⟨htop, hbelow⟩ := h
    rw [visit]
    rcases (htop.at_cls 0).1 with heq | heq | heq <;> rw [heq]

theorem within_ref (hG : WellFormed G) {A : ℕ} (hS : Within G ((.ref A :: β) :: S)) :
    A < G.length := by
  obtain ⟨_, B, alt, halt, hsuffix⟩ := hS _ mem_cons_self
  exact hG.refs B alt halt A (hsuffix.mem mem_cons_self)

/-- A reference on top is replaced by the alternatives of its rule. -/
theorem Stands.visit_ref (hG : WellFormed G) {A : ℕ} (h : Stands G X ((.ref A :: β) :: S))
    (hS : Within G ((.ref A :: β) :: S)) :
    ∃ next, visit (encode G) X = .push next ∧
      List.Forall₂ (fun Y alt => Stands G Y (push alt (push β S))) next (G.alts A) := by
  have hA := within_ref hG hS
  obtain _ | ⟨htop, hbelow⟩ := h
  rename_i pos below
  have hvalue : (UInt32.ofNat A).toNat = A := by
    rw [UInt32.toNat_ofNat']
    exact Nat.mod_eq_of_lt (hA.trans_le hG.size)
  have hrest : Stands G (Grammar.pushPos (encode G) pos.next below) (push β S) :=
    Stands.pushPos hbelow htop.advance
  refine ⟨_, by rw [visit, htop.at_ref, hvalue], ?_⟩
  rw [forall₂_map_left_iff]
  exact (alternates_encode hG hA).imp fun _ _ hpos => hrest.pushPos hpos

theorem terminal_or_ref (hS : Within G S) : Terminal S ∨ ∃ A β s, S = (.ref A :: β) :: s := by
  cases S with
  | nil => exact .inl .nil
  | cons γ s =>
    cases γ with
    | nil => exact absurd rfl (hS [] mem_cons_self).1
    | cons x γ =>
      cases x with
      | ref A => exact .inr ⟨A, γ, s, rfl⟩
      | cls c => exact .inl .cls

theorem Stands.emit_iff (hG : WellFormed G) (h : Stands G X S) (hS : Within G S) :
    visit (encode G) X = .emit ↔ Terminal S := by
  constructor
  · intro hemit
    rcases terminal_or_ref hS with hterminal | ⟨A, β, s, rfl⟩
    · exact hterminal
    · obtain ⟨next, hpush, _⟩ := h.visit_ref hG hS
      rw [hemit] at hpush
      cases hpush
  · exact h.visit_terminal

theorem Stands.ne_abort (hG : WellFormed G) (h : Stands G X S) (hS : Within G S) :
    visit (encode G) X ≠ .abort := by
  intro habort
  rcases terminal_or_ref hS with hterminal | ⟨A, β, s, rfl⟩
  · rw [h.visit_terminal hterminal] at habort
    cases habort
  · obtain ⟨next, hpush, _⟩ := h.visit_ref hG hS
    rw [habort] at hpush
    cases hpush

/-- A pushed stack stands for a successor. -/
theorem Stands.pushes (hG : WellFormed G) (h : Stands G X S) (hS : Within G S)
    (hpush : Pushes (visit (encode G)) X Y) : ∃ S', Eps G S S' ∧ Stands G Y S' := by
  obtain ⟨next, hvisit, hY⟩ := hpush
  rcases terminal_or_ref hS with hterminal | ⟨A, β, s, rfl⟩
  · rw [h.visit_terminal hterminal] at hvisit
    cases hvisit
  · obtain ⟨next', hvisit', hall⟩ := h.visit_ref hG hS
    rw [hvisit] at hvisit'
    cases hvisit'
    obtain ⟨i, hi, rfl⟩ := mem_iff_getElem.mp hY
    have hi' : i < (G.alts A).length := hall.length_eq ▸ hi
    exact ⟨_, .mk (getElem_mem hi'), hall.get hi hi'⟩

/-- A successor is stood for by a pushed stack. -/
theorem Stands.eps (hG : WellFormed G) (h : Stands G X S) (hS : Within G S) (step : Eps G S S') :
    ∃ Y, Pushes (visit (encode G)) X Y ∧ Stands G Y S' := by
  obtain ⟨halt⟩ := step
  obtain ⟨next, hvisit, hall⟩ := h.visit_ref hG hS
  obtain ⟨i, hi, rfl⟩ := mem_iff_getElem.mp halt
  have hi' : i < next.length := hall.length_eq ▸ hi
  exact ⟨next[i], ⟨next, hvisit, getElem_mem hi'⟩, hall.get hi' hi⟩

theorem Stands.reach (hG : WellFormed G) (h : Stands G X S) (hS : Within G S)
    (hreach : Reach (visit (encode G)) X Y) : ∃ S', EpsStar G S S' ∧ Stands G Y S' := by
  induction hreach with
  | refl => exact ⟨S, .refl, h⟩
  | tail _ hpush ih =>
    obtain ⟨S₁, hsteps, hstands⟩ := ih
    obtain ⟨S₂, hstep, hstands'⟩ := hstands.pushes hG (hS.epsStar hsteps) hpush
    exact ⟨S₂, hsteps.tail hstep, hstands'⟩

theorem Stands.epsStar (hG : WellFormed G) (h : Stands G X S) (hS : Within G S)
    (hsteps : EpsStar G S S') : ∃ Y, Reach (visit (encode G)) X Y ∧ Stands G Y S' := by
  induction hsteps with
  | refl => exact ⟨X, .refl, h⟩
  | tail hsteps step ih =>
    obtain ⟨Y, hreach, hstands⟩ := ih
    obtain ⟨Z, hpush, hstands'⟩ := hstands.eps hG (hS.epsStar hsteps) step
    exact ⟨Z, hreach.tail hpush, hstands'⟩

/-! ## Advancing -/

/-- The new stacks have grown by stacks that stand for the ones with a property. -/
structure Advanced (G : Grammar CharClass) (P : Stack CharClass → Prop)
    (news news' : List PosStack) : Prop where
  kept : ∀ Y ∈ news, Y ∈ news'
  sound : ∀ Y ∈ news', Y ∈ news ∨ ∃ S, P S ∧ Stands G Y S
  complete : ∀ S, P S → ∃ Y ∈ news', Stands G Y S

theorem Advanced.foldlM {σ : Type} {f : List PosStack → σ → Option (List PosStack)}
    {P : σ → Stack CharClass → Prop} {xs : List σ}
    (hf : ∀ x ∈ xs, ∀ a b, f a x = some b → Advanced G (P x) a b)
    (h : xs.foldlM f news = some news') :
    Advanced G (fun S => ∃ x ∈ xs, P x S) news news' := by
  induction xs generalizing news with
  | nil =>
    obtain rfl := Option.some.inj h
    refine ⟨fun _ hY => hY, fun _ hY => .inl hY, ?_⟩
    rintro S ⟨x, hx, _⟩
    exact absurd hx not_mem_nil
  | cons x xs ih =>
    rw [foldlM_cons] at h
    obtain ⟨mid, hx, hxs⟩ := Option.bind_eq_some_iff.mp h
    have hone := hf x mem_cons_self _ _ hx
    have hrest := ih (fun y hy => hf y (mem_cons_of_mem x hy)) hxs
    refine ⟨fun Y hY => hrest.kept Y (hone.kept Y hY), ?_, ?_⟩
    · intro Y hY
      rcases hrest.sound Y hY with hmid | ⟨S, ⟨y, hy, hS⟩, hstands⟩
      · rcases hone.sound Y hmid with hold | ⟨S, hS, hstands⟩
        · exact .inl hold
        · exact .inr ⟨S, ⟨x, mem_cons_self, hS⟩, hstands⟩
      · exact .inr ⟨S, ⟨y, mem_cons_of_mem x hy, hS⟩, hstands⟩
    · rintro S ⟨y, hy, hS⟩
      rcases mem_cons.mp hy with rfl | hy
      · obtain ⟨Y, hY, hstands⟩ := hone.complete S hS
        exact ⟨Y, hrest.kept Y hY, hstands⟩
      · exact hrest.complete S ⟨y, hy, hS⟩

/-- Where the elements of the list stand for the stacks with a property, and each adds what
the stacks it stands for lead to. -/
theorem Advanced.foldlM_stands {σ : Type} {f : List PosStack → σ → Option (List PosStack)}
    {xs : List σ} (stack : σ → PosStack) {Q : Stack CharClass → Prop}
    {R : Stack CharClass → Stack CharClass → Prop}
    (hsound : ∀ x ∈ xs, ∃ S, Q S ∧ Stands G (stack x) S)
    (hcomplete : ∀ S, Q S → ∃ x ∈ xs, Stands G (stack x) S)
    (hf : ∀ x ∈ xs, ∀ S, Q S → Stands G (stack x) S → ∀ a b, f a x = some b → Advanced G (R S) a b)
    (h : xs.foldlM f news = some news') :
    Advanced G (fun S' => ∃ S, Q S ∧ R S S') news news' := by
  have hfold : Advanced G (fun S' => ∃ x ∈ xs, ∃ S, (Q S ∧ Stands G (stack x) S) ∧ R S S')
      news news' := by
    refine Advanced.foldlM (fun x hx a b hone => ?_) h
    obtain ⟨S, hQ, hstands⟩ := hsound x hx
    have hadv := hf x hx S hQ hstands a b hone
    refine ⟨hadv.kept, fun Y hY => ?_, ?_⟩
    · rcases hadv.sound Y hY with hold | ⟨S', hR, hY'⟩
      · exact .inl hold
      · exact .inr ⟨S', ⟨S, ⟨hQ, hstands⟩, hR⟩, hY'⟩
    · rintro S' ⟨S₁, ⟨hQ₁, hstands₁⟩, hR⟩
      exact (hf x hx S₁ hQ₁ hstands₁ a b hone).complete S' hR
  refine ⟨hfold.kept, fun Y hY => ?_, ?_⟩
  · rcases hfold.sound Y hY with hold | ⟨S', ⟨_, _, S, ⟨hQ, _⟩, hR⟩, hY'⟩
    · exact .inl hold
    · exact .inr ⟨S', ⟨S, hQ, hR⟩, hY'⟩
  · rintro S' ⟨S, hQ, hR⟩
    obtain ⟨x, hx, hstands⟩ := hcomplete S hQ
    exact hfold.complete S' ⟨x, hx, S, ⟨hQ, hstands⟩, hR⟩

/-- When `llama_grammar_advance_stack` returns it has added what is reachable. -/
theorem Stands.advanced (hG : WellFormed G) (h : Stands G X S) (hS : Within G S)
    (hrun : advanceStack (encode G) fuel news X = some news') :
    Advanced G (fun S' => EpsStar G S S' ∧ Terminal S') news news' := by
  obtain ⟨seen, hseen, _, hout⟩ := search_spec hrun
  refine ⟨fun Y hY => (hout Y).mpr (.inl hY), ?_, ?_⟩
  · intro Y hY
    rcases (hout Y).mp hY with hold | ⟨hreach, hemit⟩
    · exact .inl hold
    · obtain ⟨S', hsteps, hstands⟩ := h.reach hG hS hreach
      exact .inr ⟨S', ⟨hsteps, (hstands.emit_iff hG (hS.epsStar hsteps)).mp hemit⟩, hstands⟩
  · rintro S' ⟨hsteps, hterminal⟩
    obtain ⟨Y, hreach, hstands⟩ := h.epsStar hG hS hsteps
    exact ⟨Y, (hout Y).mpr (.inr ⟨hreach, hstands.visit_terminal hterminal⟩), hstands⟩

/-- And then the stacks it went through have bounded height. -/
theorem Stands.bounded (hG : WellFormed G) (h : Stands G X S) (hS : Within G S)
    (hrun : advanceStack (encode G) fuel news X = some news') :
    ∃ n, ∀ S', EpsStar G S S' → S'.length ≤ n := by
  obtain ⟨seen, hseen, _⟩ := search_spec hrun
  refine ⟨seen.toFinset.sup List.length, fun S' hsteps => ?_⟩
  obtain ⟨Y, hreach, hstands⟩ := h.epsStar hG hS hsteps
  rw [← hstands.length]
  exact Finset.le_sup (f := List.length) (List.mem_toFinset.mpr ((hseen Y).mpr hreach))

/-! ## Return -/

/-- The pointers into the rules. -/
def Rules.pointers (rules : Rules) : List Pos :=
  (List.range rules.length).flatMap fun i => (List.range (rules.rule i).length).map (Pos.mk i)

theorem Remains.mem_pointers {rules : Rules} (h : Remains rules pos α) (hα : α ≠ []) :
    pos ∈ rules.pointers := by
  obtain ⟨tail, hdrop, _⟩ := h
  have hoff : pos.off < (rules.rule pos.rule).length := by
    obtain ⟨x, α, rfl⟩ := exists_cons_of_ne_nil hα
    obtain ⟨e, es, heq, _⟩ := encodeSym_cons x
    rw [encodeSeq, flatMap_cons, heq] at hdrop
    by_contra hle
    rw [drop_eq_nil_of_le (Nat.le_of_not_lt hle)] at hdrop
    cases hdrop
  have hrule : pos.rule < rules.length := by
    by_contra hle
    rw [Rules.rule, getElem?_eq_none (Nat.le_of_not_lt hle)] at hoff
    exact Nat.not_lt_zero _ hoff
  exact mem_flatMap.mpr
    ⟨pos.rule, mem_range.mpr hrule, mem_map.mpr ⟨pos.off, mem_range.mpr hoff, rfl⟩⟩

theorem Stands.mem_pointers (h : Stands G X S) (hS : Within G S) :
    ∀ pos ∈ X, pos ∈ (encode G).pointers := by
  intro pos hpos
  obtain ⟨i, hi, rfl⟩ := mem_iff_getElem.mp hpos
  have hi' : i < S.length := h.length ▸ hi
  exact (h.get hi hi').mem_pointers (hS _ (get_mem S ⟨i, hi'⟩)).1

/-- Where nothing grows `llama_grammar_advance_stack` returns. -/
theorem Stands.exists_advance (hG : WellFormed G) (h : Stands G X S) (hS : Within G S)
    (hno : ∀ α r, EpsStar G S (α :: r) → ¬Growing G α) (news : List PosStack) :
    ∃ fuel news', advanceStack (encode G) fuel news X = some news' := by
  have hfinite : {Y : PosStack | Reach (visit (encode G)) X Y}.Finite := by
    have hlists := finite_length_le {pos // pos ∈ (encode G).pointers}
      (S.length + (remainders G).length)
    refine (hlists.image (map Subtype.val)).subset fun Y hreach => ?_
    obtain ⟨S', hsteps, hstands⟩ := h.reach hG hS hreach
    have hmem := hstands.mem_pointers (hS.epsStar hsteps)
    lift Y to List {pos // pos ∈ (encode G).pointers} using hmem
    refine ⟨Y, ?_, rfl⟩
    have hlen := hstands.length
    rw [length_map] at hlen
    exact hlen.trans_le (length_le_of_epsStar hS hno hsteps)
  have hall : ∀ Y, Y ∈ hfinite.toFinset ↔ Reach (visit (encode G)) X Y :=
    fun Y => hfinite.mem_toFinset
  refine exists_search hfinite.toFinset ?_ ?_ _ [] [X] news (Nat.le_refl _) ?_
  · intro Y hY Z hpush
    exact (hall Z).mpr (((hall Y).mp hY).tail hpush)
  · intro Y hY
    obtain ⟨S', hsteps, hstands⟩ := h.reach hG hS ((hall Y).mp hY)
    exact hstands.ne_abort hG (hS.epsStar hsteps)
  · intro Y hY
    obtain rfl := mem_singleton.mp hY
    exact (hall Y).mpr .refl

end ExpertPin.Grammar
