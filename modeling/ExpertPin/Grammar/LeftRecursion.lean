import ExpertPin.Grammar.Language

/-!
# The check for left recursion

`llama_grammar_init_impl` refuses rules in which `llama_grammar_detect_left_recursion` finds a
left recursion, so that `llama_grammar_advance_stack` returns on the stacks of the others.  It
returns on a stack just when no pointer that comes on top comes back to itself with something
left below it, and it adds a stack just when what is on top can begin with a terminal, or all of
it can go (`advances_iff`).  The check looks for an empty alternative only in the rule itself, so
it lets pass rules with neither.
-/

namespace ExpertPin.Grammar

open Search TopRewriting
open List
open Option
open Nat

variable {rules : Rules} {X Y : PosStack} {pos sub : Pos} {chr : UInt32} {start fuel : ℕ}
  {news news' : List PosStack} {g g' : LlamaGrammar}

/-! ## Well-formed rules -/

/-- What may come after an element: only a character class goes on. -/
def Element.Follows (e u : Element) : Prop :=
  (u.type = .charRngUpper → e.type = .char ∨ e.type = .charNot ∨ e.type = .charAlt) ∧
  (u.type = .charAlt →
    e.type = .char ∨ e.type = .charNot ∨ e.type = .charAlt ∨ e.type = .charRngUpper)

instance Element.decidableFollows (e u : Element) : Decidable (e.Follows u) :=
  inferInstanceAs (Decidable (_ ∧ _))

/-- Each rule has its one end element last, a class begins with a character, and references are
to rules. -/
structure Rules.Proper (rules : Rules) : Prop where
  copied : ∀ rule ∈ rules, copyRule rule = rule
  chained : ∀ rule ∈ rules, List.IsChain Element.Follows (⟨.alt, 0⟩ :: rule)
  refs : ∀ rule ∈ rules, ∀ e ∈ rule, e.type = .ruleRef → e.value.toNat < rules.length

/-- The element does not continue a class. -/
def GreType.Begins (type : GreType) : Prop := type ≠ .charRngUpper ∧ type ≠ .charAlt

/-- The stack of `llama_grammar_advance_stack` may have it on top. -/
def GreType.Stackable (type : GreType) : Prop := type.Begins ∧ type ≠ .end_ ∧ type ≠ .alt

theorem at_mem {e : Element} (h : rules.at pos = e) (he : e.type ≠ .end_) :
    rules.rule pos.rule ∈ rules ∧ (rules.rule pos.rule)[pos.off]? = some e := by
  rw [Rules.at] at h
  cases hoff : (rules.rule pos.rule)[pos.off]? with
  | none =>
    rw [hoff] at h
    exact absurd (h ▸ rfl) he
  | some u =>
    rw [hoff] at h
    refine ⟨?_, congrArg some h⟩
    have hlen : pos.off < (rules.rule pos.rule).length := (List.getElem?_eq_some_iff.mp hoff).1
    rw [Rules.rule] at hlen ⊢
    cases hrule : rules[pos.rule]? with
    | none =>
      rw [hrule] at hlen
      exact absurd hlen (not_lt_zero _)
    | some rule => exact List.mem_of_getElem? hrule

theorem mem_pointers_of_stackable (h : (rules.at pos).type.Stackable) : pos ∈ rules.pointers := by
  obtain ⟨_, hoff⟩ := at_mem rfl h.2.1
  have hlen : pos.off < (rules.rule pos.rule).length := (List.getElem?_eq_some_iff.mp hoff).1
  have hrule : pos.rule < rules.length := by
    by_contra hle
    rw [Rules.rule, List.getElem?_eq_none (Nat.le_of_not_lt hle)] at hlen
    exact Nat.not_lt_zero _ hlen
  exact List.mem_flatMap.mpr
    ⟨pos.rule, List.mem_range.mpr hrule, List.mem_map.mpr ⟨pos.off, List.mem_range.mpr hlen, rfl⟩⟩

theorem rule_eq_nil_or_mem (rules : Rules) (i : ℕ) : rules.rule i = [] ∨ rules.rule i ∈ rules := by
  rw [Rules.rule]
  cases hrule : rules[i]? with
  | none => exact .inl rfl
  | some rule => exact .inr (mem_of_getElem? hrule)

/-- An element begins a symbol where the one before it is not part of a class. -/
theorem begins_of_follows {e : Element} (h : e.Follows (rules.at pos))
    (hchar : e.type ≠ .char) (hnot : e.type ≠ .charNot) (halt : e.type ≠ .charAlt)
    (hupper : e.type ≠ .charRngUpper) : (rules.at pos).type.Begins := by
  constructor
  · intro htype
    rcases h.1 htype with h | h | h
    · exact hchar h
    · exact hnot h
    · exact halt h
  · intro htype
    rcases h.2 htype with h | h | h | h
    · exact hchar h
    · exact hnot h
    · exact halt h
    · exact hupper h

theorem follows_at_default (e : Element) : e.Follows ⟨.end_, 0⟩ := ⟨nofun, nofun⟩

theorem Rules.Proper.follows_next (h : rules.Proper) {i off : ℕ} {e : Element}
    (he : (rules.rule i)[off]? = some e) : e.Follows (rules.at ⟨i, off + 1⟩) := by
  rw [Rules.at]
  cases hnext : (rules.rule i)[off + 1]? with
  | none => exact follows_at_default e
  | some u =>
    rcases rule_eq_nil_or_mem rules i with hnil | hmem
    · rw [hnil] at he
      cases he
    · have hchain := (h.chained _ hmem).tail
      obtain ⟨hoff, rfl⟩ := List.getElem?_eq_some_iff.mp he
      obtain ⟨hoff', rfl⟩ := List.getElem?_eq_some_iff.mp hnext
      exact List.isChain_iff_getElem.mp hchain off hoff'

theorem Rules.Proper.begins_zero (h : rules.Proper) (i : ℕ) : (rules.at ⟨i, 0⟩).type.Begins := by
  have hfollows : (⟨.alt, 0⟩ : Element).Follows (rules.at ⟨i, 0⟩) := by
    rw [Rules.at]
    rcases rule_eq_nil_or_mem rules i with hnil | hmem
    · rw [hnil]
      exact follows_at_default _
    · have hchain := h.chained _ hmem
      cases hrule : rules.rule i with
      | nil => exact follows_at_default _
      | cons u es =>
        rw [hrule] at hchain
        exact isChain_cons_cons.mp hchain |>.1
  exact begins_of_follows hfollows (by decide) (by decide) (by decide) (by decide)

/-- An alternate after the first begins after an element that separates alternates. -/
theorem exists_alt_of_mem_laterStarts {es : List Element} {off start : ℕ}
    (h : start ∈ laterStarts off es) :
    ∃ k e, es[k]? = some e ∧ e.type = .alt ∧ start = off + k + 1 := by
  induction es generalizing off with
  | nil => exact absurd h not_mem_nil
  | cons e es ih =>
    have hlater : start ∈ laterStarts (off + 1) es →
        ∃ k u, (e :: es)[k]? = some u ∧ u.type = .alt ∧ start = off + k + 1 := by
      intro h
      obtain ⟨k, u, hk, hu, rfl⟩ := ih h
      exact ⟨k + 1, u, hk, hu, by rw [add_assoc off, add_comm 1]⟩
    rw [laterStarts] at h
    split at h
    case h_1 => exact absurd h not_mem_nil
    case h_2 htype =>
      rcases mem_cons.mp h with rfl | h
      · exact ⟨0, e, rfl, htype, rfl⟩
      · exact hlater h
    case h_3 => exact hlater h

theorem Rules.Proper.begins_alternate (h : rules.Proper) {i : ℕ} (hsub : sub ∈ rules.alternates i) :
    (rules.at sub).type.Begins := by
  obtain ⟨off, hoff, rfl⟩ := mem_map.mp hsub
  rcases mem_cons.mp hoff with rfl | hoff
  · exact h.begins_zero i
  · obtain ⟨k, e, hk, he, rfl⟩ := exists_alt_of_mem_laterStarts hoff
    rw [zero_add]
    apply begins_of_follows (h.follows_next hk)
    all_goals
      rw [he]
      exact nofun

theorem Rules.Proper.begins_next (h : rules.Proper) (hpos : (rules.at pos).type = .ruleRef) :
    (rules.at pos.next).type.Begins := by
  obtain ⟨_, hoff⟩ := at_mem (e := rules.at pos) rfl (by rw [hpos]; exact nofun)
  apply begins_of_follows (h.follows_next hoff)
  all_goals
    rw [hpos]
    exact nofun

theorem at_of_drop {i off : ℕ} {u : Element} {es : List Element}
    (h : (rules.rule i).drop off = u :: es) : rules.at ⟨i, off⟩ = u := at_eq h

theorem begins_of_drop_nil {i off : ℕ} (h : (rules.rule i).drop off = []) :
    (rules.at ⟨i, off⟩).type.Begins := by
  rw [Rules.at, getElem?_eq_none (drop_eq_nil_iff.mp h)]
  constructor
  · intro htype
    cases htype
  · intro htype
    cases htype

/-- The loop over a class ends where nothing continues the class. -/
theorem begins_of_matchCharLoop (h : rules.Proper) {i : ℕ} (found : Bool) (off : ℕ)
    (es : List Element) (hes : (rules.rule i).drop off = es) :
    (rules.at ⟨i, (matchCharLoop chr found off es).2⟩).type.Begins := by
  have hdrop : ∀ k, (rules.rule i).drop (off + k) = es.drop k := by
    intro k
    rw [← hes, drop_drop]
  fun_induction matchCharLoop chr found off es with
  | case1 found off e u hupper found' next rest halt ih =>
    refine ih (hdrop 2) fun k => ?_
    rw [add_assoc, hdrop, add_comm]
    rfl
  | case2 found off e u hupper found' next rest halt =>
    have hat := at_of_drop (hdrop 2)
    have hu : (rules.rule i)[off + 1]? = some u := by
      rw [← head?_drop, hdrop 1]
      rfl
    have hfollows := h.follows_next hu
    refine ⟨fun htype => ?_, fun htype => halt (hat ▸ htype)⟩
    rcases hfollows.1 htype with h | h | h <;> cases hupper.symm.trans h
  | case3 found off e u hupper found' => exact begins_of_drop_nil (hdrop 2)
  | case4 found off e u rest hupper found' halt ih =>
    refine ih (hdrop 1) fun k => ?_
    rw [add_assoc, hdrop, add_comm]
    rfl
  | case5 found off e u rest hupper found' halt =>
    have hat := at_of_drop (hdrop 1)
    exact ⟨fun htype => hupper (hat ▸ htype), fun htype => halt (hat ▸ htype)⟩
  | case6 es found off hshort =>
    apply begins_of_drop_nil
    rw [hdrop]
    match es with
    | [] => rfl
    | [e] => rfl
    | e :: u :: rest => exact absurd rfl (hshort e u rest)

theorem begins_of_matchChar (h : rules.Proper) {m : Bool × Pos}
    (hmatch : matchChar rules pos chr = some m) : (rules.at m.2).type.Begins := by
  rw [matchChar] at hmatch
  split at hmatch
  case isTrue =>
    cases hmatch
    exact begins_of_matchCharLoop h false pos.off _ rfl
  case isFalse => cases hmatch

/-! ## The stacks of `llama_grammar_advance_stack` -/

/-- A reference on top is replaced by an alternate of its rule and what comes after it. -/
def Step (rules : Rules) (pos : Pos) (w : PosStack) : Prop :=
  (rules.at pos).type = .ruleRef ∧ ∃ sub ∈ rules.alternates (rules.at pos).value.toNat,
    w = pushPos rules sub (pushPos rules pos.next [])

/-- A terminal is on top. -/
def Terminals (rules : Rules) (pos : Pos) : Prop :=
  (rules.at pos).type = .char ∨ (rules.at pos).type = .charNot ∨ (rules.at pos).type = .charAny ∨
    (rules.at pos).type = .token ∨ (rules.at pos).type = .tokenNot

theorem pushPos_append (rules : Rules) (pos : Pos) (X Y : PosStack) :
    pushPos rules pos (X ++ Y) = pushPos rules pos X ++ Y := by
  rw [pushPos, pushPos]
  split
  · rfl
  · rfl

theorem length_pushPos_le (rules : Rules) (pos : Pos) (X : PosStack) :
    (pushPos rules pos X).length ≤ X.length + 1 := by
  rw [pushPos]
  split
  · exact le_succ _
  · exact le_refl _

theorem Step.length_le {w : PosStack} (h : Step rules pos w) : w.length ≤ 2 := by
  obtain ⟨_, sub, _, rfl⟩ := h
  have hone := length_pushPos_le rules pos.next []
  exact (length_pushPos_le rules sub _).trans (succ_le_succ hone)

theorem visit_ref {below : PosStack} (htype : (rules.at pos).type = .ruleRef) :
    visit rules (pos :: below) = .push ((rules.alternates (rules.at pos).value.toNat).map
      fun sub => pushPos rules sub (pushPos rules pos.next below)) := by
  rw [visit, htype]

/-- What a visit pushes. -/
theorem pushes_iff : Pushes (visit rules) X Y ↔ Rewrites (Step rules) X Y := by
  constructor
  · rintro ⟨next, hvisit, hY⟩
    cases X with
    | nil => cases hvisit
    | cons pos below =>
      rw [visit] at hvisit
      split at hvisit
      case h_1 htype =>
        cases hvisit
        obtain ⟨sub, hsub, rfl⟩ := mem_map.mp hY
        have hw : Step rules pos (pushPos rules sub (pushPos rules pos.next [])) :=
          ⟨htype, sub, hsub, rfl⟩
        have hrewrites := Rewrites.mk hw below
        rwa [← pushPos_append, ← pushPos_append] at hrewrites
      all_goals cases hvisit
  · rintro ⟨⟨htype, sub, hsub, rfl⟩, below⟩
    rw [← pushPos_append, ← pushPos_append, nil_append]
    exact ⟨_, visit_ref htype, mem_map.mpr ⟨sub, hsub, rfl⟩⟩

theorem reach_iff : Reach (visit rules) X Y ↔ Leads (Step rules) X Y := by
  rw [Reach, Leads]
  have heq : Pushes (visit rules) = Rewrites (Step rules) := by
    ext X Y
    exact pushes_iff
  rw [heq]

theorem visit_emit_iff : visit rules X = .emit ↔ Ends (Terminals rules) X := by
  constructor
  · intro hvisit
    cases X with
    | nil => exact .nil
    | cons pos below =>
      apply Ends.final
      rw [visit] at hvisit
      rw [Terminals]
      split at hvisit
      case h_1 => cases hvisit
      case h_2 htype => exact .inl htype
      case h_3 htype => exact .inr (.inl htype)
      case h_4 htype => exact .inr (.inr (.inl htype))
      case h_5 htype => exact .inr (.inr (.inr (.inl htype)))
      case h_6 htype => exact .inr (.inr (.inr (.inr htype)))
      case h_7 => cases hvisit
  · rintro (_ | htype)
    · rfl
    · rcases htype with h | h | h | h | h <;> rw [visit, h]

/-- No element of the stack is in the middle of a class or at the end of a sequence. -/
def Sound (rules : Rules) (X : PosStack) : Prop := ∀ pos ∈ X, (rules.at pos).type.Stackable

theorem Sound.pushPos (h : Sound rules X) (hpos : (rules.at pos).type.Begins) :
    Sound rules (pushPos rules pos X) := by
  rw [Grammar.pushPos]
  split
  case isTrue => exact h
  case isFalse hend =>
    rw [Element.isEndOfSequence, Bool.or_eq_true, decide_eq_true_eq, decide_eq_true_eq,
      not_or] at hend
    intro p hp
    rcases mem_cons.mp hp with rfl | hp
    · exact ⟨hpos, hend⟩
    · exact h p hp

theorem Sound.rewrites (hrules : rules.Proper) (h : Sound rules X)
    (step : Rewrites (Step rules) X Y) : Sound rules Y := by
  obtain ⟨⟨htype, sub, hsub, rfl⟩, below⟩ := step
  rw [← pushPos_append, ← pushPos_append]
  have hbelow : Sound rules below := fun p hp => h p (mem_cons_of_mem _ hp)
  exact (hbelow.pushPos (hrules.begins_next htype)).pushPos (hrules.begins_alternate hsub)

theorem Sound.leads (hrules : rules.Proper) (h : Sound rules X) (hsteps : Leads (Step rules) X Y) :
    Sound rules Y := by
  induction hsteps with
  | refl => exact h
  | tail _ step ih => exact ih.rewrites hrules step

theorem GreType.Stackable.cases {type : GreType} (h : type.Stackable) : type = .ruleRef ∨
    type = .char ∨ type = .charNot ∨ type = .charAny ∨ type = .token ∨ type = .tokenNot := by
  obtain ⟨⟨hupper, halt⟩, hend, hsep⟩ := h
  cases type
  case end_ => exact absurd rfl hend
  case alt => exact absurd rfl hsep
  case charRngUpper => exact absurd rfl hupper
  case charAlt => exact absurd rfl halt
  all_goals simp

theorem Sound.ne_abort (h : Sound rules X) : visit rules X ≠ .abort := by
  cases X with
  | nil =>
    intro hvisit
    cases hvisit
  | cons pos below =>
    rw [visit]
    rcases (h pos mem_cons_self).cases with h | h | h | h | h | h
    all_goals
      rw [h]
      intro hvisit
      cases hvisit

/-! ## One call -/

/-- Nothing that comes on top grows, and a terminal or nothing is left in the end. -/
structure Settles (rules : Rules) (X : PosStack) : Prop where
  not_growing : ∀ pos r, Leads (Step rules) X (pos :: r) → ¬Growing (Step rules) pos
  ends : Begins (Step rules) (Terminals rules) X ∨ Vanishes (Step rules) X

theorem mem_of_advanceStack (hrun : advanceStack rules fuel news X = some news') :
    Y ∈ news' ↔ Y ∈ news ∨ Leads (Step rules) X Y ∧ Ends (Terminals rules) Y := by
  obtain ⟨_, _, _, hout⟩ := search_spec hrun
  rw [hout, reach_iff, visit_emit_iff]

theorem not_growing_of_advanceStack (hrun : advanceStack rules fuel news X = some news')
    (h : Leads (Step rules) X (pos :: Y)) : ¬Growing (Step rules) pos := by
  obtain ⟨seen, hseen, _⟩ := search_spec hrun
  refine not_growing_of_bounded (n := seen.toFinset.sup length) (fun Z hZ => ?_) h
  exact Finset.le_sup (f := length) (mem_toFinset.mpr ((hseen Z).mpr (reach_iff.mpr hZ)))

/-- Where nothing grows the call returns. -/
theorem Sound.exists_advance (hrules : rules.Proper) (h : Sound rules X)
    (hno : ∀ pos r, Leads (Step rules) X (pos :: r) → ¬Growing (Step rules) pos)
    (news : List PosStack) : ∃ fuel news', advanceStack rules fuel news X = some news' := by
  have hmem : ∀ {Y}, Leads (Step rules) X Y → ∀ pos ∈ Y, pos ∈ rules.pointers :=
    fun hY pos hpos => mem_pointers_of_stackable (h.leads hrules hY pos hpos)
  have hfinite : {Y : PosStack | Reach (visit rules) X Y}.Finite := by
    have hlists := finite_length_le {pos // pos ∈ rules.pointers}
      (X.length + rules.pointers.length)
    refine (hlists.image (map Subtype.val)).subset fun Y hreach => ?_
    have hY := reach_iff.mp hreach
    have hlen := length_le_of_leads (fun _ _ => Step.length_le)
      (fun pos r hr => hmem hr pos mem_cons_self) hno hY
    lift Y to List {pos // pos ∈ rules.pointers} using hmem hY
    rw [length_map] at hlen
    exact ⟨Y, hlen, rfl⟩
  have hall : ∀ Y, Y ∈ hfinite.toFinset ↔ Reach (visit rules) X Y :=
    fun Y => hfinite.mem_toFinset
  refine exists_search hfinite.toFinset ?_ ?_ _ [] [X] news (le_refl _) ?_
  · intro Y hY Z hpush
    exact (hall Z).mpr (((hall Y).mp hY).tail hpush)
  · intro Y hY
    exact (h.leads hrules (reach_iff.mp ((hall Y).mp hY))).ne_abort
  · intro Y hY
    obtain rfl := mem_singleton.mp hY
    exact (hall Y).mpr .refl

/-- A call returns, and at least one stack, just when the stack settles. -/
theorem Sound.advances_iff (hrules : rules.Proper) (h : Sound rules X) :
    (∃ fuel out, advanceStack rules fuel [] X = some out ∧ out ≠ []) ↔ Settles rules X := by
  constructor
  · rintro ⟨fuel, out, hrun, hne⟩
    refine ⟨fun pos r hr => not_growing_of_advanceStack hrun hr, exists_ends_iff.mp ?_⟩
    obtain ⟨Y, hY⟩ := exists_mem_of_ne_nil _ hne
    exact ⟨Y, ((mem_of_advanceStack hrun).mp hY).resolve_left not_mem_nil⟩
  · intro hsettles
    obtain ⟨fuel, out, hrun⟩ := h.exists_advance hrules hsettles.not_growing []
    obtain ⟨Y, hY⟩ := exists_ends_iff.mpr hsettles.ends
    exact ⟨fuel, out, hrun, ne_nil_of_mem ((mem_of_advanceStack hrun).mpr (.inr hY))⟩

/-! ## All calls -/

/-- What `llama_grammar_accept_chr` makes of a stack before it advances it. -/
inductive Reads (rules : Rules) (chr : UInt32) : PosStack → PosStack → Prop
  | mk {pos pos' : Pos} {below : PosStack}
      (htoken : ¬((rules.at pos).type = .token ∨ (rules.at pos).type = .tokenNot))
      (hmatch : matchChar rules pos chr = some (true, pos')) :
      Reads rules chr (pos :: below) (pushPos rules pos' below)

/-- `llama_grammar_advance_stack` is called with the stack, in the initialisation or when the
next code point is accepted. -/
inductive Calls (rules : Rules) (start : ℕ) : PosStack → Prop
  | init {sub : Pos} (hsub : sub ∈ rules.alternates start) :
      Calls rules start (pushPos rules sub [])
  | accept {fuel fuel' : ℕ} {g₀ g : LlamaGrammar} {w : List UInt32} {chr : UInt32}
      {X Y : PosStack} (hinit : initImpl fuel rules start = some (some g₀))
      (hfeed : feed fuel' g₀ w = some g) (hX : X ∈ g.allStacks) (hreads : Reads rules chr X Y) :
      Calls rules start Y

/-- The stacks that the rules lead to, one code point after the other. -/
inductive Enters (rules : Rules) (start : ℕ) : PosStack → Prop
  | start {sub : Pos} (hsub : sub ∈ rules.alternates start) :
      Enters rules start (pushPos rules sub [])
  | read {chr : UInt32} {X Y Z : PosStack} (h : Enters rules start X)
      (hsteps : Leads (Step rules) X Y) (hreads : Reads rules chr Y Z) : Enters rules start Z

/-- Where the check finds no left recursion each call of `llama_grammar_advance_stack` returns,
and at least one stack. -/
def CheckSuffices (rules : Rules) (start : ℕ) : Prop :=
  anyLeftRecursion rules = false → ∀ X, Calls rules start X →
    ∃ fuel out, advanceStack rules fuel [] X = some out ∧ out ≠ []

theorem Reads.ends (h : Reads rules chr X Y) : Ends (Terminals rules) X := by
  obtain ⟨htoken, hmatch⟩ := h
  apply Ends.final
  rw [matchChar] at hmatch
  split at hmatch
  case isTrue htype =>
    rw [Bool.or_eq_true, decide_eq_true_eq, decide_eq_true_eq] at htype
    rcases htype with (h | h) | h
    · exact .inl h
    · exact .inr (.inr (.inl h))
    · exact .inr (.inl h)
  case isFalse => cases hmatch

theorem Enters.sound (hrules : rules.Proper) (h : Enters rules start X) : Sound rules X := by
  have hnil : Sound rules [] := fun _ hpos => absurd hpos not_mem_nil
  induction h with
  | start hsub => exact hnil.pushPos (hrules.begins_alternate hsub)
  | read _ hsteps hreads ih =>
    have hY := ih.leads hrules hsteps
    obtain ⟨_, hmatch⟩ := hreads
    have hbelow := fun pos hpos => hY pos (mem_cons_of_mem _ hpos)
    exact Sound.pushPos hbelow (begins_of_matchChar hrules hmatch)

/-- What a call adds. -/
theorem advanceStack_yields (rules : Rules) (fuel : ℕ) (X : PosStack) (news : List PosStack) :
    Yields (advanceStack rules fuel news X) (advanceStack rules fuel [] X).isSome fun Y =>
      Y ∈ news ∨ Leads (Step rules) X Y ∧ Ends (Terminals rules) Y where
  isSome_iff := (search_yields (visit rules) fuel [X] [] news).isSome_iff
  mem_iff _ hrun _ := mem_of_advanceStack hrun

theorem Reads.acceptChr (h : Reads rules chr X Y) (fuel : ℕ) (news : List PosStack) :
    acceptChr rules chr fuel news X = advanceStack rules fuel news Y := by
  obtain ⟨htoken, hmatch⟩ := h
  rw [Grammar.acceptChr, if_neg htoken, hmatch]
  rfl

theorem Reads.eq (h : Reads rules chr X Y) {Z : PosStack} (h' : Reads rules chr X Z) : Y = Z := by
  obtain ⟨_, hmatch⟩ := h
  obtain ⟨_, hmatch'⟩ := h'
  cases hmatch.symm.trans hmatch'
  rfl

/-- A stack that is not read is left out. -/
theorem acceptChr_of_not_reads (hends : Ends (Terminals rules) X)
    (h : ∀ Y, ¬Reads rules chr X Y) (fuel : ℕ) (news : List PosStack) :
    acceptChr rules chr fuel news X = some news := by
  cases hends with
  | nil => rfl
  | @final pos below htype =>
    rw [Grammar.acceptChr]
    split
    case isTrue => rfl
    case isFalse htoken =>
      have hchar : ((rules.at pos).type = .char ∨ (rules.at pos).type = .charAny) ∨
          (rules.at pos).type = .charNot := by
        rcases htype with h | h | h | h | h
        · exact .inl (.inl h)
        · exact .inr h
        · exact .inl (.inr h)
        · exact absurd (.inl h) htoken
        · exact absurd (.inr h) htoken
      obtain ⟨m, hmatch⟩ : ∃ m, matchChar rules pos chr = some m := by
        rw [matchChar, if_pos (by simpa using hchar)]
        exact ⟨_, rfl⟩
      obtain ⟨found, pos'⟩ := m
      cases found with
      | false => rw [hmatch]; rfl
      | true => exact absurd (.mk htoken hmatch) (h _)

theorem acceptChr_yields_leads (hends : Ends (Terminals rules) X) (chr : UInt32) (fuel : ℕ)
    (news : List PosStack) :
    Yields (acceptChr rules chr fuel news X)
      (∀ Y, Reads rules chr X Y → (advanceStack rules fuel [] Y).isSome) fun Z =>
      Z ∈ news ∨ ∃ Y, Reads rules chr X Y ∧ Leads (Step rules) Y Z ∧ Ends (Terminals rules) Z := by
  by_cases hreads : ∃ Y, Reads rules chr X Y
  · obtain ⟨Y, hY⟩ := hreads
    have hyields := advanceStack_yields rules fuel Y news
    rw [hY.acceptChr]
    refine ⟨hyields.isSome_iff.trans ⟨fun h Z hZ => hY.eq hZ ▸ h, fun h => h Y hY⟩, ?_⟩
    intro out hout Z
    rw [hyields.mem_iff out hout]
    refine or_congr Iff.rfl ⟨fun h => ⟨Y, hY, h⟩, ?_⟩
    rintro ⟨Y', hY', h⟩
    exact hY.eq hY' ▸ h
  · have hno : ∀ Y, ¬Reads rules chr X Y := fun Y hY => hreads ⟨Y, hY⟩
    rw [acceptChr_of_not_reads hends hno]
    refine ⟨iff_of_true rfl fun Y hY => absurd hY (hno Y), fun out hout Z => ?_⟩
    obtain rfl := some.inj hout
    refine ⟨.inl, ?_⟩
    rintro (h | ⟨Y, hY, _⟩)
    · exact h
    · exact absurd hY (hno Y)

/-- The stacks of the grammar are ones that the rules lead to. -/
structure Entered (rules : Rules) (start : ℕ) (g : LlamaGrammar) : Prop where
  rules_eq : g.rules = rules
  entered : ∀ X ∈ g.allStacks,
    (∃ Y, Enters rules start Y ∧ Leads (Step rules) Y X) ∧ Ends (Terminals rules) X

theorem Rules.Proper.map_copyRule (h : rules.Proper) : rules.map copyRule = rules := by
  conv_rhs => rw [← map_id rules]
  exact map_congr_left h.copied

/-- Initialisation advances from each alternate of the start rule. -/
theorem init_yields (rules : Rules) (start fuel : ℕ) :
    Yields ((rules.alternates start).foldlM (fun newStacks pos =>
      advanceStack rules fuel newStacks (pushPos rules pos [])) [])
      (∀ sub ∈ rules.alternates start, (advanceStack rules fuel [] (pushPos rules sub [])).isSome)
      fun X => X ∈ ([] : List PosStack) ∨ ∃ sub ∈ rules.alternates start,
        Leads (Step rules) (pushPos rules sub []) X ∧ Ends (Terminals rules) X :=
  Yields.foldlM (fun sub _ news => advanceStack_yields rules fuel (pushPos rules sub []) news) []

/-- Accepting reads with each stack. -/
theorem accept_yields_leads (hg : Entered rules start g) (chr : UInt32) (fuel : ℕ) :
    Yields (g.allStacks.foldlM (acceptChr rules chr fuel) [])
      (∀ X ∈ g.allStacks, ∀ Y, Reads rules chr X Y → (advanceStack rules fuel [] Y).isSome)
      fun Z => Z ∈ ([] : List PosStack) ∨ ∃ X ∈ g.allStacks, ∃ Y, Reads rules chr X Y ∧
        Leads (Step rules) Y Z ∧ Ends (Terminals rules) Z :=
  Yields.foldlM (fun X hX news => acceptChr_yields_leads (hg.entered X hX).2 chr fuel news) []

theorem init_eq (hrules : rules.Proper) (hcheck : anyLeftRecursion rules = false) :
    initImpl fuel rules start = ((rules.alternates start).foldlM (fun newStacks pos =>
      advanceStack rules fuel newStacks (pushPos rules pos [])) []).map fun newStacks =>
        some ⟨rules, newStacks⟩ := by
  simp only [initImpl, hrules.map_copyRule, hcheck, Bool.false_eq_true, if_false]

theorem init_entered (hrules : rules.Proper) (hcheck : anyLeftRecursion rules = false)
    (hinit : initImpl fuel rules start = some (some g)) : Entered rules start g := by
  rw [init_eq hrules hcheck] at hinit
  obtain ⟨news, hrun, heq⟩ := map_eq_some_iff.mp hinit
  cases heq
  refine ⟨rfl, fun X hX => ?_⟩
  rcases ((init_yields rules start fuel).mem_iff news hrun X).mp hX with hnil | ⟨sub, hsub, h⟩
  · exact absurd hnil not_mem_nil
  · exact ⟨⟨_, .start hsub, h.1⟩, h.2⟩

theorem accept_entered (hg : Entered rules start g) (hrun : accept fuel g chr = some g') :
    Entered rules start g' := by
  obtain ⟨news, hfold, rfl⟩ := map_eq_some_iff.mp hrun
  rw [hg.rules_eq] at hfold ⊢
  refine ⟨rfl, fun Z hZ => ?_⟩
  rcases ((accept_yields_leads hg chr fuel).mem_iff news hfold Z).mp hZ with hnil |
    ⟨X, hX, Y, hread, h⟩
  · exact absurd hnil not_mem_nil
  · obtain ⟨⟨X₀, henters, hsteps⟩, _⟩ := hg.entered X hX
    exact ⟨⟨Y, henters.read hsteps hread, h.1⟩, h.2⟩

theorem feed_entered {w : List UInt32} (hg : Entered rules start g)
    (hrun : feed fuel g w = some g') : Entered rules start g' :=
  foldlM_invariant (fun _ _ _ h hone => accept_entered h hone) hrun hg

/-- Every call is on a stack that the rules lead to. -/
theorem Calls.enters (hrules : rules.Proper) (hcheck : anyLeftRecursion rules = false)
    (h : Calls rules start X) : Enters rules start X := by
  cases h with
  | init hsub => exact .start hsub
  | accept hinit hfeed hX hreads =>
    have hg := feed_entered (init_entered hrules hcheck hinit) hfeed
    obtain ⟨⟨Y, henters, hsteps⟩, _⟩ := hg.entered _ hX
    exact henters.read hsteps hreads

section Returns

variable (hrules : rules.Proper) (hcheck : anyLeftRecursion rules = false)
  (hreturns : ∀ X, Calls rules start X → ∃ fuel out, advanceStack rules fuel [] X = some out)
include hrules hcheck hreturns

/-- Where all calls return so does initialisation. -/
theorem exists_init : ∃ fuel g, initImpl fuel rules start = some (some g) ∧
    ∀ sub ∈ rules.alternates start, ∀ X, Leads (Step rules) (pushPos rules sub []) X →
      Ends (Terminals rules) X → X ∈ g.allStacks := by
  have hmono : FuelMono fun fuel newStacks pos =>
      advanceStack rules fuel newStacks (pushPos rules pos []) :=
    fun n m a pos a' => advanceStack_fuelMono rules n m a _ a'
  have hstep : ∀ news sub, sub ∈ rules.alternates start → True → ∃ n news',
      advanceStack rules n news (pushPos rules sub []) = some news' ∧ True := by
    intro news sub hsub _
    obtain ⟨n, out, hone⟩ := hreturns _ (.init hsub)
    obtain ⟨news', hnews⟩ := isSome_iff_exists.mp
      ((advanceStack_yields rules n _ news).isSome_iff.mpr (by rw [hone]; rfl))
    exact ⟨n, news', hnews, trivial⟩
  obtain ⟨fuel, news, hrun, _⟩ := hmono.exists_foldlM (P := fun _ => True) (a := []) trivial hstep
  refine ⟨fuel, ⟨rules, news⟩, by rw [init_eq hrules hcheck, hrun]; rfl, ?_⟩
  intro sub hsub X hsteps hends
  exact ((init_yields rules start fuel).mem_iff news hrun X).mpr (.inr ⟨sub, hsub, hsteps, hends⟩)

/-- And so does accepting a code point. -/
theorem exists_accept_of_returns {fuel fuel' : ℕ} {w : List UInt32} {g₀ : LlamaGrammar}
    (hinit : initImpl fuel rules start = some (some g₀)) (hfeed : feed fuel' g₀ w = some g)
    (chr : UInt32) : ∃ n g', accept n g chr = some g' ∧
      ∀ X ∈ g.allStacks, ∀ Y, Reads rules chr X Y → ∀ Z, Leads (Step rules) Y Z →
        Ends (Terminals rules) Z → Z ∈ g'.allStacks := by
  have hg := feed_entered (init_entered hrules hcheck hinit) hfeed
  have hstep : ∀ news X, X ∈ g.allStacks → True → ∃ n news',
      acceptChr rules chr n news X = some news' ∧ True := by
    intro news X hX _
    by_cases hreads : ∃ Y, Reads rules chr X Y
    · obtain ⟨Y, hY⟩ := hreads
      obtain ⟨n, out, hone⟩ := hreturns _ (.accept hinit hfeed hX hY)
      obtain ⟨news', hnews⟩ := isSome_iff_exists.mp
        ((advanceStack_yields rules n Y news).isSome_iff.mpr (by rw [hone]; rfl))
      exact ⟨n, news', by rw [hY.acceptChr, hnews], trivial⟩
    · have hno := acceptChr_of_not_reads (hg.entered X hX).2 fun Y hY => hreads ⟨Y, hY⟩
      exact ⟨0, news, hno 0 news, trivial⟩
  obtain ⟨n, news, hrun, _⟩ := (acceptChr_fuelMono rules chr).exists_foldlM
    (P := fun _ => True) (a := []) trivial hstep
  refine ⟨n, { g with allStacks := news }, ?_, ?_⟩
  · rw [accept, hg.rules_eq, hrun]
    rfl
  · intro X hX Y hreads Z hsteps hends
    exact ((accept_yields_leads hg chr n).mem_iff news hrun Z).mpr
      (.inr ⟨X, hX, Y, hreads, hsteps, hends⟩)

/-- What a call adds is among the stacks of the grammar after it. -/
theorem Calls.exists_state (h : Calls rules start X) (hsteps : Leads (Step rules) X Y)
    (hends : Ends (Terminals rules) Y) : ∃ fuel fuel' w g₀ g,
      initImpl fuel rules start = some (some g₀) ∧ feed fuel' g₀ w = some g ∧
      Y ∈ g.allStacks := by
  cases h with
  | init hsub =>
    obtain ⟨fuel, g, hinit, hmem⟩ := exists_init hrules hcheck hreturns
    exact ⟨fuel, 0, [], g, g, hinit, rfl, hmem _ hsub Y hsteps hends⟩
  | @accept fuel fuel' g₀ g w chr X₀ _ hinit hfeed hX hreads =>
    obtain ⟨n, g', hrun, hmem⟩ :=
      exists_accept_of_returns hrules hcheck hreturns hinit hfeed chr
    refine ⟨fuel, max fuel' n, w ++ [chr], g₀, g', hinit, ?_, hmem _ hX _ hreads Y hsteps hends⟩
    rw [feed_snoc]
    exact bind_eq_some_iff.mpr ⟨g, accept_fuelMono.foldlM (le_max_left fuel' n) hfeed,
      accept_fuelMono _ _ _ _ _ (le_max_right fuel' n) hrun⟩

/-- Where all calls return each stack that the rules lead to is called with. -/
theorem Enters.calls (h : Enters rules start X) : Calls rules start X := by
  induction h with
  | start hsub => exact .init hsub
  | read _ hsteps hreads ih =>
    obtain ⟨_, _, _, _, _, hinit, hfeed, hY⟩ :=
      ih.exists_state hrules hcheck hreturns hsteps hreads.ends
    exact .accept hinit hfeed hY hreads

end Returns

/-- **The check for left recursion**: it suffices just when it lets pass only rules whose stacks
settle. -/
theorem checkSuffices_iff (hrules : rules.Proper) : CheckSuffices rules start ↔
    (anyLeftRecursion rules = false → ∀ X, Enters rules start X → Settles rules X) := by
  constructor
  · intro h hcheck X henters
    have hreturns : ∀ X, Calls rules start X → ∃ fuel out,
        advanceStack rules fuel [] X = some out := by
      intro Y hY
      obtain ⟨fuel, out, hrun, _⟩ := h hcheck Y hY
      exact ⟨fuel, out, hrun⟩
    have hcalls := henters.calls hrules hcheck hreturns
    exact ((henters.sound hrules).advances_iff hrules).mp (h hcheck X hcalls)
  · intro h hcheck X hcalls
    have henters := hcalls.enters hrules hcheck
    exact ((henters.sound hrules).advances_iff hrules).mpr (h hcheck X henters)

/-! ## Two sets of rules -/

theorem proper_loop : (encode loop).Proper := ⟨by decide, by decide, by decide⟩

/-- The stacks of the rule, before and after an expansion. -/
inductive LoopStack : PosStack → Prop
  | done : LoopStack []
  | a : LoopStack [⟨0, 0⟩]
  | root : LoopStack [⟨0, 1⟩]
  | b : LoopStack [⟨0, 3⟩]

theorem loopStack_alternate (hsub : sub ∈ (encode loop).alternates 0) :
    LoopStack (pushPos (encode loop) sub []) := by
  have halternates : (encode loop).alternates 0 = [⟨0, 0⟩, ⟨0, 3⟩] := rfl
  rw [halternates] at hsub
  rcases mem_cons.mp hsub with rfl | hsub
  · exact .a
  · obtain rfl := mem_singleton.mp hsub
    exact .b

theorem LoopStack.leads (h : LoopStack X) (hsteps : Leads (Step (encode loop)) X Y) :
    LoopStack Y := by
  induction hsteps with
  | refl => exact h
  | tail _ step ih =>
    obtain ⟨⟨htype, sub, hsub, rfl⟩, s⟩ := step
    cases ih with
    | a => cases htype
    | root =>
      rw [append_nil]
      exact loopStack_alternate hsub
    | b => cases htype

theorem Enters.loopStack (h : Enters (encode loop) 0 X) : LoopStack X := by
  induction h with
  | start hsub => exact loopStack_alternate hsub
  | read _ hsteps hreads ih =>
    have hY := ih.leads hsteps
    obtain ⟨_, hmatch⟩ := hreads
    cases hY with
    | a =>
      cases congrArg (Option.map Prod.snd) hmatch
      exact .root
    | root => cases hmatch
    | b =>
      cases congrArg (Option.map Prod.snd) hmatch
      exact .done

theorem LoopStack.not_growing (h : LoopStack (pos :: Y)) : ¬Growing (Step (encode loop)) pos := by
  rintro ⟨r, hne, hgrow⟩
  have hone : LoopStack [pos] := by
    cases h with
    | a => exact .a
    | root => exact .root
    | b => exact .b
  cases hone.leads hgrow with
  | a => exact hne rfl
  | root => exact hne rfl
  | b => exact hne rfl

theorem LoopStack.settles (h : LoopStack X) : Settles (encode loop) X where
  not_growing _ _ hr := (h.leads hr).not_growing
  ends := by
    have hfinal : Terminals (encode loop) ⟨0, 0⟩ := .inl rfl
    cases h with
    | done => exact .inr .nil
    | a => exact .inl (.final hfinal)
    | root =>
      have hstep : Step (encode loop) ⟨0, 1⟩ [⟨0, 0⟩] := ⟨rfl, ⟨0, 0⟩, by decide, rfl⟩
      exact .inl (.expand hstep (.final hfinal))
    | b => exact .inl (.final (.inl rfl))

theorem checkSuffices_loop : CheckSuffices (encode loop) 0 :=
  (checkSuffices_iff proper_loop).mpr fun _ _ henters => henters.loopStack.settles

/-- `root ::= B root "a" | "b"`, `B ::= C`, `C ::= "c" |` -/
def masked : Rules :=
  [[⟨.ruleRef, 1⟩, ⟨.ruleRef, 0⟩, ⟨.char, 97⟩, ⟨.alt, 0⟩, ⟨.char, 98⟩, ⟨.end_, 0⟩],
    [⟨.ruleRef, 2⟩, ⟨.end_, 0⟩], [⟨.char, 99⟩, ⟨.alt, 0⟩, ⟨.end_, 0⟩]]

theorem proper_masked : masked.Proper := ⟨by decide, by decide, by decide⟩

theorem growing_masked : Growing (Step masked) ⟨0, 0⟩ := by
  have hB : Step masked ⟨0, 0⟩ [⟨1, 0⟩, ⟨0, 1⟩] := ⟨rfl, ⟨1, 0⟩, by decide, rfl⟩
  have hC : Step masked ⟨1, 0⟩ [] := ⟨rfl, ⟨2, 2⟩, by decide, rfl⟩
  have hroot : Step masked ⟨0, 1⟩ [⟨0, 0⟩, ⟨0, 2⟩] := ⟨rfl, ⟨0, 0⟩, by decide, rfl⟩
  refine ⟨[⟨0, 2⟩], cons_ne_nil _ _, ?_⟩
  exact .head (.mk hB []) (.head (.mk hC [⟨0, 1⟩]) (.single (.mk hroot [])))

theorem advanceStack_masked (fuel : ℕ) : advanceStack masked fuel [] [⟨0, 0⟩] = none := by
  cases hrun : advanceStack masked fuel [] [⟨0, 0⟩] with
  | none => rfl
  | some out => exact absurd growing_masked (not_growing_of_advanceStack hrun .refl)

/-- The check lets these pass, and the first call of `llama_grammar_advance_stack` does not
return. -/
theorem not_checkSuffices : masked.Proper ∧ anyLeftRecursion masked = false ∧
    (∀ fuel, advanceStack masked fuel [] [⟨0, 0⟩] = none) ∧ ¬CheckSuffices masked 0 := by
  refine ⟨proper_masked, by decide, advanceStack_masked, fun h => ?_⟩
  have hsub : (⟨0, 0⟩ : Pos) ∈ masked.alternates 0 := by decide
  obtain ⟨fuel, out, hrun, _⟩ := h (by decide) _ (.init hsub)
  cases (advanceStack_masked fuel).symm.trans hrun

/-- `root ::= B root`, `B ::= C`, `C ::=`: the check lets these pass too, and no stack is left. -/
def barren : Rules :=
  [[⟨.ruleRef, 1⟩, ⟨.ruleRef, 0⟩, ⟨.end_, 0⟩], [⟨.ruleRef, 2⟩, ⟨.end_, 0⟩], [⟨.end_, 0⟩]]

example : anyLeftRecursion barren = false ∧ advanceStack barren 5 [] [⟨0, 0⟩] = some [] := by
  decide

end ExpertPin.Grammar
