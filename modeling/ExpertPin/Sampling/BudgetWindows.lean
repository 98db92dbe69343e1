import ExpertPin.Sampling.ReasoningBudget

/-!
# The windows of the reasoning budget

A window is what is accepted since a start tag, or the start, has activated the budget.  While
it lasts the sampler counts the tokens down, and the state after each one is known from how
many they are and from its judgement of that token (`state_accept`).
-/

namespace ExpertPin.Sampling

open Draft (Token)

namespace ReasoningBudget

variable {init ctx : ReasoningBudget} {before u : List Token}

/-! ## Steps -/

/-- The sampler after some tokens. -/
def run (ctx : ReasoningBudget) (tokens : List Token) : ReasoningBudget := tokens.foldl accept ctx

theorem run_append (ctx : ReasoningBudget) (tokens tokens' : List Token) :
    ctx.run (tokens ++ tokens') = (ctx.run tokens).run tokens' := List.foldl_append

theorem run_singleton (ctx : ReasoningBudget) (token : Token) :
    ctx.run [token] = ctx.accept token :=
  rfl

/-- The tokens are counted. -/
def Active (ctx : ReasoningBudget) : Prop := ctx.state = .counting ∨ ctx.state = .waitingUtf8

/-- What no token changes. -/
structure Same (ctx ctx' : ReasoningBudget) : Prop where
  vocab : ctx'.vocab = ctx.vocab
  forcedTokens : ctx'.forcedTokens = ctx.forcedTokens
  budget : ctx'.budget = ctx.budget

theorem Same.trans {ctx' ctx'' : ReasoningBudget} (h : ctx.Same ctx') (h' : ctx'.Same ctx'') :
    ctx.Same ctx'' :=
  ⟨h'.vocab.trans h.vocab, h'.forcedTokens.trans h.forcedTokens, h'.budget.trans h.budget⟩

theorem Same.activate {ctx' : ReasoningBudget} (h : ctx.Same ctx') : ctx.Same ctx'.activate := by
  apply h.trans
  unfold ReasoningBudget.activate
  dsimp only
  split
  · exact ⟨rfl, rfl, rfl⟩
  · exact ⟨rfl, rfl, rfl⟩

theorem Same.count {ctx' : ReasoningBudget} (h : ctx.Same ctx') (token : Token) :
    ctx.Same (ctx'.count token) := by
  apply h.trans
  unfold ReasoningBudget.count
  dsimp only
  split
  · split
    · exact ⟨rfl, rfl, rfl⟩
    · exact ⟨rfl, rfl, rfl⟩
  · split
    · split
      · exact ⟨rfl, rfl, rfl⟩
      · exact ⟨rfl, rfl, rfl⟩
    · exact ⟨rfl, rfl, rfl⟩

theorem accept_idle (h : ctx.state = .idle) (token : Token) : ctx.accept token =
    if (ctx.startMatcher.advance token).2 then
      { ctx with startMatcher := (ctx.startMatcher.advance token).1 }.activate
    else { ctx with startMatcher := (ctx.startMatcher.advance token).1 } := by
  rw [accept, h]

theorem accept_active (h : ctx.Active) (token : Token) : ctx.accept token =
    if (ctx.endMatcher.advance token).2 then
      { ctx with endMatcher := (ctx.endMatcher.advance token).1, state := .done }
    else { ctx with endMatcher := (ctx.endMatcher.advance token).1 }.count token := by
  rcases h with h | h
  · rw [accept, h]
  · rw [accept, h]

theorem accept_forcing (h : ctx.state = .forcing) (token : Token) : ctx.accept token =
    if ctx.forcedTokens.length ≤ ctx.forcePos + 1 then
      { ctx with forcePos := ctx.forcePos + 1, state := .done }
    else { ctx with forcePos := ctx.forcePos + 1 } := by
  rw [accept, h]

theorem accept_done (h : ctx.state = .done) (token : Token) : ctx.accept token =
    if (ctx.startMatcher.advance token).2 then
      { ctx with
        startMatcher := (ctx.startMatcher.advance token).1
        endMatcher := ctx.endMatcher.reset }.activate
    else { ctx with startMatcher := (ctx.startMatcher.advance token).1 } := by
  rw [accept, h]

theorem same_accept (ctx : ReasoningBudget) (token : Token) : ctx.Same (ctx.accept token) := by
  cases hstate : ctx.state with
  | idle =>
    rw [accept_idle hstate]
    split
    · exact Same.activate ⟨rfl, rfl, rfl⟩
    · exact ⟨rfl, rfl, rfl⟩
  | counting =>
    rw [accept_active (.inl hstate)]
    split
    · exact ⟨rfl, rfl, rfl⟩
    · apply Same.count
      exact ⟨rfl, rfl, rfl⟩
  | forcing =>
    rw [accept_forcing hstate]
    split
    · exact ⟨rfl, rfl, rfl⟩
    · exact ⟨rfl, rfl, rfl⟩
  | waitingUtf8 =>
    rw [accept_active (.inr hstate)]
    split
    · exact ⟨rfl, rfl, rfl⟩
    · apply Same.count
      exact ⟨rfl, rfl, rfl⟩
  | done =>
    rw [accept_done hstate]
    split
    · exact Same.activate ⟨rfl, rfl, rfl⟩
    · exact ⟨rfl, rfl, rfl⟩

theorem same_run (ctx : ReasoningBudget) (tokens : List Token) : ctx.Same (ctx.run tokens) := by
  induction tokens generalizing ctx with
  | nil => exact ⟨rfl, rfl, rfl⟩
  | cons token tokens ih => exact (same_accept ctx token).trans (ih (ctx.accept token))

/-! ## Windows -/

/-- After these tokens the budget has just been activated. -/
inductive Activated (init : ReasoningBudget) : List Token → Prop
  | initial (h : init.state = .counting) : Activated init []
  | started {before : List Token} {token : Token}
      (h : (init.run before).state = .idle ∨ (init.run before).state = .done)
      (h' : (init.run (before ++ [token])).state = .counting) : Activated init (before ++ [token])

/-- These tokens came since the activation, and all but the last have left it active. -/
inductive Window (init : ReasoningBudget) (before : List Token) : List Token → Prop
  | nil (h : Activated init before) : Window init before []
  | snoc {u : List Token} {token : Token} (window : Window init before u)
      (h : (init.run (before ++ u)).Active) : Window init before (u ++ [token])

theorem Window.activated (h : Window init before u) : Activated init before := by
  induction h with
  | nil h => exact h
  | snoc _ _ ih => exact ih

/-- The tokens are counted down, or they are as many as the budget. -/
structure Counts (ctx : ReasoningBudget) (used : ℕ) : Prop where
  counting : ctx.state = .counting → ctx.remaining = ctx.budget - used ∧ used < ctx.budget
  waiting : ctx.state = .waitingUtf8 → ctx.budget ≤ used ∧ 0 < used

theorem counts_activate (ctx : ReasoningBudget) : ctx.activate.Counts 0 := by
  unfold activate
  dsimp only
  split
  case isTrue h => exact ⟨nofun, nofun⟩
  case isFalse h => exact ⟨fun _ => ⟨(Int.sub_zero _).symm, Int.lt_of_not_ge h⟩, nofun⟩

/-- A sampler that has accepted nothing. -/
structure Fresh (init : ReasoningBudget) : Prop where
  counting : init.state = .counting → init.remaining = init.budget ∧ 0 < init.budget
  forcePos : init.forcePos = 0

theorem fresh_initState (vocab : Option Vocab) (startTokens endTokens forcedTokens : List Token)
    (budget : ℤ) (initialState : ReasoningBudgetState) :
    Fresh (initState vocab startTokens endTokens forcedTokens budget initialState) := by
  refine ⟨fun h => ⟨rfl, ?_⟩, rfl⟩
  by_contra hbudget
  unfold initState at h
  dsimp only at h
  split at h
  case isTrue => cases h
  case isFalse hnot => exact hnot ⟨h, Int.not_lt.mp hbudget⟩

theorem Activated.counts (hfresh : init.Fresh) (h : Activated init before) :
    (init.run before).Counts 0 := by
  cases h with
  | initial h =>
    obtain ⟨hremaining, hbudget⟩ := hfresh.counting h
    refine ⟨fun _ => ⟨hremaining.trans (Int.sub_zero _).symm, hbudget⟩, fun hwaiting => ?_⟩
    exact ReasoningBudgetState.noConfusion (h.symm.trans hwaiting)
  | started h h' =>
    rw [run_append, run_singleton] at h' ⊢
    rcases h with h | h
    · rw [accept_idle h] at h' ⊢
      split
      case isTrue => exact counts_activate _
      case isFalse hnot =>
        rw [if_neg hnot] at h'
        exact ReasoningBudgetState.noConfusion (h.symm.trans h')
    · rw [accept_done h] at h' ⊢
      split
      case isTrue => exact counts_activate _
      case isFalse hnot =>
        rw [if_neg hnot] at h'
        exact ReasoningBudgetState.noConfusion (h.symm.trans h')

/-- A token that is counted down. -/
theorem count_counting (h : ctx.state = .counting) (token : Token) : ctx.count token =
    if ctx.remaining - 1 ≤ 0 then
      if ctx.pieceComplete token then
        { ctx.force with remaining := ctx.remaining - 1, endMatcher := ctx.endMatcher.reset }
      else { ctx with
        remaining := ctx.remaining - 1, state := .waitingUtf8, endMatcher := ctx.endMatcher.reset }
    else { ctx with remaining := ctx.remaining - 1 } := by
  have hnot : ctx.state ≠ .waitingUtf8 := by
    rw [h]
    exact nofun
  exact if_neg hnot

/-- A token behind the budget. -/
theorem count_waiting (h : ctx.state = .waitingUtf8) (token : Token) : ctx.count token =
      if ctx.pieceComplete token then { ctx.force with endMatcher := ctx.endMatcher.reset }
      else ctx :=
  if_pos h

/-- The state after a token that is counted. -/
theorem state_count {used : ℕ} (h : ctx.Counts used) (hactive : ctx.Active) (token : Token) :
    (ctx.count token).state = if ctx.budget ≤ used + 1 then
        if ctx.pieceComplete token then .forcing else .waitingUtf8
      else .counting := by
  rcases hactive with hstate | hstate
  · obtain ⟨hremaining, -⟩ := h.counting hstate
    have hexhausted : ctx.remaining - 1 ≤ 0 ↔ ctx.budget ≤ used + 1 := by omega
    rw [count_counting hstate]
    by_cases hbudget : ctx.budget ≤ used + 1
    · rw [if_pos hbudget, if_pos (hexhausted.mpr hbudget)]
      split
      · rfl
      · rfl
    · rw [if_neg hbudget, if_neg fun hle => hbudget (hexhausted.mp hle)]
      exact hstate
  · obtain ⟨hbudget, -⟩ := h.waiting hstate
    rw [count_waiting hstate, if_pos (Int.le_add_one hbudget)]
    split
    · rfl
    · exact hstate

theorem Counts.count {used : ℕ} (h : ctx.Counts used) (hactive : ctx.Active) (token : Token) :
    (ctx.count token).Counts (used + 1) := by
  have hbudget' : (ctx.count token).budget = ctx.budget := (Same.count ⟨rfl, rfl, rfl⟩ token).budget
  have hstate := state_count h hactive token
  constructor
  case counting =>
    intro hcounting
    rw [hcounting] at hstate
    by_cases hbudget : ctx.budget ≤ used + 1
    · rw [if_pos hbudget] at hstate
      split at hstate
      · cases hstate
      · cases hstate
    rw [hbudget']
    rcases hactive with hactive | hactive
    · obtain ⟨hremaining, -⟩ := h.counting hactive
      rw [count_counting hactive, if_neg (by omega)]
      dsimp only
      omega
    · exact absurd (Int.le_add_one (h.waiting hactive).1) hbudget
  case waiting =>
    intro hwaiting
    rw [hwaiting] at hstate
    rw [hbudget']
    refine ⟨?_, Nat.succ_pos used⟩
    by_contra hbudget
    have hmore : ¬ctx.budget ≤ used + 1 := by omega
    rw [if_neg hmore] at hstate
    cases hstate

theorem Counts.accept {used : ℕ} (h : ctx.Counts used) (hactive : ctx.Active) (token : Token) :
    (ctx.accept token).Counts (used + 1) := by
  rw [accept_active hactive]
  split
  case isTrue => exact ⟨nofun, nofun⟩
  case isFalse =>
    have hcounts : Counts { ctx with endMatcher := (ctx.endMatcher.advance token).1 } used :=
      ⟨h.counting, h.waiting⟩
    exact hcounts.count hactive token

theorem Window.counts (hfresh : init.Fresh) (h : Window init before u) :
    (init.run (before ++ u)).Counts u.length := by
  induction h with
  | nil h =>
    rw [List.append_nil]
    exact h.counts hfresh
  | snoc window h ih =>
    rw [← List.append_assoc, run_append, run_singleton, List.length_append]
    exact ih.accept h _

/-- The state after a token of a window. -/
theorem state_accept {used : ℕ} (h : ctx.Counts used) (hactive : ctx.Active) (token : Token) :
    (ctx.accept token).state = if (ctx.endMatcher.advance token).2 then .done
      else if ctx.budget ≤ used + 1 then
        if ctx.pieceComplete token then .forcing else .waitingUtf8
      else .counting := by
  rw [accept_active hactive]
  split
  case isTrue => rfl
  case isFalse =>
    have hcounts : Counts { ctx with endMatcher := (ctx.endMatcher.advance token).1 } used :=
      ⟨h.counting, h.waiting⟩
    exact state_count hcounts hactive token

end ReasoningBudget

end ExpertPin.Sampling
