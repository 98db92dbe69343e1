import Mathlib.Data.List.Perm.Basic
import Mathlib.Data.List.TakeWhile
import ExpertPin.Server.PromptCache

/-!
# What the prompt cache promises

A state is refused if there is one with all of its tokens, and erased if the new one has all of its
tokens.  The tokens that are compared are not those of the new state, but what is left of them when
the part that context shifts have discarded from the prompt is discarded from them once more: the
promise is kept if and only if this makes no difference.
-/

namespace ExpertPin.Server.PromptCache

open ServerTokens (Failure)
open List

variable (V : Vocab)

/-- All tokens of `U` are in `T`, from the first on. -/
def covers (T U : ServerTokens) : Bool :=
  match T.getCommonPrefix V U false with
  | .ok common => common.2 == U.size
  | .error _ => false

/-- All tokens of `T` are in `U`. -/
def covered (T U : ServerTokens) : Bool :=
  match T.getCommonPrefix V U false with
  | .ok common => common.1 == T.size
  | .error _ => false

/-! ## Promises -/

/-- A state is refused only for one that has all of its tokens, and replaces only states of which it
has all tokens. -/
structure SavePromise (before after : List ServerPrompt) (saved : ServerPrompt) (new : Bool) :
    Prop where
  refused : new = false → ∃ state ∈ before, covers V state.tokens saved.tokens = true
  erased : ∃ kept removed, after = (if new then kept ++ [saved] else kept) ∧
    before.Perm (kept ++ removed) ∧ ∀ state ∈ removed, covered V state.tokens saved.tokens = true

/-- Only a state that has been restored is removed, and its tokens are those of the slot. -/
def LoadPromise (setData : List UInt8 → ℕ) (before after : PromptCache)
    (prompt prompt' : ServerPrompt) : Prop :=
  (after = before ∧ prompt' = prompt) ∨
    ∃ i state, before.states[i]? = some state ∧ setData state.data = state.data.length ∧
      after = { before with states := before.states.eraseIdx i } ∧
      prompt' = { state with data := [] }

/-- The oldest states are dropped, until the rest is within the limit or at most one is left. -/
def UpdatePromise (before after : PromptCache) : Prop :=
  0 < before.limitSize → (totalSize after.states ≤ before.limitSize ∨ after.states.length ≤ 1) ∧
      ∃ n, after.states = before.states.drop n

/-- What a call promises, unless there is no memory for the state that it saves. -/
def Step.Keeps {F : Type} (step : Step F) : Prop :=
  match step.made, step.answer with
  | .save prompt stateData allocates _, .saved new => allocates = true →
      SavePromise V step.before.states step.after.states { prompt with data := stateData } new
  | .load setData prompt _ _, .loaded prompt' _ =>
    LoadPromise setData step.before step.after prompt prompt'
  | .update, .updated => UpdatePromise step.before step.after
  | _, _ => False

/-- It makes no difference that `U` is compared in place of `T`. -/
structure SameCover (states : List ServerPrompt) (T U : ServerTokens) : Prop where
  refused : ∀ state ∈ states, covers V state.tokens U = true →
    ∃ state ∈ states, covers V state.tokens T = true
  erased : ∀ state ∈ states.takeWhile fun state => !covers V state.tokens U,
    covered V state.tokens U = true → covered V state.tokens T = true

/-- The tokens of a state that is saved may be compared without what was discarded. -/
def Step.Fits {F : Type} (step : Step F) : Prop :=
  match step.made with
  | .save prompt _ allocates _ => allocates = true →
      ∀ U, prompt.tokens.discardNTokens prompt.nKeptPrompt prompt.nDiscardedPrompt = .ok U →
        SameCover V step.before.states prompt.tokens U
  | _ => True

/-! ## Saving -/

variable {V} {prompt : ServerPrompt} {states : List ServerPrompt} {U : ServerTokens}

theorem eraseObsolete_ok {r : List ServerPrompt × Bool}
    (hdiscard : prompt.tokens.discardNTokens prompt.nKeptPrompt prompt.nDiscardedPrompt = .ok U)
    (h : eraseObsolete V prompt states = .ok r) :
    r.1 = ((states.takeWhile fun state => !covers V state.tokens U).filter
        fun state => !covered V state.tokens U) ++
          states.dropWhile (fun state => !covers V state.tokens U) ∧
      (r.2 = true ↔ ∃ state ∈ states, covers V state.tokens U = true) := by
  induction states generalizing r with
  | nil =>
    obtain rfl := Except.ok.inj h
    exact ⟨rfl, by simp⟩
  | cons state states ih =>
    rw [eraseObsolete, hdiscard] at h
    dsimp only [bind, Except.bind] at h
    cases hcommon : state.tokens.getCommonPrefix V U false with
    | error e =>
      rw [hcommon] at h
      cases h
    | ok common =>
      rw [hcommon] at h
      dsimp only at h
      have hcovers : covers V state.tokens U = (common.2 == U.size) := by
        rw [covers, hcommon]
      have hcovered : covered V state.tokens U = (common.1 == state.tokens.size) := by
        rw [covered, hcommon]
      split at h
      case isTrue hall =>
        obtain rfl := Except.ok.inj h
        have htrue : covers V state.tokens U = true := by
          rw [hcovers, hall, beq_self_eq_true]
        simp [htrue]
      case isFalse hnot =>
        have hfalse : covers V state.tokens U = false := by
          rw [hcovers]
          exact beq_false_of_ne hnot
        rw [takeWhile_cons_of_pos (by rw [hfalse]; rfl),
          dropWhile_cons_of_pos (by rw [hfalse]; rfl)]
        split at h
        case isTrue hobsolete =>
          have htrue : covered V state.tokens U = true := by
            rw [hcovered, hobsolete, beq_self_eq_true]
          obtain ⟨hkept, hrefused⟩ := ih h
          rw [filter_cons_of_neg (by rw [htrue]; exact Bool.false_ne_true)]
          refine ⟨hkept, hrefused.trans ?_⟩
          simp [hfalse]
        case isFalse hstays =>
          have hstill : covered V state.tokens U = false := by
            rw [hcovered]
            exact beq_false_of_ne hstays
          cases hrest : eraseObsolete V prompt states with
          | error e =>
            rw [hrest] at h
            cases h
          | ok rest =>
            rw [hrest] at h
            obtain rfl := Except.ok.inj h
            obtain ⟨hkept, hrefused⟩ := ih hrest
            rw [filter_cons_of_pos (by rw [hstill]; rfl)]
            refine ⟨by rw [cons_append, ← hkept], hrefused.trans ?_⟩
            simp [hfalse]

/-- What is erased is what has all of its tokens in the new state. -/
theorem perm_erased (states : List ServerPrompt) (p q : ServerPrompt → Bool) :
    states.Perm (((states.takeWhile p).filter fun state => !q state) ++ states.dropWhile p ++
      (states.takeWhile p).filter q) := by
  have hsplit : states.takeWhile p ++ states.dropWhile p = states :=
    takeWhile_append_dropWhile
  have hfirst : (states.takeWhile p).Perm (((states.takeWhile p).filter fun state => !q state) ++
      (states.takeWhile p).filter q) :=
    (filter_append_perm q _).symm.trans perm_append_comm
  have hall := hfirst.append_right (states.dropWhile p)
  rw [hsplit] at hall
  refine hall.trans ?_
  simp only [append_assoc]
  exact perm_append_comm.append_left _

theorem modify_last (rest : List ServerPrompt) (state : ServerPrompt)
    (f : ServerPrompt → ServerPrompt) :
    (rest ++ [state]).modify ((rest ++ [state]).length - 1) f = rest ++ [f state] := by
  rw [length_append, length_singleton, Nat.add_sub_cancel,
    modify_eq_take_cons_drop (by simp)]
  simp

variable {cache cache' : PromptCache}

/-- Saving is all or nothing: the state is refused, or comes last with its data. -/
theorem promptSave_ok {stateData : List UInt8} {reduced : ℕ → ℕ}
    {new : Bool} (h : promptSave V cache prompt stateData true reduced = .ok (cache', new)) :
    ∃ rest, eraseObsolete V prompt cache.states = .ok (rest, !new) ∧
      cache'.states = if new then rest ++ [{ prompt with data := stateData }] else rest := by
  rw [promptSave, alloc] at h
  cases hrest : eraseObsolete V prompt cache.states with
  | error e =>
    rw [hrest] at h
    cases h
  | ok rest =>
    rw [hrest] at h
    obtain ⟨rest, found⟩ := rest
    cases found with
    | true =>
      obtain ⟨rfl, rfl⟩ := Prod.mk.inj (Except.ok.inj h)
      exact ⟨rest, rfl, rfl⟩
    | false =>
      obtain ⟨rfl, rfl⟩ := Prod.mk.inj (Except.ok.inj h)
      exact ⟨rest, rfl, modify_last ..⟩

/-- A state is saved as promised if and only if it makes no difference what is compared. -/
theorem savePromise_iff {stateData : List UInt8} {reduced : ℕ → ℕ}
    {new : Bool}
    (hdiscard : prompt.tokens.discardNTokens prompt.nKeptPrompt prompt.nDiscardedPrompt = .ok U)
    (h : promptSave V cache prompt stateData true reduced = .ok (cache', new)) :
    SavePromise V cache.states cache'.states { prompt with data := stateData } new ↔
      SameCover V cache.states prompt.tokens U := by
  obtain ⟨rest, hrest, hafter⟩ := promptSave_ok h
  obtain ⟨hkept, hfound⟩ := eraseObsolete_ok hdiscard hrest
  have hperm := perm_erased cache.states (fun state => !covers V state.tokens U)
    (fun state => covered V state.tokens U)
  rw [← hkept] at hperm
  have hrefused : new = false ↔ ∃ state ∈ cache.states, covers V state.tokens U = true := by
    rw [← hfound]
    cases new with
    | true => exact iff_of_false (fun h => by cases h) fun h => by cases h
    | false => exact iff_of_true rfl rfl
  constructor
  · rintro ⟨hold, kept, removed, hsame, hremoved, hall⟩
    obtain rfl : rest = kept := by
      rw [hafter] at hsame
      cases new with
      | true => exact append_cancel_right hsame
      | false => exact hsame
    refine ⟨fun state hstate hcovers => hold (hrefused.mpr ⟨state, hstate, hcovers⟩), ?_⟩
    intro state hstate hcovered
    have herased := (perm_append_left_iff rest).mp (hremoved.symm.trans hperm)
    exact hall state (herased.mem_iff.mpr (mem_filter.mpr ⟨hstate, hcovered⟩))
  · rintro ⟨hold, hall⟩
    refine ⟨fun hnew => ?_, rest, _, hafter, hperm, fun state hstate => ?_⟩
    · obtain ⟨state, hstate, hcovers⟩ := hrefused.mp hnew
      exact hold state hstate hcovers
    · obtain ⟨hmem, hcovered⟩ := mem_filter.mp hstate
      exact hall state hmem hcovered

/-! ## Loading and dropping -/

theorem loadPromise_restore {setData : List UInt8 → ℕ} {cache : PromptCache} (best : Option ℕ) :
    LoadPromise setData cache (restore setData cache prompt best).1 prompt
      (restore setData cache prompt best).2.1 := by
  unfold restore
  cases best with
  | none => exact .inl ⟨rfl, rfl⟩
  | some i =>
    dsimp only
    cases hstate : cache.states[i]? with
    | none => exact .inl ⟨rfl, rfl⟩
    | some state =>
      dsimp only
      split
      case isTrue => exact .inl ⟨rfl, rfl⟩
      case isFalse hread => exact .inr ⟨i, state, hstate, not_not.mp hread, rfl, rfl⟩

theorem dropOldest_spec (limit : ℕ) (states : List ServerPrompt) :
    (totalSize (dropOldest limit states) ≤ limit ∨ (dropOldest limit states).length ≤ 1) ∧
      ∃ n, dropOldest limit states = states.drop n := by
  induction states with
  | nil => exact ⟨.inr (Nat.zero_le _), 0, rfl⟩
  | cons state states ih =>
    cases states with
    | nil => exact ⟨.inr (Nat.le_refl _), 0, rfl⟩
    | cons next states =>
      rw [dropOldest]
      split
      case isTrue =>
        obtain ⟨hlimit, n, hn⟩ := ih
        exact ⟨hlimit, n + 1, hn⟩
      case isFalse hfits => exact ⟨.inl (Nat.not_lt.mp hfits), 0, rfl⟩

theorem updatePromise (cache : PromptCache) : UpdatePromise cache cache.update := by
  intro hlimit
  rw [update, if_pos hlimit]
  exact dropOldest_spec ..

/-! ## Runs -/

section Runs

variable {F : Type} {m : Measure F} {excludeThink : ThinkingTokens → ServerTokens → ServerTokens}

/-- The first state is promised whatever is compared. -/
theorem savePromise_nil {stateData : List UInt8} {reduced : ℕ → ℕ}
    {new : Bool} (hnil : cache.states = [])
    (h : promptSave V cache prompt stateData true reduced = .ok (cache', new)) :
    SavePromise V cache.states cache'.states { prompt with data := stateData } new := by
  obtain ⟨rest, hrest, hafter⟩ := promptSave_ok h
  rw [hnil] at hrest
  obtain ⟨rfl, hnew⟩ := Prod.mk.inj (Except.ok.inj hrest)
  refine ⟨fun hno => ?_, [], [], hafter, ?_, fun state hstate => by cases hstate⟩
  swap
  · rw [hnil]
    exact .refl _
  rw [hno] at hnew
  cases hnew

/-- A call keeps what it promises if and only if it makes no difference what it compares. -/
theorem keeps_iff_fits {before after : PromptCache} {made : Call F} {answer : Answer}
    (h : call V m excludeThink before made = .ok (after, answer)) :
    Step.Keeps V { before, made, after, answer } ↔ Step.Fits V { before, made, after, answer } := by
  cases made with
  | save prompt stateData allocates reduced =>
    rw [call] at h
    cases hsave : promptSave V before prompt stateData allocates reduced with
    | error e =>
      rw [hsave] at h
      cases h
    | ok r =>
      rw [hsave] at h
      obtain ⟨rfl, rfl⟩ := Prod.mk.inj (Except.ok.inj h)
      cases allocates with
      | false => exact iff_of_true (fun h => by cases h) fun h => by cases h
      | true =>
        refine forall_congr' fun _ => ?_
        cases hdiscard : prompt.tokens.discardNTokens prompt.nKeptPrompt
            prompt.nDiscardedPrompt with
        | error e =>
          refine iff_of_true (savePromise_nil ?_ hsave) fun U h => by cases h
          obtain ⟨rest, hrest, _⟩ := promptSave_ok hsave
          cases hstates : before.states with
          | nil => rfl
          | cons state states =>
            rw [hstates, eraseObsolete, hdiscard] at hrest
            cases hrest
        | ok U =>
          refine (savePromise_iff hdiscard hsave).trans ⟨fun h U' hU => ?_, fun h => h U rfl⟩
          obtain rfl := Except.ok.inj hU
          exact h
  | load setData prompt tokensNew minReusable =>
    refine iff_of_true ?_ trivial
    rw [call, load] at h
    dsimp only [bind, Except.bind] at h
    split at h
    · cases h
    · split at h
      · cases h
      · obtain ⟨rfl, rfl⟩ := Prod.mk.inj (Except.ok.inj h)
        exact loadPromise_restore _
  | update =>
    obtain ⟨rfl, rfl⟩ := Prod.mk.inj (Except.ok.inj h)
    exact iff_of_true (updatePromise before) trivial

/-- Each step of a run is a call. -/
theorem call_of_mem_run {cache : PromptCache} {calls : List (Call F)} {steps : List (Step F)}
    (h : run V m excludeThink cache calls = .ok steps) :
    ∀ step ∈ steps,
      call V m excludeThink step.before step.made = .ok (step.after, step.answer) := by
  induction calls generalizing cache steps with
  | nil =>
    obtain rfl := Except.ok.inj h
    exact fun step hstep => by cases hstep
  | cons made calls ih =>
    rw [run] at h
    cases hcall : call V m excludeThink cache made with
    | error e =>
      rw [hcall] at h
      cases h
    | ok r =>
      rw [hcall] at h
      dsimp only [bind, Except.bind] at h
      cases hrest : run V m excludeThink r.1 calls with
      | error e =>
        rw [hrest] at h
        cases h
      | ok rest =>
        rw [hrest] at h
        obtain rfl := Except.ok.inj h
        exact forall_mem_cons.mpr ⟨hcall, ih hrest⟩

end Runs

/-- It makes no difference where nothing is discarded once more. -/
theorem sameCover_of_undiscarded {T : ServerTokens} {nKeep nDiscard : ℤ}
    (hnone : nDiscard ≤ 0 ∨ nKeep + nDiscard ≥ T.size)
    (h : T.discardNTokens nKeep nDiscard = .ok U) :
    SameCover V states T U := by
  rw [ServerTokens.discardNTokens, if_pos hnone] at h
  obtain rfl := Except.ok.inj h
  exact ⟨fun state hstate hcovers => ⟨state, hstate, hcovers⟩, fun _ _ hcovered => hcovered⟩

/-- In a run every call keeps what it promises if and only if no state is saved for which it makes
a difference that what context shifts have discarded is discarded from its tokens too. -/
theorem run_keeps_iff {F : Type} (V : Vocab) (m : Measure F)
    (excludeThink : ThinkingTokens → ServerTokens → ServerTokens) (cache : PromptCache)
    (calls : List (Call F)) (steps : List (Step F))
    (h : run V m excludeThink cache calls = .ok steps) :
    (∀ step ∈ steps, step.Keeps V) ↔ ∀ step ∈ steps, step.Fits V :=
  forall₂_congr fun step hstep => keeps_iff_fits (call_of_mem_run h step hstep)

/-- Prompts are all alike. -/
def alike : Measure Unit where
  ratio _ _ := ()
  slotSimilarity _ _ _ := ()
  lt _ _ := false

/-- A state for "xa", and one for "xaa" of whose prompt so many tokens have been discarded. -/
def saves (nDiscardedPrompt : ℤ) : List (Call Unit) :=
  [.save { tokens := { hasMtmd := false, tokens := [4, 0], media := [] } } [1] true fun n => n,
   .save { tokens := { hasMtmd := false, tokens := [4, 0, 0], media := [] }
           nKeptPrompt := 1, nDiscardedPrompt } [2] true fun n => n,
   .update]

theorem run_keeps_saves : ∃ steps, run spelling alike (fun _ T => T) {} (saves 0) = .ok steps ∧
      ∀ step ∈ steps, step.Keeps spelling := by
  refine ⟨_, rfl, (run_keeps_iff spelling alike (fun _ T => T) {} (saves 0) _ ?_).mpr ?_⟩
  · rfl
  · rintro step (_ | ⟨_, _ | ⟨_, _ | ⟨_, hstep⟩⟩⟩)
    · exact fun _ U hU => sameCover_of_undiscarded (.inl (Int.le_refl 0)) hU
    · exact fun _ U hU => sameCover_of_undiscarded (.inl (Int.le_refl 0)) hU
    · exact trivial
    · cases hstep

/-- Without a token "xaa" is "xa", and its state is refused. -/
theorem not_run_keeps : ¬∀ {F : Type} (V : Vocab) (m : Measure F)
      (excludeThink : ThinkingTokens → ServerTokens → ServerTokens) (cache : PromptCache)
      (calls : List (Call F)) (steps : List (Step F)),
      run V m excludeThink cache calls = .ok steps → ∀ step ∈ steps, step.Keeps V := by
  intro h
  have hkeeps := h spelling alike (fun _ T => T) {} (saves 1) _ rfl
  have hsecond := hkeeps _ (mem_cons_of_mem _ (mem_cons_self ..)) rfl
  have hrefused := hsecond.refused rfl
  revert hrefused
  decide

end ExpertPin.Server.PromptCache
