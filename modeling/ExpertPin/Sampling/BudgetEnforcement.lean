import ExpertPin.Lib.Occurrences
import ExpertPin.Sampling.BudgetWindows

/-!
# Enforcement of the reasoning budget

The sampler looks at the piece of one token to tell whether the text ends with a character.
When it is right about the tokens that are accepted with an exhausted budget, the budget is
enforced in all windows of a stream, and only then (`enforced_iff`).
-/

namespace ExpertPin.Sampling

open Draft (Token)
open Utf8 (Valid IsContinuation encode)
open List

namespace ReasoningBudget

variable {init ctx : ReasoningBudget} {before tokens u f : List Token} {token : Token}

/-! ## Forced tokens -/

/-- These tokens came since the sampler has begun to force, and all but the last have left it
forcing. -/
inductive ForcedWindow (init : ReasoningBudget) (before : List Token) : List Token → Prop
  | nil (h : (init.run before).state = .forcing)
      (h' : ∀ before' token, before = before' ++ [token] → (init.run before').state ≠ .forcing) :
      ForcedWindow init before []
  | snoc {f : List Token} {token : Token} (window : ForcedWindow init before f)
      (h : (init.run (before ++ f)).state = .forcing) : ForcedWindow init before (f ++ [token])

/-- While the sampler forces, a token is the single one that is left finite. -/
def Allowed (L : Type) [Bot L] (ctx : ReasoningBudget) (token : Token) : Prop :=
  ctx.state = .forcing → ∃ cur : List (TokenData L),
    (∃ data ∈ ctx.apply cur, data.id = token ∧ data.logit ≠ ⊥) ∧
      ∀ data ∈ ctx.apply cur, data.logit ≠ ⊥ → data.id = token

/-- It is the next token of the sequence. -/
theorem Allowed.eq_forced {L : Type} [Bot L] (h : ctx.Allowed L token)
    (hstate : ctx.state = .forcing) (hpos : ctx.forcePos < ctx.forcedTokens.length) :
    ctx.forcedTokens[ctx.forcePos] = token := by
  obtain ⟨cur, ⟨data, hdata, rfl, hfinite⟩, -⟩ := h hstate
  have hnot : ¬ctx.state ≠ .forcing := not_not_intro hstate
  rw [apply, if_neg hnot, getElem?_eq_getElem hpos] at hdata
  obtain ⟨data', -, rfl⟩ := mem_map.mp hdata
  by_cases hid : data'.id ≠ ctx.forcedTokens[ctx.forcePos]
  · rw [if_pos hid] at hfinite
    exact absurd rfl hfinite
  · rw [if_neg hid]
    exact (not_not.mp hid).symm

/-! ## Enforcement -/

def piece (vocab : Option Vocab) (token : Token) : List UInt8 :=
  match vocab with
  | none => []
  | some vocab => vocab.tokenToPiece token

def text (vocab : Option Vocab) (tokens : List Token) : List UInt8 := tokens.flatMap (piece vocab)

/-- The sampler forces behind these tokens just when the budget is exhausted and the text is
complete. -/
def ForcesRightly (init : ReasoningBudget) (before u : List Token) : Prop :=
  (init.run (before ++ u)).state = .forcing ↔
    (init.run (before ++ u)).state ≠ .done ∧ init.budget ≤ u.length ∧ Valid (text init.vocab u)

/-- The budget is enforced in a stream of tokens. -/
structure Enforced (init : ReasoningBudget) (tokens : List Token) : Prop where
  /-- An active sampler has accepted at most the budget, and then what a character needs. -/
  bounded : ∀ before u, before ++ u <+: tokens → Window init before u →
    (init.run (before ++ u)).Active → max init.budget 1 ≤ u.length → ¬Valid (text init.vocab u)
  /-- It begins to force with the first token behind which the budget is exhausted and the text
  is complete. -/
  starts : ∀ before u, before ++ u <+: tokens → Window init before u → u ≠ [] →
    ForcesRightly init before u
  /-- It forces the sequence, and then it is done. -/
  forces : ∀ before f, before ++ f <+: tokens → ForcedWindow init before f →
    f <+: init.forcedTokens ∧ (init.run (before ++ f)).state =
      if f.length = init.forcedTokens.length then .done else .forcing

/-- The pieces of the windows make up a text, which may be cut off. -/
def Readable (init : ReasoningBudget) (tokens : List Token) : Prop :=
  ∀ before u, before ++ u <+: tokens → Window init before u →
    ∃ rest, Valid (text init.vocab u ++ rest)

/-- No token that is accepted with an exhausted budget is judged wrongly. -/
def WellJudged (init : ReasoningBudget) (tokens : List Token) : Prop :=
  ∀ before u token, before ++ (u ++ [token]) <+: tokens → Window init before u →
    (init.run (before ++ u)).Active → init.budget ≤ u.length + 1 →
      ((init.run (before ++ u)).endMatcher.advance token).2 = false →
        ¬Misjudged (text init.vocab u) (piece init.vocab token)

theorem forcePos_activate (h : ctx.activate.state = .forcing) : ctx.activate.forcePos = 0 := by
  unfold activate at h ⊢
  dsimp only at h ⊢
  split
  case isTrue => rfl
  case isFalse hnot =>
    rw [if_neg hnot] at h
    cases h

theorem forcePos_count (hactive : ctx.Active) (h : (ctx.count token).state = .forcing) :
    (ctx.count token).forcePos = 0 := by
  rcases hactive with hstate | hstate
  · rw [count_counting hstate] at h ⊢
    split
    case isTrue hexhausted =>
      rw [if_pos hexhausted] at h
      split
      case isTrue => rfl
      case isFalse hnot =>
        rw [if_neg hnot] at h
        cases h
    case isFalse hmore =>
      rw [if_neg hmore] at h
      exact ReasoningBudgetState.noConfusion (hstate.symm.trans h)
  · rw [count_waiting hstate] at h ⊢
    split
    case isTrue => rfl
    case isFalse hnot =>
      rw [if_neg hnot] at h
      exact ReasoningBudgetState.noConfusion (hstate.symm.trans h)

theorem forcePos_accept_active (hactive : ctx.Active) (h : (ctx.accept token).state = .forcing) :
    (ctx.accept token).forcePos = 0 := by
  rw [accept_active hactive] at h ⊢
  split
  case isTrue hended =>
    rw [if_pos hended] at h
    cases h
  case isFalse hnot =>
    rw [if_neg hnot] at h
    have hactive' : Active { ctx with endMatcher := (ctx.endMatcher.advance token).1 } := hactive
    exact forcePos_count hactive' h

/-- The sampler begins to force with the first token of the sequence. -/
theorem forcePos_accept (hstate : ctx.state ≠ .forcing) (h : (ctx.accept token).state = .forcing) :
    (ctx.accept token).forcePos = 0 := by
  cases hcase : ctx.state with
  | idle =>
    rw [accept_idle hcase] at h ⊢
    split
    case isTrue hstarted =>
      rw [if_pos hstarted] at h
      exact forcePos_activate h
    case isFalse hnot =>
      rw [if_neg hnot] at h
      exact absurd h hstate
  | counting => exact forcePos_accept_active (.inl hcase) h
  | forcing => exact absurd hcase hstate
  | waitingUtf8 => exact forcePos_accept_active (.inr hcase) h
  | done =>
    rw [accept_done hcase] at h ⊢
    split
    case isTrue hstarted =>
      rw [if_pos hstarted] at h
      exact forcePos_activate h
    case isFalse hnot =>
      rw [if_neg hnot] at h
      exact absurd h hstate

/-- Each token of a stream is allowed where it is accepted. -/
def AllAllowed (L : Type) [Bot L] (init : ReasoningBudget) (tokens : List Token) : Prop :=
  ∀ before token, before ++ [token] <+: tokens → (init.run before).Allowed L token

/-- The state and the position after some forced tokens. -/
theorem ForcedWindow.spec {L : Type} [Bot L] (h : ForcedWindow init before f)
    (hfresh : init.Fresh) (hforced : init.forcedTokens ≠ [])
    (hallowed : AllAllowed L init (before ++ f)) :
    f <+: init.forcedTokens ∧ (init.run (before ++ f)).state =
        (if f.length = init.forcedTokens.length then .done else .forcing) ∧
      (init.run (before ++ f)).forcePos = f.length := by
  induction h with
  | nil h h' =>
    have hpos : 0 ≠ init.forcedTokens.length := Ne.symm (mt length_eq_zero_iff.mp hforced)
    rw [append_nil, length_nil, if_neg hpos]
    refine ⟨List.nil_prefix, h, ?_⟩
    rcases eq_nil_or_concat before with rfl | ⟨before', token, rfl⟩
    · exact hfresh.forcePos
    · rw [concat_eq_append] at h h' ⊢
      have hbefore := h' before' token rfl
      rw [run_append, run_singleton] at h ⊢
      exact forcePos_accept hbefore h
  | @snoc f token window h ih =>
    have hbefore : before ++ f <+: before ++ (f ++ [token]) :=
      (prefix_append_right_inj before).mpr (prefix_append f [token])
    obtain ⟨hf, hstate, hpos⟩ := ih fun before' token' hb =>
      hallowed before' token' (hb.trans hbefore)
    have hlt : f.length < init.forcedTokens.length := by
      refine Nat.lt_of_le_of_ne hf.length_le fun heq => ?_
      rw [if_pos heq, h] at hstate
      cases hstate
    have hsame := (same_run init (before ++ f)).forcedTokens
    have hnext : (init.run (before ++ f)).Allowed L token := by
      apply hallowed (before ++ f) token
      rw [append_assoc]
    have htoken := hnext.eq_forced h (by rw [hpos, hsame]; exact hlt)
    rw [← append_assoc, run_append, run_singleton, accept_forcing h, hpos, hsame]
    refine ⟨?_, ?_, ?_⟩
    · refine Occurrences.append_singleton_prefix_iff.mpr ⟨hf, ?_⟩
      rw [getElem?_eq_getElem hlt, ← htoken]
      simp only [hsame, hpos]
    · rw [length_append, length_singleton]
      by_cases hend : init.forcedTokens.length ≤ f.length + 1
      · rw [if_pos hend, if_pos (Nat.le_antisymm hlt hend)]
      · rw [if_neg hend, if_neg fun heq => hend (Nat.le_of_eq heq.symm)]
        exact h
    · rw [length_append]
      split
      · rfl
      · rfl

theorem text_none (tokens : List Token) : text none tokens = [] := by
  induction tokens with
  | nil => rfl
  | cons token tokens ih => exact ih

theorem text_append_singleton (vocab : Option Vocab) (u : List Token) (token : Token) :
    text vocab (u ++ [token]) = text vocab u ++ piece vocab token := by
  rw [text, flatMap_append, flatMap_singleton]
  rfl

/-- The judgement of a token behind others. -/
theorem pieceComplete_iff {rest : List UInt8}
    (hvalid : Valid (text ctx.vocab (u ++ [token]) ++ rest)) :
    (ctx.pieceComplete token = true ↔ Valid (text ctx.vocab (u ++ [token]))) ↔
      ¬Misjudged (text ctx.vocab u) (piece ctx.vocab token) := by
  cases hvocab : ctx.vocab with
  | none =>
    have hcomplete : ctx.pieceComplete token = true := by rw [pieceComplete, hvocab]
    rw [hcomplete, text_none, text_none]
    refine iff_of_true (iff_of_true rfl Utf8.valid_nil) ?_
    rintro (⟨-, hnot⟩ | ⟨hne, -, -⟩)
    · exact hnot Utf8.valid_nil
    · exact hne rfl
  | some vocab =>
    have hcomplete : ctx.pieceComplete token = utf8IsComplete (vocab.tokenToPiece token) := by
      rw [pieceComplete, hvocab]
    rw [hvocab, text_append_singleton] at hvalid
    rw [hcomplete, text_append_singleton]
    exact judged_iff (vocab.length_lt token) hvalid

/-- Whether a token of a window starts to force when it should is a matter of its judgement. -/
theorem starts_iff {rest : List UInt8} (hfresh : init.Fresh) (hwindow : Window init before u)
    (hactive : (init.run (before ++ u)).Active)
    (hvalid : Valid (text init.vocab (u ++ [token]) ++ rest)) :
    ForcesRightly init before (u ++ [token]) ↔ (init.budget ≤ u.length + 1 →
        ((init.run (before ++ u)).endMatcher.advance token).2 = false →
          ¬Misjudged (text init.vocab u) (piece init.vocab token)) := by
  have hsame := same_run init (before ++ u)
  have hstate := state_accept (hwindow.counts hfresh) hactive token
  have hlength : init.budget ≤ (u ++ [token]).length ↔ init.budget ≤ u.length + 1 := by
    rw [length_append]
    rfl
  rw [ForcesRightly, ← append_assoc, run_append, run_singleton, hstate, hsame.budget, hlength]
  cases ((init.run (before ++ u)).endMatcher.advance token).2 with
  | true =>
    refine iff_of_true (iff_of_false nofun ?_) fun _ hended =>
      absurd hended.symm Bool.false_ne_true
    exact fun h => h.1 rfl
  | false =>
    by_cases hbudget : init.budget ≤ u.length + 1
    case neg =>
      refine iff_of_true ?_ fun h => absurd h hbudget
      rw [if_neg Bool.false_ne_true, if_neg hbudget]
      exact iff_of_false nofun fun h => hbudget h.2.1
    case pos =>
      have hvalid' : Valid (text (init.run (before ++ u)).vocab (u ++ [token]) ++ rest) := by
        rw [hsame.vocab]
        exact hvalid
      have hjudged := pieceComplete_iff hvalid'
      rw [hsame.vocab] at hjudged
      rw [if_neg Bool.false_ne_true, if_pos hbudget, forall_prop_of_true hbudget,
        forall_prop_of_true rfl, ← hjudged]
      cases (init.run (before ++ u)).pieceComplete token with
      | true =>
        refine iff_congr (iff_of_true rfl rfl) ?_
        exact ⟨fun h => h.2.2, fun h => ⟨nofun, hbudget, h⟩⟩
      | false =>
        refine iff_congr (iff_of_false nofun nofun) ?_
        exact ⟨fun h => h.2.2, fun h => ⟨nofun, hbudget, h⟩⟩

theorem enforced_iff_wellJudged {L : Type} [Bot L] (hfresh : init.Fresh)
    (hforced : init.forcedTokens ≠ []) (hallowed : AllAllowed L init tokens)
    (hreadable : Readable init tokens) : Enforced init tokens ↔ WellJudged init tokens := by
  constructor
  · intro henforced before u token htokens hwindow hactive
    obtain ⟨rest, hvalid⟩ := hreadable before (u ++ [token]) htokens (.snoc hwindow hactive)
    refine (starts_iff hfresh hwindow hactive hvalid).mp ?_
    refine henforced.starts before (u ++ [token]) htokens (.snoc hwindow hactive) ?_
    exact append_ne_nil_of_right_ne_nil u (cons_ne_nil token [])
  · intro hjudged
    have hstarts : ∀ before u, before ++ u <+: tokens → Window init before u → u ≠ [] →
        ForcesRightly init before u := by
      intro before u htokens hwindow hne
      cases hwindow with
      | nil h => exact absurd rfl hne
      | @snoc u token hwindow hactive =>
        obtain ⟨rest, hvalid⟩ :=
          hreadable before (u ++ [token]) htokens (.snoc hwindow hactive)
        exact (starts_iff hfresh hwindow hactive hvalid).mpr
          (hjudged before u token htokens hwindow hactive)
    constructor
    case bounded =>
      intro before u htokens hwindow hactive hlong hvalid
      have hne : u ≠ [] := by
        rintro rfl
        exact absurd (Int.le_trans (Int.le_max_right _ _) hlong) (by decide)
      have hbudget : init.budget ≤ u.length := Int.le_trans (Int.le_max_left _ _) hlong
      have hforcing := (hstarts before u htokens hwindow hne).mpr ⟨?_, hbudget, hvalid⟩
      · rcases hactive with hactive | hactive
        · exact ReasoningBudgetState.noConfusion (hactive.symm.trans hforcing)
        · exact ReasoningBudgetState.noConfusion (hactive.symm.trans hforcing)
      · rcases hactive with hactive | hactive
        · rw [hactive]
          exact nofun
        · rw [hactive]
          exact nofun
    case starts => exact hstarts
    case forces =>
      intro before f htokens hwindow
      obtain ⟨hf, hstate, -⟩ := hwindow.spec hfresh hforced fun before' token htokens' =>
        hallowed before' token (htokens'.trans htokens)
      exact ⟨hf, hstate⟩

/-- The budget is enforced in a stream just when no token that is accepted with an exhausted
budget is judged wrongly. -/
theorem enforced_iff {L : Type} [Bot L] (vocab : Option Vocab)
    (startTokens endTokens forcedTokens : List Token) (hforced : forcedTokens ≠ []) (budget : ℤ)
    (initialState : ReasoningBudgetState) (tokens : List Token)
    (hallowed : AllAllowed L
      (initState vocab startTokens endTokens forcedTokens budget initialState) tokens)
    (hreadable : Readable
      (initState vocab startTokens endTokens forcedTokens budget initialState) tokens) :
    Enforced (initState vocab startTokens endTokens forcedTokens budget initialState) tokens ↔
      WellJudged (initState vocab startTokens endTokens forcedTokens budget initialState)
        tokens :=
  enforced_iff_wellJudged
    (fresh_initState vocab startTokens endTokens forcedTokens budget initialState) hforced hallowed
    hreadable

/-- A vocabulary with one letter. -/
def letters : Vocab where
  tokenToPiece _ := [0x61]
  length_lt _ := Nat.one_lt_two_pow (Nat.succ_ne_zero 30)

theorem text_letters (tokens : List Token) :
    text (some letters) tokens = encode (List.replicate tokens.length 'a') := by
  induction tokens with
  | nil => rfl
  | cons token tokens ih =>
    rw [length_cons, replicate_succ, Utf8.encode_cons, ← ih]
    rfl

theorem enforced_iff_letters :
    Enforced (initState (some letters) [1] [2] [3] 1 .idle) [1, 5, 3] := by
  refine (@enforced_iff Bool ⟨false⟩ (some letters) [1] [2] [3] (cons_ne_nil 3 []) 1 .idle
    [1, 5, 3] ?_ ?_).mpr ?_
  · intro before token htokens
    rcases before with _ | ⟨first, _ | ⟨second, before⟩⟩
    · exact nofun
    · rw [cons_append, cons_prefix_cons] at htokens
      rw [htokens.1]
      exact nofun
    · simp only [cons_append, cons_prefix_cons] at htokens
      obtain ⟨rfl, rfl, htokens⟩ := htokens
      cases before with
      | nil =>
        obtain rfl : token = 3 := (cons_prefix_cons.mp htokens).1
        refine fun _ => ⟨[⟨3, true⟩], ⟨⟨3, true⟩, mem_singleton_self _, rfl, nofun⟩, ?_⟩
        exact fun data hdata _ => congrArg TokenData.id (mem_singleton.mp hdata)
      | cons third before =>
        exact absurd htokens.length_le (by simp)
  · intro before u _ _
    refine ⟨[], replicate u.length 'a', ?_⟩
    rw [append_nil]
    exact (text_letters u).symm
  · rintro before u token - - - - - (⟨hnil, -⟩ | ⟨-, hall, -⟩)
    · cases hnil
    · exact absurd (hall 0x61 mem_cons_self) (by decide)

/-- A vocabulary with the bytes of a letter as tokens. -/
def bytes : Vocab where
  tokenToPiece token := if token = 5 then [0xC3] else [0xA9]
  length_lt token := by
    split
    · exact Nat.one_lt_two_pow (Nat.succ_ne_zero 30)
    · exact Nat.one_lt_two_pow (Nat.succ_ne_zero 30)

/-- A sampler that counts from the start. -/
def oneToken : ReasoningBudget := initState (some bytes) [1] [2] [3] 1 .counting

theorem state_oneToken {before : List Token} {token : Token} (h : before ++ [token] <+: [5, 6]) :
    (oneToken.run before).state = .counting ∨ (oneToken.run before).state = .waitingUtf8 := by
  rcases before with _ | ⟨first, _ | ⟨second, before⟩⟩
  · exact .inl rfl
  · rw [cons_append, cons_prefix_cons] at h
    rw [h.1]
    exact .inr (by decide)
  · exact absurd h.length_le (by simp)

theorem activated_oneToken {before : List Token} (h : Activated oneToken before)
    (htokens : before <+: [5, 6]) : before = [] := by
  cases h with
  | initial => rfl
  | started h _ =>
    rcases state_oneToken htokens with hstate | hstate
    · rw [hstate] at h
      rcases h with h | h
      · cases h
      · cases h
    · rw [hstate] at h
      rcases h with h | h
      · cases h
      · cases h

theorem readable_oneToken : Readable oneToken [5, 6] := by
  intro before u htokens hwindow
  have hbefore : before <+: [5, 6] := (prefix_append before u).trans htokens
  obtain rfl := activated_oneToken hwindow.activated hbefore
  obtain ⟨rest, hrest⟩ := htokens
  refine ⟨text (some bytes) rest, ['é'], ?_⟩
  calc encode ['é']
      = text (some bytes) [5, 6] := by decide
    _ = text (some bytes) u ++ text (some bytes) rest := by
        rw [← hrest, nil_append, text, flatMap_append]
        rfl

/-- The sampler does not see that the second byte completes the letter. -/
theorem not_enforced : ¬∀ (vocab : Option Vocab) (startTokens endTokens forcedTokens : List Token),
    forcedTokens ≠ [] → ∀ budget : ℤ, 0 ≤ budget →
      ∀ (initialState : ReasoningBudgetState) (tokens : List Token), @AllAllowed Bool ⟨false⟩
          (initState vocab startTokens endTokens forcedTokens budget initialState) tokens →
        Readable (initState vocab startTokens endTokens forcedTokens budget initialState) tokens →
        Enforced (initState vocab startTokens endTokens forcedTokens budget initialState)
          tokens := by
  intro hall
  have hallowed : @AllAllowed Bool ⟨false⟩ oneToken [5, 6] := by
    intro before token htokens hforcing
    rcases state_oneToken htokens with hstate | hstate
    · exact ReasoningBudgetState.noConfusion (hstate.symm.trans hforcing)
    · exact ReasoningBudgetState.noConfusion (hstate.symm.trans hforcing)
  have henforced := hall (some bytes) [1] [2] [3] (cons_ne_nil 3 []) 1 (by decide) .counting
    [5, 6] hallowed readable_oneToken
  have hwindow : Window oneToken [] [5, 6] :=
    .snoc (.snoc (.nil (.initial rfl)) (.inl rfl)) (.inr (by decide))
  have hstarts := henforced.starts [] [5, 6] (prefix_refl _) hwindow (cons_ne_nil 5 [6])
  have hvalid : Valid (text (some bytes) [5, 6]) := ⟨['é'], by decide⟩
  have hforcing := hstarts.mpr ⟨by decide, by decide, hvalid⟩
  exact absurd hforcing (by decide)

end ReasoningBudget

end ExpertPin.Sampling
