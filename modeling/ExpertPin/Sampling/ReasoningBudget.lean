import ExpertPin.Draft.SuffixTree
import ExpertPin.Lib.Utf8

/-!
# The reasoning budget

The sampler counts the tokens of a reasoning block.  When the budget is exhausted it waits for
the end of a character and then leaves one token at a time finite, until a sequence that ends
the block is accepted.
-/

namespace ExpertPin.Sampling

open Draft (Token toInt)

/-! ## Matching tokens -/

structure TokenMatcher where
  tokens : List Token
  pos : ℕ := 0
deriving DecidableEq, Repr

namespace TokenMatcher

/-- The matcher after a token, and whether that completes the pattern. -/
def advance (matcher : TokenMatcher) (token : Token) : TokenMatcher × Bool :=
  if matcher.tokens = [] then (matcher, false)
  else if matcher.tokens[matcher.pos]? = some token then
    if matcher.tokens.length ≤ matcher.pos + 1 then ({ matcher with pos := 0 }, true)
    else ({ matcher with pos := matcher.pos + 1 }, false)
  else if matcher.tokens[0]? = some token then ({ matcher with pos := 1 }, false)
  else ({ matcher with pos := 0 }, false)

def reset (matcher : TokenMatcher) : TokenMatcher := { matcher with pos := 0 }

end TokenMatcher

/-! ## The end of a character -/

/-- The last bytes from the `i`-th on, up to the first that begins a character. -/
def completeFrom : List UInt8 → ℕ → Bool
  | [], _ => false
  | c :: cs, i =>
    if c &&& 0xC0 ≠ 0x80 then
      let expected := if 0xF0 ≤ c then 4 else if 0xE0 ≤ c then 3 else if 0xC0 ≤ c then 2 else 1
      decide (expected ≤ i)
    else completeFrom cs (i + 1)

/-- `common_utf8_is_complete`. -/
def utf8IsComplete (s : List UInt8) : Bool :=
  if s = [] then true else completeFrom (s.reverse.take (min 4 (toInt s.length)).toNat) 1

/-- The pieces of a vocabulary.  The length of a piece is an `int`. -/
structure Vocab where
  tokenToPiece : Token → List UInt8
  length_lt : ∀ token, (tokenToPiece token).length < 2 ^ 31

/-! ## The sampler -/

inductive ReasoningBudgetState where
  | idle
  | counting
  | forcing
  | waitingUtf8
  | done
deriving DecidableEq, Repr

/-- The budget never leaves the `int32_t`: it only counts down to zero. -/
structure ReasoningBudget where
  vocab : Option Vocab
  startMatcher : TokenMatcher
  endMatcher : TokenMatcher
  forcedTokens : List Token
  budget : ℤ
  remaining : ℤ
  state : ReasoningBudgetState
  forcePos : ℕ

namespace ReasoningBudget

/-- `common_reasoning_budget_init_state`. -/
def initState (vocab : Option Vocab) (startTokens endTokens forcedTokens : List Token)
    (budget : ℤ) (initialState : ReasoningBudgetState) : ReasoningBudget where
  vocab := vocab
  startMatcher := ⟨startTokens, 0⟩
  endMatcher := ⟨endTokens, 0⟩
  forcedTokens := forcedTokens
  budget := budget
  remaining := budget
  state := if initialState = .counting ∧ budget ≤ 0 then .forcing else initialState
  forcePos := 0

/-- Without a vocabulary each token is complete. -/
def pieceComplete (ctx : ReasoningBudget) (token : Token) : Bool :=
  match ctx.vocab with
  | none => true
  | some vocab => utf8IsComplete (vocab.tokenToPiece token)

def force (ctx : ReasoningBudget) : ReasoningBudget := { ctx with state := .forcing, forcePos := 0 }

/-- A start tag is complete. -/
def activate (ctx : ReasoningBudget) : ReasoningBudget :=
  let ctx := { ctx with state := .counting, remaining := ctx.budget }
  if ctx.remaining ≤ 0 then ctx.force else ctx

/-- A token that does not end the block. -/
def count (ctx : ReasoningBudget) (token : Token) : ReasoningBudget :=
  let utf8Complete := ctx.pieceComplete token
  if ctx.state = .waitingUtf8 then
    if utf8Complete then { ctx.force with endMatcher := ctx.endMatcher.reset } else ctx
  else
    let ctx := { ctx with remaining := ctx.remaining - 1 }
    if ctx.remaining ≤ 0 then
      if utf8Complete then { ctx.force with endMatcher := ctx.endMatcher.reset }
      else { ctx with state := .waitingUtf8, endMatcher := ctx.endMatcher.reset }
    else ctx

/-- `common_reasoning_budget_accept`. -/
def accept (ctx : ReasoningBudget) (token : Token) : ReasoningBudget :=
  match ctx.state with
  | .idle =>
    let (startMatcher, started) := ctx.startMatcher.advance token
    let ctx := { ctx with startMatcher }
    if started then ctx.activate else ctx
  | .counting | .waitingUtf8 =>
    let (endMatcher, ended) := ctx.endMatcher.advance token
    let ctx := { ctx with endMatcher }
    if ended then { ctx with state := .done } else ctx.count token
  | .forcing =>
    let ctx := { ctx with forcePos := ctx.forcePos + 1 }
    if ctx.forcedTokens.length ≤ ctx.forcePos then { ctx with state := .done } else ctx
  | .done =>
    let (startMatcher, started) := ctx.startMatcher.advance token
    let ctx := { ctx with startMatcher }
    if started then { ctx with endMatcher := ctx.endMatcher.reset }.activate else ctx

/-- A candidate with its logit; `⊥` is the infinite one. -/
structure TokenData (L : Type) where
  id : Token
  logit : L

/-- `common_reasoning_budget_apply`. -/
def apply {L : Type} [Bot L] (ctx : ReasoningBudget) (cur : List (TokenData L)) :
    List (TokenData L) :=
  if ctx.state ≠ .forcing then cur
  else
    match ctx.forcedTokens[ctx.forcePos]? with
    | none => cur
    | some forced => cur.map fun data => if data.id ≠ forced then { data with logit := ⊥ } else data

end ReasoningBudget

end ExpertPin.Sampling

/-!
## The end of a character, by its last piece

`common_utf8_is_complete` looks at one piece for the last byte that begins a character.  That
is the end of the text behind which the piece stands, unless the piece is empty or goes on with
a character of the pieces before (`judged_iff`).
-/

namespace ExpertPin.Sampling

open Draft (toInt toInt_of_lt)
open Utf8 (Valid IsContinuation charLength encode)
open List

/-- The last byte of a piece that begins a character. -/
theorem continuations_or_lead (s : List UInt8) : (∀ b ∈ s, IsContinuation b) ∨
    ∃ before lead rest, s = before ++ lead :: rest ∧ ¬IsContinuation lead ∧
      ∀ b ∈ rest, IsContinuation b := by
  induction s with
  | nil => exact .inl (forall_mem_nil _)
  | cons b s ih =>
    rcases ih with hall | ⟨before, lead, rest, rfl, hlead, hrest⟩
    · by_cases hb : IsContinuation b
      · exact .inl (forall_mem_cons.mpr ⟨hb, hall⟩)
      · exact .inr ⟨[], b, s, rfl, hb, hall⟩
    · exact .inr ⟨b :: before, lead, rest, rfl, hlead, hrest⟩

theorem completeFrom_cons {b : UInt8} (h : IsContinuation b) (s : List UInt8) (i : ℕ) :
    completeFrom (b :: s) i = completeFrom s (i + 1) := if_neg (not_not_intro h)

theorem completeFrom_continuations {s : List UInt8} (h : ∀ b ∈ s, IsContinuation b) (i : ℕ) :
    completeFrom s i = false := by
  induction s generalizing i with
  | nil => rfl
  | cons b s ih =>
    obtain ⟨hb, hs⟩ := forall_mem_cons.mp h
    rw [completeFrom_cons hb]
    exact ih hs (i + 1)

theorem completeFrom_lead {s before : List UInt8} {lead : UInt8}
    (h : ∀ b ∈ s, IsContinuation b) (hlead : ¬IsContinuation lead) (i : ℕ) :
    completeFrom (s ++ lead :: before) i = decide (charLength lead ≤ i + s.length) := by
  induction s generalizing i with
  | nil => exact if_pos hlead
  | cons b s ih =>
    obtain ⟨hb, hs⟩ := forall_mem_cons.mp h
    rw [cons_append, completeFrom_cons hb, ih hs (i + 1), length_cons,
      Nat.add_right_comm, Nat.add_assoc]

theorem charLength_le (lead : UInt8) : charLength lead ≤ 4 := by
  unfold charLength
  split
  · exact Nat.le_refl 4
  · split
    · exact Nat.le_succ 3
    · split
      · exact Nat.le_add_right 2 2
      · exact Nat.le_add_right 1 3

theorem utf8IsComplete_continuations {s : List UInt8} (hne : s ≠ [])
    (h : ∀ b ∈ s, IsContinuation b) : utf8IsComplete s = false := by
  rw [utf8IsComplete, if_neg hne]
  refine completeFrom_continuations (fun b hb => h b ?_) 1
  exact mem_reverse.mp (mem_of_mem_take hb)

/-- The last byte that begins a character is looked for in the last four bytes, and in fewer where
the size is less as an `int`. -/
theorem utf8IsComplete_eq {before rest : List UInt8} {lead : UInt8} (hlead : ¬IsContinuation lead)
    (hrest : ∀ b ∈ rest, IsContinuation b) :
    utf8IsComplete (before ++ lead :: rest) = decide (charLength lead ≤ rest.length + 1 ∧
      ((rest.length + 1 : ℕ) : ℤ) ≤ min 4 (toInt (before ++ lead :: rest).length)) := by
  have hne : before ++ lead :: rest ≠ [] :=
    append_ne_nil_of_right_ne_nil _ (cons_ne_nil _ _)
  have hreverse : (before ++ lead :: rest).reverse = rest.reverse ++ lead :: before.reverse := by
    rw [reverse_append, reverse_cons, append_assoc]
    rfl
  have hrest' : ∀ b ∈ rest.reverse, IsContinuation b := fun b hb => hrest b (mem_reverse.mp hb)
  rw [utf8IsComplete, if_neg hne, hreverse]
  generalize min 4 (toInt (before ++ lead :: rest).length) = seen
  by_cases hseen : ((rest.length + 1 : ℕ) : ℤ) ≤ seen
  · obtain ⟨k, hk⟩ : ∃ k, seen.toNat = rest.reverse.length + (k + 1) := by
      rw [length_reverse]
      exact ⟨seen.toNat - (rest.length + 1), by omega⟩
    rw [hk, take_length_add_append, take_succ_cons, completeFrom_lead hrest' hlead,
      length_reverse, Nat.add_comm]
    exact decide_eq_decide.mpr (and_iff_left hseen).symm
  · have hshort : seen.toNat ≤ rest.reverse.length := by
      rw [length_reverse]
      omega
    rw [take_append_of_le_length hshort, decide_eq_false fun h => hseen h.2]
    exact completeFrom_continuations (fun b hb => hrest' b (mem_of_mem_take hb)) 1

theorem utf8IsComplete_lead {before rest : List UInt8} {lead : UInt8}
    (hsize : (before ++ lead :: rest).length < 2 ^ 31) (hlead : ¬IsContinuation lead)
    (hrest : ∀ b ∈ rest, IsContinuation b) (hshort : rest.length + 1 ≤ 4) :
    utf8IsComplete (before ++ lead :: rest) = decide (charLength lead ≤ rest.length + 1) := by
  have hlength : (before ++ lead :: rest).length = before.length + (rest.length + 1) :=
    length_append
  rw [utf8IsComplete_eq hlead hrest, toInt_of_lt hsize, hlength]
  refine decide_eq_decide.mpr (and_iff_left ?_)
  omega

/-- A piece is judged wrongly behind a text when it is empty and the text is not complete, or
when it goes on with a character and completes it. -/
def Misjudged (text piece : List UInt8) : Prop :=
  piece = [] ∧ ¬Valid text ∨ piece ≠ [] ∧ (∀ b ∈ piece, IsContinuation b) ∧ Valid (text ++ piece)

theorem judged_iff {text piece rest : List UInt8} (hsize : piece.length < 2 ^ 31)
    (hvalid : Valid (text ++ piece ++ rest)) :
    (utf8IsComplete piece = true ↔ Valid (text ++ piece)) ↔ ¬Misjudged text piece := by
  by_cases hne : piece = []
  · subst hne
    have hcomplete : utf8IsComplete [] = true := rfl
    rw [append_nil, hcomplete]
    constructor
    · rintro hjudged (⟨-, hnot⟩ | ⟨hne, -, -⟩)
      · exact hnot (hjudged.mp rfl)
      · exact hne rfl
    · intro hright
      refine ⟨fun _ => ?_, fun _ => rfl⟩
      by_contra hnot
      exact hright (.inl ⟨rfl, hnot⟩)
  rcases continuations_or_lead piece with hall | ⟨before, lead, rest', rfl, hlead, hrest⟩
  · rw [utf8IsComplete_continuations hne hall]
    constructor
    · rintro hjudged (⟨hnil, -⟩ | ⟨-, -, hcompletes⟩)
      · exact hne hnil
      · exact Bool.false_ne_true (hjudged.mpr hcompletes)
    · intro hright
      refine ⟨fun h => absurd h Bool.false_ne_true, fun hcompletes => ?_⟩
      exact absurd (.inr ⟨hne, hall, hcompletes⟩) hright
  · obtain ⟨whole, hwhole⟩ := hvalid
    have hbegins : (text ++ before) ++ lead :: rest' <+: encode whole := by
      rw [hwhole, append_assoc text]
      exact prefix_append _ _
    obtain ⟨hshort, hiff⟩ := Utf8.valid_iff_of_isPrefix hlead hrest hbegins
    rw [utf8IsComplete_lead hsize hlead hrest (Nat.le_trans hshort (charLength_le lead)),
      decide_eq_true_eq, ← append_assoc text, hiff]
    refine iff_of_true Iff.rfl ?_
    rintro (⟨hnil, -⟩ | ⟨-, hall, -⟩)
    · exact hne hnil
    · exact hlead (hall lead (mem_append_right _ mem_cons_self))

end ExpertPin.Sampling
