import ExpertPin.Lib.StringSearch
import Mathlib.Algebra.Order.Ring.Unbundled.Rat

/-!
# Drafting with a draft model

`common_speculative_state_draft` of `common/speculative.cpp`: a small model proposes tokens, and
the tokens that its context holds are mirrored in `prompt_dft`.  Calls of `llama_decode` succeed.
A cell of the draft context's sequence 0 has the token that was decoded into it and its position;
what the model computes is an input that sees the cells of the sequence.  Two vocabularies that are
not compatible are translated through text, with the tokenizers of both contexts as inputs.
-/

namespace ExpertPin.Draft.DraftModel

abbrev Text := List UInt8

abbrev Token := ℕ

/-! ## Replacing in texts -/

/-- The loop that replaces what is found from `pos` on, at most so many times. -/
def replaceFrom (first second : Text) : ℕ → Text → ℕ → Option Text
  | 0, _, _ => none
  | fuel + 1, result, pos =>
    match StringSearch.find result first pos with
    | none => some result
    | some i =>
      replaceFrom first second fuel (result.take i ++ second ++ result.drop (i + first.length))
        (i + second.length)

/-- One pair of the map.  An empty text is found again and again, so the loop does not end. -/
def replacePair (first second input : Text) : Option Text :=
  replaceFrom first second (input.length + 1) input 0

/-- `replace_to_dft`, with the map in the order in which it is visited. -/
def replaceToDft (vocabMap : List (Text × Text)) (input : Text) : Option Text :=
  vocabMap.foldlM (fun result pair => replacePair pair.1 pair.2 result) input

/-- `replace_to_tgt` -/
def replaceToTgt (vocabMap : List (Text × Text)) (input : Text) : Option Text :=
  vocabMap.foldlM (fun result pair => replacePair pair.2 pair.1 result) input

/-! ## The cells of the draft context -/

/-- A cell of sequence 0. -/
structure Cell where
  pos : ℤ
  token : Token
deriving DecidableEq, Repr

/-- The position is in `[p0, p1)`, where a negative bound is none. -/
def posIn (pos p0 p1 : ℤ) : Prop := p0 ≤ pos ∧ (p1 < 0 ∨ pos < p1)

instance (pos p0 p1 : ℤ) : Decidable (posIn pos p0 p1) := inferInstanceAs (Decidable (_ ∧ _))

/-- `llama_kv_cache_seq_rm` of sequence 0 -/
def seqRm (cells : List Cell) (p0 p1 : ℤ) : List Cell :=
  cells.filter fun cell => ¬posIn cell.pos p0 p1

/-- `llama_kv_cache_seq_add` of sequence 0: a cell whose position gets negative is freed. -/
def seqAdd (cells : List Cell) (p0 p1 delta : ℤ) : List Cell :=
  let moved := cells.map fun cell =>
    if posIn cell.pos p0 p1 then { cell with pos := cell.pos + delta } else cell
  moved.filter fun cell => 0 ≤ cell.pos

/-- Tokens at consecutive positions, as a batch has them. -/
def consecutive (pos : ℤ) : List Token → List Cell
  | [] => []
  | token :: tokens => { pos, token } :: consecutive (pos + 1) tokens

/-! ## The state -/

/-- The most probable token with its probability. -/
structure Candidate where
  id : Token
  p : ℚ
deriving DecidableEq, Repr

/-- What does not change between the calls: the contexts, their vocabularies and the draft model. -/
structure Contexts where
  nCtx : ℕ
  nBatch : ℕ
  vocabCmpt : Bool
  vocabMap : List (Text × Text)
  /-- The sizes of the vocabularies of the target and of the draft model. -/
  nVocabTgt : ℕ
  nVocabDft : ℕ
  /-- What the draft model finds most probable after the cells of its context. -/
  top : List Cell → Candidate
  /-- `common_detokenize` of the target context, which shows special tokens. -/
  detokenizeTgt : List Token → Text
  /-- `llama_detokenize` of the target vocabulary, which does not. -/
  plainTgt : Token → Text
  detokenizeDft : List Token → Text
  tokenizeTgt : Text → List Token
  tokenizeDft : Text → List Token
  top_lt : ∀ cells, (top cells).id < nVocabDft
  tokenizeTgt_lt : ∀ text, ∀ token ∈ tokenizeTgt text, token < nVocabTgt

structure State where
  promptDft : List Token
  cells : List Cell
deriving DecidableEq, Repr

/-- A call of `draft`. -/
structure Call where
  nMax : ℕ
  pMin : ℚ
  promptTgt : List Token
  idLast : Token

/-! ## What is reused -/

/-- The loop that compares two stretches. -/
def matchLength : List Token → List Token → ℕ
  | a :: as, b :: bs => if a = b then matchLength as bs + 1 else 0
  | _, _ => 0

/-- The search for the longest stretch of the old draft context that begins the window of the
prompt: `reuse_i` and `reuse_n`. -/
def reuse (nCtx : ℤ) (promptSize : ℕ) (window promptDft : List Token) : ℕ × ℕ :=
  (List.range promptDft.length).foldl (fun best i =>
    let cur := matchLength window (promptDft.drop i)
    if (256 ≤ cur ∨ (promptSize : ℤ) ≤ nCtx) ∧ best.2 < cur then (i, cur) else best) (0, 0)

/-! ## The calls -/

variable (C : Contexts)

/-- The context that is left for the prompt. -/
def Call.nCtx (call : Call) : ℤ := C.nCtx - call.nMax

/-- The prompt in the draft vocabulary. -/
def Call.promptCur (call : Call) : Option (List Token) :=
  if C.vocabCmpt then some call.promptTgt
  else (replaceToDft C.vocabMap (C.detokenizeTgt call.promptTgt)).map C.tokenizeDft

/-- The last token in the draft vocabulary, as a text that is not empty is translated. -/
def Call.lastTokens (call : Call) : Option (List Token) :=
  if C.vocabCmpt then some [call.idLast]
  else if C.plainTgt call.idLast = [] then none
  else (replaceToDft C.vocabMap (C.plainTgt call.idLast)).map C.tokenizeDft

/-- The window of the prompt: `i_start` tokens are left out. -/
def Call.window (call : Call) (promptCur : List Token) : List Token :=
  promptCur.drop (promptCur.length - call.nCtx C).toNat

/-- What a call reuses. -/
def Call.found (call : Call) (promptCur : List Token) (s : State) : ℕ × ℕ :=
  reuse (call.nCtx C) promptCur.length (call.window C promptCur) s.promptDft

/-- The loop that samples, with `n` tokens left after the first `i`. -/
def sample (call : Call) (nPast : ℕ) : ℕ → ℕ → State → List Token → State × List Token
  | _, 0, s, result => (s, result)
  | i, n + 1, s, result =>
    let best := C.top s.cells
    if best.p < call.pMin then (s, if i = 0 then result ++ [best.id] else result)
    else
      let result := result ++ [best.id]
      if call.nMax ≤ result.length then (s, result)
      else
        sample call nPast (i + 1) n
          { cells := s.cells ++ consecutive (nPast + i + 1) [best.id]
            promptDft := s.promptDft ++ [best.id] } result

/-- The result in the target vocabulary. -/
def toTarget (call : Call) (result : List Token) : Option (List Token) :=
  if C.vocabCmpt then some result
  else (replaceToTgt C.vocabMap (C.detokenizeDft result)).map fun text =>
    (C.tokenizeTgt text).take call.nMax

/-- Keep `n` tokens from `i` on. -/
def keep (s : State) (i n : ℕ) : State :=
  let s := if 0 < i then
      { cells := seqAdd (seqRm s.cells 0 i) i (-1) (-i), promptDft := s.promptDft.drop i }
    else s
  if n < s.promptDft.length then
    { cells := seqRm s.cells n (-1), promptDft := s.promptDft.take n }
  else s

/-- Decode the prompt and the last token, and sample. -/
def decodeAndSample (call : Call) (window : List Token) (idLast : Token) (reuseN : ℕ) (s : State) :
    Option (State × List Token) :=
  let rest := window.drop reuseN
  if rest.length ≤ C.nBatch ∧ 1 ≤ C.nBatch then
    let nPast := s.promptDft.length + rest.length
    let s := {
      cells := s.cells ++ consecutive reuseN rest ++ consecutive nPast [idLast]
      promptDft := s.promptDft ++ rest ++ [idLast] }
    let (s, result) := sample C call nPast 0 call.nMax s []
    (toTarget C call result).map fun result => (s, result)
  else none

/-- The old draft goes on with the last token after what is reused. -/
def passesBack (reuse : ℕ × ℕ) (idLast : Token) (promptDft : List Token) : Prop :=
  0 < reuse.2 ∧ promptDft[reuse.1 + reuse.2]? = some idLast

instance (reuse : ℕ × ℕ) (idLast : Token) (promptDft : List Token) :
    Decidable (passesBack reuse idLast promptDft) := inferInstanceAs (Decidable (_ ∧ _))

/-- `draft`; `none` is a failed assertion, a token of no tokens or a loop without end. -/
def draft (s : State) (call : Call) : Option (State × List Token) := do
  let promptCur ← call.promptCur C
  let idLast ← (← call.lastTokens C).head?
  let window := call.window C promptCur
  let found := call.found C promptCur s
  if found.2 = 0 then
    decodeAndSample C call window idLast 0 { cells := [], promptDft := [] }
  else if passesBack found idLast s.promptDft then
    some (s, (s.promptDft.drop (found.1 + found.2 + 1)).take call.nMax)
  else decodeAndSample C call window idLast found.2 (keep s found.1 found.2)

end ExpertPin.Draft.DraftModel
