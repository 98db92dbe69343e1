import Mathlib.Data.List.Sort
import Mathlib.Data.Rat.Floor
import ExpertPin.Draft.SuffixTree
import ExpertPin.Lib.StringSearch

/-!
# Expiring biases

A request divides a generation into stages.  A stage biases the tokens of some phrases for as many
tokens as their duration says, and adds to parameters of the sampler while it lasts or between two
occurrences of a phrase.  It ends when its exit word or its jump word is generated.  What is added
to a parameter is subtracted again from the same place, so that only flags tell what is on.
Arithmetic is exact.
-/

namespace ExpertPin.ExpiringBias

open Draft (Token)
open StringSearch (find count)

/-- The bytes of a text. -/
abbrev Text := List UInt8

/-! ## Parameters -/

inductive ParamType where
  | int32
  | float
  | bool

namespace ParamType

abbrev Carrier : ParamType → Type
  | int32 => ℤ
  | float => ℚ
  | bool => Bool

/-- `std::round`: halves are rounded away from zero. -/
def stdRound (x : ℚ) : ℤ := if 0 ≤ x then ⌊x + 1 / 2⌋ else ⌈x - 1 / 2⌉

/-- `static_cast<T>(PRECAST(x))`. -/
def cast : (t : ParamType) → ℚ → t.Carrier
  | int32, x => stdRound x
  | float, x => x
  | bool, x => decide (stdRound x ≠ 0)

/-- `+=`, where a sum that is not zero is `true`. -/
def plus : (t : ParamType) → t.Carrier → t.Carrier → t.Carrier
  | int32, a, b => (a + b : ℤ)
  | float, a, b => (a + b : ℚ)
  | bool, a, b => a || b

/-- `-=`, where a difference that is not zero is `true`. -/
def minus : (t : ParamType) → t.Carrier → t.Carrier → t.Carrier
  | int32, a, b => (a - b : ℤ)
  | float, a, b => (a - b : ℚ)
  | bool, a, b => xor a b

end ParamType

/-- `X_COMMON_PARAMS_SAMPLING`. -/
inductive Member where
  | minKeep | topK | topP | minP | tfsZ | typicalP | temp | dynatempRange | dynatempExponent
  | penaltyLastN | penaltyRepeat | penaltyFreq | penaltyPresent | dryMultiplier | dryBase
  | dryAllowedLength | dryPenaltyLastN | mirostat | mirostatTau | mirostatEta | xtcProbability
  | xtcThreshold | topNSigma | adaptiveTarget | adaptiveDecay | adaptiveUpdtWCur
deriving DecidableEq

def Member.all : List Member :=
  [minKeep, topK, topP, minP, tfsZ, typicalP, temp, dynatempRange, dynatempExponent, penaltyLastN,
    penaltyRepeat, penaltyFreq, penaltyPresent, dryMultiplier, dryBase, dryAllowedLength,
    dryPenaltyLastN, mirostat, mirostatTau, mirostatEta, xtcProbability, xtcThreshold, topNSigma,
    adaptiveTarget, adaptiveDecay, adaptiveUpdtWCur]

theorem Member.mem_all (m : Member) : m ∈ all := by
  cases m <;> decide

/-- Additions are compared member by member. -/
instance : DecidableEq (Member → ℚ) := fun f g =>
  decidable_of_iff (∀ m ∈ Member.all, f m = g m)
    ⟨fun h => funext fun m => h m m.mem_all, fun h _ _ => congrFun h _⟩

def Member.type : Member → ParamType
  | minKeep | topK | penaltyLastN | dryAllowedLength | dryPenaltyLastN | mirostat => .int32
  | adaptiveUpdtWCur => .bool
  | _ => .float

abbrev Params := (m : Member) → m.type.Carrier

/-- The defaults of `common_params_sampling`. -/
def Params.defaults : Params
  | .minKeep => (0 : ℤ)
  | .topK => (40 : ℤ)
  | .topP => (95 / 100 : ℚ)
  | .minP => (5 / 100 : ℚ)
  | .tfsZ => (1 : ℚ)
  | .typicalP => (1 : ℚ)
  | .temp => (80 / 100 : ℚ)
  | .dynatempRange => (0 : ℚ)
  | .dynatempExponent => (1 : ℚ)
  | .penaltyLastN => (64 : ℤ)
  | .penaltyRepeat => (1 : ℚ)
  | .penaltyFreq => (0 : ℚ)
  | .penaltyPresent => (0 : ℚ)
  | .dryMultiplier => (0 : ℚ)
  | .dryBase => (175 / 100 : ℚ)
  | .dryAllowedLength => (2 : ℤ)
  | .dryPenaltyLastN => (-1 : ℤ)
  | .mirostat => (0 : ℤ)
  | .mirostatTau => (5 : ℚ)
  | .mirostatEta => (10 / 100 : ℚ)
  | .xtcProbability => (0 : ℚ)
  | .xtcThreshold => (1 : ℚ)
  | .topNSigma => (0 : ℚ)
  | .adaptiveTarget => (-1 : ℚ)
  | .adaptiveDecay => (90 / 100 : ℚ)
  | .adaptiveUpdtWCur => false

def elbAdd (sparams : Params) (addsubs : Member → ℚ) : Params :=
  fun m => m.type.plus (sparams m) (m.type.cast (addsubs m))

def elbSub (sparams : Params) (addsubs : Member → ℚ) : Params :=
  fun m => m.type.minus (sparams m) (m.type.cast (addsubs m))

/-! ## Stages -/

/-- A phrase, where it is searched for next, and whether it is switched on. -/
structure Phrase where
  text : Text
  posi : ℕ := 0
  addflag : Bool := false
deriving DecidableEq

/-- `elb_entry`.  An entry without biases adds to parameters. -/
structure ElbEntry where
  phrases : List Phrase
  addsubs : Member → ℚ
  biases : List ℚ
  duration : Int32
  isRange : Bool
deriving DecidableEq

/-- `elb_param`. -/
structure ElbParam where
  entries : List ElbEntry
  exitword : Text
  op : Text
deriving DecidableEq

/-- `elb_token`. -/
structure ElbToken where
  id : Token
  bias : ℚ
  duration : ℕ
  cond : Text
deriving DecidableEq

/-- `elb_state`. -/
structure ElbState where
  firstTokens : List ElbToken := []
  otherTokens : List ElbToken := []
  exitword : Text
  countup : ℕ := 0
  delay : ℕ := 0
  maxCondLen : ℕ := 0
  jumpword : Text := []
  jumpIdx : ℕ := 0
  searchWordLen : ℕ
deriving DecidableEq

/-- `size_t(duration)`. -/
def toSize (duration : Int32) : ℕ := (duration.toInt % 2 ^ 64).toNat

/-- The part of `common_sampler` that expiring biases use. -/
structure Sampler where
  params : Params
  elbParams : List ElbParam
  elbStates : List ElbState
  elbIdx : ℕ := 0
  elbSearchPos : ℕ := 0
  draftedText : Text := []
  toGeneratedText : Option Text := none

/-! ## What a request asks for -/

/-- A line with an entry: it has phrases, or stands for the empty phrase, and a duration. -/
structure EntryLine where
  isNested : Bool
  phrases : List Text
  addsubs : Member → ℚ
  biases : List ℚ
  duration : Int32
  isRange : Bool
  duration_ne : duration ≠ 0

def EntryLine.entry (line : EntryLine) : ElbEntry :=
  { phrases := line.phrases.map fun text =>
  { text }
    addsubs := line.addsubs
    biases := line.biases
    duration := line.duration
    isRange := line.isRange }

/-- A line of `expiring_logit_bias` that is not skipped: `(())`, an entry, or the word that ends
a stage with its operator. -/
inductive Line where
  | clear
  | entry (line : EntryLine)
  | exitword (word op : Text)

/-- What `argparse_expiring_logit_bias` has read: the stages, of which the last one is not ended,
and the entries that each new stage begins with. -/
structure Parse where
  before : List ElbParam
  entries : List ElbEntry
  persistent : List ElbEntry

namespace Parse

def line (s : Parse) : Line → Parse
  | .clear => { s with persistent := [] }
  | .entry line =>
    { s with
      entries := s.entries ++ [line.entry]
      persistent := if line.isNested then s.persistent ++ [line.entry] else s.persistent }
  | .exitword word op =>
    { s with before := s.before ++ [⟨s.entries, word, op⟩], entries := s.persistent }

def elbParams (s : Parse) : List ElbParam := s.before ++ [⟨s.entries, [], []⟩]

end Parse

/-- `argparse_expiring_logit_bias`: the stages of a request follow those that are there. -/
def argparse (elbParams : List ElbParam) (lines : List Line) : List ElbParam :=
  let persistent := ((elbParams ++ [ElbParam.mk [] [] []]).head?.map ElbParam.entries).getD []
  (lines.foldl Parse.line (Parse.mk elbParams [] persistent)).elbParams

/-! ## What is searched for in a stage -/

/-- How a model's text is cut into tokens, and the pieces of tokens. -/
structure Vocab where
  tokenize : Text → List Token
  tokenToPiece : Token → Text

/-- The biases of the tokens of a phrase, from those of the entry or of the phrase before. -/
def spread (isRange : Bool) (n : ℕ) (biases : List ℚ) : List ℚ :=
  let front := biases.headD 0
  let back := biases.getLastD 0
  if !isRange then biases.take n ++ List.replicate (n - biases.length) back
  else if n = 1 then [back]
  else (List.range n).map fun j => back - (back - front) / (n - 1) * (n - 1 - j)

/-- The tokens of a phrase but the first one, each with the text before it as its condition. -/
def otherTokens (v : Vocab) (m duration : Int32) :
    List Token → List ℚ → ℕ → Text → ElbState → ElbState
  | id₀ :: id :: ids, bias :: biases, j, cond, st =>
    let cond := cond ++ v.tokenToPiece id₀
    let ends := toSize (duration + m * Int32.ofNat j)
    let st :=
      if bias = 0 then st
      else
        { st with
          delay := if 0 < bias then max ends st.delay else st.delay
          otherTokens := st.otherTokens ++ [⟨id, bias, ends, cond⟩] }
    otherTokens v m duration (id :: ids) biases (j + 1) cond st
  | _, _, _, cond, st => { st with maxCondLen := max cond.length st.maxCondLen }

/-- A phrase that has no token has no bias either, and reading it is undefined. -/
def addPhrase (v : Vocab) (entry : ElbEntry) (biases : List ℚ) (st : ElbState) (phrase : Phrase) :
    Option (List ℚ × ElbState) :=
  match v.tokenize phrase.text with
  | [] => none
  | id :: ids =>
    let biases := spread entry.isRange (id :: ids).length biases
    let st :=
      if biases.headD 0 = 0 then st
      else
        { st with
          firstTokens := st.firstTokens ++
            [⟨id, biases.headD 0, toSize entry.duration, v.tokenToPiece id⟩] }
    let infinite := entry.duration < 0
    some (biases, otherTokens v (if infinite then -1 else 1)
      (if infinite then entry.duration ^^^ 0x7FFFFFFF else entry.duration)
      (id :: ids) biases.tail 1 [] st)

def addEntry (v : Vocab) (st : ElbState) (entry : ElbEntry) : Option ElbState :=
  if entry.biases = [] then some st
  else (entry.phrases.foldlM (fun s phrase => addPhrase v entry s.1 s.2 phrase)
    (entry.biases, st)).map Prod.snd

/-- The jump word of the stages that have none yet. -/
def setJump (i : ℕ) (param : ElbParam) (st : ElbState) : ElbState :=
  if param.op = [62, 62] ∧ st.jumpword = [] then
    { st with
      jumpword := param.exitword
      jumpIdx := i + 1
      searchWordLen := max st.exitword.length param.exitword.length }
  else st

def sortTokens (st : ElbState) : ElbState :=
  { st with
    firstTokens := st.firstTokens.insertionSort fun a b => b.duration ≤ a.duration
    otherTokens := st.otherTokens.insertionSort fun a b => b.duration ≤ a.duration }

def addState (v : Vocab) (states : List ElbState) (param : ElbParam) : Option (List ElbState) := do
  let empty : ElbState := { exitword := param.exitword, searchWordLen := param.exitword.length }
  let st ← param.entries.foldlM (addEntry v) empty
  some (states.map (setJump states.length param) ++ [st])

def buildStates (v : Vocab) (elbParams : List ElbParam) : Option (List ElbState) :=
  (elbParams.foldlM (addState v) []).map (List.map sortTokens)

/-- What a slot keeps from one request to the next. -/
structure Slot where
  elbParams : List ElbParam
  prevElbStates : List ElbState := []

/-- The states of a request: those from before, if it has the same parameters. -/
def launchStates (v : Vocab) (slot : Slot) (elbParams : List ElbParam) : Option (List ElbState) :=
  if elbParams = [] then some []
  else if slot.prevElbStates ≠ [] ∧ elbParams = slot.elbParams then
    some (slot.prevElbStates.map fun st => { st with countup := 0 })
  else buildStates v elbParams

/-- The part of `launch_slot_with_task` from `common_sampler_init` on, for a request without
`expiring_logit_bias` or with one that is not valid (`none`) or with its lines.  The sampler has
copied its parameters before. -/
def launch (v : Vocab) (slot : Slot) (sparams : Params) (request : Option (List Line)) :
    Option (Slot × Sampler) :=
  let elbParams := (request.map (argparse slot.elbParams)).getD slot.elbParams
  (launchStates v slot elbParams).map fun states =>
    (⟨elbParams, states⟩, { params := sparams, elbParams := slot.elbParams, elbStates := states })

/-! ## Logits -/

abbrev Logits := Token → ℚ

/-- `logits[id] += bias`. -/
def Logits.add (logits : Logits) (id : Token) (bias : ℚ) : Logits :=
  fun id' => if id' = id then logits id' + bias else logits id'

/-- The text before a token that is drafted: what is drafted counts only if nothing is generated,
since `+` binds more tightly than `?:`. -/
def searchWindow (s : Sampler) (elb : ElbState) : Text :=
  if s.draftedText ≠ [] then
    match s.toGeneratedText with
    | some text => text.drop (text.length - elb.maxCondLen)
    | none => s.draftedText
  else s.toGeneratedText.getD []

/-- `string_ends_with`. -/
def endsWith (text suffix : Text) : Bool := decide (suffix <:+ text)

/-- The tokens whose duration is not over: they are sorted by it. -/
def active (countup : ℕ) (tokens : List ElbToken) : List ElbToken :=
  match tokens with
  | [] => []
  | token :: _ =>
    if countup < token.duration then tokens.takeWhile fun token => countup ≤ token.duration
    else []

/-- Whether the token that follows a phrase's beginning is biased. -/
def biasesOther (window : Text) (token : ElbToken) : Bool :=
  decide (window ≠ []) && endsWith window token.cond

/-- Whether the first token of a phrase is biased: not if it was generated just now. -/
def biasesFirst (window : Text) (token : ElbToken) : Bool :=
  decide (window = []) || !endsWith window token.cond

def biasLogits (elb : ElbState) (window : Text) (logits : Logits) : Logits :=
  let logits := ((active elb.countup elb.otherTokens).filter (biasesOther window)).foldl
    (fun logits token => logits.add token.id token.bias) logits
  ((active elb.countup elb.firstTokens).filter (biasesFirst window)).foldl
    (fun logits token => logits.add token.id token.bias) logits

/-! ## Parameters of the sampler -/

/-- A phrase of an entry that adds to parameters.  The empty phrase is on for the duration of the
entry, another one from an occurrence to the next. -/
def applyPhrase (countup : ℕ) (text : Option Text) (entry : ElbEntry) (sparams : Params)
    (phrase : Phrase) : Option (Params × Phrase) :=
  if phrase.text = [] then
    if countup = 0 then some (elbAdd sparams entry.addsubs, { phrase with addflag := true })
    else if countup = toSize entry.duration then
      some (elbSub sparams entry.addsubs, { phrase with addflag := false })
    else some (sparams, phrase)
  else
    text.map fun text =>
      let posi := text.length + 1 - phrase.text.length
      if count text phrase.text phrase.posi % 2 = 1 then
        ((if phrase.addflag then elbSub else elbAdd) sparams entry.addsubs,
          { phrase with posi, addflag := !phrase.addflag })
      else (sparams, { phrase with posi })

def applyPhrases (countup : ℕ) (text : Option Text) (entry : ElbEntry) :
    Params → List Phrase → Option (Params × List Phrase)
  | sparams, [] => some (sparams, [])
  | sparams, phrase :: phrases => do
      let r ← applyPhrase countup text entry sparams phrase
      let rs ← applyPhrases countup text entry r.1 phrases
      some (rs.1, r.2 :: rs.2)

/-- An entry with biases adds to logits, and not to parameters. -/
def applyEntry (countup : ℕ) (text : Option Text) (sparams : Params) (entry : ElbEntry) :
    Option (Params × ElbEntry) :=
  if entry.biases ≠ [] then some (sparams, entry)
  else (applyPhrases countup text entry sparams entry.phrases).map fun r =>
    (r.1, { entry with phrases := r.2 })

def applyEntries (countup : ℕ) (text : Option Text) :
    Params → List ElbEntry → Option (Params × List ElbEntry)
  | sparams, [] => some (sparams, [])
  | sparams, entry :: entries => do
      let r ← applyEntry countup text sparams entry
      let rs ← applyEntries countup text r.1 entries
      some (rs.1, r.2 :: rs.2)

/-- `common_expiring_logit_bias_apply`.  An index that is out of range has no result. -/
def apply (s : Sampler) (logits : Logits) : Option (Sampler × Logits) := do
  let elb ← s.elbStates[s.elbIdx]?
  let logits := biasLogits elb (searchWindow s elb) logits
  let param ← s.elbParams[s.elbIdx]?
  let r ← applyEntries elb.countup s.toGeneratedText s.params param.entries
  some ({ s with
    params := r.1
    elbParams := s.elbParams.set s.elbIdx { param with entries := r.2 } }, logits)

/-! ## Accepted tokens -/

/-- Where the search ends, with the stage that follows: the jump word comes before the exit word. -/
def leaves (elb : ElbState) (idx : ℕ) (window : Text) : Option (ℕ × ℕ) :=
  let found (word : Text) : Option ℕ := if word = [] then none else find window word 0
  match found elb.jumpword with
  | some pos => some (pos + elb.jumpword.length, elb.jumpIdx)
  | none => (found elb.exitword).map fun pos => (pos + elb.exitword.length, idx + 1)

/-- What is added to the parameters by a stage is subtracted. -/
def undo (sparams : Params) (entries : List ElbEntry) : Params :=
  entries.foldl (fun sparams entry =>
    (entry.phrases.filter Phrase.addflag).foldl (fun sparams _ => elbSub sparams entry.addsubs)
      sparams) sparams

def ElbParam.search (param : ElbParam) (posi : ℕ) : ElbParam :=
  { param with
    entries := param.entries.map fun entry =>
      { entry with phrases := entry.phrases.map fun phrase => { phrase with posi } } }

/-- The text that is searched when a token with a piece is accepted. -/
def acceptWindow (s : Sampler) (text piece : Text) : Text :=
  text.drop (min text.length s.elbSearchPos) ++ piece

/-- The stage that follows when a token with a piece is accepted: none if this one lasts. -/
def leaving (s : Sampler) (elb : ElbState) (text piece : Text) : Option (ℕ × ℕ) :=
  if elb.countup + 1 < elb.delay ∨ elb.searchWordLen = 0 then none
  else leaves elb s.elbIdx (acceptWindow s text piece)

/-- `common_expiring_logit_bias_accept` for the piece of the last token. -/
def accept (s : Sampler) (piece : Text) : Option Sampler :=
  match s.toGeneratedText with
  | none => some s
  | some text => do
      let elb ← s.elbStates[s.elbIdx]?
      let s' := { s with
        elbStates := s.elbStates.set s.elbIdx { elb with countup := elb.countup + 1 } }
      if elb.countup + 1 < elb.delay ∨ elb.searchWordLen = 0 then some s'
      else
        let window := acceptWindow s text piece
        match leaves elb s.elbIdx window with
        | none => some { s' with
            elbSearchPos := s.elbSearchPos + (window.length + 1 - elb.searchWordLen) }
        | some (pos, next) => do
            let pos := pos + s.elbSearchPos
            let old ← s.elbParams[s.elbIdx]?
            let new ← s.elbParams[next]?
            some { s' with
              params := undo s.params old.entries
              elbParams := s.elbParams.set next (new.search pos)
              elbIdx := next
              elbSearchPos := pos + 1 }

end ExpertPin.ExpiringBias
