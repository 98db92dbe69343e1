import ExpertPin.Grammar.Engine

/-!
# Tokens of a grammar

A token of the vocabulary is a piece of text, which may begin or end inside of a character.  The
token that is chosen moves the stacks of the grammar over its piece, or over a token element that
is on top of them.  A lazy grammar first collects the tokens, until one of them or a pattern
triggers it.

The code points of a piece are without the terminating 0 that the engine puts behind them.
-/

namespace ExpertPin.Grammar

/-- `llama_token` -/
abbrev Token : Type := Int32

/-- `llama_partial_utf8` -/
structure PartialUtf8 where
  value : UInt32
  nRemain : ℤ
deriving DecidableEq, Repr

/-! ## Pieces -/

/-- The table of the lengths of characters by their first four bits, less one. -/
def remaining (firstByte : UInt8) : ℤ :=
  if firstByte < 0x80 then 0
  else if firstByte < 0xC0 then -1
  else if firstByte < 0xE0 then 1
  else if firstByte < 0xF0 then 2
  else 3

/-- The bits of a byte that goes on with a character. -/
def goOn (value : UInt32) (b : UInt8) : UInt32 := (value <<< 6) + (b &&& 0x3F).toUInt32

/-- The bits of the first byte of a character of which so many bytes remain. -/
def leadBits (firstByte : UInt8) (nRemain : ℤ) : UInt32 :=
  (firstByte &&& ((1 <<< (7 - UInt8.ofNat nRemain.toNat)) - 1)).toUInt32

/-- The bytes that complete a character which has begun in an earlier piece, if they can. -/
def resume : List UInt8 → UInt32 → ℤ → Option (List UInt8 × PartialUtf8)
  | [], value, nRemain => some ([], ⟨value, nRemain⟩)
  | b :: bytes, value, nRemain =>
    if 0 < nRemain then
      if b >>> 6 ≠ 2 then none else resume bytes (goOn value b) (nRemain - 1)
    else some (b :: bytes, ⟨value, nRemain⟩)

/-- The bytes behind the first one of a character, which are not looked at. -/
def complete : List UInt8 → UInt32 → ℤ → List UInt8 × PartialUtf8
  | [], value, nRemain => ([], ⟨value, nRemain⟩)
  | b :: bytes, value, nRemain =>
    if 0 < nRemain then complete bytes (goOn value b) (nRemain - 1)
    else (b :: bytes, ⟨value, nRemain⟩)

/-- The loop over the characters of a piece; each step takes a byte at least. -/
def decodeFrom : ℕ → List UInt8 → PartialUtf8 → List UInt32 → List UInt32 × PartialUtf8
  | steps + 1, firstByte :: bytes, _, codePoints =>
    let nRemain := remaining firstByte
    if nRemain < 0 then ([], ⟨0, nRemain⟩)
    else
      let r := complete bytes (leadBits firstByte nRemain) nRemain
      decodeFrom steps r.1 r.2 (if r.2.nRemain = 0 then codePoints ++ [r.2.value] else codePoints)
  | _, _, rest, codePoints => (codePoints, rest)

/-- `decode_utf8`, of the bytes before the first 0. -/
def decodeUtf8 (src : List UInt8) (partialStart : PartialUtf8) : List UInt32 × PartialUtf8 :=
  match resume (src.takeWhile (· ≠ 0)) partialStart.value partialStart.nRemain with
  | none => ([], ⟨0, -1⟩)
  | some (bytes, rest) =>
    decodeFrom bytes.length bytes rest
      (if 0 < partialStart.nRemain ∧ rest.nRemain = 0 then [rest.value] else [])

/-! ## Elements -/

def Element.isPositiveChar (e : Element) : Bool := e.type = .char || e.type = .charAny

/-- The loop of `llama_grammar_match_partial_char`, from the first element of a class on. -/
def matchPartialLoop (low high : UInt32) (isPositiveChar : Bool) : List Element → Bool
  | e :: u :: rest =>
    if u.type = .charRngUpper then
      if e.value ≤ high && low ≤ u.value then isPositiveChar
      else
        match rest with
        | next :: rest =>
          if next.type = .charAlt then matchPartialLoop low high isPositiveChar (next :: rest)
          else !isPositiveChar
        | [] => !isPositiveChar
    else if e.type = .charAny then true
    else if low ≤ e.value && e.value ≤ high then isPositiveChar
    else if u.type = .charAlt then matchPartialLoop low high isPositiveChar (u :: rest)
    else !isPositiveChar
  | _ => !isPositiveChar

/-- The least and the greatest code point that are taken for completions. -/
def completions (partialValue : UInt32) (nRemain : ℤ) : UInt32 × UInt32 :=
  let shift := UInt32.ofNat (nRemain.toNat * 6)
  let low := partialValue <<< shift
  let high := low ||| ((1 <<< shift) - 1)
  (if low = 0 then
    if nRemain = 2 then (1 : UInt32) <<< 11 else if nRemain = 3 then (1 : UInt32) <<< 16 else low
  else low, high)

/-- `llama_grammar_match_partial_char` -/
def matchPartialChar (rules : Rules) (pos : Pos) (partialUtf8 : PartialUtf8) : Option Bool :=
  let isPositiveChar := (rules.at pos).isPositiveChar
  if isPositiveChar ∨ (rules.at pos).type = .charNot then
    let partialValue := partialUtf8.value
    let nRemain := partialUtf8.nRemain
    if nRemain < 0 ∨ nRemain = 1 ∧ partialValue < 2 then some false
    else
      let (low, high) := completions partialValue nRemain
      some (matchPartialLoop low high isPositiveChar ((rules.rule pos.rule).drop pos.off))
  else none

def Element.isToken (e : Element) : Bool := e.type = .token || e.type = .tokenNot

/-- `llama_grammar_match_token` -/
def Element.matchToken (e : Element) (token : Token) : Bool :=
  e.type = .token && e.value = token.toUInt32 || e.type = .tokenNot && e.value ≠ token.toUInt32

/-! ## The token that has been chosen -/

/-- What the grammar reads of `llama_vocab`. -/
structure Vocab where
  tokenToPiece : Token → List UInt8
  isEog : Token → Bool

/-- `llama_grammar`, with a character that is not complete, and what a lazy grammar waits for: of
a pattern only the place is known that `llama_grammar_trigger_pattern::find` finds in a text. -/
structure TokenGrammar extends LlamaGrammar where
  partialUtf8 : PartialUtf8
  awaitingTrigger : Bool
  triggerBuffer : List UInt8
  triggerBufferPositions : List (Token × ℕ × ℕ)
  triggerTokens : List Token
  triggerPatterns : List (List UInt8 → Option ℕ)

/-- The stacks after each code point of a piece, while there are some. -/
def acceptCodePoints (rules : Rules) (fuel : ℕ) : List UInt32 → List PosStack →
    Option (List PosStack)
  | [], currentStacks => some currentStacks
  | chr :: codePoints, currentStacks => do
    let nextStacks ← currentStacks.foldlM (acceptChr rules chr fuel) []
    if nextStacks = [] then some [] else acceptCodePoints rules fuel codePoints nextStacks

/-- The new stacks of one stack. -/
def acceptTokenStack (rules : Rules) (token : Token) (codePoints : List UInt32) (fuel : ℕ)
    (stacksNew : List PosStack) : PosStack → Option (List PosStack)
  | [] => some stacksNew
  | pos :: below =>
    if (rules.at pos).isToken then
      if (rules.at pos).matchToken token then
        advanceStack rules fuel stacksNew (pushPos rules pos.next below)
      else some stacksNew
    else
      (acceptCodePoints rules fuel codePoints [pos :: below]).map fun currentStacks =>
        currentStacks.foldl (fun stacksNew stack =>
          if stack ∈ stacksNew then stacksNew else stacksNew ++ [stack]) stacksNew

/-- `llama_grammar_accept_token`.  It throws after it has changed the grammar, if there are no
stacks any more. -/
def acceptToken (fuel : ℕ) (grammar : TokenGrammar) (token : Token) (piece : List UInt8) :
    Option (Except TokenGrammar TokenGrammar) :=
  let decoded := decodeUtf8 piece grammar.partialUtf8
  (grammar.allStacks.foldlM (acceptTokenStack grammar.rules token decoded.1 fuel) []).map
    fun stacksNew =>
      let grammar := { grammar with allStacks := stacksNew, partialUtf8 := decoded.2 }
      if stacksNew = [] then .error grammar else .ok grammar

/-- The loop over the tokens that overlap with what a pattern has found from `start` on. -/
def replay (fuel start : ℕ) : TokenGrammar → List (Token × ℕ × ℕ) →
    Option (Except TokenGrammar TokenGrammar)
  | grammar, [] => some (.ok grammar)
  | grammar, (tok, tokStart, tokEnd) :: positions =>
    if tokEnd ≤ start then replay fuel start grammar positions
    else
      let pieceStart := if tokStart < start then start else tokStart
      let pieceLen := tokEnd - pieceStart
      (acceptToken fuel grammar tok ((grammar.triggerBuffer.drop pieceStart).take pieceLen)).bind
        fun
        | .ok grammar => replay fuel start grammar positions
        | .error grammar => some (.error grammar)

/-- `llama_grammar_accept_impl`.  The text from `start` on is only written to the log, but to take
it throws if `start` is not in the buffer. -/
def acceptImpl (fuel : ℕ) (vocab : Vocab) (grammar : TokenGrammar) (token : Token) :
    Option (Except TokenGrammar TokenGrammar) :=
  let piece := vocab.tokenToPiece token
  if grammar.awaitingTrigger then
    if token ∈ grammar.triggerTokens then
      acceptToken fuel { grammar with awaitingTrigger := false, triggerBuffer := [] } token piece
    else
      let position := (grammar.triggerBuffer.length, grammar.triggerBuffer.length + piece.length)
      let grammar := { grammar with
        triggerBufferPositions := grammar.triggerBufferPositions ++ [(token, position)]
        triggerBuffer := grammar.triggerBuffer ++ piece }
      match grammar.triggerPatterns.findSome? fun find => find grammar.triggerBuffer with
      | none => some (.ok grammar)
      | some start =>
        let grammar := { grammar with awaitingTrigger := false }
        (replay fuel start grammar grammar.triggerBufferPositions).map fun
          | .ok grammar =>
            if start ≤ grammar.triggerBuffer.length then
              .ok { grammar with triggerBuffer := [], triggerBufferPositions := [] }
            else .error grammar
          | .error grammar => .error grammar
  else if vocab.isEog token then
    if grammar.allStacks.any List.isEmpty then some (.ok grammar) else none
  else acceptToken fuel grammar token piece

end ExpertPin.Grammar
