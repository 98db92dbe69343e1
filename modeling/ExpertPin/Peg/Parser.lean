import ExpertPin.Lib.Recursion
import ExpertPin.Lib.Trie
import ExpertPin.Peg.Arena

/-!
# Parsing

A parser is executed at a position of the input and has a result: it has failed, it has matched
up to a position, or it has come to the end of an input of which more is to follow.  Only the
lenient mode knows the last one.

What a parser does is the body of a recursive program, which calls the parser with an id at a
position.  The position at which a parser is executed is the start of its result in each of the
branches of the source, and is not repeated here.
-/

namespace ExpertPin.Peg

open Recursion

/-- What has been matched: rules and tags, where they are, and whether more of them is to come. -/
inductive Ast
  | node (rule tag : Text) (start stop : ℕ) (children : List Ast) (isPartial : Bool)

inductive Result
  | fail (stop : ℕ)
  | success (stop : ℕ) (nodes : List Ast)
  | needMoreInput (stop : ℕ) (nodes : List Ast)

structure Context where
  input : Text
  lenient : Bool

/-- Where the input is at its end, more of it is waited for if the mode is lenient. -/
def Context.ended (ctx : Context) (failStop stop : ℕ) : Result :=
  if ctx.lenient then .needMoreInput stop [] else .fail failStop

/-! ## Characters -/

inductive Utf8Result
  | success (codepoint bytesConsumed : ℕ)
  | incomplete
  | invalid
deriving DecidableEq, Repr

def isContinuation (b : UInt8) : Bool := b &&& 0xC0 == 0x80

/-- The low bits of a byte, as a number. -/
def bits (b mask : UInt8) : ℕ := (b &&& mask).toNat

/-- The character at an offset. -/
def parseUtf8Codepoint (input : Text) (offset : ℕ) : Utf8Result :=
  match input.drop offset with
  | [] => .incomplete
  | b₀ :: rest =>
    if b₀ &&& 0x80 = 0 then .success b₀.toNat 1
    else if b₀ &&& 0x40 = 0 then .invalid
    else if b₀ &&& 0x20 = 0 then
      match rest with
      | b₁ :: _ =>
        if !isContinuation b₁ then .invalid
        else .success (bits b₀ 0x1F <<< 6 ||| bits b₁ 0x3F) 2
      | _ => .incomplete
    else if b₀ &&& 0x10 = 0 then
      match rest with
      | b₁ :: b₂ :: _ =>
        if !isContinuation b₁ || !isContinuation b₂ then .invalid
        else .success (bits b₀ 0x0F <<< 12 ||| bits b₁ 0x3F <<< 6 ||| bits b₂ 0x3F) 3
      | _ => .incomplete
    else if b₀ &&& 0x08 = 0 then
      match rest with
      | b₁ :: b₂ :: b₃ :: _ =>
        if !isContinuation b₁ || !isContinuation b₂ || !isContinuation b₃ then .invalid
        else .success (bits b₀ 0x07 <<< 18 ||| bits b₁ 0x3F <<< 12 ||| bits b₂ 0x3F <<< 6 |||
          bits b₃ 0x3F) 4
      | _ => .incomplete
    else .invalid

/-! ## Delimiters -/

inductive MatchResult
  | noMatch
  | partialMatch
  | completeMatch
deriving DecidableEq, Repr

/-- The characters of a delimiter, up to what is not a character. -/
def codepoints (word : Text) : ℕ → ℕ → List ℕ
  | 0, _ => []
  | steps + 1, pos =>
    match parseUtf8Codepoint word pos with
    | .success codepoint n => codepoint :: codepoints word steps (pos + n)
    | _ => []

/-- The children of a node by character, and whether a word ends there. -/
abbrev WordTrie := Trie ℕ Bool

/-- A word is added to a trie. -/
def WordTrie.insert (t : WordTrie) : List ℕ → WordTrie
  | [] => .node true t.children
  | c :: word =>
    let child : WordTrie := (t.children c).getD (.leaf false)
    .node t.value (Function.update t.children c (some (insert child word)))

def WordTrie.ofWords (words : List Text) : WordTrie :=
  words.foldl (fun t word => t.insert (codepoints word word.length 0)) (.leaf false)

/-- A delimiter is followed from a node on.  Where the input ends it has begun if the node is not
the root. -/
def WordTrie.check (input : Text) : ℕ → WordTrie → Bool → ℕ → MatchResult
  | 0, _, atRoot, _ => if atRoot then .noMatch else .partialMatch
  | steps + 1, t, atRoot, pos =>
    match parseUtf8Codepoint input pos with
    | .success codepoint n =>
      match t.children codepoint with
      | none => .noMatch
      | some child =>
        if child.value then .completeMatch else check input steps child false (pos + n)
    | _ => if atRoot then .noMatch else .partialMatch

/-- Whether a delimiter begins at a position. -/
def WordTrie.checkAt (t : WordTrie) (input : Text) (startPos : ℕ) : MatchResult :=
  t.check input (input.length - startPos) true startPos

/-! ## Parsers without children -/

section Leaves

variable (ctx : Context) (startPos : ℕ)

def literalFrom : Text → ℕ → Result
  | [], pos => .success pos []
  | c :: literal, pos =>
    match ctx.input[pos]? with
    | none => ctx.ended startPos pos
    | some d => if d ≠ c then .fail startPos else literalFrom literal (pos + 1)

def anyAt : Result :=
  match parseUtf8Codepoint ctx.input startPos with
  | .incomplete => ctx.ended startPos startPos
  | .invalid => .fail startPos
  | .success _ n => .success (startPos + n) []

/-- The whitespace of the C locale. -/
def isSpace (c : UInt8) : Bool := c == 32 || 9 ≤ c && c ≤ 13

def spaceFrom : Result :=
  .success (startPos + ((ctx.input.drop startPos).takeWhile isSpace).length) []

def matchesClass (ranges : List CharRange) (negated : Bool) (codepoint : ℕ) : Bool :=
  ranges.any (·.contains codepoint) != negated

/-- Whether a repetition that has matched so often may go on. -/
def mayRepeat (maxCount : ℤ) (matchCount : ℕ) : Prop := maxCount = -1 ∨ matchCount < maxCount

instance (maxCount : ℤ) (matchCount : ℕ) : Decidable (mayRepeat maxCount matchCount) :=
  inferInstanceAs (Decidable (maxCount = -1 ∨ matchCount < maxCount))

section Chars

variable (ranges : List CharRange) (negated : Bool) (minCount maxCount : ℤ)

/-- The end of a run of characters that is not cut off. -/
def charsDone (pos matchCount : ℕ) : Result :=
  if matchCount < minCount then
    if ctx.input.length ≤ pos then ctx.ended pos pos else .fail pos
  else .success pos []

/-- Characters of a class from a position on; each step goes on by a byte at least. -/
def charsFrom : ℕ → ℕ → ℕ → Result
  | 0, pos, matchCount => charsDone ctx minCount pos matchCount
  | steps + 1, pos, matchCount =>
    if mayRepeat maxCount matchCount then
      match parseUtf8Codepoint ctx.input pos with
      | .incomplete =>
        if minCount ≤ matchCount then .success pos [] else ctx.ended startPos pos
      | .invalid => if minCount ≤ matchCount then .success pos [] else .fail startPos
      | .success codepoint n =>
        if matchesClass ranges negated codepoint then
          charsFrom steps (pos + n) (matchCount + 1)
        else charsDone ctx minCount pos matchCount
    else charsDone ctx minCount pos matchCount

end Chars

def isHexDigit (c : UInt8) : Bool :=
  48 ≤ c && c ≤ 57 || 97 ≤ c && c ≤ 102 || 65 ≤ c && c ≤ 70

def unicodeEscape : ℕ → ℕ → Result
  | 0, pos => .success pos []
  | digits + 1, pos =>
    match ctx.input[pos]? with
    | none => ctx.ended startPos pos
    | some c => if isHexDigit c then unicodeEscape digits (pos + 1) else .fail startPos

/-- The characters that stand behind a backslash for themselves or for a control character. -/
def isEscape (delimiter c : UInt8) : Bool :=
  c == delimiter || c == 92 || c == 47 || c == 98 || c == 102 || c == 110 || c == 114 || c == 116

/-- An escape, from its backslash on. -/
def escapeSequence (delimiter : UInt8) (pos : ℕ) : Result :=
  match ctx.input[pos + 1]? with
  | none => ctx.ended startPos (pos + 1)
  | some c =>
    if isEscape delimiter c then .success (pos + 2) []
    else if c = 117 then unicodeEscape ctx startPos 4 (pos + 2)
    else .fail startPos

/-- A string up to its delimiter; each step goes on by a byte at least. -/
def stringFrom (delimiter : UInt8) : ℕ → ℕ → Result
  | 0, pos => ctx.ended pos pos
  | steps + 1, pos =>
    match ctx.input[pos]? with
    | none => ctx.ended pos pos
    | some c =>
      if c = delimiter then .success pos []
      else if c = 92 then
        match escapeSequence ctx startPos delimiter pos with
        | .success stop _ => stringFrom delimiter steps stop
        | result => result
      else
        match parseUtf8Codepoint ctx.input pos with
        | .incomplete => ctx.ended startPos pos
        | .invalid => .fail startPos
        | .success _ n => stringFrom delimiter steps (pos + n)

/-- No delimiter up to the end of the input. -/
def untilDone (pos : ℕ) : Result :=
  if pos = ctx.input.length && ctx.lenient then .needMoreInput pos [] else .success pos []

/-- Characters up to a delimiter, which may only have begun where the input ends; each step goes
on by a byte at least. -/
def untilFrom (matcher : WordTrie) : ℕ → ℕ → Result
  | 0, pos => untilDone ctx pos
  | steps + 1, pos =>
    if pos < ctx.input.length then
      match parseUtf8Codepoint ctx.input pos with
      | .incomplete => ctx.ended startPos pos
      | .invalid => .fail startPos
      | .success _ n =>
        match matcher.checkAt ctx.input pos with
        | .completeMatch => .success pos []
        | .partialMatch => .success pos []
        | .noMatch => untilFrom matcher steps (pos + n)
    else untilDone ctx pos

end Leaves

/-! ## Parsers with children -/

/-- What a parser does, where it calls others at positions. -/
abbrev Action := Body (ℕ × ℕ) Result

def sequenceFrom : List ℕ → ℕ → List Ast → Action
  | [], pos, nodes => .returns (.success pos nodes)
  | child :: children, pos, nodes =>
    .calls (child, pos) fun
      | .fail stop => .returns (.fail stop)
      | .needMoreInput stop more => .returns (.needMoreInput stop (nodes ++ more))
      | .success stop more => sequenceFrom children stop (nodes ++ more)

def choiceFrom (pos : ℕ) : List ℕ → Action
  | [] => .returns (.fail pos)
  | child :: children =>
    .calls (child, pos) fun
      | .fail _ => choiceFrom pos children
      | result => .returns result

section Repetition

variable (ctx : Context) (child : ℕ) (minCount maxCount : ℤ)

/-- The end of a repetition that is not cut off in an iteration. -/
def repetitionDone (pos matchCount : ℕ) (nodes : List Ast) : Result :=
  if 0 < minCount ∧ matchCount < minCount then
    if ctx.input.length ≤ pos ∧ ctx.lenient then .needMoreInput pos nodes else .fail pos
  else .success pos nodes

/-- The iterations of a repetition; each step but the last one goes on by a byte at least. -/
def repetitionFrom : ℕ → ℕ → ℕ → List Ast → Action
  | 0, pos, matchCount, nodes => .returns (repetitionDone ctx minCount pos matchCount nodes)
  | steps + 1, pos, matchCount, nodes =>
    if mayRepeat maxCount matchCount ∧ pos < ctx.input.length then
      .calls (child, pos) fun
        | .success stop more =>
          if stop = pos then .returns (repetitionDone ctx minCount pos matchCount nodes)
          else repetitionFrom steps stop (matchCount + 1) (nodes ++ more)
        | .needMoreInput stop more => .returns (.needMoreInput stop (nodes ++ more))
        | .fail _ => .returns (repetitionDone ctx minCount pos matchCount nodes)
    else .returns (repetitionDone ctx minCount pos matchCount nodes)

end Repetition

def Result.map (f : Bool → List Ast → ℕ → List Ast) : Result → Result
  | .fail stop => .fail stop
  | .success stop nodes => .success stop (f false nodes stop)
  | .needMoreInput stop nodes => .needMoreInput stop (f true nodes stop)

/-- What is matched under a rule or a tag is one node. -/
def Result.wrap (rule tag : Text) (start : ℕ) : Result → Result :=
  Result.map fun isPartial nodes stop => [.node rule tag start stop nodes isPartial]

/-- What an atomic parser has matched in part is left out. -/
def Result.clear : Result → Result
  | .needMoreInput stop _ => .needMoreInput stop []
  | result => result

def Result.and (pos : ℕ) : Result → Result
  | .fail _ => .fail pos
  | .success _ _ => .success pos []
  | .needMoreInput _ _ => .needMoreInput pos []

def Result.not (pos : ℕ) : Result → Result
  | .fail _ => .success pos []
  | .success _ _ => .fail pos
  | .needMoreInput _ _ => .needMoreInput pos []

/-- The parser executor. -/
def Node.exec (A : Arena) (ctx : Context) (pos : ℕ) : Node → Action
  | .epsilon => .returns (.success pos [])
  | .start => .returns (if pos = 0 then .success pos [] else .fail pos)
  | .end_ => .returns (if ctx.input.length ≤ pos then .success pos [] else .fail pos)
  | .literal text => .returns (literalFrom ctx pos text pos)
  | .sequence children => sequenceFrom children pos []
  | .choice children => choiceFrom pos children
  | .repetition child minCount maxCount =>
    repetitionFrom ctx child minCount maxCount (ctx.input.length - pos) pos 0 []
  | .and child => .calls (child, pos) fun result => .returns (result.and pos)
  | .not child => .calls (child, pos) fun result => .returns (result.not pos)
  | .any => .returns (anyAt ctx pos)
  | .space => .returns (spaceFrom ctx pos)
  | .chars ranges negated minCount maxCount =>
    .returns (charsFrom ctx pos ranges negated minCount maxCount (ctx.input.length + 1 - pos) pos 0)
  | .string delimiter => .returns (stringFrom ctx pos delimiter (ctx.input.length - pos) pos)
  | .untilOneOf delimiters =>
    .returns (untilFrom ctx pos (.ofWords delimiters) (ctx.input.length - pos) pos)
  | .schema child _ => .calls (child, pos) .returns
  | .rule name child => .calls (child, pos) fun result => .returns (result.wrap name [] pos)
  | .ref name =>
    match A.rules name with
    | some id => .calls (id, pos) .returns
    | none => .throws
  | .atomic child => .calls (child, pos) fun result => .returns result.clear
  | .tag child t => .calls (child, pos) fun result => .returns (result.wrap [] t pos)
  | .gbnf child => .calls (child, pos) .returns

/-- The body of the parser with an id, at a position. -/
def Arena.body (A : Arena) (ctx : Context) (key : ℕ × ℕ) : Action :=
  match A.get key.1 with
  | some node => node.exec A ctx key.2
  | none => .throws

/-- What a parser returns at a position, with a bound on the depth of the calls. -/
def Arena.parse (A : Arena) (ctx : Context) (fuel id pos : ℕ) : Option Result :=
  run (A.body ctx) fuel (id, pos)

end ExpertPin.Peg
