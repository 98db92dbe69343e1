import ExpertPin.Grammar.Rules
import ExpertPin.Lib.Utf8
import Mathlib.Computability.Language

/-!
# Reading a rule

What the functions of `llama_grammar_parser` read, as an expression where they push elements and
add rules.  A text is a C string: it ends before its first zero.
-/

namespace ExpertPin.Gbnf

open Grammar

abbrev Text : Type := List UInt8

/-- The byte of an ASCII character. -/
def byte (c : Char) : UInt8 := c.toUInt8

def bytes (s : String) : Text := Utf8.encode s.toList

/-- What a piece of a rule stands for. -/
inductive Expr
  | empty
  | cls (c : CharClass)
  | token (negated : Bool) (id : ℕ)
  | ref (name : Text)
  | seq (e f : Expr)
  | alt (e f : Expr)
  | rep (e : Expr) (minTimes : ℕ) (maxTimes : Option ℕ)
deriving DecidableEq, Repr

/-- The parser does not return an expression. -/
inductive Failure
  | message (text : Text)
  /-- the difference of the bounds of a repetition wraps -/
  | wrapped
  | outOfFuel
deriving DecidableEq, Repr

def fails {α : Type} (message : String) (src : Text) : Except Failure α :=
  .error (.message (bytes message ++ src))

/-! ## Characters -/

def isDigitChar (c : UInt8) : Bool := byte '0' ≤ c && c ≤ byte '9'

def isWordChar (c : UInt8) : Bool :=
  (byte 'a' ≤ c && c ≤ byte 'z') || (byte 'A' ≤ c && c ≤ byte 'Z') || c = byte '-' || isDigitChar c

/-- The length of a sequence, from the high bits of its first byte. -/
def lookup (highbits : ℕ) : ℕ :=
  if highbits < 12 then 1 else if highbits < 14 then 2 else if highbits < 15 then 3 else 4

/-- `decode_utf8`: it does not look at what the bytes after the first one are. -/
def decodeUtf8 (firstByte : UInt8) (src : Text) : UInt32 × Text :=
  let len := lookup (firstByte.toNat / 16)
  let value := (src.take (len - 1)).foldl (fun value b => 64 * value + b.toNat % 64)
    (firstByte.toNat % 2 ^ (8 - len))
  (UInt32.ofNat value, src.drop (len - 1))

def hexDigit (c : UInt8) : Option ℕ :=
  if byte 'a' ≤ c ∧ c ≤ byte 'f' then some (c.toNat - (byte 'a').toNat + 10)
  else if byte 'A' ≤ c ∧ c ≤ byte 'F' then some (c.toNat - (byte 'A').toNat + 10)
  else if byte '0' ≤ c ∧ c ≤ byte '9' then some (c.toNat - (byte '0').toNat)
  else none

def parseHex (src : Text) (size : ℕ) : Except Failure (UInt32 × Text) :=
  match (src.take size).mapM hexDigit with
  | some digits =>
    if digits.length = size then
      .ok (UInt32.ofNat (digits.foldl (fun value d => 16 * value + d) 0), src.drop size)
    else fails ("expecting " ++ toString size ++ " hex chars at ") src
  | none => fails ("expecting " ++ toString size ++ " hex chars at ") src

def parseChar (src : Text) : Except Failure (UInt32 × Text) :=
  match src with
  | [] => fails "unexpected end of input" []
  | c :: rest =>
    if c = byte '\\' then
      match rest with
      | [] => fails "unknown escape at " src
      | d :: rest =>
        if d = byte 'x' then parseHex rest 2
        else if d = byte 'u' then parseHex rest 4
        else if d = byte 'U' then parseHex rest 8
        else if d = byte 't' then .ok (9, rest)
        else if d = byte 'r' then .ok (13, rest)
        else if d = byte 'n' then .ok (10, rest)
        else if d = byte '\\' ∨ d = byte '"' ∨ d = byte '[' ∨ d = byte ']' then
          .ok (UInt32.ofNat d.toNat, rest)
        else fails "unknown escape at " src
    else .ok (decodeUtf8 c rest)

/-! ## Words -/

/-- `parse_space`, in a comment or not. -/
def skipSpace (newlineOk : Bool) : Bool → Text → Text
  | _, [] => []
  | comment, c :: src =>
    if comment ∧ c ≠ byte '\r' ∧ c ≠ byte '\n' then skipSpace newlineOk true src
    else if c = byte ' ' ∨ c = byte '\t' then skipSpace newlineOk false src
    else if c = byte '#' then skipSpace newlineOk true src
    else if newlineOk ∧ (c = byte '\r' ∨ c = byte '\n') then skipSpace newlineOk false src
    else c :: src

def parseSpace (src : Text) (newlineOk : Bool) : Text := skipSpace newlineOk false src

/-- `parse_int`, and `std::stoull` of it. -/
def parseInt (src : Text) : Except Failure (ℕ × Text) :=
  let digits := src.takeWhile isDigitChar
  if digits = [] then fails "expecting integer at " src
  else
    let n := digits.foldl (fun n c => 10 * n + (c.toNat - (byte '0').toNat)) 0
    if n < 2 ^ 64 then .ok (n, src.dropWhile isDigitChar) else fails "stoull" []

def expect (c : Char) (message : String) (src : Text) : Except Failure Text :=
  if src.head? = some (byte c) then .ok src.tail else fails message src

/-- `parse_token`, with the tokeniser of the vocabulary: the token of a text that is one. -/
def parseToken (vocab : Option (Text → Option ℕ)) (src : Text) : Except Failure (ℕ × Text) := do
  let pos ← expect '<' "expecting '<' at " src
  if pos.head? = some (byte '[') then
    let (id, pos) ← parseInt pos.tail
    let pos ← expect ']' "expecting ']' at " pos
    let pos ← expect '>' "expecting '>' at " pos
    return (id % 2 ^ 32, pos)
  else
    match vocab with
    | none => fails "no vocab to parse token at " src
    | some tokenize =>
      let name := src.takeWhile (· ≠ byte '>')
      let pos ← expect '>' "expecting '>' at " (src.dropWhile (· ≠ byte '>'))
      match tokenize (name ++ [byte '>']) with
      | none => fails "invalid token " (name ++ [byte '>'])
      | some id => return (id, pos)

/-! ## Literals and classes -/

/-- The loop over a literal. -/
def parseLiteral : ℕ → Text → Except Failure (List UInt32 × Text)
  | 0, _ => .error .outOfFuel
  | _ + 1, [] => fails "unexpected end of input" []
  | fuel + 1, c :: src =>
    if c = byte '"' then .ok ([], src)
    else do
      let (value, pos) ← parseChar (c :: src)
      let (values, pos) ← parseLiteral fuel pos
      return (value :: values, pos)

/-- The loop over a class. -/
def parseClass : ℕ → Text → Except Failure (List CharItem × Text)
  | 0, _ => .error .outOfFuel
  | _ + 1, [] => fails "unexpected end of input" []
  | fuel + 1, c :: src =>
    if c = byte ']' then .ok ([], src)
    else do
      let (lo, pos) ← parseChar (c :: src)
      if pos.head? = some (byte '-') ∧ pos.tail.head? ≠ some (byte ']') then
        if pos.tail = [] then fails "unexpected end of input" []
        else do
          let (hi, pos) ← parseChar pos.tail
          let (items, pos) ← parseClass fuel pos
          return (.range lo hi :: items, pos)
      else do
        let (items, pos) ← parseClass fuel pos
        return (.one lo :: items, pos)

/-- Nothing is pushed for a class without items. -/
def classOf (negated : Bool) : List CharItem → Option Expr
  | [] => none
  | first :: more => some (.cls (.set negated first more))

/-- A single character. -/
def charOf (value : UInt32) : Expr := .cls (.set false (.one value) [])

def literalOf : List UInt32 → Option Expr
  | [] => none
  | value :: values => some (values.foldl (fun e value => .seq e (charOf value)) (charOf value))

/-! ## Symbols -/

/-- The names that have an id. -/
abbrev Symbols : Type := List Text

def getSymbolId (ids : Symbols) (name : Text) : Symbols := if name ∈ ids then ids else ids ++ [name]

/-- An id for a rule that is made for a piece of another one. -/
def generateSymbolId (ruleName : Text) (ids : Symbols) : Symbols :=
  getSymbolId ids (ruleName ++ byte '_' :: bytes (toString ids.length))

/-! ## Repetitions -/

def maxRepetitionThreshold : ℕ := 2000

/-- The bounds between the braces; a greatest number of `2 ^ 64 - 1` is none. -/
def parseBounds (src : Text) (nested : Bool) : Except Failure ((ℕ × Option ℕ) × Text) := do
  let pos := parseSpace src nested
  if (pos.head?.map isDigitChar).getD false = false then fails "expecting an int at " pos
  else
    let (minTimes, pos) ← parseInt pos
    let pos := parseSpace pos nested
    let (maxTimes, pos) ←
      if pos.head? = some (byte '\x7d') then
        (.ok (minTimes, parseSpace pos.tail nested) : Except Failure (ℕ × Text))
      else if pos.head? = some (byte ',') then do
        let pos := parseSpace pos.tail nested
        let (maxTimes, pos) ←
          if (pos.head?.map isDigitChar).getD false then do
            let (n, pos) ← parseInt pos
            (.ok (n, parseSpace pos nested) : Except Failure (ℕ × Text))
          else .ok (2 ^ 64 - 1, pos)
        let pos ← expect '\x7d' "expecting '\x7d' at " pos
        .ok (maxTimes, parseSpace pos nested)
      else fails "expecting ',' at " pos
    let bound : Option ℕ := if maxTimes = 2 ^ 64 - 1 then none else some maxTimes
    if minTimes > maxRepetitionThreshold ∨ bound.any (· > maxRepetitionThreshold) then
      fails ("number of repetitions exceeds sane defaults, " ++
        "please reduce the number of repetitions") []
    else .ok ((minTimes, bound), pos)

/-- The rules that a repetition makes of one. -/
def totalRules (minTimes : ℕ) (maxTimes : Option ℕ) : ℕ :=
  if 0 < maxTimes.getD 0 then maxTimes.getD 0 else if 0 < minTimes then minTimes else 1

/-- What has been read of a sequence: the symbols before the last one, the last one unless it has
no elements, the rules that it stands for, and the names that have an id. -/
structure Reading where
  done : Expr
  last : Option Expr
  prevRules : ℕ
  ids : Symbols

/-- The last symbol is done. -/
def Reading.whole (r : Reading) : Expr :=
  match r.last with
  | none => r.done
  | some e => .seq r.done e

/-- A symbol is read. -/
def Reading.push (r : Reading) (e : Option Expr) (prevRules : ℕ) (ids : Symbols) : Reading :=
  ⟨r.whole, e, prevRules, ids⟩

/-- `handle_repetitions`: the last symbol is repeated. -/
def handleRepetitions (ruleName : Text) (r : Reading) (minTimes : ℕ) (maxTimes : Option ℕ)
    (pos : Text) : Except Failure Reading :=
  match r.last with
  | none => fails "expecting preceding item to */+/?/\x7b at " pos
  | some e =>
    let total := totalRules minTimes maxTimes
    if r.prevRules * total ≥ maxRepetitionThreshold then
      fails ("number of rules that are going to be repeated multiplied by the new repetition " ++
        "exceeds sane defaults, please reduce the number of repetitions or rule complexity") []
    else if maxTimes.any (· < minTimes) then .error .wrapped
    else
      let nOpt := match maxTimes with
        | none => 1
        | some n => n - minTimes
      .ok { r with
          last := if maxTimes = some 0 then none else some (.rep e minTimes maxTimes)
          prevRules := r.prevRules * total
          ids := Nat.repeat (generateSymbolId ruleName) nOpt r.ids }

/-! ## Rules -/

section

variable (vocab : Option (Text → Option ℕ)) (ruleName : Text)

mutual

/-- `parse_alternates` -/
def parseAlternates : ℕ → Bool → Symbols → Text → Except Failure (Expr × Symbols × Text)
  | 0, _, _, _ => .error .outOfFuel
  | fuel + 1, nested, ids, src => do
    let (e, ids, pos) ← parseSequence fuel nested ⟨.empty, none, 1, ids⟩ src
    if pos.head? = some (byte '|') then do
      let (f, ids, pos) ← parseAlternates fuel nested ids (parseSpace pos.tail true)
      return (.alt e f, ids, pos)
    else return (e, ids, pos)

/-- `parse_sequence`, from a round of its loop on. -/
def parseSequence : ℕ → Bool → Reading → Text → Except Failure (Expr × Symbols × Text)
  | 0, _, _, _ => .error .outOfFuel
  | _ + 1, _, r, [] => .ok (r.whole, r.ids, [])
  | fuel + 1, nested, r, c :: src =>
    if c = byte '"' then do
      let (values, pos) ← parseLiteral fuel src
      parseSequence fuel nested (r.push (literalOf values) 1 r.ids) (parseSpace pos nested)
    else if c = byte '[' then do
      let negated : Bool := src.head? = some (byte '^')
      let (items, pos) ← parseClass fuel (if negated then src.tail else src)
      parseSequence fuel nested (r.push (classOf negated items) 1 r.ids) (parseSpace pos nested)
    else if c = byte '<' ∨ c = byte '!' then do
      let (id, pos) ← parseToken vocab (if c = byte '!' then src else c :: src)
      parseSequence fuel nested (r.push (some (.token (c = byte '!') id)) 1 r.ids)
        (parseSpace pos nested)
    else if isWordChar c then
      let name := (c :: src).takeWhile isWordChar
      parseSequence fuel nested (r.push (some (.ref name)) 1 (getSymbolId r.ids name))
        (parseSpace ((c :: src).dropWhile isWordChar) nested)
    else if c = byte '(' then do
      let (e, ids, pos) ← parseAlternates fuel true (generateSymbolId ruleName r.ids)
        (parseSpace src true)
      let pos ← expect ')' "expecting ')' at " pos
      let prevRules := max 1 ((ids.length - r.ids.length) % 2 ^ 32)
      parseSequence fuel nested (r.push (some e) prevRules ids) (parseSpace pos nested)
    else if c = byte '.' then
      parseSequence fuel nested (r.push (some (.cls .any)) 1 r.ids) (parseSpace src nested)
    else if c = byte '*' then do
      let pos := parseSpace src nested
      parseSequence fuel nested (← handleRepetitions ruleName r 0 none pos) pos
    else if c = byte '+' then do
      let pos := parseSpace src nested
      parseSequence fuel nested (← handleRepetitions ruleName r 1 none pos) pos
    else if c = byte '?' then do
      let pos := parseSpace src nested
      parseSequence fuel nested (← handleRepetitions ruleName r 0 (some 1) pos) pos
    else if c = byte '\x7b' then do
      let (bounds, pos) ← parseBounds src nested
      parseSequence fuel nested (← handleRepetitions ruleName r bounds.1 bounds.2 pos) pos
    else .ok (r.whole, r.ids, c :: src)

end

/-- The part of a text that is a C string. -/
def cString (text : Text) : Text := text.takeWhile (· ≠ 0)

/-- The text of a rule reads as an expression, where some names have an id. -/
def Reads (ids : Symbols) (text : Text) (e : Expr) : Prop :=
  ∃ fuel ids', parseAlternates vocab ruleName fuel false ids
    (parseSpace (cString text) true) = .ok (e, ids', [])

end

/-! ## What an expression stands for -/

/-- The strings of code points, where it is known what the rules stand for; a token is not a
code point. -/
def Expr.language (rules : Text → Language UInt32) : Expr → Language UInt32
  | .empty => 1
  | .cls c => {w | ∃ chr, w = [chr] ∧ Matches c chr}
  | .token _ _ => 0
  | .ref name => rules name
  | .seq e f => e.language rules * f.language rules
  | .alt e f => e.language rules + f.language rules
  | .rep e minTimes maxTimes =>
    {w | ∃ k, minTimes ≤ k ∧ (∀ n, maxTimes = some n → k ≤ n) ∧ w ∈ e.language rules ^ k}

end ExpertPin.Gbnf
