import ExpertPin.Lib.Search

/-!
# The grammar engine

`llama-grammar.cpp` keeps a grammar as flat arrays of elements, one for each rule, and a set
of stacks of pointers into them.  `llama_grammar_advance_stack` expands the rule references
on top of a stack until each stack has a terminal on top or is empty, and
`llama_grammar_accept` moves the stacks over a character.

A pointer is a rule and an offset.  The `while` loop of `llama_grammar_advance_stack` need
not end, so it runs on fuel; `none` is also a failed assertion.
-/

namespace ExpertPin.Grammar

open Search

/-- `llama_gretype` -/
inductive GreType
  | end_
  | alt
  | ruleRef
  | char
  | charNot
  | charRngUpper
  | charAlt
  | charAny
  | token
  | tokenNot
deriving DecidableEq, Repr

/-- `llama_grammar_element` -/
structure Element where
  type : GreType
  value : UInt32
deriving DecidableEq, Repr

/-- `llama_grammar_rules` -/
abbrev Rules : Type := List (List Element)

/-- A pointer to an element. -/
structure Pos where
  rule : ℕ
  off : ℕ
deriving DecidableEq, Repr

/-- `llama_grammar_stack`, with the top first. -/
abbrev PosStack : Type := List Pos

def Rules.rule (rules : Rules) (i : ℕ) : List Element := rules[i]?.getD []

/-- `*pos` -/
def Rules.at (rules : Rules) (pos : Pos) : Element :=
  (rules.rule pos.rule)[pos.off]?.getD ⟨.end_, 0⟩

/-- `llama_grammar_is_end_of_sequence` -/
def Element.isEndOfSequence (e : Element) : Bool := e.type = .end_ || e.type = .alt

/-! ## Characters -/

/-- The loop over the elements of a character class, from offset `off` on. -/
def matchCharLoop (chr : UInt32) (found : Bool) (off : ℕ) : List Element → Bool × ℕ
  | e :: u :: rest =>
    if u.type = .charRngUpper then
      let found := found || (e.value ≤ chr && chr ≤ u.value)
      match rest with
      | next :: rest =>
        if next.type = .charAlt then matchCharLoop chr found (off + 2) (next :: rest)
        else (found, off + 2)
      | [] => (found, off + 2)
    else
      let found := e.type = .charAny || found || e.value = chr
      if u.type = .charAlt then matchCharLoop chr found (off + 1) (u :: rest)
      else (found, off + 1)
  | _ => (found, off + 1)

/-- `llama_grammar_match_char` -/
def matchChar (rules : Rules) (pos : Pos) (chr : UInt32) : Option (Bool × Pos) :=
  let type := (rules.at pos).type
  let isPositiveChar : Bool := type = .char || type = .charAny
  if isPositiveChar ∨ type = .charNot then
    let m := matchCharLoop chr false pos.off ((rules.rule pos.rule).drop pos.off)
    some (m.1 == isPositiveChar, ⟨pos.rule, m.2⟩)
  else none

/-! ## Stacks -/

/-- The starts of the alternates after one that begins at `off`. -/
def laterStarts (off : ℕ) : List Element → List ℕ
  | [] => []
  | e :: es =>
    match e.type with
    | .end_ => []
    | .alt => (off + 1) :: laterStarts (off + 1) es
    | _ => laterStarts (off + 1) es

/-- The pointers to the alternates of a rule, in the order of the loop over them. -/
def Rules.alternates (rules : Rules) (i : ℕ) : List Pos :=
  (0 :: laterStarts 0 (rules.rule i)).map fun off => ⟨i, off⟩

/-- Push a pointer unless it is at the end of a sequence. -/
def pushPos (rules : Rules) (pos : Pos) (stack : PosStack) : PosStack :=
  if (rules.at pos).isEndOfSequence then stack else pos :: stack

def Pos.next (pos : Pos) : Pos := ⟨pos.rule, pos.off + 1⟩

/-- One turn of the loop of `llama_grammar_advance_stack`. -/
def visit (rules : Rules) : PosStack → Verdict PosStack
  | [] => .emit
  | pos :: below =>
    match (rules.at pos).type with
    | .ruleRef =>
      .push ((rules.alternates (rules.at pos).value.toNat).map fun subpos =>
        pushPos rules subpos (pushPos rules pos.next below))
    | .char | .charNot | .charAny | .token | .tokenNot => .emit
    | _ => .abort

/-- `llama_grammar_advance_stack` -/
def advanceStack (rules : Rules) (fuel : ℕ) (newStacks : List PosStack) (stack : PosStack) :
    Option (List PosStack) :=
  search (visit rules) fuel [stack] [] newStacks

/-- `llama_grammar_accept_chr` -/
def acceptChr (rules : Rules) (chr : UInt32) (fuel : ℕ) (newStacks : List PosStack) :
    PosStack → Option (List PosStack)
  | [] => some newStacks
  | pos :: below =>
    if (rules.at pos).type = .token ∨ (rules.at pos).type = .tokenNot then some newStacks
    else
      (matchChar rules pos chr).bind fun m =>
        if m.1 then advanceStack rules fuel newStacks (pushPos rules m.2 below)
        else some newStacks

/-- `llama_grammar`, with its rules and stacks. -/
structure LlamaGrammar where
  rules : Rules
  allStacks : List PosStack

/-- `llama_grammar_accept` -/
def accept (fuel : ℕ) (grammar : LlamaGrammar) (chr : UInt32) : Option LlamaGrammar :=
  (grammar.allStacks.foldlM (acceptChr grammar.rules chr fuel) []).map fun stacksNew =>
    { grammar with allStacks := stacksNew }

/-- `llama_grammar_accept` for each character of a string. -/
def feed (fuel : ℕ) (grammar : LlamaGrammar) (w : List UInt32) : Option LlamaGrammar :=
  w.foldlM (accept fuel) grammar

/-! ## Initialisation -/

/-- `rules_visited`, `rules_in_progress` and `rules_may_be_empty` -/
structure Detect where
  visited : ℕ → Bool
  inProgress : ℕ → Bool
  mayBeEmpty : ℕ → Bool

/-- Some alternate has no elements. -/
def hasEmptyAlternate (atRuleStart : Bool) : List Element → Bool
  | [] => false
  | e :: es =>
    if e.isEndOfSequence then
      if atRuleStart then true else hasEmptyAlternate true es
    else hasEmptyAlternate false es

/-- `llama_grammar_detect_left_recursion`.  Each call is for one more rule in progress, so the
depth is at most the number of rules, plus one. -/
def detectLeftRecursion (rules : Rules) : ℕ → ℕ → Detect → Bool × Detect
  | 0, _, s => (true, s)
  | depth + 1, i, s =>
    if s.inProgress i then (true, s)
    else
      let rule := rules.rule i
      let s : Detect := { s with
        inProgress := Function.update s.inProgress i true
        mayBeEmpty :=
          if hasEmptyAlternate true rule then Function.update s.mayBeEmpty i true
          else s.mayBeEmpty }
      let r : Bool × Bool × Detect := rule.foldl (fun r e =>
        if r.1 then r
        else if e.type = .ruleRef ∧ r.2.1 then
          let child := detectLeftRecursion rules depth e.value.toNat r.2.2
          (child.1, child.2.mayBeEmpty e.value.toNat, child.2)
        else (false, e.isEndOfSequence, r.2.2)) (false, true, s)
      if r.1 then (true, r.2.2)
      else (false, { r.2.2 with
        inProgress := Function.update r.2.2.inProgress i false
        visited := Function.update r.2.2.visited i true })

/-- The loop over the rules: whether one of them is left recursive. -/
def anyLeftRecursion (rules : Rules) : Bool :=
  ((List.range rules.length).foldl (fun r i =>
    if r.1 ∨ r.2.visited i then r
    else detectLeftRecursion rules (rules.length + 1) i r.2)
    ((false, ⟨fun _ => false, fun _ => false, fun _ => false⟩) : Bool × Detect)).1

/-- A copy of a rule ends at its first end element. -/
def copyRule (rule : List Element) : List Element :=
  rule.takeWhile (fun e => e.type ≠ .end_) ++ [⟨.end_, 0⟩]

/-- `llama_grammar_init_impl`; the inner `none` is the null pointer for left recursion. -/
def initImpl (fuel : ℕ) (rules : Rules) (startRuleIndex : ℕ) : Option (Option LlamaGrammar) :=
  let vecRules : Rules := rules.map copyRule
  if anyLeftRecursion vecRules then some none
  else
    ((vecRules.alternates startRuleIndex).foldlM (fun newStacks pos =>
      advanceStack vecRules fuel newStacks (pushPos vecRules pos [])) []).map fun newStacks =>
        some ⟨vecRules, newStacks⟩

end ExpertPin.Grammar
