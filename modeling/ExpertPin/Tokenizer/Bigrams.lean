import ExpertPin.Lib.GreedyMerging
import ExpertPin.Lib.Utf8
import Mathlib.Algebra.Order.Field.Rat
import Mathlib.Data.FinEnum
import Mathlib.Data.Prod.Lex

/-!
# Merging symbols with a queue

The tokenisers with merges cut a word into symbols that are linked to their neighbours, keep the
neighbours that may be merged in a priority queue, and merge what comes first out of it.  Nothing is
taken back from the queue: an entry that comes out is left alone if its symbols have changed.

The two sessions differ in how they look up a pair and in how they know an entry that is outdated,
and are one session with these two as parameters.
-/

namespace ExpertPin.Tokenizer

universe u

/-- `llm_symbol`: the `n` bytes of the word from `text` on, and the symbols next to it, where `none`
stands for −1. -/
structure Symbol where
  prev : Option ℕ
  next : Option ℕ
  text : ℕ
  n : ℕ
deriving DecidableEq

/-- `llm_bigram_bpe` and `llm_bigram_spm`; the second has no text, and its key is its score, the
highest first. -/
structure Bigram (K : Type u) where
  left : ℕ
  right : ℕ
  text : List UInt8
  key : K
  size : ℕ
deriving DecidableEq

/-- `std::string(text, n)` -/
def slice (word : List UInt8) (text n : ℕ) : List UInt8 := (word.drop text).take n

def Symbol.string (word : List UInt8) (sym : Symbol) : List UInt8 := slice word sym.text sym.n

/-- `comparator`: the left one comes out of the queue after the right one. -/
def Bigram.After {K : Type u} [LinearOrder K] (l r : Bigram K) : Prop :=
  r.key < l.key ∨ l.key = r.key ∧ r.left < l.left

/-- `std::priority_queue`, whose entries are in an order of its own: what comes out of it comes
after nothing that stays.  Which of several such comes out is not said. -/
structure PriorityQueue {β : Type u} (after : β → β → Prop) where
  pop : List β → Option (β × List β)
  pop_nil : pop [] = none
  exists_pop : ∀ queue ≠ [], ∃ b rest, pop queue = some (b, rest)
  perm_of_pop : ∀ {queue b rest}, pop queue = some (b, rest) → queue.Perm (b :: rest)
  not_after_of_pop : ∀ {queue b rest}, pop queue = some (b, rest) → ∀ c ∈ rest, ¬after b c

section takeFirst

variable {K : Type} [LinearOrder K] {queue rest : List (Bigram K)} {b l r : Bigram K}

instance : DecidableRel (Bigram.After (K := K)) := fun _ _ => inferInstanceAs (Decidable (_ ∨ _))

/-- The first of the entries that come after no other. -/
def takeFirst : List (Bigram K) → Option (Bigram K × List (Bigram K))
  | [] => none
  | b :: queue =>
    match takeFirst queue with
    | none => some (b, [])
    | some (c, rest) => if b.After c then some (c, b :: rest) else some (b, c :: rest)

theorem Bigram.after_iff : l.After r ↔ toLex (r.key, r.left) < toLex (l.key, l.left) := by
  rw [Prod.Lex.toLex_lt_toLex, Bigram.After, eq_comm]

theorem takeFirst_eq_none (h : takeFirst queue = none) : queue = [] := by
  cases queue with
  | nil => rfl
  | cons b queue =>
    rw [takeFirst] at h
    cases hrest : takeFirst queue with
    | none =>
      rw [hrest] at h
      cases h
    | some p =>
      rw [hrest] at h
      dsimp only at h
      split at h <;> cases h

theorem takeFirst_eq_some (h : takeFirst queue = some (b, rest)) :
    queue.Perm (b :: rest) ∧ ∀ c ∈ rest, ¬b.After c := by
  induction queue generalizing b rest with
  | nil => cases h
  | cons d queue ih =>
    rw [takeFirst] at h
    cases hrest : takeFirst queue with
    | none =>
      rw [hrest] at h
      cases h
      rw [takeFirst_eq_none hrest]
      exact ⟨.refl _, fun c hc => absurd hc List.not_mem_nil⟩
    | some p =>
      obtain ⟨c, rest'⟩ := p
      obtain ⟨hperm, hfirst⟩ := ih hrest
      rw [hrest] at h
      dsimp only at h
      split at h
      · next hafter =>
          cases h
          refine ⟨(hperm.cons d).trans (.swap ..), fun e he => ?_⟩
          rcases List.mem_cons.mp he with rfl | he
          · rw [Bigram.after_iff] at hafter ⊢
            exact hafter.asymm
          · exact hfirst e he
      · next hafter =>
          cases h
          refine ⟨hperm.cons d, fun e he => ?_⟩
          rcases List.mem_cons.mp he with rfl | he
          · exact hafter
          · have hce := hfirst e he
            rw [Bigram.after_iff, not_lt] at hafter hce ⊢
            exact hafter.trans hce

/-- A queue that looks through all of its entries. -/
def scanningQueue : PriorityQueue (Bigram.After (K := K)) where
  pop := takeFirst
  pop_nil := rfl
  exists_pop queue hne := by
    cases h : takeFirst queue with
    | none => exact absurd (takeFirst_eq_none h) hne
    | some p => exact ⟨p.1, p.2, rfl⟩
  perm_of_pop h := (takeFirst_eq_some h).1
  not_after_of_pop h := (takeFirst_eq_some h).2

end takeFirst

/-- What a session looks up.  `candidate` gives nothing where an assertion fails, and the text of
the pair and its key if it may be merged. -/
structure Session (K : Type u) where
  candidate : List UInt8 → Symbol → Symbol → Option (Option (List UInt8 × K))
  isOutdated : List UInt8 → Symbol → Symbol → Bigram K → Bool

structure State (K : Type u) where
  symbols : ℕ → Symbol
  workQueue : List (Bigram K)

namespace Session

variable {K : Type u} (S : Session K) (word : List UInt8)

/-- `add_new_bigram` and `try_add_bigram` -/
def addBigram (left right : Option ℕ) (s : State K) : Option (State K) :=
  match left, right with
  | some left, some right =>
    (S.candidate word (s.symbols left) (s.symbols right)).map fun
      | none => s
      | some (text, key) =>
        { s with workQueue := ⟨left, right, text, key, text.length⟩ :: s.workQueue }
  | _, _ => some s

/-- The right symbol is merged into the left one and leaves the chain. -/
def unlink (symbols : ℕ → Symbol) (left right : ℕ) : ℕ → Symbol :=
  let leftSym := symbols left
  let rightSym := symbols right
  let merged := Function.update
    (Function.update symbols left
      { leftSym with n := leftSym.n + rightSym.n, next := rightSym.next })
    right { rightSym with n := 0 }
  match rightSym.next with
  | none => merged
  | some next => Function.update merged next { merged next with prev := some left }

/-- One round of the loop, for the entry that has come out of the queue. -/
def round (bigram : Bigram K) (s : State K) : Option (State K) :=
  let leftSym := s.symbols bigram.left
  let rightSym := s.symbols bigram.right
  if leftSym.n = 0 ∨ rightSym.n = 0 ∨ S.isOutdated word leftSym rightSym bigram then some s
  else do
    let s := { s with symbols := unlink s.symbols bigram.left bigram.right }
    let s ← S.addBigram word (s.symbols bigram.left).prev (some bigram.left) s
    S.addBigram word (some bigram.left) (s.symbols bigram.left).next s

/-- The initial symbols of a word that is cut into pieces, from the one at an index and an offset
on -/
def symbolsFrom (index offset : ℕ) : List (List UInt8) → List Symbol
  | [] => []
  | piece :: pieces =>
    ⟨if index = 0 then none else some (index - 1), if pieces = [] then none else some (index + 1),
      offset, piece.length⟩ :: symbolsFrom (index + 1) (offset + piece.length) pieces

/-- The entries for the pairs of the first symbols, the right one from an index on. -/
def seed (index count : ℕ) (s : State K) : Option (State K) :=
  (List.range' index count).foldlM (fun s i => S.addBigram word (some (i - 1)) (some i) s) s

variable [LinearOrder K] (queue : PriorityQueue (Bigram.After (K := K)))

/-- The loop as long as the queue has entries. -/
def merges : ℕ → State K → Option (State K)
  | 0, _ => none
  | fuel + 1, s =>
    match queue.pop s.workQueue with
    | none => some s
    | some (bigram, workQueue) =>
      (S.round word bigram { s with workQueue }).bind (merges fuel)

/-- The symbols when no more are merged.  Each round takes an entry out of the queue, and each merge
puts up to two in. -/
def symbolsOf (pieces : List (List UInt8)) : Option (ℕ → Symbol) :=
  let symbols := symbolsFrom 0 0 pieces
  (S.seed pieces.flatten 1 (pieces.length - 1)
    ⟨fun i => symbols.getD i ⟨none, none, 0, 0⟩, []⟩).bind fun s =>
  (S.merges pieces.flatten queue (4 * pieces.length) s).map State.symbols

end Session

/-- The symbols of a word: the bytes of each character, or what is left of them. -/
def characters (word : List UInt8) : List (List UInt8) :=
  match word with
  | [] => []
  | lead :: more =>
    let n := min (lead :: more).length (Utf8.charLength lead)
    (lead :: more).take n :: characters ((lead :: more).drop n)
termination_by word.length
decreasing_by
  have hpos := Utf8.charLength_pos lead
  rw [List.length_drop]
  simp only [List.length_cons]
  omega

/-! ## The session for ranked merges -/

/-- What `llm_tokenizer_bpe_session` reads of a vocabulary. -/
structure BpeVocab where
  /-- `bpe_ranks`, whose ranks are places in the list of the merges -/
  bpeRanks : List UInt8 → List UInt8 → Option ℕ
  textToToken : List UInt8 → Option ℕ
  ignoreMerges : Bool
  /-- Whether the type of the pre-tokeniser is `LLAMA_VOCAB_PRE_TYPE_GEMMA4`. -/
  isGemma4 : Bool

namespace BpeVocab

variable (V : BpeVocab) (queue : PriorityQueue (Bigram.After (K := ℤ)))

/-- The rank of a pair, or −1, if the assertions hold that no text has a blank. -/
def findBpeRank (left right : List UInt8) : Option ℤ :=
  if 32 ∈ left ∨ 32 ∈ right then none
  else match V.bpeRanks left right with
    | none => some (-1)
    | some rank => some rank

def session : Session ℤ where
  candidate word left right :=
    let leftToken := left.string word
    let rightToken := right.string word
    (V.findBpeRank leftToken rightToken).map fun rankFound =>
      if rankFound < 0 then none else some (leftToken ++ rightToken, rankFound)
  isOutdated word left right bigram := left.string word ++ right.string word ≠ bigram.text

/-- The symbols that a word begins with: the whole word where it is a token and merges are ignored,
and for one pre-tokeniser where it is a token of line feeds. -/
def pieces (word : List UInt8) : List (List UInt8) :=
  if V.ignoreMerges ∧ (V.textToToken word).isSome then [word]
  else if V.isGemma4 ∧ (∀ b ∈ word, b = 10) ∧ (V.textToToken word).isSome then [word]
  else characters word

/-- The texts of the finished symbols, in the order of the symbols. -/
def chain (pieces : List (List UInt8)) : Option (List (List UInt8)) :=
  (V.session.symbolsOf queue pieces).map fun symbols =>
    (((List.range pieces.length).map symbols).filter fun sym => 0 < sym.n).map
      (Symbol.string pieces.flatten)

end BpeVocab

/-! ## The session for scored tokens -/

/-- What `llm_tokenizer_spm_session` reads of a vocabulary: the tokens with their scores. -/
structure SpmVocab where
  tokens : List (List UInt8 × ℚ)

namespace SpmVocab

variable (V : SpmVocab) (queue : PriorityQueue (Bigram.After (K := ℚᵒᵈ)))

def textToToken (text : List UInt8) : Option ℕ := V.tokens.findIdx? fun t => t.1 = text

def session : Session ℚᵒᵈ where
  candidate word left right :=
    let text := slice word left.text (left.n + right.n)
    some <| match V.textToToken text with
      | none => none
      | some token => (V.tokens[token]?).map fun tokData => (text, OrderDual.toDual tokData.2)
  isOutdated _ left right bigram := left.n + right.n ≠ bigram.size

/-- The symbols from one on, as they are linked. -/
def following (symbols : ℕ → Symbol) : ℕ → Option ℕ → Option (List Symbol)
  | _, none => some []
  | 0, some _ => none
  | fuel + 1, some i => (following symbols fuel (symbols i).next).map (symbols i :: ·)

/-- The texts of the symbols that are linked from the first one on. -/
def chain (pieces : List (List UInt8)) : Option (List (List UInt8)) :=
  (V.session.symbolsOf queue pieces).bind fun symbols =>
    (following symbols pieces.length (some 0)).map (List.map (Symbol.string pieces.flatten))

end SpmVocab

end ExpertPin.Tokenizer
