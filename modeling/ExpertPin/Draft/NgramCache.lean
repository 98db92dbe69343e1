import ExpertPin.Draft.SuffixTree
import Mathlib.Data.List.AList
import Mathlib.Data.Fintype.Pi
import Mathlib.Algebra.Ring.Int.Defs
import Mathlib.Data.Fin.VecNotation

/-!
# The n-gram cache of a token history

The cache counts for each n-gram the tokens that came after it.  `common_ngram_cache_update`
enters the tokens at the end of a sequence that are new; the drafter enters what its context
got since the last draft.
-/

namespace ExpertPin.Draft

/-- `LLAMA_TOKEN_NULL`. -/
def tokenNull : Token := -1

/-- `LLAMA_NGRAM_MIN`. -/
def ngramMin : ℕ := 1

/-- `LLAMA_NGRAM_MAX`. -/
def ngramMax : ℕ := 4

/-- `common_ngram`: the tokens of an n-gram, and `LLAMA_TOKEN_NULL` behind them. -/
abbrev Ngram := Fin ngramMax → Token

def Ngram.make (input : List Token) (ngramSize : ℕ) : Ngram := fun i =>
  if i.val < ngramSize then input.getD i.val tokenNull else tokenNull

/-- How often a token has been seen. -/
abbrev NgramCachePart := AList fun _ : Token => Int32

abbrev NgramCache := AList fun _ : Ngram => NgramCachePart

namespace NgramCache

/-- One token after an n-gram. -/
def add (cache : NgramCache) (ngram : Ngram) (token : Token) : NgramCache :=
  match cache.lookup ngram with
  | none => cache.insert ngram (AList.singleton token 1)
  | some part =>
    match part.lookup token with
    | none => cache.insert ngram (part.insert token 1)
    | some count => cache.insert ngram (part.insert token (count + 1))

/-- The new tokens after n-grams of one size. -/
def updateSize (inp : List Token) (nnew : ℤ) (cache : NgramCache) (ngramSize : ℕ) : NgramCache :=
  let iStart := (max (inp.length - nnew) ngramSize).toNat
  (List.range' iStart (inp.length - iStart)).foldl (fun cache i =>
      cache.add (.make (inp.drop (i - ngramSize)) ngramSize) (inp.getD i tokenNull))
    cache

/-- `common_ngram_cache_update`. -/
def update (cache : NgramCache) (ngramMin ngramMax : ℕ) (inp : List Token) (nnew : ℤ) :
    NgramCache :=
  (List.range' ngramMin (ngramMax + 1 - ngramMin)).foldl (updateSize inp nnew) cache

/-- How often a token came after an n-gram. -/
def count (cache : NgramCache) (ngram : Ngram) (token : Token) : Int32 :=
  ((cache.lookup ngram).bind (AList.lookup token)).getD 0

end NgramCache

/-! ## The drafter -/

/-- What `common_speculative_state_ngram_cache` keeps of its context. -/
structure NgramCacheState where
  context : NgramCache := ∅
  cacheSize : ℕ := 0

/-- The cache after a draft; what it drafts does not change the cache. -/
def NgramCacheState.draft (state : NgramCacheState) (promptTgt : List Token) (idLast : Token) :
    NgramCacheState :=
  if state.cacheSize < promptTgt.length + 1 then
    let tokensNew := promptTgt.drop state.cacheSize ++ [idLast]
    { context := state.context.update ngramMin ngramMax tokensNew (toInt tokensNew.length)
      cacheSize := promptTgt.length + 1 }
  else state

end ExpertPin.Draft

/-!
## Drafting from n-gram caches

`common_ngram_cache_draft` looks up the last tokens of what it has in three caches, and appends
the token that `try_draft` finds in one of them.

`none` stands for what C++ leaves undefined: an `int` that overflows, or an index that is out of
range.  The order of the entries of a part is the order in which a loop visits them.
-/

namespace ExpertPin.Draft

/-- `LLAMA_NGRAM_STATIC`. -/
def ngramStatic : ℕ := 2

/-- The value of an `int` expression. -/
def checked (x : ℤ) : Option ℤ := if -2 ^ 31 ≤ x ∧ x < 2 ^ 31 then some x else none

/-- A pointer to a constant for each size of n-grams. -/
abbrev PerSize := Fin ngramMax → ℤ

/-- The place of the size `LLAMA_NGRAM_STATIC` in them. -/
def staticPlace : Fin ngramMax := ⟨ngramStatic - 1, by decide⟩

/-- `draft_min_sample_size_lax`. -/
def draftMinSampleSizeLax : PerSize := ![2, 2, 1, 1]

/-- `draft_min_percent_lax`. -/
def draftMinPercentLax : PerSize := ![66, 50, 50, 50]

/-- `draft_min_sample_size_strict`. -/
def draftMinSampleSizeStrict : PerSize := ![4, 3, 2, 2]

/-- `draft_min_percent_strict`. -/
def draftMinPercentStrict : PerSize := ![75, 66, 66, 66]

/-! ## `try_draft` with the static cache -/

/-- A token with its count. -/
abbrev TokenCount := (_ : Token) × Int32

/-- The variables of the loop over the tokens after an n-gram. -/
structure StaticTally where
  maxToken : Token := tokenNull
  maxCountStatic : ℤ := 0
  sumCountStatic : ℤ := 0
deriving DecidableEq, Repr

def StaticTally.count (t : StaticTally) (entry : TokenCount) : Option StaticTally := do
  let sumCountStatic ← checked (t.sumCountStatic + entry.2.toInt)
  some (if entry.2.toInt > t.maxCountStatic then
      { maxToken := entry.1, maxCountStatic := entry.2.toInt, sumCountStatic }
    else { t with sumCountStatic })

def tryDraftStatic (ncStatic : NgramCache) (ngram : Ngram) : Option Token :=
  match ncStatic.lookup ngram with
  | none => some tokenNull
  | some part => do
      let t ← part.entries.foldlM StaticTally.count {}
      if t.sumCountStatic < draftMinSampleSizeLax staticPlace then some tokenNull
      else do
        let percent ← checked (100 * t.maxCountStatic)
        let bound ← checked (draftMinPercentLax staticPlace * t.sumCountStatic)
        some (if percent < bound then tokenNull else t.maxToken)

/-! ## `try_draft` with a primary cache -/

structure Tally where
  maxToken : Token := tokenNull
  maxCountPrimary : ℤ := 0
  maxCountStatic : ℤ := 0
  sumCountPrimary : ℤ := 0
deriving DecidableEq, Repr

/-- What the static cache makes of a token. -/
def countStatic (partStatic : NgramCachePart) (token : Token) : Option ℤ :=
  match partStatic.lookup token with
  | some count => checked (100 * count.toInt)
  | none => some 1

def Tally.count (partStatic : NgramCachePart) (t : Tally) (entry : TokenCount) : Option Tally := do
  let countStatic ← countStatic partStatic entry.1
  let product ← checked (entry.2.toInt * countStatic)
  let maxProduct ← checked (t.maxCountPrimary * t.maxCountStatic)
  let sumCountPrimary ← checked (t.sumCountPrimary + entry.2.toInt)
  some (if product > maxProduct then
      { maxToken := entry.1, maxCountPrimary := entry.2.toInt, maxCountStatic := countStatic
        sumCountPrimary }
    else { t with sumCountPrimary })

/-- One n-gram of the primary cache. -/
def tryPart (part partStatic : NgramCachePart) (minSampleSize minPercent : ℤ) : Option Token := do
  let t ← part.entries.foldlM (Tally.count partStatic) {}
  if t.sumCountPrimary < minSampleSize then some tokenNull
  else do
    let percent ← checked (100 * t.maxCountPrimary)
    let bound ← checked (minPercent * t.sumCountPrimary)
    some (if percent < bound then tokenNull else t.maxToken)

/-- The body of the loop over the n-grams. -/
def tryNgram (ncPrimary : NgramCache) (ngramPrimary : Ngram) (partStatic : NgramCachePart)
    (minSampleSize minPercent : PerSize) (i : ℕ) : Option Token :=
  match ncPrimary.lookup ngramPrimary with
  | none => some tokenNull
  | some part =>
    if h : i < ngramMax then tryPart part partStatic (minSampleSize ⟨i, h⟩) (minPercent ⟨i, h⟩)
    else none

/-- The n-grams before the place `n`, the last one first. -/
def tryDraft (ncPrimary : NgramCache) (ngramsPrimary : List Ngram) (partStatic : NgramCachePart)
    (minSampleSize minPercent : PerSize) : ℕ → Option Token
  | 0 => some tokenNull
  | i + 1 => do
      let ngramPrimary ← ngramsPrimary[i]?
      let draftedToken ← tryNgram ncPrimary ngramPrimary partStatic minSampleSize minPercent i
      if draftedToken = tokenNull then
        tryDraft ncPrimary ngramsPrimary partStatic minSampleSize minPercent i
      else some draftedToken

/-! ## Reading n-grams -/

/-- A token of the sequence of `inp` and `draft`, whose first token belongs to `inp`. -/
def getToken (inp draft : List Token) (i : ℕ) : Option Token :=
  if i < inp.length then inp[i]? else draft[(1 + i - inp.length) % 2 ^ 64]?

/-- `(size_t) x`. -/
def sizeT (x : ℤ) : ℕ := (x % 2 ^ 64).toNat

/-- Where an n-gram of the given size starts; the sum is a `size_t`. -/
def ngramStart (inp draft : List Token) (size : ℕ) : ℤ :=
  (toInt inp.length - size + draft.length - 1).bmod (2 ^ 32)

/-- The indices of an n-gram in the order in which they are read. -/
def ngramIndices (inp draft : List Token) (size : ℕ) : Option (List ℕ) := do
  let start := ngramStart inp draft size
  let _ ← checked (start + size)
  some ((List.range size).map fun k : ℕ => sizeT (start + k))

def readNgram (inp draft : List Token) (size : ℕ) : Option Ngram := do
  let indices ← ngramIndices inp draft size
  let tokens ← indices.mapM (getToken inp draft)
  some (.make tokens size)

/-! ## `common_ngram_cache_draft` -/

structure Caches where
  ncContext : NgramCache := ∅
  ncDynamic : NgramCache := ∅
  ncStatic : NgramCache := ∅

/-- One turn of the loop: the token to append. -/
def nextDraft (caches : Caches) (ngramMin ngramMax : ℕ) (inp draft : List Token) :
    Option Token := do
  let ngram ← readNgram inp draft ngramStatic
  let partStatic := (caches.ncStatic.lookup ngram).getD ∅
  let ngramsCd ← (List.range' ngramMin (ngramMax + 1 - ngramMin)).mapM (readNgram inp draft)
  let draftedToken ← tryDraft caches.ncContext ngramsCd partStatic draftMinSampleSizeLax
    draftMinPercentLax ngramsCd.length
  let draftedToken ←
    if draftedToken = tokenNull then
      tryDraft caches.ncDynamic ngramsCd partStatic draftMinSampleSizeStrict
        draftMinPercentStrict ngramsCd.length
    else some draftedToken
  if draftedToken = tokenNull then tryDraftStatic caches.ncStatic ngram else some draftedToken

/-- The condition of the loop. -/
def goesOn (nDraft : ℤ) (draft : List Token) : Option Bool :=
  (checked (toInt draft.length - 1)).map fun size => size < nDraft

/-- At most so many turns of the loop. -/
def draftLoop (caches : Caches) (nDraft : ℤ) (ngramMin ngramMax : ℕ) (inp : List Token) :
    ℕ → List Token → Option (List Token)
  | 0, draft => some draft
  | turns + 1, draft => do
      if ← goesOn nDraft draft then
        let draftedToken ← nextDraft caches ngramMin ngramMax inp draft
        if draftedToken = tokenNull then some draft
        else draftLoop caches nDraft ngramMin ngramMax inp turns (draft ++ [draftedToken])
      else some draft

/-- `common_ngram_cache_draft`, for a draft of one token.  Each turn appends a token, so `n_draft`
turns are enough. -/
def ngramCacheDraft (caches : Caches) (nDraft : ℤ) (ngramMin ngramMax : ℕ) (inp : List Token)
    (idLast : Token) : Option (List Token) :=
  if toInt inp.length < ngramStatic then some [idLast]
  else draftLoop caches nDraft ngramMin ngramMax inp (nDraft.toNat + 1) [idLast]

end ExpertPin.Draft
