import ExpertPin.Server.CommonPrefix
import Mathlib.Algebra.Ring.Int.Defs

/-!
# What a new prompt keeps of the cache

When a prompt is about to be batched, the tokens of the cache that spell its beginning are kept.
One token of the prompt is left to evaluate, and where old cells are gone a checkpoint takes the
place of the match.

Both lengths of a match are moved together, as if the tokens on both sides were the same.  They
need not be: a token less on each side is not the same text less, and a checkpoint carries the
positions of another prompt, of which the one in the cache may be one lower.  `sameText_iff` says
when the text that is kept is the text of the prompt.
-/

namespace ExpertPin.Server

open List
open Nat

namespace ServerTokens

/-- The positions of the first tokens from `idx` on, up to `nTokens`. -/
def positions (T : ServerTokens) (nTokens idx : ℕ) : ℕ :=
  if idx < nTokens then
    match T.chunk? idx with
    | some c => c.nPos + T.positions nTokens (idx + c.nTokens)
    | none => 1 + T.positions nTokens (idx + 1)
  else 0
termination_by nTokens - idx
decreasing_by
  · have := c.nTokens_pos
    omega
  · omega

/-- `pos_next`; without an argument it is asked for a negative number of tokens. -/
def posNext (T : ServerTokens) (nTokens : ℤ) : Except Failure ℤ :=
  if ¬T.hasMtmd then .ok (if nTokens < 0 then T.size else nTokens)
  else if nTokens < 0 then
    .ok (T.size + (T.media.map fun (_, c) => (c.nPos : ℤ) - c.nTokens).sum)
  else if nTokens ≤ T.size then .ok (T.positions nTokens.toNat 0)
  else .error .assertion

/-- The loop of `size_up_to_pos`. -/
def sizeUpToPosFrom (T : ServerTokens) (maxPos : ℤ) (idx : ℕ) (pos : ℤ) : ℕ :=
  if idx < T.size then
    match T.chunk? idx with
    | some c =>
      if pos + c.nPos ≥ maxPos then idx + c.nTokens
      else T.sizeUpToPosFrom maxPos (idx + c.nTokens) (pos + c.nPos)
    | none =>
      if pos + 1 ≥ maxPos then idx + 1
      else T.sizeUpToPosFrom maxPos (idx + 1) (pos + 1)
  else idx
termination_by T.size - idx
decreasing_by
  · have := c.nTokens_pos
    omega
  · omega

/-- `size_up_to_pos`.  A negative position is a very large size. -/
def sizeUpToPos (T : ServerTokens) (maxPos : ℤ) : ℕ :=
  if ¬T.hasMtmd then if maxPos < 0 then T.size else min maxPos.toNat T.size
  else if maxPos ≤ 0 then 0
  else T.sizeUpToPosFrom maxPos 0 0

/-- `keep_first` -/
def keepFirst (T : ServerTokens) (n : ℕ) : Except Failure ServerTokens :=
  if n > T.size then .error .assertion
  else if T.hasMtmd then
    if n = T.size then .ok T
    else if T.tokens[n]? = some .null ∧ T.chunk? n = none then .error .chunkNotFound
    else .ok { T with
      tokens := T.tokens.take n
      media := T.media.filter fun (idx, _) => idx < n }
  else .ok { T with tokens := T.tokens.take n }

/-- `detokenize` -/
def detokenize (V : Vocab) (T : ServerTokens) : Text :=
  V.detokenize (T.tokens.filter (· ≠ .null))

end ServerTokens

open ServerTokens

/-- The positions of a `server_prompt_checkpoint`, those in the cache as it is created with
them. -/
structure Checkpoint where
  posMin : ℤ
  posMax : ℤ
  posMaxPrompt : ℤ
  posMin_nonneg : 0 ≤ posMin
  posMin_le : posMin ≤ posMax
deriving DecidableEq

/-- What batching reads of a slot that holds a new prompt. -/
structure Slot where
  cacheTokens : ServerTokens
  promptTokens : ServerTokens
  checkpoints : List Checkpoint
  /-- `params.cache_prompt` -/
  cachePrompt : Bool
  embedding : Bool

/-- What batching asks the model, the cache and the drafter. -/
structure Answers where
  supportsPartialKvReuse : Bool
  /-- the drafter needs rows that the cached prefix has not -/
  requiresFreshWarmup : Bool
  isDsv4 : Bool
  isOpenpangu : Bool
  /-- `llama_kv_cache_seq_pos_min` -/
  kvPosMin : ℤ
  /-- `llama_kv_cache_seq_rm` of what is past a checkpoint -/
  rewinds : Bool
  /-- the state of the checkpoint is read whole and reaches the position it should -/
  restores : Bool
  /-- `common_speculative_trim_sequence` -/
  trims : Bool

/-- How many tokens of the cache and of the prompt are taken as the same. -/
def matchPrompt (V : Vocab) (exact : Bool) (slot : Slot) (q : Answers) : Except Failure (ℕ × ℕ) :=
  if slot.embedding ∨ ¬slot.cachePrompt then .ok (0, 0)
  else match getCommonPrefix V slot.cacheTokens slot.promptTokens exact with
    | .error e => .error e
    | .ok r =>
      if ¬q.supportsPartialKvReuse ∧ r.1 < slot.cacheTokens.size then .ok (0, 0)
      else if 0 < r.1 ∧ q.requiresFreshWarmup then .ok (0, 0)
      else .ok r

/-- At least one token is left to evaluate. -/
def leaveToken (nPromptTokens : ℕ) (nPast nPastPrompt : ℤ) : ℤ × ℤ :=
  if nPastPrompt = nPromptTokens ∧ nPastPrompt > 0 then (nPast - 1, nPastPrompt - 1)
  else (nPast, nPastPrompt)

/-- What is past the last position of the result is computed anew. -/
structure Reuse where
  nPast : ℤ
  nPastPrompt : ℤ
  cacheTokens : ServerTokens
  checkpoints : List Checkpoint

/-- The checkpoint that `apply_checkpoint` finds, the last one below the limit. -/
def findCheckpoint (checkpoints : List Checkpoint) (limit : ℤ) : Option Checkpoint :=
  checkpoints.reverse.find? fun cur => cur.posMax < limit

/-- `pos_next` after a checkpoint is restored. -/
def restoredPos (q : Answers) (posNext : ℤ) (ckpt : Checkpoint) : ℤ :=
  if q.isDsv4 ∨ q.isOpenpangu then min posNext (ckpt.posMax + 1)
  else min posNext (max (ckpt.posMin + 1) ckpt.posMax)

/-- The checkpoint that is restored, `none` where all is computed anew. -/
def restored (slot : Slot) (q : Answers) (posNext : ℤ) : Option Checkpoint :=
  match findCheckpoint slot.checkpoints
      (if q.isDsv4 ∨ q.isOpenpangu then posNext else max 0 (posNext - 1)) with
  | none => none
  | some ckpt => if (q.isOpenpangu → q.rewinds) ∧ q.restores then some ckpt else none

/-- Are cells gone that the match needs? -/
def needsCheckpoint (slot : Slot) (q : Answers) (nPast posNext : ℤ) : Bool :=
  0 < nPast ∧ nPast < slot.cacheTokens.size ∧
    (q.kvPosMin ≥ max 0 (posNext - 1) ∨ q.isDsv4 ∨ q.isOpenpangu)

/-- `apply_checkpoint` -/
def applyCheckpoint (slot : Slot) (q : Answers) (nPast nPastPrompt : ℤ) :
    Except Failure Reuse := do
  let posNext ← slot.cacheTokens.posNext nPast
  let keep (ckpts : List Checkpoint) := ckpts.filter fun cur => ¬cur.posMax > max 0 (posNext - 1)
  if needsCheckpoint slot q nPast posNext then
    match restored slot q posNext with
    | some ckpt =>
      let posPrompt ← slot.promptTokens.posNext nPastPrompt
      return {
        nPast := slot.cacheTokens.sizeUpToPos (restoredPos q posNext ckpt)
        nPastPrompt := slot.promptTokens.sizeUpToPos (min posPrompt (ckpt.posMaxPrompt + 1))
        cacheTokens := slot.cacheTokens
        checkpoints := keep slot.checkpoints }
    | none =>
      let cacheTokens ← slot.cacheTokens.keepFirst 0
      return {
        nPast := 0
        nPastPrompt := 0
        cacheTokens
        checkpoints := if q.isOpenpangu then [] else keep slot.checkpoints }
  else
    return { nPast, nPastPrompt, cacheTokens := slot.cacheTokens
             checkpoints := keep slot.checkpoints }

/-- The part of `batch_pending_prompt` before the first token of the prompt is batched. -/
def startBatching (V : Vocab) (exact : Bool) (slot : Slot) (q : Answers) :
    Except Failure Reuse := do
  let r ← matchPrompt V exact slot q
  let past := leaveToken slot.promptTokens.size r.1 r.2
  let reuse ← applyCheckpoint slot q past.1 past.2
  let nPast := if reuse.nPast < 0 then 0 else reuse.nPast
  let cacheTokens ← reuse.cacheTokens.keepFirst nPast.toNat
  if q.trims then return { reuse with nPast, cacheTokens }
  else return {
    nPast := 0
    nPastPrompt := 0
    cacheTokens := { cacheTokens with tokens := [] }
    checkpoints := [] }

/-! ## Positions of text -/

namespace ServerTokens

variable {T : ServerTokens}

theorem WellFormed.chunk?_eq_none (hT : T.WellFormed) {n idx : ℕ}
    (hn : n ≤ T.size) (hnull : .null ∉ T.tokens.take n) (hidx : idx < n) :
    T.chunk? idx = none := by
  by_contra h
  obtain ⟨c, hc⟩ := Option.ne_none_iff_exists'.mp h
  have hget := hT.null_of_chunk hc (Nat.le_refl idx) (Nat.lt_add_of_pos_right c.nTokens_pos)
  have htake : (T.tokens.take n)[idx]? = some .null := by rwa [getElem?_take_of_lt hidx]
  exact hnull (mem_of_getElem? htake)

theorem positions_text (hT : T.WellFormed) {n : ℕ} (hn : n ≤ T.size)
    (hnull : .null ∉ T.tokens.take n) {idx : ℕ} (hidx : idx ≤ n) :
    T.positions n idx = n - idx := by
  unfold positions
  split
  case isFalse h => omega
  case isTrue h =>
    rw [hT.chunk?_eq_none hn hnull h]
    simp only
    rw [positions_text hT hn hnull h]
    omega
termination_by n - idx

/-- Positions of text are the indices of its tokens. -/
theorem posNext_text (hT : T.WellFormed) {n : ℕ} (hn : n ≤ T.size)
    (hnull : .null ∉ T.tokens.take n) : T.posNext n = .ok n := by
  unfold posNext
  have hneg : ¬(n : ℤ) < 0 := by omega
  rw [if_neg hneg, if_neg hneg, if_pos (Int.ofNat_le.mpr hn), Int.toNat_natCast,
    positions_text hT hn hnull (Nat.zero_le n), Nat.sub_zero, ite_self]

theorem sizeUpToPosFrom_text (hT : T.WellFormed) {n : ℕ} (hn : n ≤ T.size)
    (hnull : .null ∉ T.tokens.take n) {p : ℕ} (hp : p ≤ n) (idx : ℕ) (hidx : idx < p) :
    T.sizeUpToPosFrom p idx idx = p := by
  unfold sizeUpToPosFrom
  rw [if_pos (by omega), hT.chunk?_eq_none hn hnull (by omega)]
  simp only
  split
  case isTrue h => omega
  case isFalse h => exact sizeUpToPosFrom_text hT hn hnull hp (idx + 1) (by omega)
termination_by p - idx

theorem sizeUpToPos_text (hT : T.WellFormed) {n : ℕ} (hn : n ≤ T.size)
    (hnull : .null ∉ T.tokens.take n) {p : ℕ} (hp : p ≤ n) : T.sizeUpToPos p = p := by
  unfold sizeUpToPos
  rw [if_neg (Int.not_lt.mpr (Int.natCast_nonneg p)), Int.toNat_natCast,
    min_eq_left (le_trans hp hn), ite_eq_left_iff]
  intro _
  split
  case isTrue h => omega
  case isFalse h => exact sizeUpToPosFrom_text hT hn hnull hp 0 (by omega)

/-- Cutting behind text only never cuts media in two. -/
theorem keepFirst_text (hT : T.WellFormed) {n : ℕ} (hn : n ≤ T.size)
    (hnull : .null ∉ T.tokens.take n) :
    ∃ T', T.keepFirst n = .ok T' ∧ T'.tokens = T.tokens.take n := by
  unfold keepFirst
  rw [if_neg (not_lt.mpr hn)]
  split
  case isFalse => exact ⟨_, rfl, rfl⟩
  case isTrue =>
    split
    case isTrue h => exact ⟨T, rfl, by rw [h, size, take_length]⟩
    case isFalse =>
      rw [if_neg]
      case hnc =>
        -- the first empty token is the first of its chunk
        rintro ⟨hget, hnone⟩
        obtain ⟨idx, c, hc, hle, -⟩ := hT.chunk_of_null hget
        rcases lt_or_eq_of_le hle with hlt | rfl
        · rw [hT.chunk?_eq_none hn hnull hlt] at hc
          cases hc
        · rw [hnone] at hc
          cases hc
      exact ⟨_, rfl, rfl⟩

theorem keepFirst_nil (h : T.tokens = []) :
    ∃ T', T.keepFirst 0 = .ok T' ∧ T'.tokens = T.tokens.take 0 := by
  unfold keepFirst
  cases T.hasMtmd with
  | true => exact ⟨T, by simp [size, h], by simp [h]⟩
  | false => exact ⟨_, by simp; rfl, rfl⟩

theorem detokenize_text (V : Vocab) (h : T.IsText) :
    removeIgnored (T.detokenize V) = V.visible T.tokens := by
  have hne : ∀ t ∈ T.tokens, decide (t ≠ .null) = true := by
    intro t ht
    exact decide_eq_true fun heq => h (heq ▸ ht)
  unfold ServerTokens.detokenize
  rw [filter_eq_self.mpr hne, V.removeIgnored_detokenize]

/-- The first `n` tokens. -/
def first (T : ServerTokens) (n : ℕ) : ServerTokens :=
  { T with tokens := T.tokens.take n }

end ServerTokens

/-! ## The kept text -/

/-- The kept tokens spell, blanks aside, the tokens of the prompt they stand for, and a token of
the prompt is left. -/
def KeepsText (V : Vocab) (slot : Slot) (reuse : Reuse) : Prop :=
  removeIgnored ((reuse.cacheTokens.first reuse.nPast.toNat).detokenize V) =
    removeIgnored ((slot.promptTokens.first reuse.nPastPrompt.toNat).detokenize V) ∧
  reuse.nPastPrompt < slot.promptTokens.size

/-- Both lengths leave out as much text, blanks aside.  The match is `r` and `past` what is left
of it; where a checkpoint is restored, its positions count. -/
def EvenCut (V : Vocab) (exact : Bool) (slot : Slot) (q : Answers) (r : ℕ × ℕ) : Prop :=
  let cache := slot.cacheTokens.tokens
  let prompt := slot.promptTokens.tokens
  let past := leaveToken slot.promptTokens.size r.1 r.2
  if needsCheckpoint slot q past.1 past.1 then
    ∀ ckpt, restored slot q past.1 = some ckpt →
      let p := slot.cacheTokens.sizeUpToPos (restoredPos q past.1 ckpt)
      let k := slot.promptTokens.sizeUpToPos (min past.2 (ckpt.posMaxPrompt + 1))
      (V.visible (cache.take p)).length = (V.visible (prompt.take k)).length ∧ k < prompt.length
  else if exact then
    (V.visible (cache.take past.1.toNat)).length = (V.visible (prompt.take past.2.toNat)).length
  else
    r.2 = prompt.length →
      (V.visible cache[r.1 - 1]?.toList).length = (V.visible prompt.getLast?.toList).length

variable {slot : Slot} {r : ℕ × ℕ}

/-- Matched is the common prefix, or nothing. -/
theorem matchPrompt_cases {V : Vocab} {exact : Bool} (q : Answers)
    (hr : getCommonPrefix V slot.cacheTokens slot.promptTokens exact = .ok r) :
    matchPrompt V exact slot q = .ok (0, 0) ∨ matchPrompt V exact slot q = .ok r := by
  unfold matchPrompt
  split
  case isTrue => exact .inl rfl
  case isFalse =>
    rw [hr]
    simp only
    split
    case isTrue => exact .inl rfl
    case isFalse =>
      split
      case isTrue => exact .inl rfl
      case isFalse => exact .inr rfl

theorem matchPrompt_text (V : Vocab) (exact : Bool) (q : Answers)
    (hcache : slot.cacheTokens.WellFormed) (htext : slot.promptTokens.IsText) :
    ∃ r, matchPrompt V exact slot q = .ok r ∧
      Matched V slot.cacheTokens.tokens slot.promptTokens.tokens exact r ∧
      .null ∉ slot.cacheTokens.tokens.take r.1 := by
  obtain ⟨r, hr, hm, hnull⟩ := getCommonPrefix_text V htext exact hcache
  rcases matchPrompt_cases q hr with h | h
  · exact ⟨(0, 0), h, .zero V _ _ exact, by simp⟩
  · exact ⟨r, h, hm, hnull⟩

/-- What is left of a match: both lengths, or both less one. -/
theorem leaveToken_cases {V : Vocab} {a b : List Token} {exact : Bool}
    (hm : Matched V a b exact r) (hb : b ≠ []) :
    ∃ n m : ℕ, leaveToken b.length r.1 r.2 = ((n : ℤ), (m : ℤ)) ∧ n ≤ r.1 ∧ m ≤ r.2 ∧ m < b.length ∧
      ((r.2 ≠ b.length ∧ n = r.1 ∧ m = r.2) ∨ (r.2 = b.length ∧ n + 1 = r.1 ∧ m + 1 = r.2)) := by
  have hpos := length_pos_iff.mpr hb
  have hzero := hm.zero_iff
  have hle := hm.snd_le
  unfold leaveToken
  split
  case isTrue h => exact ⟨r.1 - 1, r.2 - 1, by ext <;> simp <;> omega, by omega, by omega,
    by omega, .inr (by omega)⟩
  case isFalse h => exact ⟨r.1, r.2, rfl, le_refl _, le_refl _, by omega, .inl (by omega)⟩

/-- A token less on each side is the same text less where the two tokens are as long. -/
theorem length_visible_dropLast {V : Vocab} {a b : List Token} {n m : ℕ}
    (hsame : V.visible (a.take (n + 1)) = V.visible (b.take (m + 1))) (hlast : m + 1 = b.length) :
    (V.visible (a.take n)).length = (V.visible (b.take m)).length ↔
      (V.visible a[n]?.toList).length = (V.visible b.getLast?.toList).length := by
  have hlen := congrArg length hsame
  rw [take_add_one, take_add_one, V.visible_append, V.visible_append,
    length_append, length_append] at hlen
  have hb : b.getLast? = b[m]? := by rw [getLast?_eq_getElem?, ← hlast, Nat.add_sub_cancel]
  rw [hb]
  omega

/-- The three ways out of `apply_checkpoint`. -/
theorem applyCheckpoint_text (q : Answers) (hcache : slot.cacheTokens.WellFormed)
    (hprompt : slot.promptTokens.WellFormed) (htext : slot.promptTokens.IsText) {n m : ℕ}
    (hn : n ≤ slot.cacheTokens.size) (hnull : .null ∉ slot.cacheTokens.tokens.take n)
    (hm : m ≤ slot.promptTokens.size) :
    ∃ reuse, applyCheckpoint slot q n m = .ok reuse ∧ if needsCheckpoint slot q n n then
        match restored slot q n with
        | some ckpt =>
          reuse.nPast = slot.cacheTokens.sizeUpToPos (restoredPos q n ckpt) ∧
          reuse.nPastPrompt = slot.promptTokens.sizeUpToPos (min m (ckpt.posMaxPrompt + 1)) ∧
          reuse.cacheTokens = slot.cacheTokens
        | none => reuse.nPast = 0 ∧ reuse.nPastPrompt = 0 ∧ reuse.cacheTokens.tokens = []
      else reuse.nPast = n ∧ reuse.nPastPrompt = m ∧ reuse.cacheTokens = slot.cacheTokens := by
  have hpos := posNext_text hcache hn hnull
  have hposm := posNext_text hprompt hm fun h => htext (mem_of_mem_take h)
  obtain ⟨T, hT, htake⟩ := keepFirst_text hcache (zero_le _) (by simp)
  unfold applyCheckpoint
  rw [hpos]
  by_cases hneeds : needsCheckpoint slot q n n
  case neg =>
    refine ⟨_, by simp only [bind, Except.bind, hneeds]; rfl, ?_⟩
    rw [if_neg hneeds]
    exact ⟨rfl, rfl, rfl⟩
  case pos =>
    cases hrest : restored slot q n with
    | some ckpt =>
      refine ⟨_, by simp only [bind, Except.bind, hneeds, hrest, hposm, if_true]; rfl, ?_⟩
      rw [if_pos hneeds]
      exact ⟨rfl, rfl, rfl⟩
    | none =>
      refine ⟨_, by simp only [bind, Except.bind, hneeds, hrest, hT, if_true]; rfl, ?_⟩
      rw [if_pos hneeds]
      exact ⟨rfl, rfl, htake⟩

theorem keepsText_iff (V : Vocab) {reuse : Reuse} {p k : ℕ}
    (htext : slot.promptTokens.IsText) (hnull : .null ∉ slot.cacheTokens.tokens.take p)
    (htokens : reuse.cacheTokens.tokens = slot.cacheTokens.tokens.take p)
    (hp : reuse.nPast = p) (hk : reuse.nPastPrompt = k) :
    KeepsText V slot reuse ↔
      V.visible (slot.cacheTokens.tokens.take p) = V.visible (slot.promptTokens.tokens.take k) ∧
      k < slot.promptTokens.tokens.length := by
  have hfirst : (reuse.cacheTokens.first p).tokens = slot.cacheTokens.tokens.take p := by
    rw [first, htokens, take_take, min_self]
  unfold KeepsText
  rw [hp, hk, Int.toNat_natCast, Int.toNat_natCast, Int.ofNat_lt,
    detokenize_text V (by rwa [IsText, hfirst]),
    detokenize_text V fun h => htext (mem_of_mem_take h), hfirst]
  rfl

/-- What `startBatching` ends with once the lengths are found. -/
theorem startBatching_of {V : Vocab} {exact : Bool} {q : Answers}
    {n m : ℕ} {reuse : Reuse} {p : ℕ} {T : ServerTokens}
    (hr : matchPrompt V exact slot q = .ok r)
    (hpast : leaveToken slot.promptTokens.size r.1 r.2 = ((n : ℤ), (m : ℤ)))
    (happly : applyCheckpoint slot q n m = .ok reuse) (hp : reuse.nPast = p)
    (hT : reuse.cacheTokens.keepFirst p = .ok T) :
    startBatching V exact slot q = .ok (if q.trims then { reuse with cacheTokens := T } else {
      nPast := 0
      nPastPrompt := 0
      cacheTokens := { T with tokens := [] }
      checkpoints := [] }) := by
  obtain ⟨nPast, nPastPrompt, cacheTokens, checkpoints⟩ := reuse
  obtain rfl : nPast = p := hp
  have hnneg : ¬(p : ℤ) < 0 := by omega
  unfold startBatching
  rw [hr]
  simp only [bind, Except.bind, hpast, happly, hnneg, if_false, Int.toNat_natCast, hT]
  split <;> rfl

/-- A checkpoint leaves no more of the cache than was matched. -/
theorem restoredPos_le {q : Answers} {n : ℕ} (hn : 0 < n) (ckpt : Checkpoint) :
    ∃ p : ℕ, restoredPos q n ckpt = p ∧ p ≤ n := by
  have hmin := ckpt.posMin_nonneg
  have hle := ckpt.posMin_le
  refine ⟨(restoredPos q n ckpt).toNat, ?_, ?_⟩
  · unfold restoredPos
    split <;> omega
  · unfold restoredPos
    split <;> omega

/-- The prompt is cut no later than the match, unless the position is negative. -/
theorem sizeUpToPos_prompt {T : ServerTokens} (hT : T.WellFormed) (htext : T.IsText) {m : ℕ}
    (hm : m ≤ T.size) (pos : ℤ) :
    T.sizeUpToPos (min m pos) ≤ m ∨ T.sizeUpToPos (min m pos) = T.size := by
  by_cases hpos : 0 ≤ pos
  case pos =>
    obtain ⟨k, rfl⟩ := Int.eq_ofNat_of_zero_le hpos
    have hmin : min (m : ℤ) k = (min m k : ℕ) := by omega
    rw [hmin, sizeUpToPos_text hT hm (fun h => htext (mem_of_mem_take h))
      (min_le_left m k)]
    exact .inl (min_le_left m k)
  case neg =>
    have hneg : min (m : ℤ) pos < 0 := by omega
    unfold sizeUpToPos
    cases hmtmd : T.hasMtmd with
    | false => exact .inr (by simp [hneg])
    | true => exact .inl (by simp [Int.le_of_lt hneg])

/-- Where the lengths end up, and that they are even there or not. -/
theorem applyCheckpoint_even {V : Vocab} {exact : Bool} {q : Answers}
    {n m : ℕ} (hcache : slot.cacheTokens.WellFormed) (hprompt : slot.promptTokens.WellFormed)
    (htext : slot.promptTokens.IsText)
    (hmatch : Matched V slot.cacheTokens.tokens slot.promptTokens.tokens exact r)
    (hpast : leaveToken slot.promptTokens.size r.1 r.2 = ((n : ℤ), (m : ℤ)))
    (hn : n ≤ r.1) (hm : m ≤ r.2) (hlt : m < slot.promptTokens.size)
    (hleft : (r.2 ≠ slot.promptTokens.size ∧ n = r.1 ∧ m = r.2) ∨
      (r.2 = slot.promptTokens.size ∧ n + 1 = r.1 ∧ m + 1 = r.2))
    (hnull : ∀ p ≤ n, .null ∉ slot.cacheTokens.tokens.take p) :
    ∃ reuse p k T, applyCheckpoint slot q n m = .ok reuse ∧ reuse.nPast = (p : ℕ) ∧
      reuse.nPastPrompt = (k : ℕ) ∧ reuse.cacheTokens.keepFirst p = .ok T ∧
      T.tokens = slot.cacheTokens.tokens.take p ∧ p ≤ n ∧
      ((V.visible (slot.cacheTokens.tokens.take p) =
          V.visible (slot.promptTokens.tokens.take k) ∧ k < slot.promptTokens.tokens.length) ↔
        EvenCut V exact slot q r) := by
  have hnsize : n ≤ slot.cacheTokens.size := Nat.le_trans hn hmatch.fst_le
  obtain ⟨reuse, happly, hcases⟩ := applyCheckpoint_text q hcache hprompt htext hnsize
    (hnull n (Nat.le_refl n)) (Nat.le_of_lt hlt)
  unfold EvenCut
  simp only [hpast]
  by_cases hneeds : needsCheckpoint slot q n n
  case neg =>
    simp only [hneeds, if_false, Bool.false_eq_true] at hcases ⊢
    obtain ⟨hp, hk, hT⟩ := hcases
    obtain ⟨T, hkeep, htokens⟩ := keepFirst_text hcache hnsize (hnull n (Nat.le_refl n))
    refine ⟨reuse, n, m, T, happly, hp, hk, hT ▸ hkeep, htokens, Nat.le_refl n, ?_⟩
    rw [and_iff_left hlt, hmatch.same_iff hn hm]
    cases exact with
    | true => simp
    | false =>
      simp only [Bool.false_eq_true, if_false]
      rcases hleft with ⟨hsize, rfl, rfl⟩ | ⟨hsize, hr1, hr2⟩
      · -- nothing is left out of a match that is not the whole prompt
        rw [hmatch.same rfl]
        exact ⟨fun _ h => absurd h hsize, fun _ => rfl⟩
      · have hsame := hmatch.same rfl
        rw [← hr1, ← hr2] at hsame
        rw [length_visible_dropLast hsame (hr2.trans hsize), ← hr1, Nat.add_sub_cancel]
        exact ⟨fun h _ => h, fun h => h hsize⟩
  case pos =>
    simp only [hneeds, if_true] at hcases ⊢
    cases hrest : restored slot q n with
    | none =>
      rw [hrest] at hcases
      obtain ⟨hp, hk, hT⟩ := hcases
      obtain ⟨T, hkeep, htokens⟩ := keepFirst_nil hT
      refine ⟨reuse, 0, 0, T, happly, hp, hk, hkeep, htokens, Nat.zero_le n, ?_⟩
      simpa using Nat.zero_lt_of_lt hlt
    | some ckpt =>
      rw [hrest] at hcases
      obtain ⟨hp, hk, hT⟩ := hcases
      have hnpos : 0 < n := by
        unfold needsCheckpoint at hneeds
        have := (of_decide_eq_true hneeds).1
        omega
      obtain ⟨p, hrp, hpn⟩ := restoredPos_le (q := q) hnpos ckpt
      have hpsize := Nat.le_trans hpn hnsize
      obtain ⟨T, hkeep, htokens⟩ := keepFirst_text hcache hpsize (hnull p hpn)
      rw [hrp, sizeUpToPos_text hcache hpsize (hnull p hpn) (Nat.le_refl p)] at hp
      refine ⟨reuse, p, _, T, happly, hp, hk, hT ▸ hkeep, htokens, hpn, ?_⟩
      have hcut := sizeUpToPos_prompt hprompt htext (Nat.le_of_lt hlt) (ckpt.posMaxPrompt + 1)
      simp only [Option.some.injEq, forall_eq', hrp,
        sizeUpToPos_text hcache hpsize (hnull p hpn) (Nat.le_refl p)]
      refine and_congr_left fun hk => hmatch.same_iff (Nat.le_trans hpn hn) ?_
      rcases hcut with hcut | hcut
      · exact Nat.le_trans hcut hm
      · exact absurd hcut (Nat.ne_of_lt hk)

/-- Batching starts without an exception, and the kept text is that of the prompt if and only
if the cache is not trimmed or both lengths leave out as much of it. -/
theorem sameText_iff (V : Vocab) (exact : Bool) (slot : Slot) (q : Answers)
    (hcache : slot.cacheTokens.WellFormed) (hprompt : slot.promptTokens.WellFormed)
    (htext : slot.promptTokens.IsText) (hne : slot.promptTokens.tokens ≠ []) :
    ∃ r reuse, matchPrompt V exact slot q = .ok r ∧ startBatching V exact slot q = .ok reuse ∧
      (KeepsText V slot reuse ↔ (q.trims → EvenCut V exact slot q r)) := by
  obtain ⟨r, hr, hmatch, hnull⟩ := matchPrompt_text V exact q hcache htext
  obtain ⟨n, m, hpast, hn, hm, hlt, hleft⟩ := leaveToken_cases hmatch hne
  have hnulln : ∀ p ≤ n, .null ∉ slot.cacheTokens.tokens.take p := fun p hp h =>
    hnull ((take_prefix_take_left (le_trans hp hn)).subset h)
  obtain ⟨reuse, p, k, T, happly, hp, hk, hkeep, htokens, hpn, heven⟩ := applyCheckpoint_even
    hcache hprompt htext hmatch hpast hn hm hlt hleft hnulln
  refine ⟨r, _, hr, startBatching_of hr hpast happly hp hkeep, ?_⟩
  cases q.trims with
  | true =>
    have hkeeps : KeepsText V slot { reuse with cacheTokens := T } ↔ _ :=
      keepsText_iff V htext (hnulln p hpn) htokens hp hk
    exact hkeeps.trans (heven.trans (by simp))
  | false =>
    refine (keepsText_iff V (p := 0) (k := 0) htext (by simp) rfl rfl rfl).trans ?_
    simpa using length_pos_iff.mpr hne

/-! ## Two spellings of one text -/

/-- The pieces "a", "bc", "ab", "c" and "x". -/
def spelling : Vocab where
  piece
    | 0 => [97]
    | 1 => [98, 99]
    | 2 => [97, 98]
    | 3 => [99]
    | 4 => [120]
    | _ => []
  addSpacePrefix := false
  cleanSpaces := false

/-- The cache holds "x|ab|c" and the prompt is "x|a|bc". -/
def respelled : Slot where
  cacheTokens := { hasMtmd := false, tokens := [4, 2, 3], media := [] }
  promptTokens := { hasMtmd := false, tokens := [4, 0, 1], media := [] }
  checkpoints := []
  cachePrompt := true
  embedding := false

/-- A model and a cache that keep everything. -/
def keepAll : Answers where
  supportsPartialKvReuse := true
  requiresFreshWarmup := false
  isDsv4 := false
  isOpenpangu := false
  kvPosMin := 0
  rewinds := true
  restores := true
  trims := true

theorem wellFormed_of_text {tokens : List Token} (h : Token.null ∉ tokens) :
    ServerTokens.WellFormed { hasMtmd := false, tokens, media := [] } where
  media_of_hasMtmd _ := rfl
  null_of_chunk hc := by simp [chunk?] at hc
  chunk_of_null hi := absurd (mem_of_getElem? hi) h

theorem sameText_iff_respelled : ∃ r reuse, matchPrompt spelling false respelled keepAll = .ok r ∧
      startBatching spelling false respelled keepAll = .ok reuse ∧
      (KeepsText spelling respelled reuse ↔
        (keepAll.trims → EvenCut spelling false respelled keepAll r)) :=
  sameText_iff spelling false respelled keepAll (wellFormed_of_text (by decide))
    (wellFormed_of_text (by decide)) (by unfold IsText; decide) (by decide)

theorem matchPrompt_respelled : matchPrompt spelling false respelled keepAll = .ok (3, 3) := by
  simp [matchPrompt, respelled, keepAll, getCommonPrefix, getCommonPrefixExact, commonTokens,
    findCommonTextTokenPrefix, Vocab.detokenize, Vocab.joinPieces, spelling,
    findCommonStringPrefix, findNTokensFromStringWithIgnore, tokenEnds, removeIgnored, ignored,
    findLargestCommonNumber, largestCommonNumber, prefixAdd]

/-- Left of the two are "xab" and "xa". -/
theorem not_keepsText : ¬∀ (V : Vocab) (exact : Bool) (slot : Slot) (q : Answers),
      slot.cacheTokens.WellFormed → slot.promptTokens.WellFormed → slot.promptTokens.IsText →
      slot.promptTokens.tokens ≠ [] →
      ∃ reuse, startBatching V exact slot q = .ok reuse ∧ KeepsText V slot reuse := by
  intro hall
  obtain ⟨reuse, hstart, hkeeps⟩ := hall spelling false respelled keepAll
    (wellFormed_of_text (by decide)) (wellFormed_of_text (by decide))
    (by unfold IsText; decide) (by decide)
  rw [startBatching, matchPrompt_respelled] at hstart
  cases hstart
  exact absurd hkeeps.1 (by decide)

end ExpertPin.Server
