import ExpertPin.Lib.Returns
import ExpertPin.Server.PromptCache

/-!
# Cutting an oversized prompt

A prompt that does not fit the context loses tokens behind the ones that are to be kept, a block
at a time, after what earlier shifts have discarded already.  Nothing is discarded where the block
is empty, and where all that is to be discarded does not end before the last token:
`contextShiftPrompt_fits_iff` says when the rest of the prompt fits.

The numbers are those of a C program that does not overflow.
-/

namespace ExpertPin.Server

open ServerTokens (Failure)
open List

namespace ServerTokens

def isNull (t : Token) : Bool := t = .null

/-- `adjust_n_to_support_context_shift`: what is kept ends before empty tokens, and what is
discarded after them. -/
def adjustNToSupportContextShift (T : ServerTokens) (nKeep nDiscard : ℤ) : ℤ × ℤ :=
  if T.hasMtmd then
    let keep :=
      if 0 < nKeep ∧ nKeep ≤ T.size then
        nKeep - ((T.tokens.take nKeep.toNat).reverse.takeWhile isNull).length
      else nKeep
    let discard :=
      if 0 < nDiscard + keep ∧ nDiscard + keep ≤ T.size then
        nDiscard + ((T.tokens.drop (nDiscard + keep - 1).toNat).takeWhile isNull).length
      else nDiscard
    (keep, discard)
  else (nKeep, nDiscard)

/-- `tokens_support_context_shift` -/
def supportContextShift (T : ServerTokens) (nKeep nDiscard : ℤ) : Bool :=
  T.hasMtmd → (0 < nKeep ∧ nKeep ≤ T.size → T.tokens[(nKeep - 1).toNat]? ≠ some .null) ∧
    (0 < nDiscard + nKeep ∧ nDiscard + nKeep ≤ T.size →
      T.tokens[(nDiscard + nKeep - 1).toNat]? ≠ some .null)

/-- `get_common_prefix_first_n` -/
def getCommonPrefixFirstN (V : Vocab) (T b : ServerTokens) (n : ℤ) (exact : Bool) :
    Except Failure (ℕ × ℕ) := do
  let a ← T.keepFirst (min n.toNat T.size)
  a.getCommonPrefix V b exact

/-- `context_shift_find_n_tokens`: what the cache keeps and discards for the same text. -/
def contextShiftFindNTokens (V : Vocab) (a b : ServerTokens) (nKeep nDiscard : ℤ) (exact : Bool) :
    Except Failure (ℤ × ℤ) := do
  let keepPrefix ← a.getCommonPrefixFirstN V b nKeep exact
  let totalDiscardPrefix ← a.getCommonPrefixFirstN V b (nDiscard + nKeep) exact
  let discardOffset : ℤ := totalDiscardPrefix.1 - (nDiscard + nKeep)
  let keepOffset : ℤ := keepPrefix.1 - nKeep
  let nKept := keepPrefix.2 - keepOffset
  let nDiscarded := totalDiscardPrefix.2 - keepPrefix.2 - discardOffset
  return (if nKept < 0 then nKeep else nKept, if nDiscarded < 0 then nDiscard else nDiscarded)

end ServerTokens

open ServerTokens

/-- What the shift reads of a slot and of its request. -/
structure ShiftSlot where
  nCtx : ℤ
  promptTokens : ServerTokens
  nPromptTokens : ℤ
  nDiscardedPrompt : ℤ
  nKeptPrompt : ℤ
  cacheTokens : ServerTokens
  nPast : ℤ
  /-- `params.cache_prompt` -/
  cachePrompt : Bool
  /-- `params.n_keep` -/
  nKeep : ℤ
  /-- `params.n_discard` -/
  nDiscard : ℤ

/-- The positions that are removed from the cells of the slot, and those that are moved. -/
structure CellShift where
  rm : ℤ × ℤ
  add : ℤ × ℤ × ℤ
deriving DecidableEq

/-- The loop of `context_shift_prompt`: what is discarded of the prompt in all, and what of it is
new. -/
def discardBlocks (nPromptTokens nCtx nDiscard discarded new : ℤ) : ℤ × ℤ :=
  if 0 < nDiscard ∧ nPromptTokens - discarded ≥ nCtx then
    discardBlocks nPromptTokens nCtx nDiscard (discarded + nDiscard) (new + nDiscard)
  else (discarded, new)
termination_by (nPromptTokens - discarded - nCtx + 1).toNat

namespace ShiftSlot

/-- `discard_n_kv_and_cache_tokens` -/
def discardNKvAndCacheTokens (slot : ShiftSlot) (nKeep nDiscard : ℤ) :
    Except Failure (ServerTokens × CellShift) := do
  let cache := slot.cacheTokens
  let kvKeep ← cache.posNext nKeep
  let kvEnd ← cache.posNext (nKeep + nDiscard)
  let kvDiscard := kvEnd - kvKeep
  let kvPast ← cache.posNext slot.nPast
  let rmFrom ← cache.posNext kvKeep
  let rmTo ← cache.posNext (kvKeep + kvDiscard)
  let shift : CellShift := ⟨(rmFrom, rmTo), (kvKeep + kvDiscard, kvPast, -kvDiscard)⟩
  if slot.cachePrompt then
    let cacheTokens ← cache.discardNTokens nKeep nDiscard
    return (cacheTokens, shift)
  else return (cache, shift)

/-- What the request asks to keep and to discard at once, moved off media. -/
def block (addBosToken : Bool) (slot : ShiftSlot) : ℤ × ℤ :=
  let nKeep := max 0 (slot.nKeep + addBosToken.toNat)
  let nLeft := slot.nCtx - nKeep
  slot.promptTokens.adjustNToSupportContextShift nKeep
    (if slot.nDiscard ≠ 0 then slot.nDiscard else nLeft.tdiv 2)

/-- What the cache keeps and discards for a prompt that is without what earlier shifts have
discarded. -/
def cacheAmounts (V : Vocab) (exact : Bool) (slot : ShiftSlot) (promptTokens : ServerTokens)
    (nKeep nDiscard nDiscardPrompt : ℤ) : Except Failure (ℤ × ℤ) :=
  if nDiscardPrompt > 0 then
    promptTokens.contextShiftFindNTokens V slot.cacheTokens nKeep nDiscard exact
  else .ok (nKeep, nDiscardPrompt)

/-- The part of `context_shift_prompt` that is about the cache. -/
def shiftCache (V : Vocab) (exact : Bool) (slot : ShiftSlot) (promptTokens : ServerTokens)
    (nKeep nDiscard nDiscardPrompt : ℤ) : Except Failure (ServerTokens × Option CellShift) := do
  let found ← slot.cacheAmounts V exact promptTokens nKeep nDiscard nDiscardPrompt
  let nDiscardCache := min found.2 (max (slot.cacheTokens.size - found.1) 0)
  if nDiscardCache > 0 then
    let r ← slot.discardNKvAndCacheTokens found.1 nDiscardCache
    return (r.1, some r.2)
  else return (slot.cacheTokens, none)

/-- `context_shift_prompt` -/
def contextShiftPrompt (V : Vocab) (exact addBosToken : Bool) (slot : ShiftSlot) :
    Except Failure (ShiftSlot × Option CellShift) :=
  let nKeep := (slot.block addBosToken).1
  let nDiscard := (slot.block addBosToken).2
  if nDiscard ≤ 0 ∨ ¬slot.promptTokens.supportContextShift nKeep nDiscard then .ok (slot, none)
  else do
    let discarded :=
      discardBlocks slot.nPromptTokens slot.nCtx nDiscard slot.nDiscardedPrompt 0
    let promptTokens ← slot.promptTokens.discardNTokens nKeep (discarded.1 - discarded.2)
    let cache ← slot.shiftCache V exact promptTokens nKeep nDiscard discarded.2
    let promptTokens ← promptTokens.discardNTokens nKeep discarded.2
    return ({ slot with
      cacheTokens := cache.1
      nDiscardedPrompt := discarded.1
      nKeptPrompt := nKeep
      promptTokens
      nPromptTokens := promptTokens.size }, cache.2)

end ShiftSlot

/-! ## What is left of the prompt -/

namespace ServerTokens

variable {T : ServerTokens} {n : ℕ} {nKeep nDiscard : ℤ}

/-- The run of empty tokens ends before another token. -/
theorem getElem?_takeWhile_isNull (tokens : List Token) :
    tokens[(tokens.takeWhile isNull).length]? ≠ some .null := by
  induction tokens with
  | nil => exact fun h => absurd h (by simp)
  | cons t tokens ih =>
    rw [takeWhile_cons]
    split
    case isTrue => exact ih
    case isFalse ht =>
      intro h
      rw [length_nil, getElem?_cons_zero, Option.some.injEq] at h
      exact ht (decide_eq_true h)

theorem adjusted_keep (tokens : List Token) {k : ℕ} (hk : k ≤ tokens.length)
    (hlt : ((tokens.take k).reverse.takeWhile isNull).length < k) :
    tokens[k - ((tokens.take k).reverse.takeWhile isNull).length - 1]? ≠ some .null := by
  have hlen : (tokens.take k).length = k := length_take_of_le hk
  have hne := getElem?_takeWhile_isNull (tokens.take k).reverse
  rw [getElem?_reverse (hlen.symm ▸ hlt), hlen, Nat.sub_right_comm,
    getElem?_take_of_lt (by omega)] at hne
  exact hne

/-- What has been moved off media supports the shift. -/
theorem supportContextShift_adjust (T : ServerTokens) (nKeep nDiscard : ℤ) :
    T.supportContextShift (T.adjustNToSupportContextShift nKeep nDiscard).1
      (T.adjustNToSupportContextShift nKeep nDiscard).2 = true := by
  rw [supportContextShift, decide_eq_true_eq]
  intro hmtmd
  simp only [adjustNToSupportContextShift, if_pos hmtmd]
  generalize hkeep : (if 0 < nKeep ∧ nKeep ≤ T.size then
    nKeep - ((T.tokens.take nKeep.toNat).reverse.takeWhile isNull).length else nKeep) = keep
  refine ⟨fun hin => ?_, fun hin => ?_⟩
  · split at hkeep
    case isFalse hout => exact absurd (hkeep ▸ hin) hout
    case isTrue hin' =>
      obtain ⟨k, rfl⟩ := Int.eq_ofNat_of_zero_le (Int.le_of_lt hin'.1)
      rw [Int.toNat_natCast] at hkeep
      have hne := adjusted_keep T.tokens (k := k) (Int.ofNat_le.mp hin'.2) (by omega)
      have hidx : (keep - 1).toNat =
          k - ((T.tokens.take k).reverse.takeWhile isNull).length - 1 := by omega
      rwa [hidx]
  · by_cases hin' : 0 < nDiscard + keep ∧ nDiscard + keep ≤ T.size
    case neg =>
      rw [if_neg hin'] at hin
      exact absurd hin hin'
    case pos =>
      rw [if_pos hin']
      have hne := getElem?_takeWhile_isNull (T.tokens.drop (nDiscard + keep - 1).toNat)
      rw [getElem?_drop] at hne
      generalize ((T.tokens.drop (nDiscard + keep - 1).toNat).takeWhile isNull).length = m at hne
      have hidx : (nDiscard + m + keep - 1).toNat = (nDiscard + keep - 1).toNat + m := by omega
      rwa [hidx]

theorem keepFirst_tokens (T : ServerTokens) (n : ℕ) :
    Ensures (T.keepFirst n) fun T' => T'.tokens = T.tokens.take n := by
  rw [keepFirst]
  refine .ite (fun _ => .error _) fun _ => .ite (fun _ => .ite (fun hn => .ok ?_) fun _ =>
    .ite (fun _ => .error _) fun _ => .ok rfl) fun _ => .ok rfl
  rw [hn, size, take_length]

/-- What is left of a list of tokens after a part of it is discarded. -/
def discardedFrom (tokens : List Token) (nKeep nDiscard : ℤ) : List Token :=
  if 0 < nDiscard ∧ nKeep + nDiscard < tokens.length then
    tokens.take nKeep.toNat ++ tokens.drop (nKeep + nDiscard).toNat
  else tokens

theorem discardNTokens_tokens (T : ServerTokens) (nKeep nDiscard : ℤ) :
    Ensures (T.discardNTokens nKeep nDiscard) fun T' =>
      T'.tokens = discardedFrom T.tokens nKeep nDiscard := by
  rw [discardNTokens]
  refine .ite (fun hnone => .ok ?_) fun hsome => .ite (fun _ => .error _) fun _ => ?_
  · rw [discardedFrom, if_neg]
    rcases hnone with hle | hle
    · exact fun h => absurd h.1 (Int.not_lt.mpr hle)
    · exact fun h => absurd h.2 (Int.not_lt.mpr hle)
  · refine (keepFirst_tokens T nKeep.toNat).bind fun kept hkept => .pure ?_
    rw [not_or, Int.not_le, Int.not_le] at hsome
    rw [discardedFrom, if_pos hsome, hkept]

variable {tokens : List Token} {k d : ℤ}

theorem length_discardedFrom (hk : 0 ≤ k) : ((discardedFrom tokens k d).length : ℤ) =
      if 0 < d ∧ k + d < tokens.length then tokens.length - d else tokens.length := by
  rw [discardedFrom]
  split
  case isTrue h =>
    rw [length_append, length_take, length_drop]
    omega
  case isFalse => rfl

theorem discardedFrom_discardedFrom (tokens : List Token) (d e : ℤ) (hk : 0 ≤ k) : ∃ m n, m ≤ n ∧
      discardedFrom (discardedFrom tokens k d) k e = tokens.take m ++ tokens.drop n := by
  by_cases hd : 0 < d ∧ k + d < tokens.length
  case neg =>
    rw [discardedFrom.eq_1 tokens, if_neg hd, discardedFrom]
    split
    case isTrue he => exact ⟨_, _, by omega, rfl⟩
    case isFalse => exact ⟨0, 0, Nat.le_refl 0, rfl⟩
  case pos =>
    rw [discardedFrom.eq_1 tokens, if_pos hd, discardedFrom]
    split
    case isFalse => exact ⟨_, _, by omega, rfl⟩
    case isTrue he =>
      have hlen : (tokens.take k.toNat).length = k.toNat := length_take_of_le (by omega)
      refine ⟨k.toNat, (k + d).toNat + ((k + e).toNat - k.toNat), by omega, ?_⟩
      rw [take_left' hlen, drop_append, hlen, drop_drop,
        drop_eq_nil_of_le (by omega), nil_append]

theorem adjust_nonneg (T : ServerTokens) (hk : 0 ≤ k) (d : ℤ) :
    0 ≤ (T.adjustNToSupportContextShift k d).1 := by
  rw [adjustNToSupportContextShift]
  split
  case isFalse => exact hk
  case isTrue =>
    dsimp only
    split
    case isFalse => exact hk
    case isTrue =>
      have hle := (List.takeWhile_prefix isNull (l := (T.tokens.take k.toNat).reverse)).length_le
      rw [length_reverse, length_take] at hle
      omega

end ServerTokens

/-- As many blocks are discarded as it takes. -/
theorem discardBlocks_spec (nPromptTokens nCtx discarded new : ℤ) {nDiscard : ℤ}
    (hpos : 0 < nDiscard) :
    ∃ j : ℕ, discardBlocks nPromptTokens nCtx nDiscard discarded new =
        (discarded + j * nDiscard, new + j * nDiscard) ∧
      nPromptTokens - (discarded + j * nDiscard) < nCtx ∧
      ∀ i : ℕ, nPromptTokens - (discarded + i * nDiscard) < nCtx → j ≤ i := by
  have hstep : ∀ (x : ℤ) (i : ℕ), x + (i + 1 : ℕ) * nDiscard = x + nDiscard + i * nDiscard := by
    intro x i
    rw [Nat.cast_succ, add_mul, one_mul, add_assoc x, add_comm nDiscard]
  fun_induction discardBlocks nPromptTokens nCtx nDiscard discarded new with
  | case1 discarded new h ih =>
    obtain ⟨j, heq, hfits, hleast⟩ := ih
    refine ⟨j + 1, ?_, ?_, ?_⟩
    · rw [heq, hstep, hstep]
    · rwa [hstep]
    · intro i hi
      cases i with
      | zero =>
        rw [Nat.cast_zero, zero_mul, add_zero] at hi
        exact absurd hi (Int.not_lt.mpr h.2)
      | succ i =>
        rw [hstep] at hi
        exact Nat.succ_le_succ (hleast i hi)
  | case2 discarded new h =>
    have hfits : nPromptTokens - discarded < nCtx := Int.not_le.mp fun hle => h ⟨hpos, hle⟩
    refine ⟨0, ?_, ?_, fun _ _ => Nat.zero_le _⟩
    · rw [Nat.cast_zero, zero_mul, add_zero, add_zero]
    · rwa [Nat.cast_zero, zero_mul, add_zero]

/-- What a shift does to a prompt that it shifts: after what earlier shifts have discarded, some
blocks are. -/
theorem contextShiftPrompt_tokens (V : Vocab) (exact addBosToken : Bool) (slot : ShiftSlot) :
    Ensures (slot.contextShiftPrompt V exact addBosToken) fun r =>
      (slot.block addBosToken).2 ≤ 0 ∧ r.1 = slot ∨
      0 < (slot.block addBosToken).2 ∧ ∃ new : ℤ,
        discardBlocks slot.nPromptTokens slot.nCtx (slot.block addBosToken).2
          slot.nDiscardedPrompt 0 = (slot.nDiscardedPrompt + new, new) ∧
        r.1.promptTokens.tokens =
          discardedFrom (discardedFrom slot.promptTokens.tokens (slot.block addBosToken).1
            slot.nDiscardedPrompt) (slot.block addBosToken).1 new ∧
        r.1.nPromptTokens = r.1.promptTokens.size := by
  rw [ShiftSlot.contextShiftPrompt]
  refine .ite (fun hno => .ok (.inl ⟨?_, rfl⟩)) fun hyes => ?_
  · rcases hno with hno | hno
    · exact hno
    · exact absurd (supportContextShift_adjust _ _ _) hno
  · have hpos : 0 < (slot.block addBosToken).2 := Int.not_le.mp fun hle => hyes (.inl hle)
    obtain ⟨j, heq, -⟩ := discardBlocks_spec slot.nPromptTokens slot.nCtx slot.nDiscardedPrompt 0
      hpos
    rw [zero_add] at heq
    simp only [heq]
    refine (discardNTokens_tokens _ _ _).bind fun first hfirst => ?_
    refine (Ensures.trivial _).bind fun cache _ => ?_
    refine (discardNTokens_tokens _ _ _).bind fun left hleft => .pure (.inr ⟨hpos, _, rfl, ?_, rfl⟩)
    rw [hleft, hfirst, add_sub_cancel_right]

/-! ## When the rest fits -/

/-- The rest of the prompt fits, and is a beginning of the prompt with an end of it. -/
structure Fits (slot slot' : ShiftSlot) : Prop where
  lt : slot'.nPromptTokens < slot.nCtx
  cut : ∃ m n, m ≤ n ∧ slot'.promptTokens.tokens =
    slot.promptTokens.tokens.take m ++ slot.promptTokens.tokens.drop n
  size : slot'.nPromptTokens = slot'.promptTokens.size

/-- A number of blocks, with what has been discarded before, is more than the prompt has beyond the
context, and less than it has beyond what is kept. -/
def ShiftSlot.CanFit (addBosToken : Bool) (slot : ShiftSlot) : Prop :=
  0 < (slot.block addBosToken).2 ∧ ∃ j : ℕ,
    slot.nPromptTokens - slot.nCtx < slot.nDiscardedPrompt + j * (slot.block addBosToken).2 ∧
    slot.nDiscardedPrompt + j * (slot.block addBosToken).2 <
      slot.nPromptTokens - (slot.block addBosToken).1

theorem ShiftSlot.block_nonneg (addBosToken : Bool) (slot : ShiftSlot) :
    0 ≤ (slot.block addBosToken).1 := by
  have hkeep : 0 ≤ max 0 (slot.nKeep + addBosToken.toNat) := by omega
  exact adjust_nonneg _ hkeep _

/-- What is left after two discards of which the first one is due to earlier shifts. -/
theorem length_left_lt_iff {tokens : List Token} {keep nDiscard nCtx discarded : ℤ}
    (hkeep : 0 ≤ keep) (hpos : 0 < nDiscard) (hdiscarded : 0 ≤ discarded)
    (hbig : nCtx ≤ tokens.length) {j : ℕ}
    (hfits : tokens.length - (discarded + j * nDiscard) < nCtx)
    (hleast : ∀ i : ℕ, tokens.length - (discarded + i * nDiscard) < nCtx → j ≤ i) :
    ((discardedFrom (discardedFrom tokens keep discarded) keep (j * nDiscard)).length : ℤ) < nCtx ↔
      discarded + j * nDiscard < tokens.length - keep := by
  have hnew : 0 ≤ j * nDiscard := Int.mul_nonneg (Int.natCast_nonneg j) (Int.le_of_lt hpos)
  -- nothing is discarded anew only where earlier shifts have discarded enough
  have hzero : tokens.length - discarded < nCtx ↔ j * nDiscard = 0 := by
    constructor
    · intro h
      have hj : j = 0 := Nat.le_zero.mp (hleast 0 (by rwa [Nat.cast_zero, zero_mul, add_zero]))
      rw [hj, Nat.cast_zero, zero_mul]
    · intro h
      rwa [h, add_zero] at hfits
  rw [length_discardedFrom hkeep, length_discardedFrom hkeep]
  generalize (j : ℤ) * nDiscard = new at hfits hnew hzero
  split <;> split <;> omega

/-- The least number of blocks will do, if any does. -/
theorem canFit_iff {addBosToken : Bool} {slot : ShiftSlot} {j : ℕ}
    (hpos : 0 < (slot.block addBosToken).2)
    (hfits : slot.nPromptTokens - (slot.nDiscardedPrompt + j * (slot.block addBosToken).2) <
      slot.nCtx)
    (hleast : ∀ i : ℕ, slot.nPromptTokens -
      (slot.nDiscardedPrompt + i * (slot.block addBosToken).2) < slot.nCtx → j ≤ i) :
    slot.CanFit addBosToken ↔ slot.nDiscardedPrompt + j * (slot.block addBosToken).2 <
      slot.nPromptTokens - (slot.block addBosToken).1 := by
  constructor
  · rintro ⟨-, i, hlo, hhi⟩
    have hmul : j * (slot.block addBosToken).2 ≤ i * (slot.block addBosToken).2 :=
      Int.mul_le_mul_of_nonneg_right (Int.ofNat_le.mpr (hleast i (by omega))) (Int.le_of_lt hpos)
    omega
  · exact fun hhi => ⟨hpos, j, by omega, hhi⟩

/-! ## Text -/

namespace ServerTokens

/-- A list that has never been for media. -/
structure IsPlain (T : ServerTokens) : Prop where
  hasMtmd : T.hasMtmd = false
  wellFormed : T.WellFormed

variable {T b : ServerTokens} {tokens : List Token}

theorem IsPlain.with_tokens (h : T.IsPlain) (htext : Token.null ∉ tokens) :
    IsPlain { T with tokens } where
  hasMtmd := h.hasMtmd
  wellFormed := {
    media_of_hasMtmd := h.wellFormed.media_of_hasMtmd
    null_of_chunk := by
      intro idx c hc
      rw [chunk?, h.wellFormed.media_of_hasMtmd h.hasMtmd] at hc
      cases hc
    chunk_of_null := fun hi => absurd (mem_of_getElem? hi) htext }

theorem IsPlain.keepFirst (h : T.IsPlain) {n : ℕ} (hn : n ≤ T.size) :
    Returns (T.keepFirst n) fun T' => T' = { T with tokens := T.tokens.take n } := by
  rw [ServerTokens.keepFirst, if_neg (Nat.not_lt.mpr hn), if_neg (Bool.eq_false_iff.mp h.hasMtmd)]
  exact .ok rfl

theorem IsPlain.take (h : T.IsPlain) (n : ℕ) : IsPlain { T with tokens := T.tokens.take n } :=
  h.with_tokens fun hmem => h.wellFormed.isText h.hasMtmd (mem_of_mem_take hmem)

theorem IsPlain.discardNTokens (h : T.IsPlain) {k : ℤ} (hk : 0 ≤ k) (d : ℤ) :
    Returns (T.discardNTokens k d) IsPlain := by
  rw [ServerTokens.discardNTokens]
  refine .ite (fun _ => .ok h) fun hin => ?_
  rw [if_neg (Int.not_lt.mpr hk)]
  refine (h.keepFirst (n := k.toNat) (by omega)).bind fun kept hkept => .pure ?_
  have htext := h.wellFormed.isText h.hasMtmd
  rw [hkept, h.wellFormed.media_of_hasMtmd h.hasMtmd, filter_nil, map_nil,
    append_nil, ← h.wellFormed.media_of_hasMtmd h.hasMtmd]
  refine h.with_tokens fun hmem => ?_
  rcases mem_append.mp hmem with hmem | hmem
  · exact htext (mem_of_mem_take hmem)
  · exact htext (mem_of_mem_drop hmem)

theorem IsPlain.getCommonPrefixFirstN (h : T.IsPlain) (hb : b.IsPlain) (V : Vocab) (n : ℤ)
    (exact : Bool) : Returns (T.getCommonPrefixFirstN V b n exact) fun _ => True := by
  rw [ServerTokens.getCommonPrefixFirstN]
  refine (h.keepFirst (Nat.min_le_right _ _)).bind fun a ha => ?_
  obtain ⟨r, hr, -⟩ := getCommonPrefix_text V (a := a) (hb.wellFormed.isText hb.hasMtmd) exact
    (ha ▸ (h.take _).wellFormed)
  exact ⟨r, hr, trivial⟩

theorem IsPlain.posNext (h : T.IsPlain) (n : ℤ) : Returns (T.posNext n) fun _ => True := by
  rw [ServerTokens.posNext, if_pos (Bool.eq_false_iff.mp h.hasMtmd)]
  exact .ok trivial

end ServerTokens

theorem contextShiftFindNTokens_returns (V : Vocab) (exact : Bool) {a b : ServerTokens}
    (ha : a.IsPlain) (hb : b.IsPlain) {nKeep nDiscard : ℤ} (hkeep : 0 ≤ nKeep) :
    Returns (a.contextShiftFindNTokens V b nKeep nDiscard exact) fun r => 0 ≤ r.1 := by
  rw [ServerTokens.contextShiftFindNTokens]
  refine (ha.getCommonPrefixFirstN hb V _ exact).bind fun _ _ => ?_
  refine (ha.getCommonPrefixFirstN hb V _ exact).bind fun _ _ => .pure ?_
  dsimp only
  split <;> omega

theorem discardNKvAndCacheTokens_returns {slot : ShiftSlot} (hcache : slot.cacheTokens.IsPlain)
    {nKeep nDiscard : ℤ} (hkeep : 0 ≤ nKeep) :
    Returns (slot.discardNKvAndCacheTokens nKeep nDiscard) fun _ => True := by
  rw [ShiftSlot.discardNKvAndCacheTokens]
  refine (hcache.posNext _).bind fun _ _ => (hcache.posNext _).bind fun _ _ =>
    (hcache.posNext _).bind fun _ _ => (hcache.posNext _).bind fun _ _ =>
    (hcache.posNext _).bind fun _ _ => ?_
  exact .ite (fun _ => (hcache.discardNTokens hkeep _).bind fun _ _ => .pure trivial)
    fun _ => .pure trivial

/-- Where there are no media, nothing fails. -/
theorem contextShiftPrompt_returns (V : Vocab) (exact addBosToken : Bool) {slot : ShiftSlot}
    (hprompt : slot.promptTokens.IsPlain) (hcache : slot.cacheTokens.IsPlain) :
    Returns (slot.contextShiftPrompt V exact addBosToken) fun _ => True := by
  have hkeep := slot.block_nonneg addBosToken
  rw [ShiftSlot.contextShiftPrompt]
  refine .ite (fun _ => .ok trivial) fun _ => ?_
  refine (hprompt.discardNTokens hkeep _).bind fun first hfirst => ?_
  refine Returns.bind (P := fun _ => True) ?_ fun cache _ => ?_
  · rw [ShiftSlot.shiftCache]
    have hamounts : Returns (slot.cacheAmounts V exact first (slot.block addBosToken).1
        (slot.block addBosToken).2 (discardBlocks slot.nPromptTokens slot.nCtx
          (slot.block addBosToken).2 slot.nDiscardedPrompt 0).2) fun r => 0 ≤ r.1 :=
      .ite (fun _ => contextShiftFindNTokens_returns V exact hfirst hcache hkeep) fun _ => .ok hkeep
    refine hamounts.bind fun found hfound => .ite (fun _ => ?_) fun _ => .pure trivial
    exact (discardNKvAndCacheTokens_returns hcache hfound).bind fun _ _ => .pure trivial
  · exact (hfirst.discardNTokens hkeep _).bind fun left _ => .pure trivial

theorem fits_iff_of_ok (V : Vocab) (exact addBosToken : Bool) (slot : ShiftSlot)
    (hsize : slot.nPromptTokens = slot.promptTokens.size)
    (hbig : slot.nCtx ≤ slot.nPromptTokens) (hdiscarded : 0 ≤ slot.nDiscardedPrompt)
    {r : ShiftSlot × Option CellShift}
    (h : slot.contextShiftPrompt V exact addBosToken = .ok r) :
    Fits slot r.1 ↔ slot.CanFit addBosToken := by
  rcases contextShiftPrompt_tokens V exact addBosToken slot r h with
    ⟨hle, hsame⟩ | ⟨hpos, new, hblocks, htokens, hnPrompt⟩
  · refine iff_of_false (fun hfits => ?_) fun hcan => absurd hcan.1 (Int.not_lt.mpr hle)
    have hlt := hfits.lt
    rw [hsame] at hlt
    exact absurd hbig (Int.not_le.mpr hlt)
  · obtain ⟨j, heq, hfits, hleast⟩ := discardBlocks_spec slot.nPromptTokens slot.nCtx
      slot.nDiscardedPrompt 0 hpos
    rw [hblocks, zero_add, Prod.mk.injEq] at heq
    obtain rfl := heq.2
    rw [canFit_iff hpos hfits hleast]
    rw [hsize] at hbig hfits hleast ⊢
    rw [← length_left_lt_iff (slot.block_nonneg addBosToken) hpos hdiscarded hbig hfits hleast]
    obtain ⟨m, n, hmn, hcut⟩ := discardedFrom_discardedFrom slot.promptTokens.tokens
      slot.nDiscardedPrompt (j * (slot.block addBosToken).2) (slot.block_nonneg addBosToken)
    constructor
    · intro hfit
      have hlt := hfit.lt
      rw [hnPrompt, ServerTokens.size, htokens] at hlt
      exact hlt
    · intro hlt
      refine ⟨?_, ⟨m, n, hmn, htokens.trans hcut⟩, hnPrompt⟩
      rw [hnPrompt, ServerTokens.size, htokens]
      exact hlt

/-- **When an oversized prompt is cut to fit**: where the shift returns, which it does without
media. -/
theorem contextShiftPrompt_fits_iff (V : Vocab) (exact addBosToken : Bool) (slot : ShiftSlot)
    (hsize : slot.nPromptTokens = slot.promptTokens.size)
    (hbig : slot.nCtx ≤ slot.nPromptTokens) (hdiscarded : 0 ≤ slot.nDiscardedPrompt) :
    (∀ r, slot.contextShiftPrompt V exact addBosToken = .ok r →
      (Fits slot r.1 ↔ slot.CanFit addBosToken)) ∧
    (slot.promptTokens.IsPlain → slot.cacheTokens.IsPlain →
      ∃ r, slot.contextShiftPrompt V exact addBosToken = .ok r) := by
  refine ⟨fun r => fits_iff_of_ok V exact addBosToken slot hsize hbig hdiscarded, ?_⟩
  intro hprompt hcache
  obtain ⟨r, hr, -⟩ := contextShiftPrompt_returns V exact addBosToken hprompt hcache
  exact ⟨r, hr⟩

/-- Five tokens for a context of four, of which a request asks to discard less than none. -/
def discardsNegative : ShiftSlot where
  nCtx := 4
  promptTokens := { hasMtmd := false, tokens := [5, 6, 7, 8, 9], media := [] }
  nPromptTokens := 5
  nDiscardedPrompt := 0
  nKeptPrompt := 0
  cacheTokens := { hasMtmd := false, tokens := [], media := [] }
  nPast := 0
  cachePrompt := true
  nKeep := 0
  nDiscard := -1

theorem contextShiftPrompt_fits_iff_negative :
    (∀ r, discardsNegative.contextShiftPrompt spelling true true = .ok r →
      (Fits discardsNegative r.1 ↔ discardsNegative.CanFit true)) ∧
    (discardsNegative.promptTokens.IsPlain → discardsNegative.cacheTokens.IsPlain →
      ∃ r, discardsNegative.contextShiftPrompt spelling true true = .ok r) :=
  contextShiftPrompt_fits_iff spelling true true discardsNegative (by decide) (by decide)
    (by decide)

/-- The prompt is left as it is, and the assertion after the shift fails. -/
theorem not_fits : ¬∀ (V : Vocab) (exact addBosToken : Bool) (slot : ShiftSlot),
      slot.nPromptTokens = slot.promptTokens.size → slot.nCtx ≤ slot.nPromptTokens →
      0 ≤ slot.nDiscardedPrompt →
      ∀ r, slot.contextShiftPrompt V exact addBosToken = .ok r → Fits slot r.1 := by
  intro hall
  have hfits := hall spelling true true discardsNegative (by decide) (by decide) (by decide)
    (discardsNegative, none) rfl
  exact absurd hfits.lt (by decide)

end ExpertPin.Server
