import Mathlib.Data.List.GetD
import Mathlib.Order.Interval.Finset.Nat
import ExpertPin.Draft.NgramCache
import ExpertPin.Lib.Occurrences

/-!
# What the n-gram cache counts

One update enters each n-gram that ends among the new tokens, with the token after it.  A
drafter that hands over only the tokens that are new loses the n-grams that begin before them,
so its cache counts the whole history only while nothing is added to the first one
(`tracks_iff`).
-/

namespace ExpertPin.Draft

open Occurrences (occurrences endings)
open List
open Nat

/-- A token of a vocabulary. -/
def Genuine (tokens : List Token) : Prop := tokenNull ∉ tokens

instance : DecidablePred Genuine := fun tokens => inferInstanceAs (Decidable (tokenNull ∉ tokens))

namespace NgramCache

variable {cache : NgramCache} {f : Ngram → Token → ℕ}

/-! ## Entering tokens -/

/-- The counts are so many, as far as a count can show. -/
def Tallies (cache : NgramCache) (f : Ngram → Token → ℕ) : Prop :=
  ∀ ngram token, cache.count ngram token = Int32.ofNat (f ngram token)

theorem tallies_empty : Tallies ∅ fun _ _ => 0 := by
  intro ngram token
  rw [count, AList.lookup_empty]
  rfl

/-- The part of an n-gram after one more token. -/
theorem lookup_insert_getD (part : NgramCachePart) (token token' : Token) (count : Int32) :
    ((part.insert token count).lookup token').getD 0 =
      if token = token' then count else (part.lookup token').getD 0 := by
  by_cases htoken : token = token'
  · cases htoken
    rw [AList.lookup_insert, if_pos rfl]
    rfl
  · rw [AList.lookup_insert_ne (Ne.symm htoken), if_neg htoken]

theorem count_insert_self (cache : NgramCache) (ngram : Ngram) (part : NgramCachePart)
    (token : Token) :
    count (cache.insert ngram part) ngram token = (part.lookup token).getD 0 := by
  rw [count, AList.lookup_insert]
  rfl

theorem count_add_self (cache : NgramCache) (ngram : Ngram) (token token' : Token) :
    (cache.add ngram token).count ngram token' =
      if token = token' then cache.count ngram token' + 1 else cache.count ngram token' := by
  unfold add
  cases hpart : cache.lookup ngram with
  | none =>
    have hzero : cache.count ngram token' = 0 := by
      rw [count, hpart]
      rfl
    show count (cache.insert ngram (AList.insert token 1 ∅)) ngram token' = _
    rw [count_insert_self, lookup_insert_getD, hzero]
    rfl
  | some part =>
    have hold : cache.count ngram token' = (part.lookup token').getD 0 := by
      rw [count, hpart]
      rfl
    rw [hold]
    cases hcount : part.lookup token with
    | none | some count =>
      simp only [hcount]
      rw [count_insert_self, lookup_insert_getD]
      split
      case isTrue htoken =>
        rw [← htoken, hcount]
        rfl
      case isFalse => rfl

theorem count_insert_of_ne {ngram ngram' : Ngram} (h : ngram' ≠ ngram) (part : NgramCachePart)
    (token : Token) : count (cache.insert ngram part) ngram' token = cache.count ngram' token := by
  rw [count, count, AList.lookup_insert_ne h]

theorem count_add_of_ne {ngram ngram' : Ngram} (h : ngram' ≠ ngram) (token token' : Token) :
    (cache.add ngram token).count ngram' token' = cache.count ngram' token' := by
  unfold add
  split
  · exact count_insert_of_ne h _ _
  · split
    · exact count_insert_of_ne h _ _
    · exact count_insert_of_ne h _ _

theorem Tallies.add (h : cache.Tallies f) (ngram : Ngram) (token : Token) :
    (cache.add ngram token).Tallies fun ngram' token' =>
      f ngram' token' + if ngram = ngram' ∧ token = token' then 1 else 0 := by
  intro ngram' token'
  dsimp only
  by_cases hngram : ngram = ngram'
  · cases hngram
    rw [count_add_self, h ngram token']
    by_cases htoken : token = token'
    · rw [if_pos htoken, if_pos ⟨rfl, htoken⟩, Int32.ofNat_add]
      rfl
    · rw [if_neg htoken, if_neg fun hboth => htoken hboth.2, add_zero]
  · rw [count_add_of_ne (Ne.symm hngram), if_neg fun hboth => hngram hboth.1, add_zero]
    exact h ngram' token'

/-- Tokens after n-grams, one after the other. -/
theorem Tallies.foldl {ι : Type} (h : cache.Tallies f) (ngram : ι → Ngram) (token : ι → Token)
    (is : List ι) :
    (is.foldl (fun cache i => cache.add (ngram i) (token i)) cache).Tallies fun ngram' token' =>
      f ngram' token' + is.countP fun i => ngram i = ngram' ∧ token i = token' := by
  induction is generalizing cache f with
  | nil => exact h
  | cons i is ih =>
    intro ngram' token'
    rw [foldl_cons, ih (h.add (ngram i) (token i)) ngram' token']
    refine congrArg Int32.ofNat ?_
    simp only [countP_cons, decide_eq_true_eq]
    rw [add_assoc, add_comm (ite _ _ _)]

/-! ## One update -/

/-- The new tokens after an n-gram of some size. -/
def newAfter (inp : List Token) (nnew : ℤ) (ngram : Ngram) (token : Token) (ngramSize : ℕ) : ℕ :=
  let iStart := (max (inp.length - nnew) ngramSize).toNat
  (List.range' iStart (inp.length - iStart)).countP fun i =>
    Ngram.make (inp.drop (i - ngramSize)) ngramSize = ngram ∧ inp.getD i tokenNull = token

theorem Tallies.updateSizes (h : cache.Tallies f) (inp : List Token) (nnew : ℤ) (sizes : List ℕ) :
    (sizes.foldl (updateSize inp nnew) cache).Tallies fun ngram token =>
      f ngram token + (sizes.map (newAfter inp nnew ngram token)).sum := by
  induction sizes generalizing cache f with
  | nil => exact h
  | cons size sizes ih =>
    intro ngram token
    have hsize := h.foldl (fun i => Ngram.make (inp.drop (i - size)) size)
      (fun i => inp.getD i tokenNull) (range' (max (inp.length - nnew) size).toNat
        (inp.length - (max (inp.length - nnew) size).toNat))
    dsimp only
    rw [foldl_cons, map_cons, sum_cons, ← add_assoc]
    exact ih hsize ngram token

/-- The new tokens after an n-gram of any size. -/
def added (inp : List Token) (nnew : ℤ) (ngram : Ngram) (token : Token) : ℕ :=
  ((List.range' ngramMin (ngramMax + 1 - ngramMin)).map (newAfter inp nnew ngram token)).sum

theorem Tallies.update (h : cache.Tallies f) (inp : List Token) (nnew : ℤ) :
    (cache.update ngramMin ngramMax inp nnew).Tallies fun ngram token =>
      f ngram token + added inp nnew ngram token :=
  h.updateSizes inp nnew _

/-! ## The n-grams of a text -/

variable {inp tokens : List Token} {nnew : ℤ} {token : Token}

theorem make_take (h : tokens.length ≤ inp.length) (hle : tokens.length ≤ ngramMax) :
    Ngram.make inp tokens.length = Ngram.make tokens tokens.length ↔ tokens <+: inp := by
  constructor
  · intro heq
    rw [prefix_iff_eq_take]
    refine ext_getElem (by rw [length_take, min_eq_left h]) fun i hi hi' => ?_
    have hi : i < inp.length := lt_of_lt_of_le hi h
    have hat := congrFun heq ⟨i, lt_of_lt_of_le ‹i < tokens.length› hle⟩
    simp only [Ngram.make, if_pos ‹i < tokens.length›] at hat
    rw [getElem_take, ← getD_eq_getElem tokens tokenNull,
      ← getD_eq_getElem inp tokenNull hi]
    exact hat.symm
  · rintro ⟨rest, rfl⟩
    funext i
    unfold Ngram.make
    by_cases hi : i.val < tokens.length
    · rw [if_pos hi, if_pos hi, getD_append _ _ _ _ hi]
    · rw [if_neg hi, if_neg hi]

/-- N-grams of different sizes are different. -/
theorem length_eq_of_make_eq {size : ℕ} (hinp : Genuine inp) (htokens : Genuine tokens)
    (hsize : size ≤ inp.length) (hmax : size ≤ ngramMax) (hle : tokens.length ≤ ngramMax)
    (h : Ngram.make inp size = Ngram.make tokens tokens.length) : size = tokens.length := by
  rcases lt_trichotomy size tokens.length with hlt | heq | hgt
  · have hat := congrFun h ⟨size, lt_of_lt_of_le hlt hle⟩
    simp only [Ngram.make, if_neg (lt_irrefl size), if_pos hlt] at hat
    rw [getD_eq_getElem _ _ hlt] at hat
    exact absurd (hat ▸ getElem_mem hlt) htokens
  · exact heq
  · have hat := congrFun h ⟨tokens.length, lt_of_lt_of_le hgt hmax⟩
    have hlt : tokens.length < inp.length := lt_of_lt_of_le hgt hsize
    simp only [Ngram.make, if_neg (lt_irrefl tokens.length), if_pos hgt] at hat
    rw [getD_eq_getElem _ _ hlt] at hat
    exact absurd (hat ▸ getElem_mem hlt) hinp

/-- A token after an n-gram at the end of a text ends an occurrence of both. -/
theorem after_iff {i : ℕ} (hle : tokens.length ≤ ngramMax) (hi : tokens.length ≤ i)
    (hlt : i < inp.length) :
    Ngram.make (inp.drop (i - tokens.length)) tokens.length = .make tokens tokens.length ∧
        inp.getD i tokenNull = token ↔
      tokens ++ [token] <+: inp.drop (i - tokens.length) := by
  have hlength : tokens.length ≤ (inp.drop (i - tokens.length)).length := by
    rw [length_drop]
    omega
  rw [make_take hlength hle, Occurrences.append_singleton_prefix_iff, getElem?_drop,
    Nat.sub_add_cancel hi, getElem?_eq_getElem hlt, getD_eq_getElem _ _ hlt,
    Option.some_inj]

/-- The new tokens after an n-gram are the ends of its occurrences. -/
theorem newAfter_self (hle : tokens.length ≤ ngramMax) :
    newAfter inp nnew (.make tokens tokens.length) token tokens.length =
      endings (inp.length - nnew).toNat (tokens ++ [token]) inp := by
  let iStart := (max (inp.length - nnew) tokens.length).toNat
  have hcard : newAfter inp nnew (.make tokens tokens.length) token tokens.length =
      ((Finset.Ico iStart inp.length).filter fun i =>
        Ngram.make (inp.drop (i - tokens.length)) tokens.length = .make tokens tokens.length ∧
          inp.getD i tokenNull = token).card := by
    rw [newAfter, countP_eq_length_filter]
    rfl
  rw [hcard, endings]
  refine Finset.card_bij' (fun i _ => i - tokens.length) (fun j _ => j + tokens.length) ?_ ?_ ?_ ?_
  · intro i hi
    obtain ⟨hmem, hafter⟩ := Finset.mem_filter.mp hi
    obtain ⟨hlo, hhi⟩ := Finset.mem_Ico.mp hmem
    have hi : tokens.length ≤ i := by omega
    refine Finset.mem_filter.mpr ⟨Finset.mem_range.mpr (by omega), ?_, ?_⟩
    · exact (after_iff hle hi hhi).mp hafter
    · rw [length_append, length_singleton]
      omega
  · intro j hj
    obtain ⟨hmem, hbegins, hlo⟩ := Finset.mem_filter.mp hj
    have hend := hbegins.length_le
    rw [length_append, length_singleton] at hlo hend
    rw [length_drop] at hend
    have hhi : j + tokens.length < inp.length := by omega
    refine Finset.mem_filter.mpr ⟨Finset.mem_Ico.mpr ⟨by omega, hhi⟩, ?_⟩
    refine (after_iff hle (Nat.le_add_left _ j) hhi).mpr ?_
    rwa [Nat.add_sub_cancel]
  · intro i hi
    obtain ⟨hlo, -⟩ := Finset.mem_Ico.mp (Finset.mem_filter.mp hi).1
    exact Nat.sub_add_cancel (by omega)
  · intro j _
    exact Nat.add_sub_cancel j _

theorem newAfter_of_ne {size : ℕ} (hinp : Genuine inp) (htokens : Genuine tokens)
    (hmax : size ≤ ngramMax) (hle : tokens.length ≤ ngramMax) (hne : size ≠ tokens.length) :
    newAfter inp nnew (.make tokens tokens.length) token size = 0 := by
  unfold newAfter
  rw [countP_eq_zero]
  intro i hi hboth
  obtain ⟨hlo, hhi⟩ := mem_range'_1.mp hi
  have hsize : size ≤ i := by omega
  have hi : i ≤ inp.length := by omega
  have hlength : size ≤ (inp.drop (i - size)).length := by
    rw [length_drop]
    omega
  have hdrop : Genuine (inp.drop (i - size)) := fun hmem => hinp (mem_of_mem_drop hmem)
  exact hne (length_eq_of_make_eq hdrop htokens hlength hmax hle (of_decide_eq_true hboth).1)

/-- Only the n-grams of its own size are those of a text. -/
theorem added_eq_endings (hinp : Genuine inp) (htokens : Genuine tokens)
    (hmin : ngramMin ≤ tokens.length) (hmax : tokens.length ≤ ngramMax) :
    added inp nnew (.make tokens tokens.length) token =
      endings (inp.length - nnew).toNat (tokens ++ [token]) inp := by
  have hmem : tokens.length ∈ range' ngramMin (ngramMax + 1 - ngramMin) := by
    rw [mem_range'_1]
    omega
  have hother : ∀ size, size ≠ tokens.length →
      size ∈ range' ngramMin (ngramMax + 1 - ngramMin) →
      newAfter inp nnew (.make tokens tokens.length) token size = 0 := by
    intro size hne hsize
    have hlt := (mem_range'_1.mp hsize).2
    exact newAfter_of_ne hinp htokens (le_of_lt_succ hlt) hmax hne
  rw [added, sum_map_eq_nsmul_single _ _ hother,
    count_eq_one_of_mem nodup_range' hmem, one_nsmul]
  exact newAfter_self hmax

end NgramCache

/-! ## The drafter -/

namespace NgramCacheState

/-- The history of a draft. -/
def history (call : List Token × Token) : List Token := call.1 ++ [call.2]

/-- The state after some drafts. -/
def run (calls : List (List Token × Token)) : NgramCacheState :=
  calls.foldl (fun state call => state.draft call.1 call.2) {}

/-- The counts of all n-grams and tokens are those of a history. -/
def Tracks (state : NgramCacheState) (history : List Token) : Prop :=
  ∀ ngram token, Genuine ngram → ngramMin ≤ ngram.length → ngram.length ≤ ngramMax →
    (state.context.count (.make ngram ngram.length) token).toInt =
      occurrences (ngram ++ [token]) history

/-- The cache tracks the history after each draft. -/
def TracksAll (calls : List (List Token × Token)) : Prop :=
  ∀ before call, before ++ [call] <+: calls → (run (before ++ [call])).Tracks (history call)

/-- Each history goes on from the one before. -/
def Extending (calls : List (List Token × Token)) : Prop :=
  calls.IsChain fun call call' => history call <+: history call'

variable {state : NgramCacheState} {call : List Token × Token} {h : List Token}
  {calls : List (List Token × Token)} {f : Ngram → Token → ℕ}

theorem run_append_singleton (calls : List (List Token × Token)) (call : List Token × Token) :
    run (calls ++ [call]) = (run calls).draft call.1 call.2 :=
  foldl_append

/-- A draft from the same history does not change the cache. -/
theorem draft_of_same (hsize : state.cacheSize = (history call).length) :
    state.draft call.1 call.2 = state := by
  have hsize : state.cacheSize = call.1.length + 1 := hsize.trans length_append
  exact if_neg (hsize ▸ lt_irrefl _)

/-- A draft from a longer one. -/
theorem draft_of_longer (hsize : state.cacheSize < (history call).length) :
    state.draft call.1 call.2 =
      { context := state.context.update ngramMin ngramMax ((history call).drop state.cacheSize)
          (toInt ((history call).length - state.cacheSize))
        cacheSize := (history call).length } := by
  have hlength : (history call).length = call.1.length + 1 := length_append
  rw [hlength] at hsize ⊢
  have hdrop : (history call).drop state.cacheSize = call.1.drop state.cacheSize ++ [call.2] :=
    drop_append_of_le_length (le_of_lt_succ hsize)
  have hnew : (call.1.drop state.cacheSize ++ [call.2]).length =
      call.1.length + 1 - state.cacheSize := by
    rw [← hdrop, length_drop, hlength]
  rw [draft, if_pos hsize, hdrop]
  dsimp only
  rw [hnew]

theorem toInt_ofNat_le (n : ℕ) : (Int32.ofNat n).toInt ≤ n := by
  rw [Int32.toInt_ofNat', Int.bmod_def]
  have hmod : (n : ℤ) % Int32.size ≤ n := Int.ofNat_le.mpr (mod_le n _)
  split
  · exact hmod
  · omega

/-! ## Which runs track the history -/

/-- The tallies of the n-grams are their occurrences in a history. -/
def Counted (context : NgramCache) (h : List Token) : Prop :=
  ∃ f, context.Tallies f ∧ ∀ ngram token, Genuine ngram → ngramMin ≤ ngram.length →
    ngram.length ≤ ngramMax → f (.make ngram ngram.length) token = occurrences (ngram ++ [token]) h

theorem Counted.tracks (hcounted : Counted state.context h) (hsize : h.length < 2 ^ 31) :
    state.Tracks h := by
  obtain ⟨f, htallies, hf⟩ := hcounted
  intro ngram token hngram hmin hmax
  have hlt : occurrences (ngram ++ [token]) h < 2 ^ 31 :=
    lt_of_le_of_lt (Occurrences.occurrences_le_length _ _) hsize
  rw [htallies, hf ngram token hngram hmin hmax, Int32.toInt_ofNat_of_lt hlt]

theorem length_history_pos (call : List Token × Token) : 0 < (history call).length := by
  rw [history, length_append]
  exact succ_pos _

theorem context_first (call : List Token × Token) :
    (run [call]).context = NgramCache.update ∅ ngramMin ngramMax (history call)
      (toInt (history call).length) := by
  have hrun : run [call] = draft {} call.1 call.2 := rfl
  rw [hrun, draft_of_longer (length_history_pos call), drop_zero, Nat.sub_zero]

/-- The first draft enters its whole history, if the `int` is its length. -/
theorem counted_first (hgenuine : Genuine (history call))
    (hsize : (history call).length < 2 ^ 31) : Counted (run [call]).context (history call) := by
  rw [context_first]
  refine ⟨_, NgramCache.tallies_empty.update _ _, fun ngram token hngram hmin hmax => ?_⟩
  rw [zero_add, NgramCache.added_eq_endings hgenuine hngram hmin hmax, toInt_of_lt hsize,
    Int.sub_self]
  refine Occurrences.endings_of_lt ?_
  rw [length_append]
  exact succ_pos _

/-- The `int` of a long length is shorter by much. -/
theorem toInt_add_two_le {n : ℕ} (h : 2 ^ 31 ≤ n) : toInt n + 2 ≤ n := by
  have hlt : toInt n < 2 ^ 31 := Int.bmod_lt (by decide)
  have hdvd : (2 ^ 32 : ℤ) ∣ n - toInt n := Int.dvd_self_sub_bmod
  omega

/-- It does not if it is not. -/
theorem not_tracks_first (hgenuine : Genuine (history call))
    (hsize : 2 ^ 31 ≤ (history call).length) : ¬(run [call]).Tracks (history call) := by
  intro htracks
  have hlo : 2 ≤ ((history call).length - toInt (history call).length).toNat := by
    have hint := toInt_add_two_le hsize
    omega
  obtain ⟨last, token, rest, hhistory⟩ : ∃ last token rest,
      history call = last :: token :: rest := by
    match hcall : history call with
    | [] =>
      rw [hcall] at hsize
      exact absurd hsize (Nat.not_le.mpr (Nat.two_pow_pos 31))
    | [_] =>
      rw [hcall] at hsize
      exact absurd hsize (Nat.not_le.mpr (Nat.one_lt_two_pow (Nat.succ_ne_zero 30)))
    | last :: token :: rest => exact ⟨last, token, rest, rfl⟩
  have hlast : Genuine [last] := fun hmem =>
    hgenuine (hhistory ▸ mem_cons.mpr (.inl (mem_singleton.mp hmem)))
  have hoccurs := htracks [last] token hlast (Nat.le_refl 1) (Nat.le_of_ble_eq_true rfl)
  rw [context_first, NgramCache.tallies_empty.update] at hoccurs
  dsimp only at hoccurs
  rw [Nat.zero_add, NgramCache.added_eq_endings hgenuine hlast (Nat.le_refl 1)
    (Nat.le_of_ble_eq_true rfl)] at hoccurs
  have hlt : endings ((history call).length - toInt (history call).length).toNat
      ([last] ++ [token]) (history call) < occurrences ([last] ++ [token]) (history call) := by
    refine Occurrences.endings_lt (length_history_pos call) ?_ hlo
    rw [drop_zero, hhistory]
    exact ⟨rest, rfl⟩
  have hle := hoccurs ▸ toInt_ofNat_le _
  exact Nat.not_lt.mpr (Int.ofNat_le.mp hle) hlt

/-- The n-grams that begin in the tokens before are lost. -/
theorem not_tracks_draft (hcounted : Counted state.context h) (hsize : state.cacheSize = h.length)
    (hnonempty : h ≠ []) (hgenuine : Genuine (history call)) (hext : h <+: history call)
    (hne : history call ≠ h) : ¬(state.draft call.1 call.2).Tracks (history call) := by
  obtain ⟨f, htallies, hf⟩ := hcounted
  obtain ⟨new, hnew⟩ := hext
  obtain ⟨before, last, rfl⟩ := (eq_nil_or_concat h).resolve_left hnonempty
  cases new with
  | nil => exact absurd (hnew.symm.trans (append_nil _)) hne
  | cons token new =>
    intro htracks
    rw [concat_eq_append] at hnew hf hsize
    have hlt : state.cacheSize < (history call).length := by
      calc state.cacheSize
          = (before ++ [last]).length := hsize
        _ < (before ++ [last]).length + (token :: new).length :=
          Nat.lt_add_of_pos_right (Nat.succ_pos _)
        _ = (history call).length := by
            rw [← hnew]
            exact length_append.symm
    have hdrop : (history call).drop state.cacheSize = token :: new := by
      rw [hsize, ← hnew, drop_left]
    have hlast : Genuine [last] := by
      intro hmem
      apply hgenuine
      rw [← hnew, mem_singleton.mp hmem]
      exact mem_append_left _ (mem_append_right _ (mem_singleton_self last))
    have htoken : Genuine (token :: new) := by
      intro hmem
      apply hgenuine
      rw [← hnew]
      exact mem_append_right _ hmem
    have hoccurs := htracks [last] token hlast (Nat.le_refl 1) (Nat.le_of_ble_eq_true rfl)
    rw [draft_of_longer hlt, hdrop] at hoccurs
    dsimp only at hoccurs
    rw [htallies.update] at hoccurs
    dsimp only at hoccurs
    rw [hf [last] token hlast (Nat.le_refl 1) (Nat.le_of_ble_eq_true rfl),
      NgramCache.added_eq_endings htoken hlast (Nat.le_refl 1)
        (Nat.le_of_ble_eq_true rfl)] at hoccurs
    have hcut : occurrences ([last] ++ [token]) (before ++ [last]) +
        occurrences ([last] ++ [token]) (token :: new) + 1 ≤
        occurrences ([last] ++ [token]) (history call) := by
      rw [← hnew]
      have hj : before.length < (before ++ [last]).length := by
        rw [length_append]
        exact Nat.lt_succ_self _
      refine Occurrences.occurrences_add_le_append hj ?_ ?_
      · rw [append_assoc, drop_left]
        exact ⟨new, rfl⟩
      · rw [drop_left]
        intro hbegins
        exact Nat.not_succ_le_self 1 hbegins.length_le
    have hle := hoccurs ▸ toInt_ofNat_le _
    have hendings := Occurrences.endings_le
      (((token :: new).length : ℤ) - toInt ((history call).length - state.cacheSize)).toNat
      ([last] ++ [token]) (token :: new)
    exact Nat.not_lt.mpr (Int.ofNat_le.mp hle)
      (Nat.lt_of_le_of_lt (Nat.add_le_add_left hendings _) hcut)

theorem cacheSize_first (call : List Token × Token) :
    (run [call]).cacheSize = (history call).length := by
  have hrun : run [call] = draft {} call.1 call.2 := rfl
  rw [hrun, draft_of_longer (length_history_pos call)]

/-- Drafts from the same history leave the cache of the first one. -/
theorem run_of_same (hsame : ∀ c ∈ calls, history c = history call) :
    run (call :: calls) = run [call] := by
  induction calls using reverseRecOn with
  | nil => rfl
  | append_singleton calls c ih =>
    have hrun : run (call :: calls) = run [call] :=
      ih fun c hc => hsame c (mem_append_left _ hc)
    have hc : history c = history call :=
      hsame c (mem_append_right _ (mem_singleton_self c))
    rw [← cons_append, run_append_singleton, hrun]
    refine draft_of_same ?_
    rw [cacheSize_first, hc]

instance : Trans (fun call call' => history call <+: history call')
    (fun call call' => history call <+: history call')
    (fun call call' => history call <+: history call') :=
  ⟨fun h h' => List.IsPrefix.trans h h'⟩

theorem Extending.first_le (hext : Extending (call :: calls)) :
    ∀ c ∈ calls, history call <+: history c :=
  fun _ hc => rel_of_pairwise_cons hext.pairwise hc

/-- The cache tracks the history after each draft just when the first history is not too long
for an `int` and nothing is added to it. -/
theorem tracks_iff (hext : Extending (call :: calls))
    (hgenuine : ∀ c ∈ call :: calls, Genuine (history c)) :
    TracksAll (call :: calls) ↔
      (history call).length < 2 ^ 31 ∧ ∀ c ∈ calls, history c = history call := by
  have hfirst := hgenuine call mem_cons_self
  constructor
  · intro htracks
    have hsize : (history call).length < 2 ^ 31 := by
      apply Nat.lt_of_not_le
      intro hsize
      exact not_tracks_first hfirst hsize (htracks [] call ⟨calls, rfl⟩)
    refine ⟨hsize, ?_⟩
    induction calls using reverseRecOn with
    | nil => exact fun c hc => nomatch hc
    | append_singleton calls c ih =>
      have hcalls : call :: calls <+: call :: (calls ++ [c]) := ⟨[c], rfl⟩
      have hsame : ∀ c' ∈ calls, history c' = history call :=
        ih (List.IsChain.left_of_append hext) (fun c' hc' => hgenuine c' (hcalls.subset hc'))
          fun before c' hbefore => htracks before c' (hbefore.trans hcalls)
      have hc : c ∈ calls ++ [c] := mem_append_right _ (mem_singleton_self c)
      have hlast : history c = history call := by
        by_contra hne
        have hdraft := htracks (call :: calls) c (prefix_refl _)
        rw [run_append_singleton, run_of_same hsame] at hdraft
        exact not_tracks_draft (counted_first hfirst hsize) (cacheSize_first call)
          (ne_nil_of_length_pos (length_history_pos call))
          (hgenuine c (mem_cons_of_mem _ hc)) (hext.first_le c hc) hne hdraft
      intro c' hc'
      rcases mem_append.mp hc' with hc' | hc'
      · exact hsame c' hc'
      · rw [mem_singleton.mp hc', hlast]
  · rintro ⟨hsize, hsame⟩ before c hbefore
    cases before with
    | nil =>
      obtain rfl : c = call := (cons_prefix_cons.mp hbefore).1
      exact (counted_first hfirst hsize).tracks hsize
    | cons first before =>
      obtain ⟨rfl, hcalls⟩ := cons_prefix_cons.mp hbefore
      have hmem : ∀ c' ∈ before ++ [c], history c' = history first := fun c' hc' =>
        hsame c' (hcalls.subset hc')
      rw [cons_append, run_of_same hmem,
        hmem c (mem_append_right _ (mem_singleton_self c))]
      exact (counted_first hfirst hsize).tracks hsize

theorem tracks_iff_twice : TracksAll [([1], 2), ([1], 2)] := by
  refine (tracks_iff ?_ ?_).mpr ⟨?_, ?_⟩
  · exact .cons_cons (prefix_refl _) (.singleton _)
  · exact forall_mem_cons.mpr ⟨by decide, forall_mem_singleton.mpr (by decide)⟩
  · exact lt_of_le_of_lt (le_refl 2) (by decide)
  · exact forall_mem_singleton.mpr rfl

/-- The token `2` after the `1` that was there before. -/
theorem not_tracks : ¬∀ call calls, Extending (call :: calls) →
    (∀ c ∈ call :: calls, Genuine (history c)) → TracksAll (call :: calls) := by
  intro htracks
  have hext : Extending [([], 1), ([1], 2)] := .cons_cons ⟨[2], rfl⟩ (.singleton _)
  have hgenuine : ∀ c ∈ [(([] : List Token), (1 : Token)), ([1], 2)], Genuine (history c) :=
    forall_mem_cons.mpr ⟨by decide, forall_mem_singleton.mpr (by decide)⟩
  have hcount := htracks _ _ hext hgenuine [([], 1)] ([1], 2) (prefix_refl _) [1] 2
    (by decide) (le_refl 1) (by decide)
  have hzero : (run [([], 1), ([1], 2)]).context.count (.make [1] 1) 2 = 0 := by decide
  have hone : occurrences [(1 : Token), 2] [1, 2] = 1 := by decide
  have heq : (0 : ℤ) = 1 := by
    calc (0 : ℤ)
        = ((run [([], 1), ([1], 2)]).context.count (.make [1] 1) 2).toInt := by rw [hzero]; rfl
      _ = occurrences [(1 : Token), 2] [1, 2] := hcount
      _ = 1 := by rw [hone]; rfl
  exact absurd heq (by decide)

end NgramCacheState

end ExpertPin.Draft
