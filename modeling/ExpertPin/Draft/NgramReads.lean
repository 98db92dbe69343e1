import ExpertPin.Draft.NgramCounts
import ExpertPin.Lib.Fuel

/-!
# The n-grams that are looked up

An n-gram is meant to be the last tokens of the prompt and of what is drafted after it.  The size
check at the beginning is one for the static cache; the n-grams for the other two may be longer
than the prompt, and then start before it (`readsSequence_iff`).
-/

namespace ExpertPin.Draft

open List
open Option

/-- The prompt and what is drafted after it. -/
def combined (inp draft : List Token) : List Token := inp ++ draft.drop 1

/-- The drafts that the loop comes to. -/
inductive Reaches (caches : Caches) (nDraft : ℤ) (ngramMin ngramMax : ℕ) (inp : List Token)
    (idLast : Token) : List Token → Prop where
  | start (h : ¬toInt inp.length < ngramStatic) :
      Reaches caches nDraft ngramMin ngramMax inp idLast [idLast]
  | next {draft : List Token} {token : Token}
      (h : Reaches caches nDraft ngramMin ngramMax inp idLast draft)
      (hgoesOn : goesOn nDraft draft = some true)
      (htoken : nextDraft caches ngramMin ngramMax inp draft = some token)
      (hne : token ≠ tokenNull) :
      Reaches caches nDraft ngramMin ngramMax inp idLast (draft ++ [token])

/-- The n-gram of a size is read from the last places of the sequence. -/
structure ReadsLast (inp draft : List Token) (size : ℕ) : Prop where
  size_le : size ≤ (combined inp draft).length
  indices : ngramIndices inp draft size =
    some (List.range' ((combined inp draft).length - size) size)
  ngram : readNgram inp draft size =
    some (.make ((combined inp draft).drop ((combined inp draft).length - size)) size)

/-- All n-grams that a call looks up are the last tokens of the sequence at that time. -/
def ReadsSequence (caches : Caches) (nDraft : ℤ) (ngramMin ngramMax : ℕ) (inp : List Token)
    (idLast : Token) : Prop :=
  ∀ draft, Reaches caches nDraft ngramMin ngramMax inp idLast draft →
    goesOn nDraft draft = some true →
    ∀ size ∈ ngramStatic :: List.range' ngramMin (ngramMax + 1 - ngramMin), ReadsLast inp draft size

/-! ## The result -/

variable {caches : Caches} {nDraft : ℤ} {sizeMin sizeMax : ℕ} {inp draft : List Token}
  {idLast : Token}

/-- The result is one of the drafts that the loop comes to. -/
theorem reaches_draftLoop {turns : ℕ} {result : List Token}
    (h : Reaches caches nDraft sizeMin sizeMax inp idLast draft)
    (hresult : draftLoop caches nDraft sizeMin sizeMax inp turns draft = some result) :
    Reaches caches nDraft sizeMin sizeMax inp idLast result := by
  induction turns generalizing draft with
  | zero =>
    obtain rfl := some.inj hresult
    exact h
  | succ turns ih =>
    rw [draftLoop] at hresult
    obtain ⟨more, hgoesOn, hresult⟩ := bind_eq_some_iff.mp hresult
    cases more with
    | false =>
      obtain rfl := some.inj hresult
      exact h
    | true =>
      rw [if_pos rfl] at hresult
      obtain ⟨token, htoken, hresult⟩ := bind_eq_some_iff.mp hresult
      split at hresult
      case isTrue hnull =>
        obtain rfl := some.inj hresult
        exact h
      case isFalse hne => exact ih (h.next hgoesOn htoken hne) hresult

/-- A call that does not return at once returns such a draft. -/
theorem reaches_ngramCacheDraft {result : List Token} (hlong : ¬toInt inp.length < ngramStatic)
    (h : ngramCacheDraft caches nDraft sizeMin sizeMax inp idLast = some result) :
    Reaches caches nDraft sizeMin sizeMax inp idLast result := by
  rw [ngramCacheDraft, if_neg hlong] at h
  exact reaches_draftLoop (.start hlong) h

theorem Reaches.length_pos (h : Reaches caches nDraft sizeMin sizeMax inp idLast draft) :
    0 < draft.length := by
  cases h with
  | start => exact Nat.one_pos
  | next => simp

/-! ## Reading the last tokens -/

theorem length_combined (hdraft : 0 < draft.length) :
    (combined inp draft).length = inp.length + draft.length - 1 := by
  rw [combined, length_append, length_drop]
  omega

theorem combined_singleton : combined inp [idLast] = inp := append_nil inp

theorem checked_of_lt {x : ℤ} (hlo : 0 ≤ x) (hhi : x < 2 ^ 31) : checked x = some x :=
  if_pos ⟨by omega, hhi⟩

theorem sizeT_natCast {n : ℕ} (h : n < 2 ^ 64) : sizeT n = n := by
  rw [sizeT, Int.emod_eq_of_lt (by omega) (by omega), Int.toNat_natCast]

/-- A token that is not behind the sequence is one of it. -/
theorem getToken_eq {i : ℕ} (hi : i < 2 ^ 63) (hinp : 0 < inp.length) :
    getToken inp draft i = (combined inp draft)[i]? := by
  rw [getToken, combined]
  split
  case isTrue hlt => rw [getElem?_append_left hlt]
  case isFalse hge =>
    have hmod : (1 + i - inp.length) % 2 ^ 64 = 1 + (i - inp.length) := by
      rw [Nat.mod_eq_of_lt (by omega)]
      omega
    rw [getElem?_append_right (not_lt.mp hge), getElem?_drop, hmod]

/-- What reads a list at each of its last places reads these. -/
theorem mapM_range' {α : Type*} {xs : List α} {f : ℕ → Option α}
    (hf : ∀ i < xs.length, f i = xs[i]?) {start n : ℕ} (h : start + n = xs.length) :
    (List.range' start n).mapM f = some (xs.drop start) := by
  induction n generalizing start with
  | zero =>
    rw [drop_eq_nil_of_le (by omega)]
    rfl
  | succ n ih =>
    have hlt : start < xs.length := by omega
    rw [range'_succ, mapM_cons, ih (by omega), hf start hlt,
      getElem?_eq_getElem hlt, drop_eq_getElem_cons hlt]
    rfl

theorem readsLast (hdraft : 0 < draft.length) (hlen : inp.length + draft.length ≤ 2 ^ 31)
    (hinp : 0 < inp.length) {size : ℕ} (hsize : size ≤ inp.length) : ReadsLast inp draft size := by
  have hcombined : (combined inp draft).length = inp.length + draft.length - 1 :=
    length_combined hdraft
  have hint : toInt inp.length = inp.length := toInt_of_lt (by omega)
  have hstart : ngramStart inp draft size = ((combined inp draft).length - size : ℕ) := by
    rw [ngramStart, hint, hcombined, Int.bmod_eq_of_le (by omega) (by omega)]
    omega
  have hindices : ngramIndices inp draft size =
      some (range' ((combined inp draft).length - size) size) := by
    rw [ngramIndices, hstart, checked_of_lt (by omega) (by omega), range'_eq_map_range]
    refine congrArg some (map_congr_left fun k hk => ?_)
    have hk := mem_range.mp hk
    rw [← Int.natCast_add, sizeT_natCast (by omega)]
  have hle : size ≤ (combined inp draft).length := by omega
  refine ⟨hle, hindices, ?_⟩
  have htokens : (range' ((combined inp draft).length - size) size).mapM (getToken inp draft) =
      some ((combined inp draft).drop ((combined inp draft).length - size)) :=
    mapM_range' (fun i hi => getToken_eq (by omega) hinp) (Nat.sub_add_cancel hle)
  rw [readNgram, hindices, bind_eq_bind, bind_some, htokens]
  rfl

/-! ## Prompts that are long enough -/

theorem goesOn_eq (hdraft : 0 < draft.length) (hlen : draft.length < 2 ^ 31) :
    goesOn nDraft draft = some (decide ((draft.length : ℤ) - 1 < nDraft)) := by
  rw [goesOn, toInt_of_lt hlen, checked_of_lt (by omega) (by omega), map_some]

theorem goesOn_singleton : goesOn nDraft [idLast] = some (decide (0 < nDraft)) := by
  have hlen : [idLast].length = 1 := length_singleton
  rw [goesOn_eq (by omega) (by omega), hlen]
  simp

/-- The loop appends no more than `n_draft` tokens. -/
theorem Reaches.length_le (h : Reaches caches nDraft sizeMin sizeMax inp idLast draft)
    (hn : nDraft + 2 ≤ 2 ^ 31) : draft.length ≤ nDraft.toNat + 1 := by
  induction h with
  | start => exact Nat.le_add_left 1 _
  | next h hgoesOn _ _ ih =>
    rw [goesOn_eq h.length_pos (by omega), some_inj, decide_eq_true_iff] at hgoesOn
    rw [length_append, length_singleton]
    omega

theorem readsSequence_of_le (hinp : ngramStatic ≤ inp.length) (hmax : sizeMax ≤ inp.length)
    (hlen : inp.length + nDraft ≤ 2 ^ 31) :
    ReadsSequence caches nDraft sizeMin sizeMax inp idLast := by
  have hpos : 0 < inp.length := Nat.lt_of_lt_of_le (by decide) hinp
  have hbound : nDraft + 2 ≤ 2 ^ 31 := by
    have htwo : (ngramStatic : ℤ) = 2 := rfl
    omega
  intro draft hreaches hgoesOn size hsize
  have hle := hreaches.length_le hbound
  rw [goesOn_eq hreaches.length_pos (by omega), some_inj, decide_eq_true_iff] at hgoesOn
  have hsize : size ≤ inp.length := by
    rcases mem_cons.mp hsize with rfl | hsize
    · exact hinp
    · obtain ⟨hlo, hhi⟩ := mem_range'_1.mp hsize
      omega
  exact readsLast hreaches.length_pos (by omega) hpos hsize

/-- Without a turn of the loop nothing is looked up. -/
theorem readsSequence_of_nonpos (hn : nDraft ≤ 0) :
    ReadsSequence caches nDraft sizeMin sizeMax inp idLast := by
  intro draft hreaches hgoesOn
  have hle : draft.length ≤ 1 := by
    simpa [Int.toNat_of_nonpos hn] using hreaches.length_le (by omega)
  rw [goesOn_eq hreaches.length_pos (by omega), some_inj, decide_eq_true_iff] at hgoesOn
  have hpos := hreaches.length_pos
  omega

theorem readsSequence_of_short (hshort : toInt inp.length < ngramStatic) :
    ReadsSequence caches nDraft sizeMin sizeMax inp idLast := by
  intro draft hreaches
  have hlong : ¬toInt inp.length < ngramStatic := by
    induction hreaches with
    | start h => exact h
    | next _ _ _ _ ih => exact ih
  exact absurd hshort hlong

/-! ## Caches that always draft -/

/-- The sequence after `k` drafted tokens. -/
def sevenTimes (inp : List Token) (k : ℕ) : List Token := inp ++ List.replicate k 7

/-- The n-gram of its last two tokens. -/
def lastTwo (inp : List Token) (k : ℕ) : Ngram :=
  .make ((sevenTimes inp k).drop ((sevenTimes inp k).length - ngramStatic)) ngramStatic

def sevenPart : NgramCachePart := AList.singleton 7 2

/-- A static cache that has the token 7 after each of them. -/
def sevenCache (inp : List Token) : NgramCache :=
  ((AList.insert (lastTwo inp 0) sevenPart ∅).insert (lastTwo inp 1) sevenPart).insert
    (lastTwo inp 2) sevenPart

theorem lastTwo_of_le {k : ℕ} (h : 2 ≤ k) :
    lastTwo inp k = .make (List.replicate 2 7) ngramStatic := by
  have hlen : (sevenTimes inp k).length - ngramStatic = inp.length + (k - 2) := by
    rw [sevenTimes, length_append, length_replicate, ngramStatic]
    omega
  rw [lastTwo, hlen, sevenTimes, drop_length_add_append, drop_replicate,
    Nat.sub_sub_self h]

theorem lookup_insert_of_lookup {cache : NgramCache} {ngram ngram' : Ngram} {part : NgramCachePart}
    (h : cache.lookup ngram = some part) : (cache.insert ngram' part).lookup ngram = some part := by
  by_cases heq : ngram = ngram'
  · rw [heq, AList.lookup_insert]
  · rw [AList.lookup_insert_ne heq, h]

theorem lookup_sevenCache (inp : List Token) (k : ℕ) :
    (sevenCache inp).lookup (lastTwo inp k) = some sevenPart := by
  match k with
  | 0 =>
    exact lookup_insert_of_lookup (lookup_insert_of_lookup (AList.lookup_insert _))
  | 1 => exact lookup_insert_of_lookup (AList.lookup_insert _)
  | k + 2 =>
    rw [lastTwo_of_le (Nat.le_add_left 2 k), ← lastTwo_of_le le_rfl]
    exact AList.lookup_insert _

/-- An empty cache has no token to draft. -/
theorem tryDraft_empty (ngrams : List Ngram) (part : NgramCachePart)
    (minSampleSize minPercent : PerSize) {n : ℕ} (h : n ≤ ngrams.length) :
    tryDraft ∅ ngrams part minSampleSize minPercent n = some tokenNull := by
  induction n with
  | zero => rfl
  | succ i ih =>
    rw [tryDraft, getElem?_eq_getElem h]
    exact ih (Nat.le_of_succ_le h)

theorem nextDraft_sevenCache {k : ℕ} (hinp : ngramStatic ≤ inp.length)
    (hmax : sizeMax ≤ inp.length) (hk : inp.length + k + 1 ≤ 2 ^ 31) :
    nextDraft { ncStatic := sevenCache inp } sizeMin sizeMax inp (idLast :: List.replicate k 7) =
      some 7 := by
  have hpos : 0 < inp.length := Nat.lt_of_lt_of_le (by decide) hinp
  have hreads : ∀ size ≤ inp.length, ReadsLast inp (idLast :: replicate k 7) size :=
    fun size hsize => readsLast (by simp) (by simpa [Nat.add_assoc] using hk) hpos hsize
  have hstatic : readNgram inp (idLast :: replicate k 7) ngramStatic = some (lastTwo inp k) :=
    (hreads _ hinp).ngram
  obtain ⟨ngrams, hngrams⟩ : ∃ ngrams, (range' sizeMin (sizeMax + 1 - sizeMin)).mapM
      (readNgram inp (idLast :: replicate k 7)) = some ngrams := by
    refine exists_mapM fun size hsize => ?_
    obtain ⟨hlo, hhi⟩ := mem_range'_1.mp hsize
    rw [(hreads size (by omega)).ngram]
    rfl
  rw [nextDraft, hstatic, hngrams]
  simp only [bind_eq_bind, bind_some, tryDraft_empty _ _ _ _ le_rfl, if_pos]
  rw [tryDraftStatic, lookup_sevenCache]
  decide

/-- The loop comes to each number of drafted tokens up to where an `int` overflows. -/
theorem reaches_sevenCache {k : ℕ} (hinp : ngramStatic ≤ inp.length)
    (hint : inp.length < 2 ^ 31) (hmax : sizeMax ≤ inp.length) (hk : inp.length + k ≤ 2 ^ 31)
    (hn : k ≤ nDraft) :
    Reaches { ncStatic := sevenCache inp } nDraft sizeMin sizeMax inp idLast
      (idLast :: List.replicate k 7) := by
  have htwo : ngramStatic = 2 := rfl
  induction k with
  | zero =>
    refine .start ?_
    rw [toInt_of_lt hint]
    omega
  | succ k ih =>
    have hgoesOn : goesOn nDraft (idLast :: replicate k 7) = some true := by
      have hlength : (idLast :: replicate k 7).length = k + 1 := by simp
      rw [goesOn_eq (by omega) (by omega), some_inj, decide_eq_true_iff]
      omega
    have hnext := (ih (by omega) (by omega)).next hgoesOn
      (nextDraft_sevenCache hinp hmax (by omega)) (by decide)
    rwa [cons_append, ← replicate_succ'] at hnext

/-! ## When the last tokens are read -/

/-- An n-gram that is longer than the prompt begins before it. -/
theorem not_readsSequence_of_lt (hlong : ¬toInt inp.length < ngramStatic) (hn : 0 < nDraft)
    (hle : sizeMin ≤ sizeMax) (hlt : inp.length < sizeMax) :
    ¬ReadsSequence caches nDraft sizeMin sizeMax inp idLast := by
  intro h
  have hgoesOn : goesOn nDraft [idLast] = some true := by rw [goesOn_singleton, decide_eq_true hn]
  have hmem : sizeMax ∈ range' sizeMin (sizeMax + 1 - sizeMin) :=
    mem_range'_1.mpr ⟨hle, by omega⟩
  have hsize := (h [idLast] (.start hlong) hgoesOn sizeMax (mem_cons_of_mem _ hmem)).size_le
  rw [combined_singleton] at hsize
  exact hsize.not_gt hlt

/-- A length that `int` does not hold is taken for a smaller one. -/
theorem length_lt_of_readsLast (h : ReadsLast inp [idLast] ngramStatic)
    (hlong : ¬toInt inp.length < ngramStatic) : inp.length < 2 ^ 31 := by
  by_contra hlen
  have hsmall : toInt inp.length + 2 ≤ inp.length :=
    NgramCacheState.toInt_add_two_le (not_lt.mp hlen)
  have hlt : toInt inp.length < 2 ^ 31 := Int.bmod_lt (by decide)
  have htwo : (ngramStatic : ℤ) = 2 := rfl
  have hstart : ngramStart inp [idLast] ngramStatic = toInt inp.length - 2 := by
    rw [ngramStart, htwo, length_singleton, Int.bmod_eq_of_le (by omega) (by omega)]
    omega
  have hindices := h.indices
  rw [ngramIndices, hstart, htwo, checked_of_lt (by omega) (by omega), combined_singleton]
    at hindices
  have hfirst : sizeT (toInt inp.length - 2 + (0 : ℕ)) = inp.length - ngramStatic :=
    (cons_eq_cons.mp (some.inj hindices)).1
  rw [sizeT, Int.natCast_zero, add_zero, Int.emod_eq_of_lt (by omega) (by omega)] at hfirst
  have htwo' : ngramStatic = 2 := rfl
  omega

/-- The end of the n-gram is one more than an `int` holds. -/
theorem not_readsLast_of_overflow (hinp : inp.length < 2 ^ 31)
    (hlen : inp.length + draft.length = 2 ^ 31 + 1) : ¬ReadsLast inp draft ngramStatic := by
  intro h
  have htwo : (ngramStatic : ℤ) = 2 := rfl
  have hstart : ngramStart inp draft ngramStatic = 2 ^ 31 - 2 := by
    rw [ngramStart, toInt_of_lt hinp, htwo, Int.bmod_eq_of_le (by omega) (by omega)]
    omega
  have hindices := h.indices
  rw [ngramIndices, hstart, htwo, checked, if_neg (by decide)] at hindices
  cases hindices

/-- A call looks up the last tokens if the n-grams are not longer than the prompt and no `int`
overflows; with some caches it looks up others, or reads outside of the sequence, if not. -/
theorem readsSequence_iff (hinp : ngramStatic ≤ inp.length) (hle : sizeMin ≤ sizeMax) :
    (∀ caches idLast, inp.length + nDraft ≤ 2 ^ 31 → inp.length < 2 ^ 31 →
      (ReadsSequence caches nDraft sizeMin sizeMax inp idLast ↔
        nDraft ≤ 0 ∨ sizeMax ≤ inp.length)) ∧
    ((∀ caches idLast, ReadsSequence caches nDraft sizeMin sizeMax inp idLast) ↔
      nDraft ≤ 0 ∨ toInt inp.length < ngramStatic ∨
        sizeMax ≤ inp.length ∧ inp.length + nDraft ≤ 2 ^ 31) := by
  have htwo : ngramStatic = 2 := rfl
  constructor
  · intro caches idLast hlen hint
    have hlong : ¬toInt inp.length < ngramStatic := by
      rw [toInt_of_lt hint]
      omega
    constructor
    · intro h
      by_contra hnot
      obtain ⟨hn, hlt⟩ := not_or.mp hnot
      exact not_readsSequence_of_lt hlong (not_le.mp hn) hle (not_le.mp hlt) h
    · rintro (hn | hmax)
      · exact readsSequence_of_nonpos hn
      · exact readsSequence_of_le hinp hmax hlen
  · constructor
    · intro h
      rcases le_or_gt nDraft 0 with hn | hn
      · exact .inl hn
      by_cases hlong : toInt inp.length < ngramStatic
      · exact .inr (.inl hlong)
      have hgoesOn : goesOn nDraft [0] = some true := by
        rw [goesOn_singleton, decide_eq_true hn]
      have hint : inp.length < 2 ^ 31 := by
        have hread := h {} 0 [0] (.start hlong) hgoesOn ngramStatic mem_cons_self
        exact length_lt_of_readsLast hread hlong
      have hmax : sizeMax ≤ inp.length :=
        not_lt.mp fun hlt => not_readsSequence_of_lt hlong hn hle hlt (h {} 0)
      refine .inr (.inr ⟨hmax, not_lt.mp fun hlen => ?_⟩)
      -- with the token 7 drafted so often, the end of the n-gram is no `int`
      have hreaches : Reaches _ nDraft sizeMin sizeMax inp 0 (0 :: replicate _ 7) :=
        reaches_sevenCache hinp hint hmax
          (Nat.add_sub_cancel' hint.le : inp.length + (2 ^ 31 - inp.length) = 2 ^ 31).le (by omega)
      have hlength : (0 :: replicate (2 ^ 31 - inp.length) (7 : Token)).length =
          2 ^ 31 - inp.length + 1 := by
        rw [length_cons, length_replicate]
      have hgoesOn' : goesOn nDraft (0 :: replicate (2 ^ 31 - inp.length) 7) = some true := by
        rw [goesOn_eq (by omega) (by omega), some_inj, decide_eq_true_iff]
        omega
      exact not_readsLast_of_overflow hint (by omega)
        (h _ 0 _ hreaches hgoesOn' ngramStatic mem_cons_self)
    · rintro (hn | hshort | ⟨hmax, hlen⟩) caches idLast
      · exact readsSequence_of_nonpos hn
      · exact readsSequence_of_short hshort
      · exact readsSequence_of_le hinp hmax hlen

/-- n-grams of up to two tokens of a prompt of three, and the two tokens after it. -/
theorem readsSequence_iff_threeTokens :
    (∀ caches idLast, ([1, 2, 3] : List Token).length + (2 : ℤ) ≤ 2 ^ 31 →
      ([1, 2, 3] : List Token).length < 2 ^ 31 →
      (ReadsSequence caches 2 1 2 [1, 2, 3] idLast ↔
        (2 : ℤ) ≤ 0 ∨ 2 ≤ ([1, 2, 3] : List Token).length)) ∧
    ((∀ caches idLast, ReadsSequence caches 2 1 2 [1, 2, 3] idLast) ↔
      (2 : ℤ) ≤ 0 ∨ toInt ([1, 2, 3] : List Token).length < ngramStatic ∨
        2 ≤ ([1, 2, 3] : List Token).length ∧ ([1, 2, 3] : List Token).length + (2 : ℤ) ≤ 2 ^ 31) :=
  readsSequence_iff (by decide) (by decide)

/-- After a prompt of two tokens the n-gram of three is read outside of the sequence. -/
theorem not_readsSequence : nextDraft {} ngramMin ngramMax [1, 2] [2] = none ∧
      ∀ caches idLast, ¬ReadsSequence caches 1 ngramMin ngramMax [1, 2] idLast :=
  ⟨by decide, fun _ _ => not_readsSequence_of_lt (by decide) (by decide) (by decide) (by decide)⟩

end ExpertPin.Draft
