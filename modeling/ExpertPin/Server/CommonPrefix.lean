import ExpertPin.Server.Detokenize

/-!
# The common prefix of two token lists

Two token lists can spell the same text with different tokens.  Their texts are compared, blanks
aside, and the common prefix is cut back to where tokens of both lists end: the result is a pair
of lengths, one for each list (`commonText_prefix`).

The lengths are those of the pieces while the compared texts are the tidied ones.  Nothing is
lost by it: a text that is shorter by some blanks shows no more of what is not blank.
-/

namespace ExpertPin.Server

open List
open Nat

/-- `common_prefix_add` -/
def prefixAdd (a b : ℕ × ℕ) : ℕ × ℕ :=
  (a.1 + b.1, a.2 + b.2)

/-- `common_part` of two strings -/
def commonPart : Text → Text → ℕ
  | a :: as, b :: bs => if a = b then commonPart as bs + 1 else 0
  | _, _ => 0

/-- `find_common_string_prefix` -/
def findCommonStringPrefix : Text → Text → ℕ × ℕ
  | a :: as, b :: bs =>
    if a = b then prefixAdd (1, 1) (findCommonStringPrefix as bs)
    else if ignored a ∧ ignored b then prefixAdd (1, 1) (findCommonStringPrefix as bs)
    else if ignored a then prefixAdd (1, 0) (findCommonStringPrefix as (b :: bs))
    else if ignored b then prefixAdd (0, 1) (findCommonStringPrefix (a :: as) bs)
    else (0, 0)
  | _, _ => (0, 0)
termination_by a b => a.length + b.length

/-- The loop of `find_n_tokens_from_string` and of its sibling that ignores blanks: for each
token that ends within `maxSize` bytes, what `weigh` counts of the text up to it. -/
def tokenEnds (V : Vocab) (weigh : Text → ℕ) (maxSize stringLen weighed : ℕ) : List Token → List ℕ
  | [] => []
  | t :: ts =>
    if stringLen + (V.piece t).length ≤ maxSize then
      (weighed + weigh (V.piece t)) :: tokenEnds V weigh maxSize (stringLen + (V.piece t).length)
          (weighed + weigh (V.piece t)) ts
    else []

def findNTokensFromString (V : Vocab) (a : List Token) (maxSize start : ℕ) : List ℕ :=
  tokenEnds V List.length maxSize 0 0 (a.drop start)

def findNTokensFromStringWithIgnore (V : Vocab) (a : List Token) (maxSize start : ℕ) : List ℕ :=
  tokenEnds V (fun s => (removeIgnored s).length) maxSize 0 0 (a.drop start)

/-- The loop of `find_largest_common_number`, from the ends of both lists. -/
def largestCommonNumber : List ℕ → List ℕ → ℕ × ℕ
  | x :: xs, y :: ys =>
    if x = y then (xs.length + 1, ys.length + 1)
    else if x > y then largestCommonNumber xs (y :: ys)
    else largestCommonNumber (x :: xs) ys
  | _, _ => (0, 0)
termination_by a b => a.length + b.length

def findLargestCommonNumber (aList bList : List ℕ) : ℕ × ℕ :=
  largestCommonNumber aList.reverse bList.reverse

/-- `find_common_text_token_prefix` -/
def findCommonTextTokenPrefix (V : Vocab) (a b : List Token) (start : ℕ) (exact : Bool) : ℕ × ℕ :=
  if a.length ≤ start ∨ b.length ≤ start then (0, 0)
  else
    let aSub := a.drop start
    let bSub := b.drop start
    let aStr := V.detokenize aSub
    let bStr := V.detokenize bSub
    if exact then
      let lcp := commonPart aStr bStr
      findLargestCommonNumber (findNTokensFromString V aSub lcp 0)
        (findNTokensFromString V bSub lcp 0)
    else
      let stringPrefix := findCommonStringPrefix aStr bStr
      findLargestCommonNumber (findNTokensFromStringWithIgnore V aSub stringPrefix.1 0)
        (findNTokensFromStringWithIgnore V bSub stringPrefix.2 0)

/-- How many tokens two lists begin with in common. -/
def commonTokens : List Token → List Token → ℕ
  | a :: as, b :: bs => if a = b then commonTokens as bs + 1 else 0
  | _, _ => 0

/-! ## Token lists with media -/

/-- `LLAMA_TOKEN_NULL` -/
def Token.null : Token := -1

/-- What is read of an `mtmd_input_chunk`. -/
structure Chunk where
  id : Text
  nTokens : ℕ
  nPos : ℕ
  nTokens_pos : 0 < nTokens
deriving DecidableEq

/-- `server_tokens` -/
structure ServerTokens where
  hasMtmd : Bool
  tokens : List Token
  /-- `map_idx_to_media` -/
  media : List (ℕ × Chunk)
deriving DecidableEq

namespace ServerTokens

abbrev size (T : ServerTokens) : ℕ :=
  T.tokens.length

/-- The chunk of the map at an index. -/
def chunk? (T : ServerTokens) (idx : ℕ) : Option Chunk :=
  T.media.lookup idx

/-- Every chunk stands for as many empty tokens, and every empty token belongs to a chunk. -/
structure WellFormed (T : ServerTokens) : Prop where
  media_of_hasMtmd : T.hasMtmd = false → T.media = []
  null_of_chunk {idx : ℕ} {c : Chunk} (h : T.chunk? idx = some c) {i : ℕ} (hle : idx ≤ i)
    (hlt : i < idx + c.nTokens) : T.tokens[i]? = some .null
  chunk_of_null {i : ℕ} (h : T.tokens[i]? = some .null) :
    ∃ idx c, T.chunk? idx = some c ∧ idx ≤ i ∧ i < idx + c.nTokens

/-- A list of text tokens only. -/
def IsText (T : ServerTokens) : Prop :=
  Token.null ∉ T.tokens

/-- The exceptions and failed assertions of the operations on token lists. -/
inductive Failure
  | chunkNotFound
  | assertion
deriving DecidableEq, Repr

/-- `find_chunk` -/
def findChunk (T : ServerTokens) (idx : ℕ) : Except Failure Chunk :=
  match T.chunk? idx with
  | some c => .ok c
  | none => .error .chunkNotFound

/-- Two chunks are the same image. -/
def sameChunk (a b : Chunk) : Bool :=
  a.id == b.id && a.nTokens == b.nTokens

/-- The loop of `get_common_prefix_exact` where media are supported. -/
def commonPrefixExactFrom (a b : ServerTokens) (i : ℕ) : Except Failure ℕ :=
  if i < min a.size b.size then
    let ai := a.tokens[i]?
    let bi := b.tokens[i]?
    if ai = some .null ∧ bi = some .null then
      match a.findChunk i, b.findChunk i with
      | .ok aChunk, .ok bChunk =>
        if sameChunk aChunk bChunk then commonPrefixExactFrom a b (i + aChunk.nTokens) else .ok i
      | .error e, _ | _, .error e => .error e
    else if ai = bi then commonPrefixExactFrom a b (i + 1)
    else .ok i
  else .ok (min a.size b.size)
termination_by min a.size b.size - i
decreasing_by
  · have := aChunk.nTokens_pos
    omega
  · omega

/-- `get_common_prefix_exact` -/
def getCommonPrefixExact (a b : ServerTokens) : Except Failure ℕ :=
  if a.hasMtmd then commonPrefixExactFrom a b 0
  else .ok (commonTokens a.tokens b.tokens)

/-- The loop of `get_common_prefix` where media are supported: the text tokens up to the next
pair of media are collected in `aList` and `bList`. -/
def commonPrefixFrom (V : Vocab) (a b : ServerTokens) (exact : Bool) (i j : ℕ)
    (aList bList : List Token) (tokenPrefix : ℕ × ℕ) : Except Failure (ℕ × ℕ) :=
  let textPrefix := findCommonTextTokenPrefix V aList bList 0 exact
  if h : i < a.tokens.length ∧ j < b.tokens.length then
    let ai := a.tokens.get ⟨i, h.1⟩
    let bi := b.tokens.get ⟨j, h.2⟩
    if ai = .null ∧ bi = .null then
      if textPrefix.1 = aList.length ∧ textPrefix.2 = bList.length then
        match a.findChunk i, b.findChunk j with
        | .ok aChunk, .ok bChunk =>
          if sameChunk aChunk bChunk then
            commonPrefixFrom V a b exact (i + aChunk.nTokens) (j + aChunk.nTokens) [] []
              (prefixAdd (prefixAdd textPrefix (aChunk.nTokens, aChunk.nTokens)) tokenPrefix)
          else .ok (prefixAdd textPrefix tokenPrefix)
        | .error e, _ | _, .error e => .error e
      else .ok (prefixAdd textPrefix tokenPrefix)
    else
      commonPrefixFrom V a b exact (if ai = .null then i else i + 1)
        (if bi = .null then j else j + 1) (if ai = .null then aList else aList ++ [ai])
        (if bi = .null then bList else bList ++ [bi]) tokenPrefix
  else .ok (prefixAdd textPrefix tokenPrefix)
termination_by a.tokens.length - i + (b.tokens.length - j)
decreasing_by
  · have := aChunk.nTokens_pos
    omega
  · rename_i hne
    obtain ⟨hi, hj⟩ := h
    split
    case isFalse => split <;> omega
    case isTrue hai =>
      split
      case isTrue hbi => exact absurd ⟨hai, hbi⟩ hne
      case isFalse => omega

/-- `get_common_prefix` -/
def getCommonPrefix (V : Vocab) (a b : ServerTokens) (exact : Bool) : Except Failure (ℕ × ℕ) :=
  match a.getCommonPrefixExact b with
  | .error e => .error e
  | .ok n =>
    if a.hasMtmd then commonPrefixFrom V a b exact n n [] [] (n, n)
    else .ok (prefixAdd (findCommonTextTokenPrefix V a.tokens b.tokens n exact) (n, n))

end ServerTokens

/-! ## What the comparisons find -/

theorem commonPart_spec (a b : Text) : a.take (commonPart a b) = b.take (commonPart a b) := by
  induction a, b using commonPart.induct with
  | case1 a as bs ih => simpa [commonPart] using ih
  | case2 a as b bs h => simp [commonPart, h]
  | case3 a b h => rw [commonPart.eq_2 _ _ h]; simp

theorem findCommonStringPrefix_spec (a b : Text) :
    removeIgnored (a.take (findCommonStringPrefix a b).1) =
      removeIgnored (b.take (findCommonStringPrefix a b).2) := by
  induction a, b using findCommonStringPrefix.induct with
  | case1 a as bs ih =>
    rw [findCommonStringPrefix, if_pos rfl]
    simp only [prefixAdd, Nat.add_comm 1, take_succ_cons, removeIgnored_cons, ih]
  | case2 a as b bs hab hig ih =>
    rw [findCommonStringPrefix, if_neg hab, if_pos hig]
    simp only [prefixAdd, Nat.add_comm 1, take_succ_cons, removeIgnored_cons, hig.1, hig.2,
      if_true, ih]
  | case3 a as b bs hab hig ha ih =>
    rw [findCommonStringPrefix, if_neg hab, if_neg hig, if_pos ha]
    simp only [prefixAdd, Nat.add_comm 1, Nat.zero_add, take_succ_cons, removeIgnored_cons,
      ha, if_true, ih]
  | case4 a as b bs hab hig ha hb ih =>
    rw [findCommonStringPrefix, if_neg hab, if_neg hig, if_neg ha, if_pos hb]
    simp only [prefixAdd, Nat.add_comm 1, Nat.zero_add, take_succ_cons, removeIgnored_cons,
      hb, if_true, ih]
  | case5 a as b bs hab hig ha hb =>
    rw [findCommonStringPrefix, if_neg hab, if_neg hig, if_neg ha, if_neg hb]
    rfl
  | case6 a b h =>
    rw [findCommonStringPrefix.eq_2 a b h]
    rfl

/-- What is counted at a token is the weight of the text up to it, which fits. -/
theorem tokenEnds_getElem? {V : Vocab} {weigh : Text → ℕ} (hnil : weigh [] = 0)
    (hadd : ∀ s t, weigh (s ++ t) = weigh s + weigh t) {maxSize : ℕ} {ts : List Token}
    {stringLen weighed k e : ℕ}
    (h : (tokenEnds V weigh maxSize stringLen weighed ts)[k]? = some e) :
    k < ts.length ∧ e = weighed + weigh ((ts.take (k + 1)).flatMap V.piece) ∧
      stringLen + ((ts.take (k + 1)).flatMap V.piece).length ≤ maxSize := by
  induction ts generalizing stringLen weighed k with
  | nil => simp [tokenEnds] at h
  | cons t ts ih =>
    rw [tokenEnds] at h
    split at h
    case isFalse => simp at h
    case isTrue hfits =>
      cases k with
      | zero =>
        obtain rfl : weighed + weigh (V.piece t) = e := by simpa using h
        simpa using hfits
      | succ k =>
        obtain ⟨hk, he, hle⟩ := ih (by simpa using h)
        simp only [length_cons, take_succ_cons, flatMap_cons, hadd,
          length_append]
        exact ⟨Nat.succ_lt_succ hk, by rw [he, Nat.add_assoc], by omega⟩

theorem largestCommonNumber_cases (xs ys : List ℕ) : largestCommonNumber xs ys = (0, 0) ∨
      ∃ i j e, largestCommonNumber xs ys = (i + 1, j + 1) ∧
        xs.reverse[i]? = some e ∧ ys.reverse[j]? = some e := by
  induction xs, ys using largestCommonNumber.induct with
  | case1 xs x ys =>
    refine .inr ⟨xs.length, ys.length, x, by rw [largestCommonNumber, if_pos rfl], ?_, ?_⟩
    · simp
    · simp
  | case2 x xs y ys hxy hgt ih =>
    rw [largestCommonNumber, if_neg hxy, if_pos hgt]
    rcases ih with h | ⟨i, j, e, h, hi, hj⟩
    · exact .inl h
    · refine .inr ⟨i, j, e, h, ?_, hj⟩
      rw [List.reverse_cons]
      exact (List.getElem?_append_left (List.getElem?_eq_some_iff.mp hi).1).trans hi
  | case3 x xs y ys hxy hgt ih =>
    rw [largestCommonNumber, if_neg hxy, if_neg hgt]
    rcases ih with h | ⟨i, j, e, h, hi, hj⟩
    · exact .inl h
    · refine .inr ⟨i, j, e, h, hi, ?_⟩
      rw [List.reverse_cons]
      exact (List.getElem?_append_left (List.getElem?_eq_some_iff.mp hj).1).trans hj
  | case4 xs ys h => exact .inl (largestCommonNumber.eq_2 xs ys h)

/-- What tokens show besides blanks. -/
def Vocab.visible (V : Vocab) (tokens : List Token) : Text :=
  removeIgnored (tokens.flatMap V.piece)

@[simp] theorem Vocab.visible_nil (V : Vocab) : V.visible [] = [] := rfl

@[simp] theorem Vocab.visible_append (V : Vocab) (a b : List Token) :
    V.visible (a ++ b) = V.visible a ++ V.visible b := by
  simp [Vocab.visible]

theorem Vocab.removeIgnored_detokenize (V : Vocab) (tokens : List Token) :
    removeIgnored (V.detokenize tokens) = V.visible tokens :=
  (squeezed_detokenize V tokens).removeIgnored_eq

theorem Vocab.visible_take_add (V : Vocab) (a : List Token) (n k : ℕ) :
    V.visible (a.take (n + k)) = V.visible (a.take n) ++ V.visible ((a.drop n).take k) := by
  rw [take_add, V.visible_append]

theorem Vocab.visible_take_prefix (V : Vocab) (a : List Token) {m n : ℕ} (h : m ≤ n) :
    V.visible (a.take m) <+: V.visible (a.take n) := by
  obtain ⟨k, rfl⟩ := Nat.exists_eq_add_of_le h
  rw [V.visible_take_add]
  exact prefix_append _ _

/-- Tokens that end within `n` bytes show no more than `n` bytes of the tidied text. -/
theorem Vocab.visible_take_prefix_detokenize (V : Vocab) (a : List Token) {k n : ℕ}
    (h : ((a.take k).flatMap V.piece).length ≤ n) :
    V.visible (a.take k) <+: removeIgnored ((V.detokenize a).take n) := by
  have hsq := squeezed_detokenize V a
  have hraw : (a.flatMap V.piece).take ((a.take k).flatMap V.piece).length =
      (a.take k).flatMap V.piece := by
    have hsplit : a.flatMap V.piece = (a.take k).flatMap V.piece ++ (a.drop k).flatMap V.piece := by
      rw [← flatMap_append, take_append_drop]
    rw [hsplit, take_left]
  have hlen := hsq.length_take_le h
  rw [hraw] at hlen
  have hshort : V.visible (a.take k) <+: V.visible a := by
    have hall := V.visible_take_prefix a (le_max_left k a.length)
    rwa [take_of_length_le (le_max_right k a.length)] at hall
  have hlong : removeIgnored ((V.detokenize a).take n) <+: V.visible a := by
    rw [← V.removeIgnored_detokenize]
    exact (List.take_prefix n _).filter _
  exact prefix_of_prefix_length_le hshort hlong hlen

/-- Lengths of two token lists whose texts begin, blanks aside, one common text. -/
structure Matched (V : Vocab) (a b : List Token) (exact : Bool) (r : ℕ × ℕ) : Prop where
  fst_le : r.1 ≤ a.length
  snd_le : r.2 ≤ b.length
  zero_iff : r.1 = 0 ↔ r.2 = 0
  common : ∃ text, V.visible (a.take r.1) <+: text ∧ V.visible (b.take r.2) <+: text
  same : exact = false → V.visible (a.take r.1) = V.visible (b.take r.2)

namespace Matched

theorem zero (V : Vocab) (a b : List Token) (exact : Bool) : Matched V a b exact (0, 0) where
  fst_le := zero_le _
  snd_le := zero_le _
  zero_iff := Iff.rfl
  common := ⟨[], prefix_rfl, prefix_rfl⟩
  same _ := rfl

/-- Below a match texts are the same as soon as they are equally long. -/
theorem same_iff {V : Vocab} {a b : List Token} {exact : Bool} {r : ℕ × ℕ}
    (h : Matched V a b exact r) {p q : ℕ} (hp : p ≤ r.1) (hq : q ≤ r.2) :
    V.visible (a.take p) = V.visible (b.take q) ↔
      (V.visible (a.take p)).length = (V.visible (b.take q)).length := by
  obtain ⟨text, ha, hb⟩ := h.common
  refine ⟨congrArg length, fun hlen => ?_⟩
  have hpre := prefix_of_prefix_length_le ((V.visible_take_prefix a hp).trans ha)
    ((V.visible_take_prefix b hq).trans hb) (le_of_eq hlen)
  exact hpre.eq_of_length hlen

/-- A match behind common tokens. -/
theorem add {V : Vocab} {a b : List Token} {exact : Bool} {n : ℕ}
    (hpre : a.take n = b.take n) (ha : n ≤ a.length) (hb : n ≤ b.length) {r : ℕ × ℕ}
    (h : Matched V (a.drop n) (b.drop n) exact r) :
    Matched V a b exact (prefixAdd r (n, n)) := by
  have hfst := h.fst_le
  have hsnd := h.snd_le
  rw [length_drop] at hfst hsnd
  refine ⟨?_, ?_, ?_, ?_, ?_⟩
  · simp only [prefixAdd]; omega
  · simp only [prefixAdd]; omega
  · have := h.zero_iff
    simp only [prefixAdd]; omega
  · obtain ⟨text, hta, htb⟩ := h.common
    refine ⟨V.visible (a.take n) ++ text, ?_, ?_⟩
    · simp only [prefixAdd, Nat.add_comm _ n, V.visible_take_add]
      exact (prefix_append_right_inj _).mpr hta
    · simp only [prefixAdd, Nat.add_comm _ n, V.visible_take_add, ← hpre]
      exact (prefix_append_right_inj _).mpr htb
  · intro he
    simp only [prefixAdd, Nat.add_comm _ n, V.visible_take_add, ← hpre, h.same he]

/-- A match of the beginnings is one of the whole. -/
theorem of_take {V : Vocab} {a b : List Token} {exact : Bool} {x y : ℕ} {r : ℕ × ℕ}
    (h : Matched V (a.take x) (b.take y) exact r) : Matched V a b exact r := by
  have hfst := h.fst_le
  have hsnd := h.snd_le
  rw [length_take] at hfst hsnd
  have hta : (a.take x).take r.1 = a.take r.1 := by
    rw [take_take, min_eq_left (by omega)]
  have htb : (b.take y).take r.2 = b.take r.2 := by
    rw [take_take, min_eq_left (by omega)]
  refine ⟨by omega, by omega, h.zero_iff, ?_, ?_⟩
  · obtain ⟨text, htext⟩ := h.common
    exact ⟨text, by rwa [hta, htb] at htext⟩
  · intro he
    have := h.same he
    rwa [hta, htb] at this

end Matched

theorem findLargestCommonNumber_cases (aList bList : List ℕ) :
    findLargestCommonNumber aList bList = (0, 0) ∨
      ∃ i j e, findLargestCommonNumber aList bList = (i + 1, j + 1) ∧
        aList[i]? = some e ∧ bList[j]? = some e := by
  simpa [findLargestCommonNumber] using
    largestCommonNumber_cases aList.reverse bList.reverse

/-- Tokens counted up to a common number match. -/
theorem matched_of_tokenEnds {V : Vocab} {weigh : Text → ℕ} (hnil : weigh [] = 0)
    (hadd : ∀ s t, weigh (s ++ t) = weigh s + weigh t) {a b : List Token} {exact : Bool}
    {m n : ℕ} (htext : removeIgnored ((V.detokenize a).take m) =
      removeIgnored ((V.detokenize b).take n))
    (hweigh : exact = false → weigh = fun s => (removeIgnored s).length) :
    Matched V a b exact
      (findLargestCommonNumber (tokenEnds V weigh m 0 0 a) (tokenEnds V weigh n 0 0 b)) := by
  rcases findLargestCommonNumber_cases (tokenEnds V weigh m 0 0 a) (tokenEnds V weigh n 0 0 b)
    with h | ⟨i, j, e, h, hi, hj⟩
  · rw [h]
    exact .zero V a b exact
  · obtain ⟨hia, hea, hla⟩ := tokenEnds_getElem? hnil hadd hi
    obtain ⟨hjb, heb, hlb⟩ := tokenEnds_getElem? hnil hadd hj
    rw [Nat.zero_add] at hea heb hla hlb
    have hpa := V.visible_take_prefix_detokenize a hla
    have hpb := V.visible_take_prefix_detokenize b hlb
    rw [htext] at hpa
    rw [h]
    refine ⟨hia, hjb, by simp, ⟨_, hpa, hpb⟩, fun he => ?_⟩
    have hlen : (V.visible (a.take (i + 1))).length = (V.visible (b.take (j + 1))).length := by
      rw [hweigh he] at hea heb
      exact hea.symm.trans heb
    exact (prefix_of_prefix_length_le hpa hpb (Nat.le_of_eq hlen)).eq_of_length hlen

theorem matched_findCommonTextTokenPrefix (V : Vocab) (a b : List Token) (start : ℕ)
    (exact : Bool) :
    Matched V (a.drop start) (b.drop start) exact
      (findCommonTextTokenPrefix V a b start exact) := by
  unfold findCommonTextTokenPrefix
  split
  case isTrue => exact .zero V _ _ exact
  case isFalse =>
    simp only [findNTokensFromString, findNTokensFromStringWithIgnore, drop_zero]
    cases exact with
    | true =>
      refine matched_of_tokenEnds rfl (fun s t => length_append) ?_
        fun h => absurd h (by simp)
      rw [commonPart_spec]
    | false =>
      exact matched_of_tokenEnds rfl (fun s t => by simp)
        (findCommonStringPrefix_spec _ _) fun _ => rfl

theorem commonTokens_spec (a b : List Token) :
    a.take (commonTokens a b) = b.take (commonTokens a b) ∧
      commonTokens a b ≤ a.length ∧ commonTokens a b ≤ b.length := by
  induction a, b using commonTokens.induct with
  | case1 a as bs ih => simpa [commonTokens] using ih
  | case2 a as b bs h => simp [commonTokens, h]
  | case3 a b h => simp [commonTokens.eq_2 _ _ h]

namespace ServerTokens

theorem IsText.ne_null {T : ServerTokens} (h : T.IsText) {i : ℕ} {t : Token}
    (ht : T.tokens[i]? = some t) : t ≠ .null :=
  fun heq => h (heq ▸ mem_of_getElem? ht)

theorem WellFormed.isText {T : ServerTokens} (h : T.WellFormed) (hm : T.hasMtmd = false) :
    T.IsText := by
  intro hmem
  obtain ⟨i, hi⟩ := getElem?_of_mem hmem
  obtain ⟨idx, c, hc, -⟩ := h.chunk_of_null hi
  rw [chunk?, h.media_of_hasMtmd hm] at hc
  cases hc

variable {a b : ServerTokens}

theorem commonPrefixExactFrom_text (hb : b.IsText) {i : ℕ}
    (hpre : a.tokens.take i = b.tokens.take i) (hi : i ≤ min a.size b.size) :
    ∃ n, commonPrefixExactFrom a b i = .ok n ∧ a.tokens.take n = b.tokens.take n ∧
      n ≤ min a.size b.size := by
  unfold commonPrefixExactFrom
  simp only
  split
  case isFalse => exact ⟨_, rfl, by rwa [le_antisymm (not_lt.mp ‹_›) hi], le_refl _⟩
  case isTrue hlt =>
    rw [if_neg fun h => hb.ne_null h.2 rfl]
    split
    case isFalse => exact ⟨i, rfl, hpre, hi⟩
    case isTrue heq =>
      refine commonPrefixExactFrom_text hb ?_ hlt
      rw [take_add_one, take_add_one, hpre, heq]
termination_by min a.size b.size - i

/-- What is found to agree token by token holds no media, as the text does not. -/
theorem getCommonPrefixExact_text (hb : b.IsText) :
    ∃ n, getCommonPrefixExact a b = .ok n ∧ a.tokens.take n = b.tokens.take n ∧
      n ≤ min a.size b.size := by
  unfold getCommonPrefixExact
  split
  case isTrue => exact commonPrefixExactFrom_text hb rfl (Nat.zero_le _)
  case isFalse =>
    obtain ⟨htake, ha, hb⟩ := commonTokens_spec a.tokens b.tokens
    exact ⟨_, rfl, htake, Nat.le_min.mpr ⟨ha, hb⟩⟩

/-- The walk stops before the first media: the text has none to put beside them. -/
theorem commonPrefixFrom_text (V : Vocab) (hb : b.IsText) (exact : Bool)
    {n : ℕ} (hpre : a.tokens.take n = b.tokens.take n) {x y : ℕ}
    (hx : n + x ≤ a.tokens.length) (hy : n + y ≤ b.tokens.length)
    (hnull : .null ∉ a.tokens.take (n + x)) :
    ∃ r, commonPrefixFrom V a b exact (n + x) (n + y) ((a.tokens.drop n).take x)
        ((b.tokens.drop n).take y) (n, n) = .ok r ∧
      Matched V a.tokens b.tokens exact r ∧ .null ∉ a.tokens.take r.1 := by
  unfold commonPrefixFrom
  simp only
  split
  case isFalse =>
    have hm := matched_findCommonTextTokenPrefix V ((a.tokens.drop n).take x)
      ((b.tokens.drop n).take y) 0 exact
    rw [drop_zero, drop_zero] at hm
    have hle := hm.fst_le
    rw [length_take] at hle
    refine ⟨_, rfl, hm.of_take.add hpre (by omega) (by omega), fun hmem => hnull ?_⟩
    exact (take_prefix_take_left (by simp only [prefixAdd]; omega)).subset hmem
  case isTrue h =>
    have hbget : b.tokens[n + y]? = some (b.tokens.get ⟨n + y, h.2⟩) := by simp [h.2]
    have haget : a.tokens[n + x]? = some (a.tokens.get ⟨n + x, h.1⟩) := by simp [h.1]
    have hbi := hb.ne_null hbget
    have hbs : (b.tokens.drop n).take y ++ [b.tokens.get ⟨n + y, h.2⟩] =
        (b.tokens.drop n).take (y + 1) := by
      rw [take_add_one, getElem?_drop, hbget, Option.toList_some]
    rw [if_neg fun h => hbi h.2, if_neg hbi, if_neg hbi, hbs]
    split
    case isTrue hai => exact commonPrefixFrom_text V hb exact hpre (y := y + 1) hx h.2 hnull
    case isFalse hai =>
      have has : (a.tokens.drop n).take x ++ [a.tokens.get ⟨n + x, h.1⟩] =
          (a.tokens.drop n).take (x + 1) := by
        rw [take_add_one, getElem?_drop, haget, Option.toList_some]
      rw [has]
      refine commonPrefixFrom_text V hb exact hpre (x := x + 1) (y := y + 1) h.1 h.2 fun hmem => ?_
      rw [← Nat.add_assoc, take_add_one, haget, mem_append] at hmem
      rcases hmem with hmem | hmem
      · exact hnull hmem
      · exact hai (mem_singleton.mp hmem).symm
termination_by a.tokens.length - x + (b.tokens.length - y)

/-- With a text the common prefix is a match, and none of it is media. -/
theorem getCommonPrefix_text (V : Vocab) (hb : b.IsText) (exact : Bool)
    (ha : a.WellFormed) :
    ∃ r, getCommonPrefix V a b exact = .ok r ∧ Matched V a.tokens b.tokens exact r ∧
      .null ∉ a.tokens.take r.1 := by
  obtain ⟨n, hn, hpre, hle⟩ := getCommonPrefixExact_text (a := a) hb
  unfold getCommonPrefix
  rw [hn]
  simp only
  split
  case isTrue =>
    refine commonPrefixFrom_text V hb exact hpre (x := 0) (y := 0) ?_ ?_ ?_
    · exact Nat.le_trans hle (Nat.min_le_left _ _)
    · exact Nat.le_trans hle (Nat.min_le_right _ _)
    · rw [Nat.add_zero, hpre]
      exact fun hmem => hb (mem_of_mem_take hmem)
  case isFalse hm =>
    refine ⟨_, rfl, (matched_findCommonTextTokenPrefix V _ _ n exact).add hpre ?_ ?_, ?_⟩
    · exact Nat.le_trans hle (Nat.min_le_left _ _)
    · exact Nat.le_trans hle (Nat.min_le_right _ _)
    · exact fun hmem => ha.isText (by simpa using hm) (mem_of_mem_take hmem)

end ServerTokens
end ExpertPin.Server
