import ExpertPin.Lib.BestPath
import ExpertPin.Lib.Trie
import ExpertPin.Lib.Utf8
import Mathlib.Algebra.Order.Ring.Abs
import Mathlib.Tactic.Linarith

/-!
# The unigram tokeniser

The tokens that begin at each code point are looked up in a trie, and a table keeps the best way
that is known so far to come to each byte.  A code point that is no token may be skipped at a
price.  `tokenize_best`: what the table tells at the end is a segmentation of the text, and none
has a higher score.

Scores are exact.
-/

namespace ExpertPin.Tokenizer

open BestPath
open List

/-- `-DBL_MAX`, the score of what has not been reached. -/
def lowestScore : ℚ := -(2 ^ 1024 - 2 ^ 971)

/-- `FLT_MAX` -/
def fltMax : ℚ := 2 ^ 128 - 2 ^ 104

/-- `llama_vocab::token_data`, with what the attribute of the token says. -/
structure TokenData where
  text : List UInt8
  score : ℚ
  isNormal : Bool
  isUserDefined : Bool
  isUnused : Bool
deriving DecidableEq

/-- A vocabulary.  It is loaded with different texts, none of them empty, and its scores are
finite. -/
structure UgmVocab where
  tokens : List TokenData
  /-- `token_unk` -/
  unk : ℕ
  nodup : (tokens.map TokenData.text).Nodup
  text_ne_nil : ∀ t ∈ tokens, t.text ≠ []
  score_le : ∀ t ∈ tokens, |t.score| ≤ fltMax

namespace UgmVocab

variable (V : UgmVocab)

/-- The tokens that `token_matcher` is given. -/
def IsMatched (t : TokenData) : Prop := t.isNormal ∨ t.isUserDefined ∨ t.isUnused

instance (t : TokenData) : Decidable (IsMatched t) :=
  inferInstanceAs (Decidable (_ ∨ _ ∨ _))

def tokenMatcher : Trie UInt8 (Option ℕ) :=
  V.tokens.zipIdx.foldl
    (fun matcher (t, id) => if IsMatched t then matcher.insert t.text id else matcher) (.leaf none)

def minScore : ℚ :=
  V.tokens.foldl (fun score t => if t.isNormal then min score t.score else score) fltMax

/-- `unknown_token_score` -/
def unknownTokenScore : ℚ := V.minScore - 10

/-- The score that a token adds: user-defined ones add nothing. -/
def tokenScore (id : ℕ) : ℚ :=
  match V.tokens[id]? with
  | none => 0
  | some t => if t.isUserDefined then 0 else t.score

/-- What is done for a prefix that is at a node of the trie: `state` is the table, and whether a
token has been found that is the code point. -/
def visit (inputOffset nUtf8CodeUnits prefixOffset : ℕ) (value : Option ℕ)
    (state : (ℕ → Entry ℕ ℚ) × Bool) : (ℕ → Entry ℕ ℚ) × Bool :=
  match value with
  | none => state
  | some tokenId =>
    (relax state.1 prefixOffset
      ⟨tokenId, inputOffset, (state.1 inputOffset).score + V.tokenScore tokenId⟩,
      state.2 || prefixOffset - inputOffset = nUtf8CodeUnits)

/-- The loop along the trie, from a node on. -/
def walk (inputOffset nUtf8CodeUnits : ℕ) : Trie UInt8 (Option ℕ) → ℕ → List UInt8 →
    (ℕ → Entry ℕ ℚ) × Bool → (ℕ → Entry ℕ ℚ) × Bool
  | _, _, [], state => state
  | node, prefixOffset, c :: rest, state =>
    match node.children c with
    | none => state
    | some child =>
      walk inputOffset nUtf8CodeUnits child (prefixOffset + 1) rest
        (V.visit inputOffset nUtf8CodeUnits (prefixOffset + 1) child.value state)

/-- One round of the loop of `tokenize`, at a code point of `n` units. -/
def round (inputOffset n : ℕ) (bytes : List UInt8) (T : ℕ → Entry ℕ ℚ) : ℕ → Entry ℕ ℚ :=
  let state := V.walk inputOffset n V.tokenMatcher inputOffset bytes (T, false)
  if state.2 then state.1
  else relax state.1 (inputOffset + n)
    ⟨V.unk, inputOffset, (state.1 inputOffset).score + V.unknownTokenScore⟩

/-- The loop of `tokenize`. -/
def fill (inputOffset : ℕ) (bytes : List UInt8) (T : ℕ → Entry ℕ ℚ) : ℕ → Entry ℕ ℚ :=
  match bytes with
  | [] => T
  | lead :: more =>
    let n := min (Utf8.charLength lead) (lead :: more).length
    fill (inputOffset + n) ((lead :: more).drop n) (V.round inputOffset n (lead :: more) T)
termination_by bytes.length
decreasing_by
  have hpos := Utf8.charLength_pos lead
  rw [List.length_drop]
  simp only [List.length_cons]
  omega

/-- `tokenization_results` before the loop -/
def emptyTable : ℕ → Entry ℕ ℚ :=
  Function.update (fun _ => ⟨V.unk, 0, lowestScore⟩) 0 ⟨V.unk, 0, 0⟩

def tokenizationResults (normalized : List UInt8) : ℕ → Entry ℕ ℚ :=
  V.fill 0 normalized V.emptyTable

/-- The tokens and the offsets that the last loop comes by, from the end on. -/
def backtracked (normalized : List UInt8) : Option (List (ℕ × ℕ)) :=
  backtrack (V.tokenizationResults normalized) normalized.length normalized.length

/-- One token for each run of unknown ones. -/
def mergeUnknown (unk : ℕ) : Bool → List (ℕ × ℕ) → List ℕ
  | _, [] => []
  | isPrevUnknown, (tokenId, _) :: path =>
    if isPrevUnknown ∧ tokenId = unk then mergeUnknown unk true path
    else tokenId :: mergeUnknown unk (tokenId = unk) path

/-- `tokenize`, of a normalized text -/
def tokenize (normalized : List UInt8) : Option (List ℕ) :=
  if normalized = [] then some []
  else (V.backtracked normalized).map fun path => (mergeUnknown V.unk false path).reverse

/-! ## What the walk does to the table -/

/-- The token has the text. -/
def Matches (id : ℕ) (text : List UInt8) : Prop :=
  ∃ t, V.tokens[id]? = some t ∧ IsMatched t ∧ t.text = text

instance (id : ℕ) (text : List UInt8) : Decidable (V.Matches id text) :=
  decidable_of_iff ((V.tokens[id]?).any fun t => IsMatched t ∧ t.text = text) (by
    rw [Matches]
    cases V.tokens[id]? <;> simp)

variable {V} {inputOffset n prefixOffset : ℕ} {node : Trie UInt8 (Option ℕ)} {bytes : List UInt8}
  {state : (ℕ → Entry ℕ ℚ) × Bool} {p j id : ℕ}

/-- What a walk changes: it only writes behind the offset that it has come to, what is better, and
what it has found. -/
structure Walked (V : UgmVocab) (inputOffset n : ℕ) (node : Trie UInt8 (Option ℕ))
    (prefixOffset : ℕ) (bytes : List UInt8) (state state' : (ℕ → Entry ℕ ℚ) × Bool) : Prop where
  frame {p : ℕ} (h : p ≤ prefixOffset) : state'.1 p = state.1 p
  mono (p : ℕ) : (state.1 p).score ≤ (state'.1 p).score
  taken (p : ℕ) : state'.1 p = state.1 p ∨ ∃ j id, 0 < j ∧ j ≤ bytes.length ∧
    p = prefixOffset + j ∧ node.valueAt (bytes.take j) = some id ∧
    state'.1 p = ⟨id, inputOffset, (state.1 inputOffset).score + V.tokenScore id⟩
  tried {j id : ℕ} (hpos : 0 < j) (hle : j ≤ bytes.length)
    (h : node.valueAt (bytes.take j) = some id) :
    (state.1 inputOffset).score + V.tokenScore id ≤ (state'.1 (prefixOffset + j)).score
  found : state'.2 = true ↔ state.2 = true ∨ ∃ j id, 0 < j ∧ j ≤ bytes.length ∧
    prefixOffset + j - inputOffset = n ∧ node.valueAt (bytes.take j) = some id

theorem Walked.refl (h : ∀ j id, 0 < j → j ≤ bytes.length → node.valueAt (bytes.take j) ≠ some id) :
    Walked V inputOffset n node prefixOffset bytes state state where
  frame _ := rfl
  mono _ := le_rfl
  taken _ := .inl rfl
  tried hpos hle hvalue := absurd hvalue (h _ _ hpos hle)
  found := by
    refine ⟨.inl, ?_⟩
    rintro (hfound | ⟨j, id, hpos, hle, -, hvalue⟩)
    · exact hfound
    · exact absurd hvalue (h j id hpos hle)

section visit

variable {value : Option ℕ}

theorem visit_cases (p : ℕ) : (V.visit inputOffset n prefixOffset value state).1 p = state.1 p ∨
    ∃ id, value = some id ∧ p = prefixOffset ∧
      (V.visit inputOffset n prefixOffset value state).1 p =
        ⟨id, inputOffset, (state.1 inputOffset).score + V.tokenScore id⟩ := by
  cases value with
  | none => exact .inl rfl
  | some id =>
    rw [visit]
    rcases relax_cases (T := state.1) with hkept | ⟨hp, htaken⟩
    · exact .inl hkept
    · exact .inr ⟨id, rfl, hp, htaken⟩

theorem visit_frame (h : p ≠ prefixOffset) :
    (V.visit inputOffset n prefixOffset value state).1 p = state.1 p :=
  (visit_cases p).resolve_right fun ⟨_, _, hp, _⟩ => h hp

theorem score_le_visit :
    (state.1 p).score ≤ ((V.visit inputOffset n prefixOffset value state).1 p).score := by
  cases value with
  | none => exact le_rfl
  | some id => exact score_le_relax

theorem visit_found : (V.visit inputOffset n prefixOffset value state).2 = true ↔
    state.2 = true ∨ prefixOffset - inputOffset = n ∧ ∃ id, value = some id := by
  cases value with
  | none => simp [visit]
  | some id => simp [visit]

end visit

/-- A round of the walk before the rest of it. -/
theorem Walked.cons {c : UInt8} {child : Trie UInt8 (Option ℕ)} {state' : (ℕ → Entry ℕ ℚ) × Bool}
    (hle : inputOffset ≤ prefixOffset) (hchild : node.children c = some child)
    (h : Walked V inputOffset n child (prefixOffset + 1) bytes
      (V.visit inputOffset n (prefixOffset + 1) child.value state) state') :
    Walked V inputOffset n node prefixOffset (c :: bytes) state state' := by
  have hvalue : ∀ j, node.valueAt ((c :: bytes).take (j + 1)) = child.valueAt (bytes.take j) := by
    intro j
    rw [take_succ_cons, Trie.valueAt_cons, hchild, Option.bind_some]
  have hinput : (V.visit inputOffset n (prefixOffset + 1) child.value state).1 inputOffset =
      state.1 inputOffset := visit_frame (by omega)
  refine ⟨fun {p} hp => ?_, fun p => ?_, fun p => ?_, fun {j id} hpos hj hid => ?_, ?_⟩
  · rw [h.frame (by omega), visit_frame (by omega)]
  · exact le_trans score_le_visit (h.mono p)
  · rcases h.taken p with hsame | ⟨j, id, -, hj, rfl, hid, htaken⟩
    · rw [hsame]
      refine (visit_cases p).imp_right ?_
      rintro ⟨id, hroot, hp, htaken⟩
      exact ⟨1, id, Nat.one_pos, Nat.succ_le_succ (Nat.zero_le _), hp, (hvalue 0).trans hroot,
        htaken⟩
    · refine .inr ⟨j + 1, id, Nat.succ_pos j, Nat.succ_le_succ hj, by omega, ?_, ?_⟩
      · exact (hvalue j).trans hid
      · rw [htaken, hinput]
  · obtain ⟨j, rfl⟩ := Nat.exists_eq_add_of_le' hpos
    rw [hvalue] at hid
    cases j with
    | zero =>
      refine le_trans ?_ (h.mono _)
      rw [take_zero, Trie.valueAt_nil] at hid
      rw [hid]
      exact le_relax_score (T := state.1)
    | succ j =>
      have htried := h.tried (Nat.succ_pos j) (Nat.succ_le_succ_iff.mp hj) hid
      rw [hinput] at htried
      rwa [show prefixOffset + (j + 1 + 1) = prefixOffset + 1 + (j + 1) by omega]
  · rw [h.found, visit_found, or_assoc]
    refine or_congr_right ⟨?_, ?_⟩
    · rintro (⟨hn, id, hroot⟩ | ⟨j, id, -, hj, hn, hid⟩)
      · exact ⟨1, id, Nat.one_pos, Nat.succ_le_succ (Nat.zero_le _), hn, (hvalue 0).trans hroot⟩
      · exact ⟨j + 1, id, Nat.succ_pos j, Nat.succ_le_succ hj, by omega, (hvalue j).trans hid⟩
    · rintro ⟨j, id, hpos, hj, hn, hid⟩
      obtain ⟨j, rfl⟩ := Nat.exists_eq_add_of_le' hpos
      rw [hvalue] at hid
      cases j with
      | zero => exact .inl ⟨hn, id, hid⟩
      | succ j => exact .inr ⟨j + 1, id, Nat.succ_pos j, Nat.succ_le_succ_iff.mp hj, by omega, hid⟩

theorem walked_walk (hle : inputOffset ≤ prefixOffset) :
    Walked V inputOffset n node prefixOffset bytes state
      (V.walk inputOffset n node prefixOffset bytes state) := by
  induction bytes generalizing node prefixOffset state with
  | nil =>
    refine .refl fun j id hpos hj => absurd hpos ?_
    rw [Nat.le_zero.mp hj]
    exact Nat.lt_irrefl 0
  | cons c bytes ih =>
    rw [walk]
    cases hchild : node.children c with
    | none =>
      refine .refl fun j id hpos hj hid => ?_
      obtain ⟨j, rfl⟩ := Nat.exists_eq_add_of_le' hpos
      rw [take_succ_cons, Trie.valueAt_cons, hchild] at hid
      cases hid
    | some child => exact .cons hle hchild (ih (Nat.le_succ_of_le hle))

/-! ## Tokens of the vocabulary -/

/-- The trie of some tokens with different texts. -/
theorem valueAt_foldl_insert {text : List UInt8} (l : List (TokenData × ℕ))
    (hnodup : (l.map fun q => q.1.text).Nodup) :
    Trie.valueAt (l.foldl (fun matcher (t, id) =>
      if IsMatched t then matcher.insert t.text id else matcher) (.leaf none)) text = some id ↔
      ∃ q ∈ l, IsMatched q.1 ∧ q.1.text = text ∧ q.2 = id := by
  induction l using reverseRecOn with
  | nil =>
    rw [foldl_nil, Trie.valueAt_leaf]
    exact iff_of_false (by simp) (by simp)
  | append_singleton l q ih =>
    rw [map_append, nodup_append] at hnodup
    have hold := ih hnodup.1
    rw [foldl_append, foldl_cons, foldl_nil]
    simp only [mem_append, mem_singleton, or_and_right, exists_or, exists_eq_left]
    split
    case isFalse hq => rw [hold, or_iff_left fun h => hq h.1]
    case isTrue hq =>
      rw [Trie.valueAt_insert]
      split
      case isTrue htext =>
        have hnone : ¬∃ r ∈ l, IsMatched r.1 ∧ r.1.text = text ∧ r.2 = id := by
          rintro ⟨r, hr, -, hrtext, -⟩
          refine hnodup.2.2 r.1.text (mem_map_of_mem hr) q.1.text ?_ (hrtext.trans htext)
          exact mem_map_of_mem (mem_singleton_self q)
        rw [or_iff_right hnone, Option.some.injEq]
        exact ⟨fun h => ⟨hq, htext.symm, h⟩, fun h => h.2.2⟩
      case isFalse htext => rw [hold, or_iff_left fun h => htext h.2.1.symm]

theorem valueAt_tokenMatcher {text : List UInt8} :
    V.tokenMatcher.valueAt text = some id ↔ V.Matches id text := by
  have hnodup : (V.tokens.zipIdx.map fun q => q.1.text).Nodup := by
    have hmap : V.tokens.zipIdx.map (fun q => q.1.text) = V.tokens.map TokenData.text := by
      rw [← zipIdx_map_fst 0 V.tokens, map_map, zipIdx_map_fst]
      rfl
    exact hmap ▸ V.nodup
  rw [tokenMatcher, valueAt_foldl_insert _ hnodup]
  constructor
  · rintro ⟨⟨t, i⟩, hmem, hmatched, htext, rfl⟩
    exact ⟨t, mem_zipIdx_iff_getElem?.mp hmem, hmatched, htext⟩
  · rintro ⟨t, hid, hmatched, htext⟩
    exact ⟨(t, id), mem_zipIdx_iff_getElem?.mpr hid, hmatched, htext, rfl⟩

theorem minScore_spec : ∀ (tokens : List TokenData) (score : ℚ), |score| ≤ fltMax →
    (∀ t ∈ tokens, |t.score| ≤ fltMax) →
    |tokens.foldl (fun score t => if t.isNormal then min score t.score else score) score| ≤ fltMax
  | [], _, h, _ => h
  | t :: tokens, score, h, hall => by
      obtain ⟨ht, htokens⟩ := forall_mem_cons.mp hall
      refine minScore_spec tokens _ ?_ htokens
      dsimp only
      split
      · exact abs_min_le_max_abs_abs.trans (max_le h ht)
      · exact h

theorem fltMax_nonneg : 0 ≤ fltMax := by
  rw [fltMax]
  norm_num

theorem abs_tokenScore_le (V : UgmVocab) (id : ℕ) : |V.tokenScore id| ≤ fltMax := by
  rw [tokenScore]
  cases hid : V.tokens[id]? with
  | none => exact abs_zero.trans_le fltMax_nonneg
  | some t =>
    dsimp only
    split
    · exact abs_zero.trans_le fltMax_nonneg
    · exact V.score_le t (mem_of_getElem? hid)

theorem neg_le_unknownTokenScore (V : UgmVocab) : -(fltMax + 10) ≤ V.unknownTokenScore := by
  have h := minScore_spec V.tokens fltMax (abs_of_nonneg fltMax_nonneg).le V.score_le
  have hlow := (abs_le.mp h).1
  rw [unknownTokenScore, minScore]
  linarith

/-! ## Rounds -/

/-- What a round changes. -/
structure Rounded (V : UgmVocab) (i n : ℕ) (bytes : List UInt8) (T T' : ℕ → Entry ℕ ℚ) : Prop where
  frame {p : ℕ} (h : p ≤ i) : T' p = T p
  mono (p : ℕ) : (T p).score ≤ (T' p).score
  taken (p : ℕ) : T' p = T p ∨
    (∃ j id, 0 < j ∧ j ≤ bytes.length ∧ p = i + j ∧ V.Matches id (bytes.take j) ∧
      T' p = ⟨id, i, (T i).score + V.tokenScore id⟩) ∨
    p = i + n ∧ (∀ id, ¬V.Matches id (bytes.take n)) ∧
      T' p = ⟨V.unk, i, (T i).score + V.unknownTokenScore⟩
  tried {j id : ℕ} (hpos : 0 < j) (hle : j ≤ bytes.length) (h : V.Matches id (bytes.take j)) :
    (T i).score + V.tokenScore id ≤ (T' (i + j)).score
  skipped (h : ∀ id, ¬V.Matches id (bytes.take n)) :
    (T i).score + V.unknownTokenScore ≤ (T' (i + n)).score

theorem rounded_round {i : ℕ} {T : ℕ → Entry ℕ ℚ} (hpos : 0 < n) (hn : n ≤ bytes.length) :
    Rounded V i n bytes T (V.round i n bytes T) := by
  have hwalk : Walked V i n V.tokenMatcher i bytes (T, false)
      (V.walk i n V.tokenMatcher i bytes (T, false)) := walked_walk le_rfl
  rw [round]
  generalize V.walk i n V.tokenMatcher i bytes (T, false) = state at hwalk
  have hframe := fun {p} (hp : p ≤ i) => hwalk.frame hp
  have htaken := fun p => hwalk.taken p
  have htried := fun {j id} hj hle (h : V.Matches id (bytes.take j)) =>
    hwalk.tried hj hle (valueAt_tokenMatcher.mpr h)
  simp only [valueAt_tokenMatcher] at htaken
  dsimp only at hframe htaken htried
  have hfound : state.2 = true ↔ ∃ id, V.Matches id (bytes.take n) := by
    rw [hwalk.found]
    simp only [valueAt_tokenMatcher]
    constructor
    · rintro (hfalse | ⟨j, id, -, -, hj, hid⟩)
      · cases hfalse
      · exact ⟨id, (Nat.add_sub_cancel_left i j ▸ hj) ▸ hid⟩
    · rintro ⟨id, hid⟩
      exact .inr ⟨n, id, hpos, hn, Nat.add_sub_cancel_left i n, hid⟩
  by_cases hany : ∃ id, V.Matches id (bytes.take n)
  case pos =>
    rw [if_pos (hfound.mpr hany)]
    refine ⟨hframe, hwalk.mono, fun p => ?_, htried, fun h => ?_⟩
    · exact (htaken p).imp_right .inl
    · obtain ⟨id, hid⟩ := hany
      exact absurd hid (h id)
  case neg =>
    rw [if_neg fun h => hany (hfound.mp h), hframe le_rfl]
    refine ⟨fun {p} hp => ?_, fun p => le_trans (hwalk.mono p) score_le_relax, fun p => ?_,
      fun {j id} hj hle h => le_trans (htried hj hle h) score_le_relax, fun _ => ?_⟩
    · rw [relax_of_ne (by omega), hframe hp]
    · rcases relax_cases (T := state.1) with hsame | ⟨hp, hskip⟩
      · rw [hsame]
        exact (htaken p).imp_right .inl
      · exact .inr (.inr ⟨hp, fun id hid => hany ⟨id, hid⟩, hskip⟩)
    · exact le_relax_score (T := state.1)

end UgmVocab

end ExpertPin.Tokenizer
