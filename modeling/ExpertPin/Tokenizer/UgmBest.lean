import ExpertPin.Tokenizer.Ugm

/-!
# Best segmentations

The table of the unigram tokeniser keeps the best scores of all beginnings of a text that end
between two characters.  A token may end inside a character too, but no step goes on from there.
-/

namespace ExpertPin.Tokenizer

open BestPath
open Utf8 (encode)
open List

namespace UgmVocab

variable {V : UgmVocab}

/-! ## Segmentations -/

/-- A step over some characters: a token, or a character that is no token, marked as unknown. -/
structure IsStep (V : UgmVocab) (id : ℕ) (run : List Char) (w : ℚ) : Prop where
  ne_nil : run ≠ []
  score : V.Matches id (encode run) ∧ w = V.tokenScore id ∨
    run.length = 1 ∧ id = V.unk ∧ (∀ other, ¬V.Matches other (encode run)) ∧
      w = V.unknownTokenScore

/-- An edge for each step over a part of the text. -/
def IsEdge (V : UgmVocab) (text : List Char) : Edges ℕ ℚ := fun p id q w =>
  ∃ before run after, text = before ++ (run ++ after) ∧ p = (encode before).length ∧
    q = p + (encode run).length ∧ IsStep V id run w

/-- The positions between characters. -/
def IsBoundary (text : List Char) (p : ℕ) : Prop :=
  ∃ before after, text = before ++ after ∧ p = (encode before).length

section encode

variable {a b c d : List Char}

theorem encode_append (a b : List Char) :
    encode (a ++ b) = encode a ++ encode b := flatMap_append

theorem encode_eq_nil (h : (encode a).length = 0) : a = [] :=
  length_eq_zero_iff.mp (Nat.le_zero.mp (h ▸ Utf8.length_le_length_encode a))

/-- Of two beginnings of a text the one with no more bytes is the shorter one. -/
theorem exists_run (h : a ++ b = c ++ d) (hle : (encode a).length ≤ (encode c).length) :
    ∃ run, c = a ++ run ∧ b = run ++ d := by
  rcases append_eq_append_iff.mp h with ⟨run, hc, hb⟩ | ⟨run, rfl, rfl⟩
  · exact ⟨run, hc, hb⟩
  · rw [encode_append, length_append] at hle
    obtain rfl := encode_eq_nil (a := run) (by omega)
    exact ⟨[], by simp, by simp⟩

end encode

/-! ## The table -/

variable {text : List Char} {T : ℕ → Entry ℕ ℚ} {i : ℕ}

/-- All edges from before a position have been tried. -/
structure Filled (V : UgmVocab) (text : List Char) (i : ℕ) (T : ℕ → Entry ℕ ℚ) : Prop where
  start : (T 0).score = 0
  taken {q : ℕ} (hq : IsBoundary text q) (hne : q ≠ 0) : (T q).score = lowestScore ∨
    (T q).source < i ∧ (T q).source < q ∧ ∃ w, IsEdge V text (T q).source (T q).label q w ∧
      (T q).score = (T (T q).source).score + w
  tried {p q id : ℕ} {w : ℚ} (hp : p < i) (he : IsEdge V text p id q w) :
    (T p).score + w ≤ (T q).score

theorem filled_emptyTable (V : UgmVocab) (text : List Char) : Filled V text 0 V.emptyTable where
  start := by rw [emptyTable, Function.update_self]
  taken {q} _ hne := .inl (by rw [emptyTable, Function.update_of_ne hne])
  tried hp := absurd hp (Nat.not_lt_zero _)

/-- The edges from the position between two parts of the text. -/
theorem isEdge_at {before rest : List Char} {id q : ℕ} {w : ℚ} (htext : text = before ++ rest)
    (he : IsEdge V text (encode before).length id q w) :
    ∃ run after, rest = run ++ after ∧
      q = (encode before).length + (encode run).length ∧ IsStep V id run w := by
  obtain ⟨before', run, after, htext', hlen, hq, hstep⟩ := he
  obtain ⟨x, rfl, hrest⟩ := exists_run (htext.symm.trans htext') hlen.le
  rw [encode_append, length_append] at hlen
  obtain rfl := encode_eq_nil (a := x) (by omega)
  exact ⟨run, after, hrest, hq, hstep⟩

variable {before after : List Char}

theorem Filled.round {c : Char} (htext : text = before ++ c :: after)
    (h : Filled V text (encode before).length T) :
    Filled V text (encode (before ++ [c])).length
      (V.round (encode before).length (encode [c]).length (encode (c :: after))
        T) := by
  have hbytes : encode (c :: after) = encode [c] ++ encode after :=
    encode_append [c] after
  have hpos : 0 < (encode [c]).length :=
    Nat.lt_of_lt_of_le Nat.one_pos (Utf8.length_le_length_encode [c])
  have hround := rounded_round (V := V) (T := T) (i := (encode before).length) hpos
    (hbytes ▸ (length_append ▸ Nat.le_add_right _ _))
  have hend : (encode (before ++ [c])).length =
      (encode before).length + (encode [c]).length := by
    rw [encode_append, length_append]
  have htake : ∀ run rest, c :: after = run ++ rest →
      (encode (c :: after)).take (encode run).length = encode run := by
    intro run rest hrun
    rw [hrun, encode_append, take_left' rfl]
  generalize V.round _ _ _ T = T' at hround
  refine ⟨?_, fun {q} hq hne => ?_, fun {p q id w} hp he => ?_⟩
  · rw [hround.frame (Nat.zero_le _), h.start]
  · rcases hround.taken q with hsame | ⟨j, id, hj, hle, rfl, hmatch, htaken⟩ |
      ⟨rfl, hnone, hskipped⟩
    · rw [hsame]
      rcases h.taken hq hne with hlow | ⟨hlt, hltq, w, he, hscore⟩
      · exact .inl hlow
      · exact .inr ⟨by omega, hltq, w, he, by rw [hround.frame hlt.le, hscore]⟩
    · obtain ⟨before', after', htext', hlen⟩ := hq
      obtain ⟨run, rfl, hrun⟩ := exists_run (htext.symm.trans htext') (by omega)
      rw [encode_append, length_append, Nat.add_left_cancel_iff] at hlen
      rw [hlen, htake run after' hrun] at hmatch
      refine .inr ?_
      rw [htaken]
      dsimp only
      refine ⟨by omega, by omega, V.tokenScore id, ?_, ?_⟩
      · refine ⟨before, run, after', by rw [htext', append_assoc], rfl, by rw [hlen], ?_, ?_⟩
        · rintro rfl
          exact absurd hlen hj.ne'
        · exact .inl ⟨hmatch, rfl⟩
      · rw [hround.frame le_rfl]
    · rw [htake [c] after rfl] at hnone
      refine .inr ?_
      rw [hskipped]
      dsimp only
      refine ⟨by omega, by omega, V.unknownTokenScore, ?_, ?_⟩
      · exact ⟨before, [c], after, htext, rfl, rfl, cons_ne_nil c [],
          .inr ⟨rfl, rfl, hnone, rfl⟩⟩
      · rw [hround.frame le_rfl]
  · rcases Nat.lt_or_ge p (encode before).length with hlt | hge
    · rw [hround.frame hlt.le]
      exact le_trans (h.tried hlt he) (hround.mono q)
    · -- inside of the character no step begins
      obtain rfl : p = (encode before).length := by
        obtain ⟨before', run, after', htext', rfl, -⟩ := he
        obtain ⟨x, rfl, hx⟩ := exists_run (htext.symm.trans htext') hge
        cases x with
        | nil => rw [append_nil]
        | cons d x =>
          obtain ⟨rfl, -⟩ := cons.inj hx
          rw [hend, encode_append, length_append, Utf8.encode_cons, length_append] at hp
          simp only [encode, flatMap_cons, flatMap_nil, append_nil] at hp
          omega
      obtain ⟨run, rest, hrun, rfl, hstep⟩ := isEdge_at htext he
      rw [hround.frame le_rfl]
      have hrunpos : 0 < (encode run).length := by
        refine Nat.pos_of_ne_zero fun hzero => hstep.ne_nil (encode_eq_nil hzero)
      have hrunle : (encode run).length ≤ (encode (c :: after)).length := by
        rw [hrun, encode_append, length_append]
        exact Nat.le_add_right _ _
      rcases hstep.score with ⟨hmatch, rfl⟩ | ⟨hone, rfl, hnone, rfl⟩
      · exact hround.tried hrunpos hrunle (by rwa [htake run rest hrun])
      · obtain ⟨d, rfl⟩ := length_eq_one_iff.mp hone
        obtain ⟨rfl, -⟩ := cons.inj hrun
        exact hround.skipped (by rwa [htake [c] after rfl])

theorem Filled.fill {before rest : List Char} (htext : text = before ++ rest)
    (h : Filled V text (encode before).length T) :
    Filled V text (encode text).length
      (V.fill (encode before).length (encode rest) T) := by
  induction rest generalizing before T with
  | nil =>
    rw [append_nil] at htext
    have hnil : encode [] = [] := rfl
    rw [htext] at h ⊢
    rwa [hnil, UgmVocab.fill]
  | cons c rest ih =>
    obtain ⟨lead, more, hchar, -, -, hlen⟩ := Utf8.utf8EncodeChar_eq_cons c
    have hone : encode [c] = lead :: more := by
      rw [encode, flatMap_cons, flatMap_nil, append_nil, hchar]
    have hcons : encode (c :: rest) = lead :: (more ++ encode rest) := by
      rw [← cons_append, ← hone]
      exact encode_append [c] rest
    have hn : min (Utf8.charLength lead) (lead :: (more ++ encode rest)).length =
        (encode [c]).length := by
      rw [← hlen, hone, length_cons, length_cons, length_append]
      omega
    have hdrop : (lead :: (more ++ encode rest)).drop (encode [c]).length =
        encode rest := by
      rw [hone, ← cons_append, drop_left' rfl]
    have hround := h.round htext
    have hsplit : text = before ++ [c] ++ rest := by
      rw [htext, append_assoc]
      rfl
    have hnext := ih hsplit hround
    rw [hcons, UgmVocab.fill, hn, hdrop, ← hcons]
    rwa [encode_append, length_append] at hnext

theorem filled_tokenizationResults (V : UgmVocab) (text : List Char) :
    Filled V text (encode text).length (V.tokenizationResults (encode text)) := by
  have hsplit : text = [] ++ text := rfl
  exact (filled_emptyTable V text).fill hsplit

/-- No sum of as many scores as a text can have bytes is as low as what stands for no sum. -/
theorem lowestScore_lt : lowestScore < -((fltMax + 10) * 2 ^ 64) := by
  have hsplit : (2 : ℚ) ^ 1024 = 2 ^ 971 * 2 ^ 53 := by rw [← pow_add]
  have hlarge : (2 : ℚ) ^ 200 ≤ 2 ^ 971 := pow_le_pow_right₀ (by norm_num) (by norm_num)
  have hbound : (fltMax + 10) * 2 ^ 64 < 2 ^ 200 := by
    rw [fltMax]
    norm_num
  rw [lowestScore, hsplit]
  generalize (2 : ℚ) ^ 971 = x at hlarge
  linarith

/-- Over a single character there is always a step, and it does not cost too much. -/
theorem exists_step (V : UgmVocab) (c : Char) : ∃ id w, IsStep V id [c] w ∧ -(fltMax + 10) ≤ w := by
  by_cases hany : ∃ id, V.Matches id (encode [c])
  case pos =>
    obtain ⟨id, hid⟩ := hany
    refine ⟨id, V.tokenScore id, ⟨cons_ne_nil c [], .inl ⟨hid, rfl⟩⟩, ?_⟩
    have hle := (abs_le.mp (V.abs_tokenScore_le id)).1
    linarith
  case neg =>
    have hnone : ∀ id, ¬V.Matches id (encode [c]) := fun id hid => hany ⟨id, hid⟩
    exact ⟨V.unk, V.unknownTokenScore, ⟨cons_ne_nil c [], .inr ⟨rfl, rfl, hnone, rfl⟩⟩,
      V.neg_le_unknownTokenScore⟩

/-- What is known of a position between characters is no less than so much for each byte. -/
theorem Filled.lower (h : Filled V text (encode text).length T)
    (htext : text = before ++ after) :
    -((fltMax + 10) * (encode before).length) ≤ (T (encode before).length).score := by
  induction before using reverseRecOn generalizing after with
  | nil =>
    change _ ≤ (T 0).score
    rw [h.start]
    simp [encode]
  | append_singleton before c ih =>
    rw [append_assoc] at htext
    have hlow := ih htext
    obtain ⟨id, w, hstep, hw⟩ := exists_step V c
    have hpos : 1 ≤ (encode [c]).length := Utf8.length_le_length_encode [c]
    have hlt : (encode before).length < (encode text).length := by
      rw [htext, encode_append, encode_append, length_append, length_append]
      omega
    have htried := h.tried hlt ⟨before, [c], after, htext, rfl, rfl, hstep⟩
    rw [encode_append, length_append]
    have hcast : ((encode before).length : ℚ) + 1 ≤
        ((encode before).length + (encode [c]).length : ℕ) := by
      exact_mod_cast Nat.add_le_add_left hpos _
    have hmul := mul_le_mul_of_nonneg_left hcast
      (add_nonneg fltMax_nonneg (by norm_num : (0 : ℚ) ≤ 10))
    linarith

/-- The table is complete. -/
theorem Filled.solved (h : Filled V text (encode text).length T)
    (hlt : (encode text).length < 2 ^ 64) :
    Solved (IsEdge V text) (IsBoundary text) T where
  start := h.start
  taken {q} hq hne := by
    have hreached : (T q).score ≠ lowestScore := by
      obtain ⟨before, after, htext, rfl⟩ := hq
      have hlow := h.lower htext
      have hle : (encode before).length ≤ 2 ^ 64 := by
        refine Nat.le_trans ?_ hlt.le
        rw [htext, encode_append, length_append]
        exact Nat.le_add_right _ _
      have hcast : ((encode before).length : ℚ) ≤ 2 ^ 64 := by exact_mod_cast hle
      have hmul := mul_le_mul_of_nonneg_left hcast
        (add_nonneg fltMax_nonneg (by norm_num : (0 : ℚ) ≤ 10))
      have hbound := lowestScore_lt
      intro heq
      linarith
    obtain ⟨-, hltq, w, he, hscore⟩ := (h.taken hq hne).resolve_left hreached
    obtain ⟨before, run, after, htext, hp, -⟩ := id he
    exact ⟨hltq, ⟨before, run ++ after, htext, hp⟩, w, he, hscore⟩
  tried {p q l w} hp he := by
    obtain ⟨before, run, after, htext, hlen, hq, hstep⟩ := id he
    have hend : q = (encode (before ++ run)).length := by
      rw [encode_append, length_append, hq, hlen]
    refine ⟨⟨before ++ run, after, by rw [htext, append_assoc], hend⟩, h.tried ?_ he⟩
    have hpos : 0 < (encode run).length :=
      Nat.pos_of_ne_zero fun hzero => hstep.ne_nil (encode_eq_nil hzero)
    rw [hlen, htext, encode_append, encode_append, length_append, length_append]
    omega
  reached_zero := ⟨[], text, rfl, rfl⟩

/-! ## Segmentations of a text -/

/-- A token with the characters that it is for. -/
abbrev Segment : Type := ℕ × List Char

variable (V) in
/-- What a step adds: a token its own score, and a character that is none the score of unknown
ones. -/
def segmentScore (s : Segment) : ℚ :=
  if V.Matches s.1 (encode s.2) then V.tokenScore s.1 else V.unknownTokenScore

/-- The text is made up of tokens, and of characters that are no tokens, marked as unknown. -/
structure IsSegmentation (V : UgmVocab) (text : List Char) (segments : List Segment) : Prop where
  covers : segments.flatMap Prod.snd = text
  step : ∀ s ∈ segments, IsStep V s.1 s.2 (V.segmentScore s)

variable (V) in
def score (segments : List Segment) : ℚ := (segments.map V.segmentScore).sum

/-- The tokens with the offsets that they begin at. -/
def withOffsets : ℕ → List Segment → List (ℕ × ℕ)
  | _, [] => []
  | p, s :: segments => (s.1, p) :: withOffsets (p + (encode s.2).length) segments

theorem withOffsets_append (p : ℕ) (segments : List Segment) (s : Segment) :
    withOffsets p (segments ++ [s]) = withOffsets p segments ++
      [(s.1, p + (encode (segments.flatMap Prod.snd)).length)] := by
  induction segments generalizing p with
  | nil => rfl
  | cons r segments ih =>
    rw [cons_append, withOffsets, ih, withOffsets, flatMap_cons, encode_append,
      length_append, Nat.add_assoc]
    rfl

theorem IsStep.score_eq {id : ℕ} {run : List Char} {w : ℚ} (h : IsStep V id run w) :
    V.segmentScore (id, run) = w := by
  rw [segmentScore]
  rcases h.score with ⟨hmatch, rfl⟩ | ⟨-, -, hnone, rfl⟩
  · exact if_pos hmatch
  · exact if_neg (hnone id)

/-- A path of the table is a segmentation. -/
theorem exists_segmentation {q : ℕ} {path : List (ℕ × ℕ)} {w : ℚ}
    (h : Path (IsEdge V text) q path w) :
    ∃ before after segments, text = before ++ after ∧ q = (encode before).length ∧
      IsSegmentation V before segments ∧ withOffsets 0 segments = path ∧ V.score segments = w := by
  induction h with
  | nil => exact ⟨[], text, [], rfl, rfl, ⟨rfl, fun s hs => absurd hs not_mem_nil⟩, rfl, rfl⟩
  | @snoc p q path s w id _ he ih =>
    obtain ⟨before, after, segments, htext, rfl, hsegments, hpath, hscore⟩ := ih
    obtain ⟨run, rest, rfl, hq, hstep⟩ := isEdge_at htext he
    refine ⟨before ++ run, rest, segments ++ [(id, run)], ?_, ?_, ⟨?_, ?_⟩, ?_, ?_⟩
    · rw [htext, append_assoc]
    · rw [encode_append, length_append, hq]
    · rw [flatMap_append, hsegments.covers, flatMap_cons, flatMap_nil,
        append_nil]
    · intro r hr
      rcases mem_append.mp hr with hr | hr
      · exact hsegments.step r hr
      · rw [mem_singleton.mp hr, hstep.score_eq]
        exact hstep
    · rw [withOffsets_append, hpath, hsegments.covers, Nat.zero_add]
    · rw [score, map_append, sum_append, map_singleton, sum_singleton,
        hstep.score_eq, ← hscore, score]

/-- A segmentation is a path. -/
theorem path_of_segmentation {segments : List Segment}
    (htext : text = before ++ after) (h : IsSegmentation V before segments) :
    Path (IsEdge V text) (encode before).length (withOffsets 0 segments)
      (V.score segments) := by
  induction segments using reverseRecOn generalizing before after with
  | nil =>
    obtain rfl : before = [] := h.covers.symm
    exact .nil
  | append_singleton segments s ih =>
    obtain ⟨hcovers, hstep⟩ := h
    rw [flatMap_append, flatMap_cons, flatMap_nil, append_nil] at hcovers
    subst hcovers
    rw [append_assoc] at htext
    have hpath := ih htext ⟨rfl, fun r hr => hstep r (mem_append_left _ hr)⟩
    rw [withOffsets_append, Nat.zero_add, score, map_append, sum_append,
      map_singleton, sum_singleton]
    refine hpath.snoc ⟨_, s.2, after, htext, rfl, ?_, ?_⟩
    · rw [encode_append, length_append]
    · exact hstep s (mem_append_right _ (mem_singleton_self s))

/-- **The unigram tokeniser goes back along a best segmentation** of a text that is not empty and
fits into memory. -/
theorem tokenize_best (V : UgmVocab) (text : List Char) (hne : text ≠ [])
    (hlt : (encode text).length < 2 ^ 64) :
    ∃ path segments, V.backtracked (encode text) = some path ∧
      path.reverse = withOffsets 0 segments ∧ IsSegmentation V text segments ∧
      ∀ others, IsSegmentation V text others → V.score others ≤ V.score segments := by
  have hsolved := (filled_tokenizationResults V text).solved hlt
  have hend : (encode text).length ≠ 0 := fun hzero => hne (encode_eq_nil hzero)
  obtain ⟨path, hpath, hbest, hall⟩ :=
    hsolved.best ⟨text, [], (append_nil text).symm, rfl⟩ hend
  obtain ⟨before, after, segments, htext, hlen, hsegments, hoffsets, hscore⟩ :=
    exists_segmentation hbest
  obtain rfl : after = [] := by
    rw [htext, encode_append, length_append] at hlen
    exact encode_eq_nil (by omega)
  rw [append_nil] at htext
  subst htext
  refine ⟨path, segments, hpath, hoffsets.symm, hsegments, fun others hothers => ?_⟩
  rw [hscore]
  exact hall _ _ (path_of_segmentation (append_nil text).symm hothers)

/-- Two letters, of which the second is a token only behind the first. -/
def letters : UgmVocab where
  tokens := [⟨[97], -1, true, false, false⟩, ⟨[97, 98], -2, true, false, false⟩]
  unk := 2
  nodup := by decide
  text_ne_nil := by decide
  score_le := by
    have h : (2 : ℚ) ≤ fltMax := by
      rw [fltMax]
      norm_num
    refine List.forall_mem_cons.mpr ⟨?_, List.forall_mem_singleton.mpr ?_⟩
    · rw [abs_neg, abs_one]
      linarith
    · rwa [abs_neg, abs_two]

theorem tokenize_best_letters :
    ∃ path segments, letters.backtracked (encode ['b', 'a', 'b']) = some path ∧
      path.reverse = withOffsets 0 segments ∧ IsSegmentation letters ['b', 'a', 'b'] segments ∧
      ∀ others, IsSegmentation letters ['b', 'a', 'b'] others →
        letters.score others ≤ letters.score segments :=
  tokenize_best letters ['b', 'a', 'b'] (cons_ne_nil _ _) (by decide)

end UgmVocab

end ExpertPin.Tokenizer
