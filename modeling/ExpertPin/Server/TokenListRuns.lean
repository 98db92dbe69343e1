import ExpertPin.Lib.Returns
import ExpertPin.Server.TokenPieces
import Mathlib.Data.List.Pairwise

/-!
# Changing token lists

Tokens and media are pushed to a list and cut off it.  Most operations keep the map in step with
the tokens; `resize` and `clear` leave it alone, `discard_n_tokens` does not look where its cut
ends, and single tokens can be set to the empty one.  `run_states_iff` says which runs keep both
views of the list in step.
-/

namespace ExpertPin.Server

open ServerTokens (Failure)
open List
open Nat

/-- What `push_back` takes: a chunk of text, or an image or audio. -/
inductive InputChunk
  | text (tokens : List Token)
  | media (c : Chunk) (hpos : 0 < c.nPos)

/-- What ends an operation before it returns. -/
inductive OpFailure
  | invalidToken
  | outOfRange
  | of (e : Failure)
deriving DecidableEq, Repr

inductive TokenOp
  | pushToken (t : Token)
  | pushChunk (chunk : InputChunk)
  | pushTokens (other : ServerTokens)
  | insert (tokens : List Token)
  | setToken (pos : ℤ) (t : Token)
  | keepFirst (n : ℕ)
  | resize (size : ℕ)
  | clear
  | discardNTokens (nKeep nDiscard : ℤ)

namespace ServerTokens

/-- `push_back` of each of some tokens. -/
def pushBackAll (T : ServerTokens) (tokens : List Token) : Except OpFailure ServerTokens :=
  if .null ∈ tokens then .error .invalidToken else .ok { T with tokens := T.tokens ++ tokens }

/-- `push_back` of a chunk -/
def pushBackChunk (T : ServerTokens) : InputChunk → Except OpFailure ServerTokens
  | .media c _ =>
    if T.hasMtmd then
      .ok { T with
        tokens := T.tokens ++ List.replicate c.nTokens .null
        media := Dict.set T.media T.size c }
    else .error (.of .assertion)
  | .text tokens => T.pushBackAll tokens

/-- `push_back` of another list: first its tokens, then its map. -/
def pushBackTokens (T other : ServerTokens) : Except OpFailure ServerTokens := do
  let pushed ← T.pushBackAll other.tokens
  if other.hasMtmd then
    if T.hasMtmd then
      return { pushed with
        media := other.media.foldl (fun media q => Dict.set media (T.size + q.1) q.2) T.media }
    else .error (.of .assertion)
  else return pushed

/-- `insert` -/
def insertAll (T : ServerTokens) (tokens : List Token) : Except OpFailure ServerTokens :=
  if T.hasMtmd then .error (.of .assertion) else .ok { T with tokens := T.tokens ++ tokens }

/-- `set_token`; there has to be a token at the position. -/
def setToken (T : ServerTokens) (pos : ℤ) (t : Token) : Except OpFailure ServerTokens :=
  if T.hasMtmd then .error (.of .assertion)
  else if 0 ≤ pos ∧ pos < T.size then .ok { T with tokens := T.tokens.set pos.toNat t }
  else .error .outOfRange

/-- `resize` -/
def resize (T : ServerTokens) (size : ℕ) : ServerTokens :=
  { T with tokens := T.tokens.take size ++ List.replicate (size - T.size) 0 }

/-- `clear` -/
def clear (T : ServerTokens) : ServerTokens := { T with tokens := [] }

end ServerTokens

def TokenOp.run (T : ServerTokens) : TokenOp → Except OpFailure ServerTokens
  | pushToken t => T.pushBackAll [t]
  | pushChunk chunk => T.pushBackChunk chunk
  | pushTokens other => T.pushBackTokens other
  | insert tokens => T.insertAll tokens
  | setToken pos t => T.setToken pos t
  | keepFirst n => (T.keepFirst n).mapError .of
  | resize size => .ok (T.resize size)
  | clear => .ok T.clear
  | discardNTokens nKeep nDiscard => (T.discardNTokens nKeep nDiscard).mapError .of

/-! ## What the two views should agree on -/

namespace ServerTokens

/-- The index is behind the first token of a chunk, and before its end. -/
def Inside (T : ServerTokens) (n : ℤ) : Prop :=
  ∃ q ∈ T.media, (q.1 : ℤ) < n ∧ n < q.1 + q.2.nTokens

/-- The positions of the first `n` tokens: one for each text token, and those of the chunks. -/
def positionsOfFirst (T : ServerTokens) (n : ℕ) : ℕ :=
  ((T.tokens.take n).filter (· ≠ .null)).length + ((T.media.filter (·.1 < n)).map (·.2.nPos)).sum

/-- The tokens and the map are in step. -/
structure InStep (T : ServerTokens) : Prop where
  /-- Empty are the tokens of the chunks. -/
  tiles (i : ℕ) : T.tokens[i]? = some .null ↔ ∃ q ∈ T.media, q.1 ≤ i ∧ i < q.1 + q.2.nTokens
  /-- No token is of two chunks. -/
  once : T.media.Pairwise fun q r => q.1 + q.2.nTokens ≤ r.1 ∨ r.1 + r.2.nTokens ≤ q.1
  posNext_all (n : ℤ) (hn : n < 0) : T.posNext n = .ok (T.positionsOfFirst T.size)
  posNext (n : ℕ) (hn : n ≤ T.size) (hout : ¬T.Inside n) : T.posNext n = .ok (T.positionsOfFirst n)
  sizeUpToPos (n : ℕ) (hn : n ≤ T.size) (hout : ¬T.Inside n) :
    ∃ p, T.posNext n = .ok p ∧ T.sizeUpToPos p = n

/-- An index is of one chunk only. -/
theorem InStep.chunk_unique {T : ServerTokens} (h : T.InStep) {q r : ℕ × Chunk} (hq : q ∈ T.media)
    (hr : r ∈ T.media) {i : ℕ} (hqi : q.1 ≤ i ∧ i < q.1 + q.2.nTokens)
    (hri : r.1 ≤ i ∧ i < r.1 + r.2.nTokens) : q = r := by
  by_contra hne
  have hsymm : Std.Symm fun q r : ℕ × Chunk =>
      q.1 + q.2.nTokens ≤ r.1 ∨ r.1 + r.2.nTokens ≤ q.1 := ⟨fun q r hor => hor.symm⟩
  have hside := h.once.forall hq hr hne
  omega

end ServerTokens

variable {pieces a b : List Piece} {T T' : ServerTokens} {tokens : List Token} {idx n : ℕ}

theorem getElem?_tokensOf_null (pieces : List Piece) (idx i : ℕ) :
    (tokensOf pieces)[i]? = some .null ↔
      ∃ q ∈ mediaFrom idx pieces, q.1 ≤ idx + i ∧ idx + i < q.1 + q.2.nTokens := by
  induction pieces generalizing idx i with
  | nil =>
    refine iff_of_false (by simp) ?_
    rintro ⟨q, hq, -⟩
    exact not_mem_nil hq
  | cons p pieces ih =>
    have htail : ∀ q ∈ mediaFrom (idx + p.nTokens) pieces, idx + p.nTokens ≤ q.1 :=
      fun q hq => le_of_mem_mediaFrom hq
    rw [tokensOf_cons, mediaFrom]
    rcases Nat.lt_or_ge i p.nTokens with hlt | hge
    · rw [getElem?_append_left hlt]
      cases p with
      | text t h =>
        have hi : i = 0 := by rw [Piece.nTokens_text] at hlt; omega
        subst hi
        refine iff_of_false (fun hnull => h (Option.some.inj hnull)) ?_
        rintro ⟨q, hq, hle, -⟩
        have hfrom := htail q (by simpa [Piece.chunk?] using hq)
        rw [Piece.nTokens_text] at hfrom
        omega
      | media c h =>
        rw [Piece.nTokens_media] at hlt
        refine iff_of_true (getElem?_replicate_of_lt hlt) ⟨(idx, c), ?_, ?_⟩
        · exact mem_append_left _ (by simp [Piece.chunk?])
        · exact ⟨Nat.le_add_right _ _, Nat.add_lt_add_left hlt _⟩
    · rw [getElem?_append_right hge, ← Piece.nTokens, ih]
      have hadd : idx + p.nTokens + (i - p.nTokens) = idx + i := by omega
      rw [hadd]
      constructor
      · rintro ⟨q, hq, h⟩
        exact ⟨q, mem_append_right _ hq, h⟩
      · rintro ⟨q, hq, hle, hlt⟩
        rcases mem_append.mp hq with hq | hq
        · cases p with
          | text => exact absurd hq (by simp [Piece.chunk?])
          | media c h =>
            obtain rfl : q = (idx, c) := by simpa [Piece.chunk?] using hq
            rw [Piece.nTokens_media] at hge
            dsimp only at hlt
            omega
        · exact ⟨q, hq, hle, hlt⟩

theorem countsOf_eq_posOf (idx : ℕ) (pieces : List Piece) :
    ((tokensOf pieces).filter (· ≠ .null)).length +
      ((mediaFrom idx pieces).map (·.2.nPos)).sum = posOf pieces := by
  induction pieces generalizing idx with
  | nil => rfl
  | cons p pieces ih =>
    rw [tokensOf_cons, mediaFrom, filter_append, length_append, map_append,
      sum_append, posOf_cons, ← ih (idx + p.nTokens)]
    cases p with
    | text t h =>
      have hkeep : [t].filter (· ≠ .null) = [t] := by simp [h]
      rw [Piece.tokens, hkeep, Piece.chunk?, Piece.nPos]
      simp only [Option.toList_none, map_nil, sum_nil, length_singleton]
      omega
    | media c h =>
      have hdrop : (replicate c.nTokens Token.null).filter (· ≠ .null) = [] := by simp
      rw [Piece.tokens, hdrop, Piece.chunk?, Piece.nPos]
      simp only [Option.toList_some, map_cons, map_nil, sum_cons, sum_nil,
        length_nil]
      omega

/-- The chunks before a cut. -/
theorem filter_mediaFrom (a b : List Piece) :
    (mediaFrom 0 (a ++ b)).filter (·.1 < lengthOf a) = mediaFrom 0 a := by
  rw [mediaFrom_append, filter_append, filter_eq_self.mpr, filter_eq_nil_iff.mpr,
    append_nil]
  · intro q hq
    have hle := le_of_mem_mediaFrom hq
    rw [decide_eq_true_eq]
    omega
  · intro q hq
    have hle := end_le_of_mem_mediaFrom hq
    have hpos := q.2.nTokens_pos
    rw [decide_eq_true_eq]
    omega

namespace ServerTokens

theorem Shows.take (h : T.Shows (a ++ b)) : T.tokens.take (lengthOf a) = tokensOf a := by
  rw [h.tokens, tokensOf_append, take_left' (length_tokensOf a)]

theorem Shows.positionsOfFirst (h : T.Shows (a ++ b)) :
    T.positionsOfFirst (lengthOf a) = posOf a := by
  rw [ServerTokens.positionsOfFirst, h.take, h.media, filter_mediaFrom, countsOf_eq_posOf]

/-- A cut that is not inside of media is between two pieces. -/
theorem Shows.split (h : T.Shows pieces) (hn : n ≤ T.size) (hout : ¬T.Inside n) :
    ∃ a b, pieces = a ++ b ∧ lengthOf a = n := by
  rcases split_or_inside pieces (h.size ▸ hn) with hsplit | ⟨a, c, hpos, b, heq, hlo, hhi⟩
  · exact hsplit
  · refine absurd ⟨(lengthOf a, c), ?_, ?_, ?_⟩ hout
    · rw [h.media]
      exact mem_mediaFrom.mpr ⟨a, hpos, b, heq, (zero_add _).symm⟩
    · exact Int.ofNat_lt.mpr hlo
    · dsimp only
      omega

/-- Both views of a sequence are in step. -/
theorem Shows.inStep (h : T.Shows pieces) : T.InStep where
  tiles i := by
    have htiles := getElem?_tokensOf_null pieces 0 i
    rwa [zero_add, ← h.tokens, ← h.media] at htiles
  once := by
    rw [h.media]
    exact (pairwise_mediaFrom 0 pieces).imp fun hle => .inl hle
  posNext_all n hn := by
    have happend : T.Shows (pieces ++ []) := by rwa [append_nil]
    rw [h.posNext_all hn, h.size, happend.positionsOfFirst]
  posNext n hn hout := by
    obtain ⟨a, b, rfl, rfl⟩ := h.split hn hout
    rw [h.posNext, h.positionsOfFirst]
  sizeUpToPos n hn hout := by
    obtain ⟨a, b, rfl, rfl⟩ := h.split hn hout
    exact ⟨posOf a, h.posNext, h.sizeUpToPos⟩

end ServerTokens

/-! ## Steps -/

/-- When an operation that returns keeps the list in step. -/
def TokenOp.Keeps (T : ServerTokens) : TokenOp → Prop
  | pushTokens other => other.hasMtmd = true → other.media = []
  | insert tokens => .null ∉ tokens
  | setToken _ t => t ≠ .null
  | resize size => ∀ q ∈ T.media, q.1 + q.2.nTokens ≤ size
  | clear => T.media = []
  | discardNTokens nKeep nDiscard =>
    0 < nDiscard → nKeep + nDiscard < T.size → ¬T.Inside (nKeep + nDiscard)
  | _ => True

/-- Text as pieces. -/
theorem exists_pieces (h : Token.null ∉ tokens) :
    ∃ pieces, tokensOf pieces = tokens ∧ ∀ idx, mediaFrom idx pieces = [] := by
  induction tokens with
  | nil => exact ⟨[], rfl, fun _ => rfl⟩
  | cons t tokens ih =>
    rw [mem_cons, not_or] at h
    obtain ⟨pieces, htokens, hmedia⟩ := ih h.2
    refine ⟨.text t (Ne.symm h.1) :: pieces, congrArg (t :: ·) htokens, fun idx => ?_⟩
    rw [mediaFrom, hmedia]
    rfl

namespace ServerTokens

theorem Shows.append_text (h : T.Shows pieces) (htext : Token.null ∉ tokens) :
    ∃ pieces', Shows { T with tokens := T.tokens ++ tokens } pieces' := by
  obtain ⟨more, rfl, hmedia⟩ := exists_pieces htext
  refine ⟨pieces ++ more, ?_, ?_, h.media_of_hasMtmd⟩
  · rw [h.tokens, tokensOf_append]
  · rw [mediaFrom_append, hmedia, append_nil]
    exact h.media

theorem shows_of_text (hmedia : T.media = []) (htext : Token.null ∉ T.tokens) :
    ∃ pieces, T.Shows pieces := by
  obtain ⟨pieces, htokens, hnone⟩ := exists_pieces htext
  exact ⟨pieces, htokens.symm, hmedia.trans (hnone 0).symm, fun _ => hmedia⟩

theorem InStep.null_notMem (h : T.InStep) (hmedia : T.media = []) : Token.null ∉ T.tokens := by
  intro hmem
  obtain ⟨i, hi⟩ := getElem?_of_mem hmem
  obtain ⟨q, hq, -⟩ := (h.tiles i).mp hi
  rw [hmedia] at hq
  exact not_mem_nil hq

theorem pushBackAll_spec (T : ServerTokens) (tokens : List Token) :
    Ensures (T.pushBackAll tokens) fun T' =>
      .null ∉ tokens ∧ T' = { T with tokens := T.tokens ++ tokens } :=
  .ite (fun _ => .error _) fun htext => .ok ⟨htext, rfl⟩

theorem Shows.pushBackChunk (h : T.Shows pieces) (chunk : InputChunk) :
    Ensures (T.pushBackChunk chunk) fun T' => ∃ pieces', T'.Shows pieces' := by
  cases chunk with
  | text tokens =>
    refine (pushBackAll_spec T tokens).mono fun T' hT' => ?_
    rw [hT'.2]
    exact h.append_text hT'.1
  | media c hpos =>
    refine .ite (fun hm => .ok ⟨pieces ++ [.media c hpos], ?_, ?_, ?_⟩) fun _ => .error _
    · rw [h.tokens, tokensOf_append, tokensOf_cons, tokensOf_nil, append_nil]
      rfl
    · have hnew : T.size ∉ T.media.map Prod.fst := by
        intro hmem
        obtain ⟨q, hq, hidx⟩ := mem_map.mp hmem
        rw [h.media] at hq
        have hle := end_le_of_mem_mediaFrom hq
        have hnTokens := q.2.nTokens_pos
        rw [hidx, h.size] at hle
        omega
      rw [Dict.set_of_not_mem hnew, mediaFrom_append, h.media, h.size, zero_add]
      rfl
    · exact fun hm' => absurd hm (Bool.eq_false_iff.mp hm')

theorem Shows.pushBackTokens (h : T.Shows pieces) (other : ServerTokens) :
    Ensures (T.pushBackTokens other) fun T' =>
      .null ∉ other.tokens ∧ T'.tokens = T.tokens ++ other.tokens ∧
      (other.hasMtmd = false → T'.media = T.media) ∧
      (other.hasMtmd = true → T'.media =
        other.media.foldl (fun media q => Dict.set media (T.size + q.1) q.2) T.media) ∧
      (other.hasMtmd = false ∨ other.media = [] → ∃ pieces', T'.Shows pieces') := by
  refine (pushBackAll_spec T other.tokens).bind fun pushed hpushed => ?_
  obtain ⟨htext, rfl⟩ := hpushed
  refine .ite (fun hm => .ite (fun _ => .pure ?_) fun _ => .error _) fun hm => .pure ?_
  · refine ⟨htext, rfl, fun hm' => absurd hm (Bool.eq_false_iff.mp hm'), fun _ => rfl, ?_⟩
    rintro (hm' | hnil)
    · exact absurd hm (Bool.eq_false_iff.mp hm')
    · rw [hnil]
      exact h.append_text htext
  · exact ⟨htext, rfl, fun _ => rfl, fun hm' => absurd hm' hm, fun _ => h.append_text htext⟩

/-- A cut between two pieces leaves the first ones. -/
theorem Shows.first (h : T.Shows (a ++ b)) : Shows { T with
      tokens := T.tokens.take (lengthOf a)
      media := T.media.filter fun (idx, _) => idx < lengthOf a } a where
  tokens := h.take
  media := h.media ▸ filter_mediaFrom a b
  media_of_hasMtmd hm := by rw [h.media_of_hasMtmd hm, filter_nil]

/-- A cut inside of media has an empty token at which no chunk begins. -/
theorem Shows.not_inside (h : T.Shows pieces)
    (hcut : ¬(T.tokens[n]? = some .null ∧ T.chunk? n = none)) : ¬T.Inside n := by
  rintro ⟨q, hq, hlo, hhi⟩
  have hin : q.1 ≤ n ∧ n < q.1 + q.2.nTokens := by omega
  refine hcut ⟨(h.inStep.tiles n).mpr ⟨q, hq, hin⟩, ?_⟩
  cases hc : T.chunk? n with
  | none => rfl
  | some c =>
    have hpos := c.nTokens_pos
    have heq := h.inStep.chunk_unique (Dict.mem_of_lookup hc) hq
      ⟨Nat.le_refl n, Nat.lt_add_of_pos_right hpos⟩ hin
    rw [← heq] at hlo
    exact absurd hlo (Int.lt_irrefl _)

/-- What is kept are the first pieces. -/
theorem Shows.keepFirst (h : T.Shows pieces) (n : ℕ) : Ensures (T.keepFirst n) fun T' =>
      T'.hasMtmd = T.hasMtmd ∧ ∃ a b, pieces = a ++ b ∧ lengthOf a = n ∧ T'.Shows a := by
  rw [ServerTokens.keepFirst]
  refine .ite (fun _ => .error _) fun hle => .ite (fun hm =>
    .ite (fun hn => .ok ⟨rfl, ?_⟩) fun hne =>
    .ite (fun _ => .error _) fun hcut => .ok ⟨rfl, ?_⟩) fun hm => .ok ⟨rfl, ?_⟩
  · exact ⟨pieces, [], (append_nil _).symm, h.size.symm.trans hn.symm, h⟩
  · obtain ⟨a, b, rfl, rfl⟩ := h.split (not_lt.mp hle) (h.not_inside hcut)
    exact ⟨a, b, rfl, rfl, h.first⟩
  · have hmedia := h.media_of_hasMtmd (Bool.eq_false_iff.mpr hm)
    have hout : ¬T.Inside n := by
      rintro ⟨q, hq, -⟩
      rw [hmedia] at hq
      exact not_mem_nil hq
    obtain ⟨a, b, rfl, rfl⟩ := h.split (not_lt.mp hle) hout
    have hfirst := h.first
    rw [hmedia, filter_nil, ← hmedia] at hfirst
    exact ⟨a, b, rfl, rfl, hfirst⟩

theorem Shows.resize (h : T.Shows pieces) {size : ℕ}
    (hkeeps : ∀ q ∈ T.media, q.1 + q.2.nTokens ≤ size) :
    ∃ pieces', (T.resize size).Shows pieces' := by
  have hzeros : Token.null ∉ replicate (size - T.size) (0 : Token) := by
    intro hmem
    exact absurd (eq_of_mem_replicate hmem) (by decide)
  have hout : ¬T.Inside (min size T.size : ℕ) := by
    rintro ⟨q, hq, hlo, hhi⟩
    have hle := hkeeps q hq
    rw [h.media] at hq
    have hsize := end_le_of_mem_mediaFrom hq
    rw [← h.size] at hsize
    omega
  obtain ⟨a, b, rfl, ha⟩ := h.split (min_le_right size T.size) hout
  have htake : T.tokens.take size = T.tokens.take (lengthOf a) := by
    rw [ha, take_eq_take_iff, min_assoc, min_self]
  have hmedia : (T.media.filter fun (idx, _) => idx < lengthOf a) = T.media := by
    refine filter_eq_self.mpr fun q hq => ?_
    have hle := hkeeps q hq
    have hpos := q.2.nTokens_pos
    rw [h.media] at hq
    have hsize := end_le_of_mem_mediaFrom hq
    rw [← h.size] at hsize
    rw [decide_eq_true_eq]
    omega
  have hfirst := h.first
  rw [hmedia, ← htake] at hfirst
  exact hfirst.append_text hzeros

/-- The first pieces are left, and the tokens and chunks from the end of the cut on. -/
theorem Shows.discardNTokens_cut (h : T.Shows pieces) {k d : ℤ} (hd : 0 < d)
    (hlt : k + d < T.size) :
    Ensures (T.discardNTokens k d) fun T' => 0 ≤ k ∧ T'.hasMtmd = T.hasMtmd ∧
      ∃ a m, pieces = a ++ m ∧ lengthOf a = k.toNat ∧
        T'.tokens = tokensOf a ++ T.tokens.drop (k + d).toNat ∧
        T'.media = mediaFrom 0 a ++ (T.media.filter fun (idx, _) => k + d ≤ idx).map
          fun (idx, chunk) => (idx - d.toNat, chunk) := by
  rw [ServerTokens.discardNTokens, if_neg (by omega)]
  refine .ite (fun _ => .error _) fun hk => ?_
  refine (h.keepFirst k.toNat).bind fun kept hkept => .pure ?_
  obtain ⟨hmtmd, a, m, heq, ha, hshows⟩ := hkept
  refine ⟨Int.not_lt.mp hk, hmtmd, a, m, heq, ha, ?_, ?_⟩
  · exact congrArg (· ++ _) hshows.tokens
  · exact congrArg (· ++ _) hshows.media

/-- What is left after a cut at the end of a piece. -/
theorem Shows.discardNTokens (h : T.Shows pieces) {k d : ℤ} (hd : 0 < d) (hlt : k + d < T.size)
    (hout : ¬T.Inside (k + d)) :
    Ensures (T.discardNTokens k d) fun T' => ∃ pieces', T'.Shows pieces' := by
  refine (h.discardNTokens_cut hd hlt).mono fun T' hT' => ?_
  obtain ⟨hk, hmtmd, a, m, rfl, ha, htokens, hmedia⟩ := hT'
  obtain ⟨k, rfl⟩ := Int.eq_ofNat_of_zero_le hk
  obtain ⟨d, rfl⟩ := Int.eq_ofNat_of_zero_le (Int.le_of_lt hd)
  obtain ⟨a', b, heq, ha'⟩ := h.split (n := k + d) (by omega) hout
  -- the pieces that are kept come before those that are discarded
  obtain ⟨x, rfl⟩ : ∃ x, a' = a ++ x := by
    rcases append_eq_append_iff.mp heq with ⟨x, rfl, -⟩ | ⟨x, rfl, -⟩
    · exact ⟨x, rfl⟩
    · rw [lengthOf_append] at ha
      have hx : x = [] := by
        cases x with
        | nil => rfl
        | cons q x =>
          have hq := q.nTokens_pos
          rw [lengthOf_cons] at ha
          omega
      exact ⟨[], by rw [hx, append_nil, append_nil]⟩
  rw [Int.toNat_natCast] at ha
  refine ⟨a ++ b, ?_, ?_, ?_⟩
  · have hlen : (tokensOf (a ++ x)).length = ((k : ℤ) + d).toNat := by
      rw [length_tokensOf, ha']
      omega
    rw [htokens, h.tokens, heq, tokensOf_append (a := a ++ x), drop_left' hlen,
      tokensOf_append]
  · have hlater : (mediaFrom 0 (a ++ x ++ b)).filter (fun (idx, _) => ((k : ℤ) + d) ≤ idx) =
        mediaFrom (k + d) b := by
      rw [mediaFrom_append, filter_append, filter_eq_nil_iff.mpr, nil_append,
        Nat.zero_add, ha', filter_eq_self.mpr]
      · intro q hq
        have hle := le_of_mem_mediaFrom hq
        rw [decide_eq_true_eq]
        omega
      · intro q hq
        have hle := end_le_of_mem_mediaFrom hq
        have hpos := q.2.nTokens_pos
        rw [decide_eq_true_eq]
        omega
    rw [hmedia, h.media, heq, hlater, mediaFrom_append, Nat.zero_add, ha, mediaFrom_add,
      map_map]
    refine congrArg (mediaFrom 0 a ++ ·) ((map_congr_left fun q _ => ?_).trans (map_id _))
    exact Prod.ext (Nat.add_sub_cancel q.1 d) rfl
  · intro hm
    have hnil := h.media_of_hasMtmd (hmtmd.symm.trans hm)
    have hfirst := h.media.symm.trans hnil
    rw [mediaFrom_append, append_eq_nil_iff] at hfirst
    rw [hmedia, hfirst.1, hnil]
    rfl

/-- A chunk that is cut in two leaves empty tokens without a chunk. -/
theorem Shows.not_inside_of_discard (h : T.Shows pieces) {k d : ℤ} (hd : 0 < d)
    (hlt : k + d < T.size) :
    Ensures (T.discardNTokens k d) fun T' => T'.InStep → ¬T.Inside (k + d) := by
  refine (h.discardNTokens_cut hd hlt).mono fun T' hT' => ?_
  obtain ⟨hk, -, a, m, rfl, ha, htokens, hmedia⟩ := hT'
  obtain ⟨k, rfl⟩ := Int.eq_ofNat_of_zero_le hk
  obtain ⟨d, rfl⟩ := Int.eq_ofNat_of_zero_le (Int.le_of_lt hd)
  rw [Int.toNat_natCast] at ha
  rintro hstep ⟨q, hq, hlo, hhi⟩
  have hnull : T'.tokens[k]? = some .null := by
    have hlen : (tokensOf a).length = k := (length_tokensOf a).trans ha
    have hidx : ((k : ℤ) + d).toNat + (k - k) = k + d := by omega
    rw [htokens, getElem?_append_right hlen.le, getElem?_drop, hlen, hidx]
    exact (h.inStep.tiles (k + d)).mpr ⟨q, hq, by omega, by omega⟩
  obtain ⟨r, hr, hle, hgt⟩ := (hstep.tiles k).mp hnull
  rw [hmedia] at hr
  rcases mem_append.mp hr with hr | hr
  · have hend := end_le_of_mem_mediaFrom hr
    omega
  · obtain ⟨⟨i, c⟩, hi, rfl⟩ := mem_map.mp hr
    obtain ⟨hi, hge⟩ := mem_filter.mp hi
    rw [decide_eq_true_eq] at hge
    have hpos := c.nTokens_pos
    have hstart : i = k + d := by
      dsimp only at hle
      omega
    have heq := h.inStep.chunk_unique (i := k + d) hi hq ⟨hstart.le, by dsimp only; omega⟩
      ⟨by omega, by omega⟩
    rw [← heq, hstart] at hlo
    exact absurd hlo (Int.lt_irrefl _)

/-- Every chunk of a list that is in step has its tokens. -/
theorem InStep.tokens_of_mem (h : T.InStep) {q : ℕ × Chunk} (hq : q ∈ T.media) {i : ℕ}
    (hle : q.1 ≤ i) (hlt : i < q.1 + q.2.nTokens) : T.tokens[i]? = some .null :=
  (h.tiles i).mpr ⟨q, hq, hle, hlt⟩

theorem le_of_inStep_resize {size : ℕ} (h : (T.resize size).InStep) {q : ℕ × Chunk}
    (hq : q ∈ T.media) : q.1 + q.2.nTokens ≤ size := by
  by_contra hlt
  have hpos := q.2.nTokens_pos
  have hnull := h.tokens_of_mem (q := q) hq (i := q.1 + q.2.nTokens - 1) (by omega) (by omega)
  rw [ServerTokens.resize] at hnull
  -- behind the kept tokens there is nothing, or tokens that are not empty
  rw [getElem?_append_right (by rw [length_take]; omega)] at hnull
  exact absurd (eq_of_mem_replicate (mem_of_getElem? hnull)) (by decide)

theorem mem_keys_foldl_set {start : ℕ} {media other : List (ℕ × Chunk)} {key : ℕ} :
    key ∈ (other.foldl (fun media q => Dict.set media (start + q.1) q.2) media).map Prod.fst ↔
      key ∈ media.map Prod.fst ∨ ∃ q ∈ other, key = start + q.1 := by
  induction other generalizing media with
  | nil => simp
  | cons q other ih =>
    rw [foldl_cons, ih, Dict.mem_map_fst_set, or_assoc, exists_mem_cons_iff]

theorem media_eq_nil_of_pushBackTokens (h : T.Shows pieces) (other : ServerTokens) :
    Ensures (T.pushBackTokens other) fun T' =>
      T'.InStep → other.hasMtmd = true → other.media = [] := by
  refine (h.pushBackTokens other).mono fun T' ⟨htext, htokens, _, hmedia, _⟩ hstep hm => ?_
  by_contra hne
  obtain ⟨q, hq⟩ := exists_mem_of_ne_nil _ hne
  have hkey : T.size + q.1 ∈ T'.media.map Prod.fst := by
    rw [hmedia hm]
    exact mem_keys_foldl_set.mpr (.inr ⟨q, hq, rfl⟩)
  obtain ⟨r, hr, heq⟩ := mem_map.mp hkey
  have hnull := hstep.tokens_of_mem hr (Nat.le_refl _) (Nat.lt_add_of_pos_right r.2.nTokens_pos)
  rw [htokens, heq, getElem?_append_right (Nat.le_add_right _ _)] at hnull
  exact htext (mem_of_getElem? hnull)

end ServerTokens

open ServerTokens

/-- **A step.**  A list is in step after an operation if and only if the operation keeps it so, and
then it shows a sequence again. -/
theorem step_spec (h : T.Shows pieces) (op : TokenOp) : Ensures (op.run T) fun T' =>
      (op.Keeps T → ∃ pieces', T'.Shows pieces') ∧ (T'.InStep → op.Keeps T) := by
  cases op with
  | pushToken t =>
    refine (pushBackAll_spec T [t]).mono fun T' ⟨htext, hT'⟩ => ⟨fun _ => ?_, fun _ => trivial⟩
    exact hT' ▸ h.append_text htext
  | pushChunk chunk =>
    exact (h.pushBackChunk chunk).mono fun T' hT' => ⟨fun _ => hT', fun _ => trivial⟩
  | pushTokens other =>
    intro T' hT'
    have hpush := h.pushBackTokens other T' hT'
    refine ⟨fun hkeeps => hpush.2.2.2.2 ?_, media_eq_nil_of_pushBackTokens h other T' hT'⟩
    cases hm : other.hasMtmd with
    | false => exact .inl rfl
    | true => exact .inr (hkeeps hm)
  | insert tokens =>
    refine .ite (fun _ => .error _) fun hm => .ok ⟨fun hkeeps => h.append_text hkeeps, ?_⟩
    intro hstep hmem
    have hmedia := h.media_of_hasMtmd (Bool.eq_false_iff.mpr hm)
    exact hstep.null_notMem hmedia (mem_append_right _ hmem)
  | setToken pos t =>
    refine .ite (fun _ => .error _) fun hm => .ite (fun hpos => .ok ?_) fun _ => .error _
    have hmedia := h.media_of_hasMtmd (Bool.eq_false_iff.mpr hm)
    refine ⟨fun hkeeps => shows_of_text hmedia fun hmem => ?_, fun hstep heq => ?_⟩
    · rcases mem_or_eq_of_mem_set hmem with hmem | heq
      · exact h.inStep.null_notMem hmedia hmem
      · exact hkeeps heq.symm
    · have hlt : pos.toNat < T.tokens.length := by
        have hsize : T.tokens.length = T.size := rfl
        omega
      exact hstep.null_notMem hmedia (heq ▸ mem_set hlt t)
  | keepFirst n =>
    refine Ensures.mapError ((h.keepFirst n).mono fun T' ⟨_, a, _, _, _, hshows⟩ => ?_)
    exact ⟨fun _ => ⟨a, hshows⟩, fun _ => trivial⟩
  | resize size => exact .ok ⟨h.resize, fun hstep q hq => le_of_inStep_resize hstep hq⟩
  | clear =>
    refine .ok ⟨fun hkeeps => shows_of_text hkeeps not_mem_nil, fun hstep => ?_⟩
    refine eq_nil_iff_forall_not_mem.mpr fun q hq => ?_
    have hnull := hstep.tokens_of_mem hq (Nat.le_refl _) (Nat.lt_add_of_pos_right q.2.nTokens_pos)
    cases hnull
  | discardNTokens k d =>
    refine Ensures.mapError ?_
    by_cases hd : 0 < d ∧ k + d < T.size
    case pos =>
      intro T' hT'
      exact ⟨fun hkeeps => h.discardNTokens hd.1 hd.2 (hkeeps hd.1 hd.2) T' hT',
        fun hstep _ _ => h.not_inside_of_discard hd.1 hd.2 T' hT' hstep⟩
    case neg =>
      rw [ServerTokens.discardNTokens, if_pos (by omega)]
      exact .ok ⟨fun _ => ⟨pieces, h⟩, fun _ hpos hlt => absurd ⟨hpos, hlt⟩ hd⟩

/-! ## Runs -/

/-- Every list that a run comes to, as far as its operations return. -/
def EveryState (P : ServerTokens → Prop) : ServerTokens → List TokenOp → Prop
  | T, [] => P T
  | T, op :: ops => P T ∧ ∀ T', op.run T = .ok T' → EveryState P T' ops

/-- Every operation of a run that returns. -/
def EveryStep (Q : ServerTokens → TokenOp → Prop) : ServerTokens → List TokenOp → Prop
  | _, [] => True
  | T, op :: ops => ∀ T', op.run T = .ok T' → Q T op ∧ EveryStep Q T' ops

/-- A list that nothing has been pushed to. -/
def ServerTokens.new (hasMtmd : Bool) : ServerTokens where
  hasMtmd := hasMtmd
  tokens := []
  media := []

theorem states_iff_of_shows (h : T.Shows pieces) (ops : List TokenOp) :
    EveryState InStep T ops ↔ EveryStep (fun T op => op.Keeps T) T ops := by
  induction ops generalizing T pieces with
  | nil => exact iff_of_true h.inStep trivial
  | cons op ops ih =>
    constructor
    · rintro ⟨-, hstates⟩ T' hT'
      have hstates' := hstates T' hT'
      have hstep : T'.InStep := by
        cases ops with
        | nil => exact hstates'
        | cons => exact hstates'.1
      have hkeeps := (step_spec h op T' hT').2 hstep
      obtain ⟨pieces', hshows⟩ := (step_spec h op T' hT').1 hkeeps
      exact ⟨hkeeps, (ih hshows).mp hstates'⟩
    · intro hsteps
      refine ⟨h.inStep, fun T' hT' => ?_⟩
      obtain ⟨hkeeps, hrest⟩ := hsteps T' hT'
      obtain ⟨pieces', hshows⟩ := (step_spec h op T' hT').1 hkeeps
      exact (ih hshows).mpr hrest

/-- **Which runs keep a list in step**: those whose operations all do. -/
theorem run_states_iff (hasMtmd : Bool) (ops : List TokenOp) :
    EveryState InStep (.new hasMtmd) ops ↔
      EveryStep (fun T op => op.Keeps T) (.new hasMtmd) ops := by
  have hshows : Shows (.new hasMtmd) [] := ⟨rfl, rfl, fun _ => rfl⟩
  exact states_iff_of_shows hshows ops

/-- An image of two tokens is pushed, and the list is cleared: its chunk is still there. -/
theorem not_inStep :
    ¬∀ (hasMtmd : Bool) (ops : List TokenOp), EveryState InStep (.new hasMtmd) ops := by
  intro hall
  have hstates := hall true [.pushChunk (.media ⟨[], 2, 1, Nat.two_pos⟩ Nat.one_pos), .clear]
  obtain ⟨-, hstates⟩ := hstates
  obtain ⟨-, hstates⟩ := hstates _ rfl
  have hstep := hstates _ rfl
  have hnull := hstep.tokens_of_mem (q := (0, ⟨[], 2, 1, Nat.two_pos⟩)) (i := 0)
    mem_cons_self (Nat.le_refl 0) Nat.two_pos
  cases hnull

end ExpertPin.Server
