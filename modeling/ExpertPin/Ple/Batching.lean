import Mathlib.Data.Int.Notation
import Mathlib.Data.List.GetD
import Mathlib.Data.List.Induction

/-!
# The rows of the n-gram embedding

The rows of a token are hashes of the token and of those before it in its sequence, back to a
segment boundary.  `llama_set_inputs` takes the tokens before from the micro-batch itself and,
where this does not reach back far enough, from a history of each sequence.
-/

namespace ExpertPin.Ple

open List

/-- The hyperparameters of the n-gram table, where there is one. -/
structure Hparams where
  ngramSize : ℕ
  headsPerNgram : ℕ
  eosTokenId : ℤ
  imageTokenId : ℤ
  layerMultipliers : ℕ → BitVec 64
  headOffsets : ℕ → BitVec 64
  headVocabSizes : ℕ → BitVec 64
  two_le : 2 ≤ ngramSize

/-- A token of a micro-batch, without an id in a batch of embeddings. -/
structure Token where
  token : Option ℤ
  pos : ℤ
  seqId : ℤ
deriving DecidableEq, Repr

/-- `ple_history` -/
structure History where
  nextPos : ℤ
  toks : List ℤ
deriving DecidableEq, Repr

/-- The history of a sequence that has none. -/
def History.none : History := ⟨-1, []⟩

/-- `ple_hist` -/
abbrev Histories := ℤ → History

variable (hp : Hparams)

/-- The placeholder of an image. -/
def Hparams.imgTok : ℤ := if hp.imageTokenId ≠ 0 then hp.imageTokenId else hp.eosTokenId

/-- `tok_of` -/
def tokOf (t : Token) : ℤ := t.token.getD hp.imgTok

/-! ## The rows -/

/-- The tokens before a token, up to the first boundary. -/
def cutAt (eos : ℤ) (cut : Bool) : List ℤ → List ℤ
  | [] => []
  | t :: ts =>
    let tok := if cut then eos else t
    tok :: cutAt eos (cut || tok = eos) ts

/-- `ctx_toks` -/
def ctxToks (tok : ℤ) (prev : ℕ → ℤ) : List ℤ :=
  tok :: cutAt hp.eosTokenId false ((List.range (hp.ngramSize - 1)).map fun s => prev (s + 1))

/-- The factor of one token. -/
def factor (toks : List ℤ) (j : ℕ) : BitVec 64 :=
  BitVec.ofInt 64 (toks.getD j 0) * hp.layerMultipliers j

/-- `mixed` -/
def mixed (toks : List ℤ) (n : ℕ) : BitVec 64 :=
  (List.range' 1 (n - 1)).foldl (fun x j => x ^^^ factor hp toks j) (factor hp toks 0)

/-- The rows of a token, one for each head. -/
def rowsOf (toks : List ℤ) : List ℤ :=
  (List.range' 2 (hp.ngramSize - 1)).flatMap fun n =>
    (List.range hp.headsPerNgram).map fun g =>
      let h := (n - 2) * hp.headsPerNgram + g
      ((mixed hp toks n % hp.headVocabSizes h + hp.headOffsets h).setWidth 32).toInt

/-! ## The history -/

/-- `toks.resize(n, tok)` -/
def resize (toks : List ℤ) (n : ℕ) (tok : ℤ) : List ℤ :=
  toks.take n ++ List.replicate (n - toks.length) tok

/-- The history as far as the token follows on it. -/
def History.trusted (h : History) (pos : ℤ) : List ℤ :=
  resize (if h.nextPos ≠ pos then List.replicate (hp.ngramSize - 1) hp.eosTokenId else h.toks)
    (hp.ngramSize - 1) hp.eosTokenId

/-- The snapshot of one more token: of its sequence's history, unless there is one. -/
def snapStep (s : Histories × (ℤ → Option (List ℤ))) (t : Token) :
    Histories × (ℤ → Option (List ℤ)) :=
  if (s.2 t.seqId).isSome then s
  else
    let toks := (s.1 t.seqId).trusted hp t.pos
    (Function.update s.1 t.seqId { s.1 t.seqId with toks := toks },
      Function.update s.2 t.seqId (some toks))

/-- `snap`, and the histories it leaves. -/
def snap (hist : Histories) (batch : List Token) : Histories × (ℤ → Option (List ℤ)) :=
  batch.foldl (snapStep hp) (hist, fun _ => Option.none)

/-- `prev(s)` for the token `t` with index `i` -/
def prev (batch : List Token) (hist : List ℤ) (i : ℕ) (t : Token) (s : ℕ) : ℤ :=
  let fromHist :=
    if i < s ∧ s - i ≤ hist.length ∧ 0 ≤ t.pos - s then hist.getD (hist.length - (s - i)) 0
    else hp.eosTokenId
  if s ≤ i then
    match batch[i - s]? with
    | Option.none => fromHist
    | some u => if u.seqId = t.seqId ∧ u.pos = t.pos - s then tokOf hp u else fromHist
  else fromHist

/-- The history with one more token. -/
def remember (hist : Histories) (t : Token) : Histories :=
  let toks := (hist t.seqId).toks ++ [tokOf hp t]
  Function.update hist t.seqId ⟨t.pos + 1, toks.drop (toks.length - (hp.ngramSize - 1))⟩

/-- The tokens that the rows of a token are the hashes of. -/
def context (hist : Histories) (batch : List Token) (i : ℕ) (t : Token) : List ℤ :=
  ctxToks hp (tokOf hp t) (prev hp batch (((snap hp hist batch).2 t.seqId).getD []) i t)

/-- What `llama_set_inputs` does about `inp_ple_rows`: the histories after it and the rows of
each token. -/
def setPleRows (hist : Histories) (batch : List Token) : Histories × List (List ℤ) :=
  (batch.foldl (remember hp) (snap hp hist batch).1,
    batch.mapIdx fun i t => rowsOf hp (context hp hist batch i t))

/-! ## The micro-batches of a hybrid model -/

/-- The number of tokens of the next micro-batch in `llama_decode_internal`. -/
def ubatchSize (nUbatch : ℕ) (rest : List Token) : ℕ :=
  let seqs := (rest.take (min nUbatch rest.length)).map Token.seqId
  let anyDiff := ∃ s ∈ seqs, ∃ first ∈ seqs.head?, s ≠ first
  if 1 < min nUbatch rest.length ∧ anyDiff ∧ ¬seqs.Nodup then 1 else min nUbatch rest.length

/-- The micro-batches that are left: of one sequence, or without one that comes twice. -/
def Admitted (batch : List Token) : Prop :=
  (∃ s, ∀ t ∈ batch, t.seqId = s) ∨ (batch.map Token.seqId).Nodup

theorem admitted_ubatchSize (nUbatch : ℕ) (rest : List Token) :
    Admitted (rest.take (ubatchSize nUbatch rest)) := by
  rw [ubatchSize]
  split
  case isTrue =>
    cases rest with
    | nil => exact .inl ⟨0, fun _ ht => absurd ht not_mem_nil⟩
    | cons t _ => exact .inl ⟨t.seqId, fun u hu => by rw [mem_singleton.mp hu]⟩
  case isFalse hno =>
    generalize min nUbatch rest.length = n at hno ⊢
    by_cases hdup : ((rest.take n).map Token.seqId).Nodup
    · exact .inr hdup
    · refine .inl ?_
      cases htake : rest.take n with
      | nil => exact ⟨0, fun _ ht => absurd ht not_mem_nil⟩
      | cons t ts =>
        refine ⟨t.seqId, fun u hu => ?_⟩
        by_contra hne
        have hlen : 1 < n := by
          by_contra hle
          have hone : (rest.take n).length ≤ 1 :=
            Nat.le_trans (length_take_le n rest) (Nat.not_lt.mp hle)
          rw [htake, length_cons] at hone
          obtain rfl := eq_nil_of_length_eq_zero (Nat.le_zero.mp (Nat.le_of_succ_le_succ hone))
          exact hne (by rw [mem_singleton.mp hu])
        refine hno ⟨hlen, ⟨u.seqId, ?_, t.seqId, ?_, hne⟩, hdup⟩
        · rw [htake]
          exact mem_map_of_mem hu
        · rw [htake]
          rfl

end ExpertPin.Ple

/-!
## The rows and the cut into micro-batches

A run of micro-batches should give each token the rows it has when its sequence is one
micro-batch by itself.  The history of a sequence is the window of its last tokens
(`Remembers`), but a token finds it only where its micro-batch begins with its sequence: behind
the token of another sequence it is taken for the first of a segment (`independent_iff`).
-/

namespace ExpertPin.Ple

open List

variable {hp : Hparams} {hist : Histories} {before batch : List Token} {s : ℤ}

/-! ## Windows -/

/-- The last tokens, with boundaries before the first. -/
def window (hp : Hparams) (xs : List ℤ) : List ℤ :=
  (List.replicate (hp.ngramSize - 1) hp.eosTokenId ++ xs).drop xs.length

theorem length_window (xs : List ℤ) : (window hp xs).length = hp.ngramSize - 1 := by
  rw [window, length_drop, length_append, length_replicate, Nat.add_sub_cancel]

theorem window_nil : window hp [] = List.replicate (hp.ngramSize - 1) hp.eosTokenId := by
  rw [window, append_nil, length_nil, drop_zero]

/-- One more token. -/
theorem window_append (xs : List ℤ) (x : ℤ) :
    window hp (xs ++ [x]) = (window hp xs ++ [x]).drop 1 := by
  have hle : xs.length ≤ (replicate (hp.ngramSize - 1) hp.eosTokenId ++ xs).length := by
    rw [length_append]
    exact Nat.le_add_left ..
  rw [window, window, ← append_assoc, length_append, length_singleton,
    ← drop_append_of_le_length hle, drop_drop]

/-- The tokens before a token, the last first, with boundaries before the first. -/
def back (hp : Hparams) (xs : List ℤ) (n : ℕ) : ℤ :=
  if n ≤ xs.length then xs.getD (xs.length - n) 0 else hp.eosTokenId

theorem window_getD {xs : List ℤ} {n : ℕ} (hn : 0 < n) (hle : n ≤ hp.ngramSize - 1) :
    (window hp xs).getD (hp.ngramSize - 1 - n) 0 = back hp xs n := by
  rw [window, back, getD_eq_getElem?_getD, getElem?_drop]
  split
  case isTrue hin =>
    rw [getElem?_append_right, length_replicate, getD_eq_getElem?_getD]
    · congr 2
      omega
    · rw [length_replicate]
      omega
  case isFalse hout =>
    rw [getElem?_append_left, getElem?_replicate, if_pos (by omega)]
    · rfl
    · rw [length_replicate]
      omega

theorem back_append_left {xs ys : List ℤ} {n : ℕ} (hn : ys.length < n) :
    back hp (xs ++ ys) n = back hp xs (n - ys.length) := by
  rw [back, back, length_append]
  split
  case isTrue hin =>
    rw [if_pos (by omega), getD_append _ _ _ _ (by omega)]
    congr 1
    omega
  case isFalse hout => rw [if_neg (by omega)]

theorem back_append_right {xs ys : List ℤ} {n : ℕ} (hn : 0 < n) (hle : n ≤ ys.length) :
    back hp (xs ++ ys) n = ys.getD (ys.length - n) 0 := by
  rw [back, length_append, if_pos (by omega), getD_append_right _ _ _ _ (by omega)]
  congr 1
  omega

/-! ## The tokens of a sequence -/

/-- The tokens of a sequence. -/
def stream (hp : Hparams) (tokens : List Token) (s : ℤ) : List ℤ :=
  (tokens.filter fun t => t.seqId = s).map (tokOf hp)

theorem stream_append (tokens tokens' : List Token) :
    stream hp (tokens ++ tokens') s = stream hp tokens s ++ stream hp tokens' s := by
  rw [stream, filter_append, map_append]
  rfl

theorem stream_singleton (t : Token) :
    stream hp [t] s = if t.seqId = s then [tokOf hp t] else [] := by
  rw [stream, filter_cons, filter_nil]
  by_cases h : t.seqId = s
  · simp [h]
  · simp [h]

variable {tokens : List Token}

theorem stream_eq_nil (h : ∀ t ∈ tokens, t.seqId ≠ s) :
    stream hp tokens s = [] := by
  rw [stream, map_eq_nil_iff, filter_eq_nil_iff]
  intro t ht
  rw [decide_eq_true_eq]
  exact h t ht

theorem stream_eq_map (h : ∀ t ∈ tokens, t.seqId = s) :
    stream hp tokens s = tokens.map (tokOf hp) := by
  rw [stream, filter_eq_self.mpr fun t ht => decide_eq_true (h t ht)]

/-- Each sequence's tokens come one after the other, from position 0 on. -/
def InOrder (hp : Hparams) (tokens : List Token) : Prop :=
  ∀ (before : List Token) (t : Token) (after : List Token), tokens = before ++ t :: after →
    t.pos = (stream hp before t.seqId).length

theorem InOrder.of_append {tokens tokens' : List Token} (h : InOrder hp (tokens ++ tokens')) :
    InOrder hp tokens := by
  rintro before t after rfl
  exact h before t (after ++ tokens') (by rw [append_assoc, cons_append])

theorem inOrder_iff : InOrder hp tokens ↔ ∀ i (hi : i < tokens.length),
    tokens[i].pos = (stream hp (tokens.take i) tokens[i].seqId).length := by
  constructor
  · intro h i hi
    exact h _ _ (tokens.drop (i + 1)) (by rw [getElem_cons_drop, take_append_drop])
  · rintro h front t rest rfl
    have hlt : front.length < (front ++ t :: rest).length := by
      rw [length_append, length_cons]
      omega
    have ht := h front.length hlt
    rw [getElem_append_right (Nat.le_refl _), take_left] at ht
    simpa using ht

instance (tokens : List Token) : Decidable (InOrder hp tokens) := decidable_of_iff' _ inOrder_iff

variable {t : Token}

theorem InOrder.last (h : InOrder hp (tokens ++ [t])) :
    t.pos = (stream hp tokens t.seqId).length := h tokens t [] rfl

/-! ## Histories -/

/-- The histories of the sequences that have tokens; the others do not look as if the next
token were their first. -/
structure Remembers (hp : Hparams) (hist : Histories) (tokens : List Token) : Prop where
  unused : ∀ s, stream hp tokens s = [] → (hist s).nextPos ≠ 0
  used : ∀ s, stream hp tokens s ≠ [] →
    hist s = ⟨(stream hp tokens s).length, window hp (stream hp tokens s)⟩

theorem resize_self {toks : List ℤ} {n : ℕ} (h : toks.length = n) (tok : ℤ) :
    resize toks n tok = toks := by
  rw [resize, ← h, take_length, Nat.sub_self, replicate_zero, append_nil]

/-- A history is trusted where the next token of its sequence comes. -/
theorem Remembers.trusted (h : Remembers hp hist before) (s : ℤ) :
    (hist s).trusted hp (stream hp before s).length = window hp (stream hp before s) := by
  by_cases hnil : stream hp before s = []
  · have hpos := h.unused s hnil
    rw [History.trusted, hnil, length_nil, if_pos (show _ ≠ ((0 : ℕ) : ℤ) from hpos),
      window_nil]
    exact resize_self length_replicate _
  · rw [h.used s hnil, History.trusted, if_neg (not_not_intro rfl)]
    exact resize_self (length_window _) _

/-- The snapshot of one more token. -/
theorem snap_append (hist : Histories) (batch : List Token) (t : Token) :
    snap hp hist (batch ++ [t]) = snapStep hp (snap hp hist batch) t := by
  rw [snap, foldl_append]
  rfl

/-- What the snapshot has of a sequence, and what it makes of its history. -/
structure Snapped (hp : Hparams) (hist : Histories) (before batch : List Token) (s : ℤ) :
    Prop where
  seen : (∃ t ∈ batch, t.seqId = s) →
    (snap hp hist batch).2 s = some (window hp (stream hp before s)) ∧
      (snap hp hist batch).1 s = { hist s with toks := window hp (stream hp before s) }
  unseen : (∀ t ∈ batch, t.seqId ≠ s) →
    (snap hp hist batch).2 s = none ∧ (snap hp hist batch).1 s = hist s

theorem Remembers.snapped (h : Remembers hp hist before) (batch : List Token)
    (horder : InOrder hp (before ++ batch)) (s : ℤ) : Snapped hp hist before batch s := by
  induction batch using reverseRecOn generalizing s with
  | nil =>
    refine ⟨?_, fun _ => ⟨rfl, rfl⟩⟩
    rintro ⟨t, ht, _⟩
    exact absurd ht not_mem_nil
  | append_singleton batch t ih =>
    rw [← append_assoc] at horder
    have hih := ih horder.of_append
    by_cases hseen : ∃ u ∈ batch, u.seqId = t.seqId
    · have hsame : snap hp hist (batch ++ [t]) = snap hp hist batch := by
        rw [snap_append, snapStep, ((hih t.seqId).seen hseen).1]
        rfl
      refine ⟨fun hin => ?_, fun hout => ?_⟩
      · rw [hsame]
        refine (hih s).seen ?_
        obtain ⟨u, hu, rfl⟩ := hin
        rcases mem_append.mp hu with hu | hu
        · exact ⟨u, hu, rfl⟩
        · obtain rfl := mem_singleton.mp hu
          exact hseen
      · rw [hsame]
        exact (hih s).unseen fun u hu => hout u (mem_append_left _ hu)
    · have hno : ∀ u ∈ batch, u.seqId ≠ t.seqId := fun u hu heq => hseen ⟨u, hu, heq⟩
      obtain ⟨hsnap, hhist⟩ := (hih t.seqId).unseen hno
      have hpos : t.pos = (stream hp before t.seqId).length := by
        rw [horder.last, stream_append, stream_eq_nil hno, append_nil]
      have htrusted := h.trusted t.seqId
      rw [← hpos] at htrusted
      have hstep : snap hp hist (batch ++ [t]) = (Function.update (snap hp hist batch).1 t.seqId
            { hist t.seqId with toks := window hp (stream hp before t.seqId) },
          Function.update (snap hp hist batch).2 t.seqId
            (some (window hp (stream hp before t.seqId)))) := by
        rw [snap_append, snapStep, hsnap, hhist]
        dsimp only [Option.isSome]
        rw [if_neg Bool.false_ne_true, htrusted]
      by_cases hs : s = t.seqId
      · subst hs
        refine ⟨fun _ => ?_, fun hout => ?_⟩
        · rw [hstep]
          exact ⟨Function.update_self .., Function.update_self ..⟩
        · exact absurd rfl (hout t (mem_append_right _ mem_cons_self))
      · have hother : (snap hp hist (batch ++ [t])).2 s = (snap hp hist batch).2 s ∧
            (snap hp hist (batch ++ [t])).1 s = (snap hp hist batch).1 s := by
          rw [hstep]
          exact ⟨Function.update_of_ne hs .., Function.update_of_ne hs ..⟩
        refine ⟨fun hin => ?_, fun hout => ?_⟩
        · rw [hother.1, hother.2]
          refine (hih s).seen ?_
          obtain ⟨u, hu, rfl⟩ := hin
          rcases mem_append.mp hu with hu | hu
          · exact ⟨u, hu, rfl⟩
          · obtain rfl := mem_singleton.mp hu
            exact absurd rfl hs
        · rw [hother.1, hother.2]
          exact (hih s).unseen fun u hu => hout u (mem_append_left _ hu)

/-- One more token in a history that is a window. -/
theorem remember_self {xs : List ℤ} (h : (hist t.seqId).toks = window hp xs) :
    remember hp hist t t.seqId = ⟨t.pos + 1, window hp (xs ++ [tokOf hp t])⟩ := by
  have hlen : (window hp xs ++ [tokOf hp t]).length - (hp.ngramSize - 1) = 1 := by
    rw [length_append, length_window, length_singleton, Nat.add_sub_cancel_left]
  rw [remember, h, Function.update_self, hlen, window_append]

theorem remember_of_ne (h : s ≠ t.seqId) : remember hp hist t s = hist s :=
  Function.update_of_ne h ..

/-- The histories after some tokens of the micro-batch. -/
theorem remember_run {mid : Histories} (tokens : List Token)
    (horder : InOrder hp (before ++ tokens))
    (hmid : ∀ t ∈ tokens, (mid t.seqId).toks = window hp (stream hp before t.seqId)) (s : ℤ) :
    (stream hp tokens s = [] → tokens.foldl (remember hp) mid s = mid s) ∧
      (stream hp tokens s ≠ [] → tokens.foldl (remember hp) mid s =
        ⟨(stream hp (before ++ tokens) s).length, window hp (stream hp (before ++ tokens) s)⟩) := by
  induction tokens using reverseRecOn generalizing s with
  | nil => exact ⟨fun _ => rfl, fun hno => absurd rfl hno⟩
  | append_singleton tokens t ih =>
    rw [← append_assoc] at horder ⊢
    have hih := ih horder.of_append fun u hu => hmid u (mem_append_left _ hu)
    have hfold : (tokens ++ [t]).foldl (remember hp) mid =
        remember hp (tokens.foldl (remember hp) mid) t := foldl_append
    rw [hfold, stream_append, stream_append (before ++ tokens), stream_singleton]
    by_cases hs : t.seqId = s
    · subst hs
      rw [if_pos rfl]
      refine ⟨fun hno => absurd hno (concat_ne_nil _ _), fun _ => ?_⟩
      have htoks : (tokens.foldl (remember hp) mid t.seqId).toks =
          window hp (stream hp (before ++ tokens) t.seqId) := by
        by_cases hnone : stream hp tokens t.seqId = []
        · rw [(hih t.seqId).1 hnone, hmid t (mem_append_right _ mem_cons_self),
            stream_append, hnone, append_nil]
        · rw [(hih t.seqId).2 hnone]
      rw [remember_self htoks, horder.last, length_append, length_singleton]
      rfl
    · rw [if_neg hs, append_nil, append_nil, remember_of_ne (Ne.symm hs)]
      exact hih s

/-- A micro-batch adds its tokens to the histories. -/
theorem Remembers.setPleRows (h : Remembers hp hist before)
    (horder : InOrder hp (before ++ batch)) :
    Remembers hp (setPleRows hp hist batch).1 (before ++ batch) := by
  have hsnap := h.snapped batch horder
  have hmid : ∀ t ∈ batch, ((snap hp hist batch).1 t.seqId).toks =
      window hp (stream hp before t.seqId) := by
    intro t ht
    rw [((hsnap t.seqId).seen ⟨t, ht, rfl⟩).2]
  have hrun := remember_run batch horder hmid
  have hnone : ∀ s, stream hp batch s = [] → (Ple.setPleRows hp hist batch).1 s = hist s := by
    intro s hs
    refine ((hrun s).1 hs).trans ((hsnap s).unseen fun t ht heq => ?_).2
    rw [stream, map_eq_nil_iff, filter_eq_nil_iff] at hs
    exact hs t ht (decide_eq_true heq)
  refine ⟨fun s hs => ?_, fun s hs => ?_⟩
  · rw [stream_append, append_eq_nil_iff] at hs
    rw [hnone s hs.2]
    exact h.unused s hs.1
  · by_cases hbatch : stream hp batch s = []
    · rw [hnone s hbatch]
      rw [stream_append, hbatch, append_nil] at hs ⊢
      exact h.used s hs
    · exact (hrun s).2 hbatch

/-! ## Contexts -/

theorem cutAt_true (eos : ℤ) (toks : List ℤ) :
    cutAt eos true toks = List.replicate toks.length eos := by
  induction toks with
  | nil => rfl
  | cons t ts ih =>
    rw [cutAt, if_pos rfl, Bool.true_or, ih]
    rfl

/-- The context of the first token of a segment. -/
def bare (hp : Hparams) (tok : ℤ) : List ℤ :=
  tok :: List.replicate (hp.ngramSize - 1) hp.eosTokenId

theorem ctxToks_congr {tok : ℤ} {f g : ℕ → ℤ}
    (h : ∀ n, 0 < n → n ≤ hp.ngramSize - 1 → f n = g n) : ctxToks hp tok f = ctxToks hp tok g := by
  rw [ctxToks, ctxToks, map_congr_left fun n hn => ?_]
  exact h (n + 1) (Nat.succ_pos n) (mem_range.mp hn)

/-- Behind a boundary there is nothing. -/
theorem ctxToks_of_boundary {tok : ℤ} {f : ℕ → ℤ} (h : f 1 = hp.eosTokenId) :
    ctxToks hp tok f = bare hp tok := by
  obtain ⟨n, hn⟩ := Nat.exists_eq_add_of_le hp.two_le
  have hsize : hp.ngramSize - 1 = n + 1 := by
    rw [hn, Nat.add_comm]
    rfl
  rw [ctxToks, bare, hsize, range_succ_eq_map, map_cons, cutAt, Nat.zero_add, h,
    if_neg Bool.false_ne_true, Bool.false_or, decide_eq_true rfl, cutAt_true, length_map,
    length_map, length_range, replicate_succ]

/-- Where the micro-batch has tokens of one sequence so far, a token finds those before it. -/
theorem Remembers.context_own (h : Remembers hp hist before)
    (horder : InOrder hp (before ++ batch)) {i : ℕ} (hi : batch[i]? = some t)
    (hown : ∀ u ∈ batch.take i, u.seqId = t.seqId) :
    context hp hist batch i t =
      ctxToks hp (tokOf hp t) (back hp (stream hp (before ++ batch.take i) t.seqId)) := by
  obtain ⟨hlt, hget⟩ := List.getElem?_eq_some_iff.mp hi
  have hmem : t ∈ batch := List.mem_of_getElem? hi
  have hstream : stream hp (before ++ batch.take i) t.seqId =
      stream hp before t.seqId ++ (batch.take i).map (tokOf hp) := by
    rw [stream_append, stream_eq_map hown]
  have hlen : ((batch.take i).map (tokOf hp)).length = i := by
    rw [List.length_map, List.length_take, Nat.min_eq_left (Nat.le_of_lt hlt)]
  have hposAt : ∀ j u, j ≤ i → batch[j]? = some u → u.seqId = t.seqId →
      u.pos = (stream hp before t.seqId).length + j := by
    intro j u hj hu hseq
    obtain ⟨hjlt, hjget⟩ := List.getElem?_eq_some_iff.mp hu
    have hsplit : before ++ batch = (before ++ batch.take j) ++ u :: batch.drop (j + 1) := by
      rw [List.append_assoc, ← hjget, List.getElem_cons_drop, List.take_append_drop]
    have htake : ∀ v ∈ batch.take j, v.seqId = u.seqId := fun v hv =>
      (hown v ((List.take_sublist_take_left hj).subset hv)).trans hseq.symm
    rw [horder _ _ _ hsplit, stream_append, stream_eq_map htake, List.length_append,
      List.length_map, List.length_take, Nat.min_eq_left (Nat.le_of_lt hjlt), hseq]
    exact Int.natCast_add ..
  have hpos := hposAt i t (Nat.le_refl i) hi rfl
  rw [context, ((h.snapped batch horder t.seqId).seen ⟨t, hmem, rfl⟩).1, Option.getD_some]
  refine ctxToks_congr fun n hn hle => ?_
  rw [hstream, prev]
  split
  case isTrue hin =>
    have hlast : i - n < batch.length := Nat.lt_of_le_of_lt (Nat.sub_le i n) hlt
    have hat : batch[i - n]? = some batch[i - n] := List.getElem?_eq_getElem hlast
    have hbefore : batch[i - n] ∈ batch.take i :=
      List.mem_take_iff_getElem.mpr ⟨i - n, by omega, rfl⟩
    have hu := hposAt (i - n) _ (Nat.sub_le i n) hat (hown _ hbefore)
    rw [hat]
    dsimp only
    rw [if_pos ⟨hown _ hbefore, by omega⟩, back_append_right hn (hlen.symm ▸ hin), hlen,
      List.getD_eq_getElem?_getD, List.getElem?_map, List.getElem?_take, if_pos (by omega), hat]
    rfl
  case isFalse hout =>
    have hlt' : ((batch.take i).map (tokOf hp)).length < n := by omega
    rw [back_append_left hlt', hlen, length_window]
    split
    case isTrue hback =>
      exact window_getD (by omega) hback.2.1
    case isFalse hnone =>
      rw [back, if_neg]
      intro hle'
      exact hnone ⟨by omega, by omega, by omega⟩

/-- Behind a token of another sequence nothing is found. -/
theorem context_behind {i : ℕ} (hi : batch[i]? = some t) (hpos : 0 < i)
    (hdup : (batch.map Token.seqId).Nodup) : context hp hist batch i t = bare hp (tokOf hp t) := by
  obtain ⟨hlt, hget⟩ := List.getElem?_eq_some_iff.mp hi
  apply ctxToks_of_boundary
  have hlast : i - 1 < batch.length := Nat.lt_of_le_of_lt (Nat.sub_le i 1) hlt
  have hne : batch[i - 1].seqId ≠ t.seqId := by
    have hne := List.pairwise_iff_getElem.mp hdup (i - 1) i (by rwa [List.length_map])
      (by rwa [List.length_map]) (by omega)
    rw [List.getElem_map, List.getElem_map, hget] at hne
    exact hne
  rw [prev, if_pos (by omega), List.getElem?_eq_getElem hlast]
  dsimp only
  rw [if_neg fun hboth => hne hboth.1, if_neg fun hback => absurd hback.1 (by omega)]

/-! ## A sequence by itself -/

theorem remembers_none : Remembers hp (fun _ => .none) [] where
  unused _ _ := by decide
  used _ hno := absurd rfl hno

/-- The rows that the tokens of a sequence have in one micro-batch. -/
def alone (hp : Hparams) (tokens : List Token) (s : ℤ) : List (List ℤ) :=
  (setPleRows hp (fun _ => .none) (tokens.filter fun t => t.seqId = s)).2

theorem stream_filter (tokens : List Token) :
    stream hp (tokens.filter fun t => t.seqId = s) s = stream hp tokens s := by
  rw [stream, stream, filter_filter]
  simp only [Bool.and_self]

theorem InOrder.filter (h : InOrder hp tokens) (s : ℤ) :
    InOrder hp (tokens.filter fun t => t.seqId = s) := by
  intro front t rest heq
  obtain ⟨l₁, l₂, rfl, rfl, hrest⟩ := filter_eq_append_iff.mp heq
  obtain ⟨m₁, m₂, rfl, hskip, ht, _⟩ := filter_eq_cons_iff.mp hrest
  obtain rfl := of_decide_eq_true ht
  rw [h (l₁ ++ m₁) t m₂ (by rw [append_assoc]), stream_append, stream_filter,
    stream_eq_nil fun u hu heq => hskip u hu (decide_eq_true heq), append_nil]

/-- By itself each token has the context that its sequence gives it. -/
theorem alone_getElem? {tokens tokens' : List Token}
    (h : InOrder hp (tokens ++ t :: tokens')) :
    (alone hp (tokens ++ t :: tokens') t.seqId)[t.pos.toNat]? =
      some (rowsOf hp (ctxToks hp (tokOf hp t) (back hp (stream hp tokens t.seqId)))) := by
  let own : List Token → List Token := filter fun u => u.seqId = t.seqId
  have hsplit : own (tokens ++ t :: tokens') = own tokens ++ t :: own tokens' := by
    have hself : own (t :: tokens') = t :: own tokens' :=
      filter_cons_of_pos (decide_eq_true rfl)
    show filter _ _ = _
    rw [filter_append]
    exact congrArg (own tokens ++ ·) hself
  have hpos : t.pos.toNat = (own tokens).length := by
    rw [h tokens t tokens' rfl, Int.toNat_natCast, stream, length_map]
  have hi : (own (tokens ++ t :: tokens'))[t.pos.toNat]? = some t := by
    rw [hsplit, hpos, getElem?_append_right (Nat.le_refl _), Nat.sub_self]
    rfl
  have htake : (own (tokens ++ t :: tokens')).take t.pos.toNat = own tokens := by
    rw [hsplit, hpos, take_append_of_le_length (Nat.le_refl _), take_length]
  have hown : ∀ u ∈ (own (tokens ++ t :: tokens')).take t.pos.toNat, u.seqId = t.seqId := by
    intro u hu
    rw [htake] at hu
    exact of_decide_eq_true (mem_filter.mp hu).2
  have hcontext := remembers_none.context_own (h.filter t.seqId) hi hown
  rw [nil_append, htake, stream_filter] at hcontext
  show (mapIdx _ (own (tokens ++ t :: tokens')))[t.pos.toNat]? = _
  rw [getElem?_mapIdx, hi, Option.map_some, hcontext]

/-! ## Runs -/

/-- The histories after some micro-batches. -/
def runPle (hp : Hparams) (hist : Histories) (ubs : List (List Token)) : Histories :=
  ubs.foldl (fun hist ub => (setPleRows hp hist ub).1) hist

theorem Remembers.run {hist : Histories} (h : Remembers hp hist []) (ubs : List (List Token))
    (horder : InOrder hp ubs.flatten) : Remembers hp (runPle hp hist ubs) ubs.flatten := by
  induction ubs using reverseRecOn with
  | nil => exact h
  | append_singleton ubs ub ih =>
    rw [flatten_append, flatten_singleton] at horder ⊢
    rw [runPle, foldl_append]
    exact (ih horder.of_append).setPleRows horder

/-- Each token has the rows that it has when its sequence is one micro-batch. -/
def Independent (hp : Hparams) (hist : Histories) (ubs : List (List Token)) : Prop :=
  ∀ pre ub post, ubs = pre ++ ub :: post → ∀ (i : ℕ) (t : Token), ub[i]? = some t →
    (setPleRows hp (runPle hp hist pre) ub).2[i]? = (alone hp ubs.flatten t.seqId)[t.pos.toNat]?

/-- The tokens behind another sequence's in their micro-batch have rows that tell nothing of
the tokens before. -/
def BareBehind (hp : Hparams) (ubs : List (List Token)) : Prop :=
  ∀ pre ub post, ubs = pre ++ ub :: post → ∀ (i : ℕ) (t : Token), ub[i]? = some t →
    (∃ u ∈ ub.head?, u.seqId ≠ t.seqId) → rowsOf hp (bare hp (tokOf hp t)) =
      rowsOf hp (ctxToks hp (tokOf hp t) (back hp (stream hp (pre.flatten ++ ub.take i) t.seqId)))

/-- The rows of a token in a run. -/
theorem rows_run {hist : Histories} (h : Remembers hp hist []) {pre post : List (List Token)}
    {ub : List Token} (horder : InOrder hp (pre ++ ub :: post).flatten) (hchunks : Admitted ub)
    {i : ℕ} (hi : ub[i]? = some t) :
    (setPleRows hp (runPle hp hist pre) ub).2[i]? =
      some (rowsOf hp (if ∃ u ∈ ub.head?, u.seqId ≠ t.seqId then bare hp (tokOf hp t)
        else ctxToks hp (tokOf hp t)
          (back hp (stream hp (pre.flatten ++ ub.take i) t.seqId)))) := by
  rw [List.flatten_append, List.flatten_cons, ← List.append_assoc] at horder
  have hprefix := horder.of_append
  have hrem := h.run pre hprefix.of_append
  show (List.mapIdx _ ub)[i]? = _
  rw [List.getElem?_mapIdx, hi, Option.map_some]
  congr 2
  split
  case isTrue hbehind =>
    obtain ⟨u, hu, hne⟩ := hbehind
    have hpos : 0 < i := by
      refine Nat.pos_of_ne_zero ?_
      rintro rfl
      rw [← List.head?_eq_getElem?, Option.mem_def.mp hu] at hi
      exact hne (congrArg Token.seqId (Option.some.inj hi))
    refine context_behind hi hpos (hchunks.resolve_left ?_)
    rintro ⟨s, hs⟩
    exact hne ((hs u (List.mem_of_mem_head? hu)).trans (hs t (List.mem_of_getElem? hi)).symm)
  case isFalse hfront =>
    refine hrem.context_own hprefix hi fun u hu => ?_
    cases ub with
    | nil => exact absurd hu (by rw [List.take_nil]; exact List.not_mem_nil)
    | cons first rest =>
      have hfirst : first.seqId = t.seqId := by
        by_contra hne
        exact hfront ⟨first, rfl, hne⟩
      rcases hchunks with ⟨s, hs⟩ | hdup
      · rw [hs u (List.mem_of_mem_take hu), hs t (List.mem_of_getElem? hi)]
      · obtain rfl : i = 0 := by
          by_contra hne
          obtain ⟨hlt, hget⟩ := List.getElem?_eq_some_iff.mp hi
          have hdiff := List.pairwise_iff_getElem.mp hdup 0 i (by simp) (by simpa using hlt)
            (Nat.pos_of_ne_zero hne)
          rw [List.getElem_map, List.getElem_map, hget] at hdiff
          exact hdiff hfirst
        exact absurd hu List.not_mem_nil

/-- Bigrams, with one head. -/
def bigrams : Hparams where
  ngramSize := 2
  headsPerNgram := 1
  eosTokenId := 0
  imageTokenId := 0
  layerMultipliers _ := 1
  headOffsets _ := 0
  headVocabSizes _ := 100
  two_le := Nat.le_refl 2

/-- Two sequences, first by themselves and then together. -/
def together : List (List Token) :=
  [[⟨some 1, 0, 0⟩], [⟨some 1, 0, 1⟩], [⟨some 1, 1, 0⟩, ⟨some 2, 1, 1⟩]]

end ExpertPin.Ple
