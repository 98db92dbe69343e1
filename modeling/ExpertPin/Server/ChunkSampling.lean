import Mathlib.Algebra.GroupWithZero.Nat
import Mathlib.Data.List.Forall2
import ExpertPin.Server.OutputRows

/-!
# Sampling after each chunk

The single row of a slot is sampled after the chunk that it is in, and its index is that in the
chunk.  The rows of a draft are sampled after the first chunk, with their indices in the batch: they
are read where they were recorded if and only if they are in that chunk.
-/

namespace ExpertPin.Server

open List

/-- The output is that of the rows that were recorded, and they are in the chunk. -/
def Draw.Reads (batch : List Row) (recorded : List Row) (d : Draw) : Prop :=
  d.indices.Forall₂ (fun (idx : ℤ) row => 0 ≤ idx ∧ idx < d.length ∧
    batch[d.start + idx.toNat]? = some row) recorded

instance (batch recorded : List Row) (d : Draw) : Decidable (d.Reads batch recorded) :=
  inferInstanceAs (Decidable (List.Forall₂ _ _ _))

namespace OutputSlot

/-- A slot that waits for output to sample from. -/
def HasToSample (slot : OutputSlot) : Prop :=
  slot.processing = true ∧ slot.embedding = false ∧ (slot.iBatchDft ≠ [] ∨ slot.iBatch ≠ -1)

/-- A slot samples from its own rows, and once if all of the batch is decoded. -/
structure ReadsOwnRows (batch : List Row) (completed : Bool) (slot slot' : OutputSlot) : Prop where
  own : ∀ d ∈ slot'.draws, d.Reads batch slot.recorded
  atMostOnce : slot'.draws.length ≤ 1
  once : completed = true → slot.HasToSample → slot'.draws.length = 1

/-! ## Chunks -/

/-- A batch that is not a single token may be halved. -/
theorem half_pos {nBatch : ℕ} {P : Prop} (hbatch : 0 < nBatch) (h : ¬(nBatch = 1 ∨ P)) :
    0 < nBatch / 2 := by
  have hne : nBatch ≠ 1 := fun hone => h (Or.inl hone)
  exact Nat.div_pos (by omega) (by decide)

/-- The chunks that are decoded, and whether they are all. -/
def chunks (ret : ℕ → ℤ) (nTokens attempt i nBatch : ℕ) (hbatch : 0 < nBatch) :
    List (ℕ × ℕ) × Bool :=
  if _hi : i < nTokens then
    if ret attempt ≠ 0 then
      if _hfatal : nBatch = 1 ∨ ret attempt < 0 then ([], false)
      else chunks ret nTokens (attempt + 1) i (nBatch / 2) (half_pos hbatch _hfatal)
    else
      let rest := chunks ret nTokens (attempt + 1) (i + nBatch) nBatch hbatch
      ((i, min nBatch (nTokens - i)) :: rest.1, rest.2)
  else ([], true)
termination_by nTokens - i + nBatch

/-- Each chunk begins where the one before ends. -/
def Follow : ℕ → List (ℕ × ℕ) → Prop
  | _, [] => True
  | i, chunk :: cs => chunk.1 = i ∧ Follow (i + chunk.2) cs

/-- Where the last chunk ends. -/
def decoded (i : ℕ) (cs : List (ℕ × ℕ)) : ℕ := cs.foldl (fun i chunk => i + chunk.2) i

variable {continues : OutputSlot → Bool} {ret : ℕ → ℤ} {nTokens attempt i nBatch : ℕ}
  {hbatch : 0 < nBatch} {cs : List (ℕ × ℕ)} {slot : OutputSlot}

/-- What a slot does after a chunk. -/
def afterChunk (continues : OutputSlot → Bool) (slot : OutputSlot) (chunk : ℕ × ℕ) : OutputSlot :=
  acceptDrafts continues chunk.1 chunk.2 (sampleOutput continues chunk.1 chunk.2 slot)

/-- All slots are released when the batch cannot be decoded. -/
def ended (completed : Bool) (slot : OutputSlot) : OutputSlot :=
  if completed then slot else slot.release

theorem processBatchTokens_eq (slots : List OutputSlot) :
    processBatchTokens continues ret nTokens attempt i nBatch hbatch slots =
      let c := chunks ret nTokens attempt i nBatch hbatch
      (slots.map fun slot => ended c.2 (c.1.foldl (afterChunk continues) slot), c.2) := by
  fun_induction processBatchTokens continues ret nTokens attempt i nBatch hbatch slots with
  | case1 attempt i nBatch hbatch slots hi hret hfatal =>
    rw [chunks, dif_pos hi, if_pos hret, dif_pos hfatal]
    rfl
  | case2 attempt i nBatch hbatch slots hi hret hfatal ih =>
    have hchunks : chunks ret nTokens attempt i nBatch hbatch =
        chunks ret nTokens (attempt + 1) i (nBatch / 2) (by omega) := by
      rw [chunks, dif_pos hi, if_pos hret, dif_neg hfatal]
    rw [ih, hchunks]
  | case3 attempt i nBatch hbatch slots hi n hret ih =>
    rw [ih]
    conv_rhs => rw [chunks, dif_pos hi, if_neg hret]
    simp only [sampleChunk, map_map, foldl_cons]
    rfl
  | case4 attempt i nBatch hbatch slots hi =>
    rw [chunks, dif_neg hi]
    exact congrArg (·, true) (map_id' slots).symm

theorem follow_chunks : Follow i (chunks ret nTokens attempt i nBatch hbatch).1 := by
  fun_induction chunks ret nTokens attempt i nBatch hbatch with
  | case1 attempt i nBatch hbatch hi hret hfatal => trivial
  | case2 attempt i nBatch hbatch hi hret hfatal ih => exact ih
  | case3 attempt i nBatch hbatch hi hret rest ih =>
    refine ⟨rfl, ?_⟩
    rcases Nat.le_total nBatch (nTokens - i) with hle | hle
    · rw [Nat.min_eq_left hle]
      exact ih
    · have hrest : rest.1 = [] := by
        rw [show rest = chunks ret nTokens (attempt + 1) (i + nBatch) nBatch hbatch from rfl,
          chunks, dif_neg (by omega)]
      rw [hrest]
      trivial
  | case4 attempt i nBatch hbatch hi => trivial

theorem decoded_chunks (hi : i ≤ nTokens) :
    decoded i (chunks ret nTokens attempt i nBatch hbatch).1 ≤ nTokens ∧
      ((chunks ret nTokens attempt i nBatch hbatch).2 = true →
        decoded i (chunks ret nTokens attempt i nBatch hbatch).1 = nTokens) := by
  fun_induction chunks ret nTokens attempt i nBatch hbatch with
  | case1 attempt i nBatch hbatch hlt hret hfatal => exact ⟨hi, fun h => by cases h⟩
  | case2 attempt i nBatch hbatch hlt hret hfatal ih => exact ih hi
  | case3 attempt i nBatch hbatch hlt hret rest ih =>
    show decoded (i + min nBatch (nTokens - i)) rest.1 ≤ nTokens ∧
      (rest.2 = true → decoded (i + min nBatch (nTokens - i)) rest.1 = nTokens)
    rcases Nat.le_total nBatch (nTokens - i) with hle | hle
    · rw [Nat.min_eq_left hle]
      exact ih (by omega)
    · have hrest : rest = ([], true) := by
        rw [show rest = chunks ret nTokens (attempt + 1) (i + nBatch) nBatch hbatch from rfl,
          chunks, dif_neg (by omega)]
      rw [hrest, Nat.min_eq_right hle, Nat.add_sub_cancel' (Nat.le_of_lt hlt)]
      exact ⟨Nat.le_refl _, fun _ => rfl⟩
  | case4 attempt i nBatch hbatch hlt =>
    have heq : i = nTokens := Nat.le_antisymm hi (Nat.not_lt.mp hlt)
    exact ⟨hi, fun _ => heq⟩

theorem le_decoded : i ≤ decoded i cs := by
  induction cs generalizing i with
  | nil => exact Nat.le_refl _
  | cons chunk cs ih => exact (Nat.le_add_right ..).trans ih

/-- The first chunk is that of the first attempt which succeeds, after the batch size has been
halved for each one before. -/
theorem head?_chunks {chunk : ℕ × ℕ} (hi : i < nTokens) :
    (chunks ret nTokens attempt i nBatch hbatch).1.head? = some chunk ↔
      ∃ j, (∀ k < j, 0 < ret (attempt + k)) ∧ ret (attempt + j) = 0 ∧ 2 ^ j ≤ nBatch ∧
        chunk = (i, min (nBatch / 2 ^ j) (nTokens - i)) := by
  fun_induction chunks ret nTokens attempt i nBatch hbatch with
  | case1 attempt i nBatch hbatch hlt hret hfatal =>
    refine iff_of_false (fun h => by cases h) ?_
    rintro ⟨j, hfails, hzero, hpow, _⟩
    cases j with
    | zero => exact hret hzero
    | succ j =>
      rcases hfatal with hone | hneg
      · have := Nat.one_lt_two_pow (Nat.succ_ne_zero j)
        omega
      · exact absurd (hfails 0 (Nat.succ_pos j)) (Int.not_lt.mpr (Int.le_of_lt hneg))
  | case2 attempt i nBatch hbatch hlt hret hfatal ih =>
    rw [ih hi]
    constructor
    · rintro ⟨j, hfails, hzero, hpow, hchunk⟩
      refine ⟨j + 1, ?_, by rwa [Nat.add_comm j, ← Nat.add_assoc], ?_, ?_⟩
      · intro k hk
        cases k with
        | zero =>
          have := not_or.mp hfatal
          rw [Nat.add_zero]
          omega
        | succ k =>
          rw [Nat.add_comm k, ← Nat.add_assoc]
          exact hfails k (Nat.lt_of_succ_lt_succ hk)
      · rw [Nat.pow_succ]
        omega
      · rw [Nat.pow_succ', ← Nat.div_div_eq_div_mul]
        exact hchunk
    · rintro ⟨j, hfails, hzero, hpow, hchunk⟩
      cases j with
      | zero => exact absurd hzero hret
      | succ j =>
        refine ⟨j, ?_, by rwa [Nat.add_assoc, Nat.add_comm 1], ?_, ?_⟩
        · intro k hk
          rw [Nat.add_assoc, Nat.add_comm 1]
          exact hfails (k + 1) (Nat.succ_lt_succ hk)
        · rw [Nat.pow_succ] at hpow
          omega
        · rw [Nat.div_div_eq_div_mul, ← Nat.pow_succ']
          exact hchunk
  | case3 attempt i nBatch hbatch hlt hret rest ih =>
    have hzero : ret attempt = 0 := not_not.mp hret
    constructor
    · intro h
      obtain rfl := Option.some.inj h
      refine ⟨0, fun k hk => absurd hk (Nat.not_lt_zero k), hzero, hbatch, ?_⟩
      rw [Nat.pow_zero, Nat.div_one]
    · rintro ⟨j, hfails, _, _, rfl⟩
      cases j with
      | zero =>
        rw [Nat.pow_zero, Nat.div_one]
        rfl
      | succ j =>
        have hpos := hfails 0 (Nat.succ_pos j)
        rw [Nat.add_zero, hzero] at hpos
        exact absurd hpos (Int.lt_irrefl 0)
  | case4 attempt i nBatch hbatch hlt => exact absurd hi hlt

/-! ## One slot -/

theorem afterChunk_idle (hidle : slot.processing = false) (chunk : ℕ × ℕ) :
    afterChunk continues slot chunk = slot := by
  simp [afterChunk, sampleOutput, acceptDrafts, hidle]

/-- A slot without an index does nothing. -/
theorem afterChunk_done (houtput : slot.iBatch = -1) (hdrafts : slot.iBatchDft = [])
    (chunk : ℕ × ℕ) : afterChunk continues slot chunk = slot := by
  have hlt : slot.iBatch < chunk.1 := by omega
  simp [afterChunk, sampleOutput, acceptDrafts, hlt, hdrafts]

theorem foldl_fixed (h : ∀ chunk, afterChunk continues slot chunk = slot) :
    cs.foldl (afterChunk continues) slot = slot := by
  induction cs with
  | nil => rfl
  | cons chunk cs ih => rw [foldl_cons, h, ih]

/-- The draft rows of a slot are read after the first chunk. -/
theorem foldl_drafts (hprocessing : slot.processing = true) (houtput : slot.iBatch = -1)
    (hdrafts : slot.iBatchDft ≠ []) (chunk : ℕ × ℕ) :
    (chunk :: cs).foldl (afterChunk continues) slot = { slot with
      processing := continues slot
      iBatchDft := []
      drafted := []
      draws := slot.draws ++
        [{ start := chunk.1, length := chunk.2, indices := slot.iBatchDft }] } := by
  have hlt : slot.iBatch < chunk.1 := by omega
  have hfirst : afterChunk continues slot chunk = { slot with
      processing := continues slot
      iBatchDft := []
      drafted := []
      draws := slot.draws ++
        [{ start := chunk.1, length := chunk.2, indices := slot.iBatchDft }] } := by
    simp [afterChunk, sampleOutput, acceptDrafts, hlt, hdrafts, hprocessing]
  rw [foldl_cons, hfirst, foldl_fixed]
  exact afterChunk_done houtput rfl

/-- The single row of a slot is read after the chunk that it is in. -/
theorem foldl_output (hprocessing : slot.processing = true) (hembedding : slot.embedding = false)
    (hdrafts : slot.iBatchDft = []) (hfollow : Follow i cs) (hle : i ≤ slot.iBatch) :
    (decoded i cs ≤ slot.iBatch → cs.foldl (afterChunk continues) slot = slot) ∧
      (slot.iBatch < decoded i cs → ∃ chunk ∈ cs, chunk.1 ≤ slot.iBatch ∧
        slot.iBatch < chunk.1 + chunk.2 ∧ cs.foldl (afterChunk continues) slot = { slot with
          processing := continues slot
          iBatch := -1
          draws := slot.draws ++ [{ start := chunk.1, length := chunk.2,
                                    indices := [slot.iBatch - chunk.1] }] }) := by
  induction cs generalizing i with
  | nil => exact ⟨fun _ => rfl, fun hlt => absurd hle (Int.not_le.mpr hlt)⟩
  | cons chunk cs ih =>
    obtain ⟨rfl, hfollow⟩ := hfollow
    by_cases hin : slot.iBatch < chunk.1 + chunk.2
    · have hbefore : slot.iBatch < decoded chunk.1 (chunk :: cs) :=
        Int.lt_of_lt_of_le hin (by exact_mod_cast le_decoded)
      refine ⟨fun h => absurd hbefore (Int.not_lt.mpr h), fun _ => ?_⟩
      refine ⟨chunk, mem_cons_self .., hle, hin, ?_⟩
      have hfirst : afterChunk continues slot chunk = { slot with
          processing := continues slot
          iBatch := -1
          draws := slot.draws ++ [{ start := chunk.1, length := chunk.2,
                                    indices := [slot.iBatch - chunk.1] }] } := by
        simp [afterChunk, sampleOutput, acceptDrafts, hprocessing, hembedding, hdrafts,
          Int.not_lt.mpr hle, Int.not_le.mpr hin]
      rw [foldl_cons, hfirst, foldl_fixed]
      exact afterChunk_done rfl hdrafts
    · have hskip : afterChunk continues slot chunk = slot := by
        simp [afterChunk, sampleOutput, acceptDrafts, hdrafts, Int.not_lt.mp hin]
      rw [foldl_cons, hskip]
      obtain ⟨hafter, hbefore⟩ := ih hfollow (by push_cast; exact Int.not_lt.mp hin)
      refine ⟨hafter, fun hlt => ?_⟩
      obtain ⟨chunk', hmem, hdraws⟩ := hbefore hlt
      exact ⟨chunk', mem_cons_of_mem _ hmem, hdraws⟩

/-- An embedding is sent after the chunk that its row is in. -/
theorem foldl_embedding (hembedding : slot.embedding = true) (hdrafts : slot.iBatchDft = []) :
    (cs.foldl (afterChunk continues) slot).draws = slot.draws := by
  induction cs generalizing slot with
  | nil => rfl
  | cons chunk cs ih =>
    have hfirst : afterChunk continues slot chunk = slot ∨
        afterChunk continues slot chunk = { slot with processing := false, iBatch := -1 } := by
      unfold afterChunk sampleOutput
      split
      · exact .inl (by simp [acceptDrafts, hdrafts])
      · exact .inr (by simp [acceptDrafts, hembedding])
    rw [foldl_cons]
    rcases hfirst with hfirst | hfirst
    · rw [hfirst]
      exact ih hembedding hdrafts
    · rw [hfirst, foldl_fixed]
      exact afterChunk_done rfl hdrafts

/-- An index is that of the row. -/
def IsRow (batch : List Row) (idx : ℤ) (row : Row) : Prop :=
  0 ≤ idx ∧ row.logits = true ∧ batch[idx.toNat]? = some row

/-- What has been recorded for a slot when the batch is assembled. -/
structure Waits (batch : List Row) (slot : OutputSlot) : Prop where
  fresh : slot.draws = []
  drafts : slot.processing = true → slot.iBatchDft ≠ [] → slot.iBatch = -1 ∧
    slot.iBatchDft.Forall₂ (IsRow batch) slot.recorded
  output : slot.processing = true → slot.iBatchDft = [] →
    -1 ≤ slot.iBatch ∧ slot.iBatch < batch.length ∧
      (slot.recorded = [] ∨ ∃ row, slot.recorded = [row] ∧ IsRow batch slot.iBatch row)

/-- The rows of a draft are in the first chunk: its length is the batch size, halved for each
attempt that fails before.  A prompt that ends without a row has the row before it, which must not
be decoded. -/
structure Fits (ret : ℕ → ℤ) (nBatch nDecoded : ℕ) (slot : OutputSlot) : Prop where
  drafts : slot.processing = true → ∀ j, (∀ k < j, 0 < ret k) → ret j = 0 → 2 ^ j ≤ nBatch →
    ∀ idx ∈ slot.iBatchDft, idx < (nBatch / 2 ^ j : ℕ)
  output : slot.processing = true → slot.embedding = false → slot.iBatchDft = [] →
    slot.recorded = [] → 0 ≤ slot.iBatch → nDecoded ≤ slot.iBatch

variable {batch : List Row}

theorem reads_drafts (hwaits : slot.Waits batch) (hprocessing : slot.processing = true)
    (hdrafts : slot.iBatchDft ≠ []) (length : ℕ) :
    Draw.Reads batch slot.recorded { start := 0, length, indices := slot.iBatchDft } ↔
      ∀ idx ∈ slot.iBatchDft, idx < length := by
  obtain ⟨_, hown⟩ := hwaits.drafts hprocessing hdrafts
  have hsplit : (fun (idx : ℤ) row => 0 ≤ idx ∧ idx < length ∧ batch[0 + idx.toNat]? = some row) =
      fun (idx : ℤ) row => idx < length ∧ 0 ≤ idx ∧ batch[idx.toNat]? = some row := by
    funext idx row
    rw [Nat.zero_add, and_left_comm]
  unfold Draw.Reads
  rw [hsplit, forall₂_and_left]
  exact and_iff_left (hown.imp fun idx row h => ⟨h.1, h.2.2⟩)

theorem reads_output (hwaits : slot.Waits batch) (hprocessing : slot.processing = true)
    (hdrafts : slot.iBatchDft = []) {chunk : ℕ × ℕ} (hle : chunk.1 ≤ slot.iBatch)
    (hlt : slot.iBatch < chunk.1 + chunk.2) :
    Draw.Reads batch slot.recorded
      { start := chunk.1, length := chunk.2, indices := [slot.iBatch - chunk.1] } ↔
        slot.recorded ≠ [] := by
  obtain ⟨_, _, hnone | ⟨row, hrecorded, hpos, _, hrow⟩⟩ := hwaits.output hprocessing hdrafts
  · rw [hnone]
    exact iff_of_false (fun h => by cases h) fun h => h rfl
  · rw [hrecorded]
    have hin : slot.iBatch - chunk.1 < (chunk.2 : ℤ) := by omega
    refine iff_of_true (.cons ⟨by omega, hin, ?_⟩ .nil) (cons_ne_nil _ _)
    rwa [show chunk.1 + (slot.iBatch - chunk.1).toNat = slot.iBatch.toNat by omega]

theorem fits_drafts (hwaits : slot.Waits batch) (hbatch' : batch ≠ [])
    (hprocessing : slot.processing = true) (hdrafts : slot.iBatchDft ≠ []) (nDecoded : ℕ) :
    slot.Fits ret nBatch nDecoded ↔ ∀ chunk ∈ (chunks ret batch.length 0 0 nBatch hbatch).1.head?,
        ∀ idx ∈ slot.iBatchDft, idx < (chunk.2 : ℤ) := by
  have hin : ∀ idx ∈ slot.iBatchDft, idx < (batch.length : ℤ) := by
    obtain ⟨_, hown⟩ := hwaits.drafts hprocessing hdrafts
    have hand : slot.iBatchDft.Forall₂ (fun idx _ => idx < (batch.length : ℤ) ∧ True)
        slot.recorded := by
      refine hown.imp fun idx row h => ⟨?_, trivial⟩
      have hlt : idx.toNat < batch.length := (List.getElem?_eq_some_iff.mp h.2.2).1
      omega
    exact (List.forall₂_and_left _ _).mp hand |>.1
  have hlength : 0 < batch.length := List.length_pos_iff.mpr hbatch'
  constructor
  · intro h chunk hchunk idx hidx
    obtain ⟨j, hfails, hzero, hpow, rfl⟩ := (head?_chunks hlength).mp hchunk
    have hlt := h.drafts hprocessing j (fun k hk => by simpa using hfails k hk)
      (by simpa using hzero) hpow idx hidx
    have := hin idx hidx
    rw [Nat.sub_zero]
    omega
  · refine fun h => ⟨fun _ j hfails hzero hpow idx hidx => ?_, fun _ _ h => absurd h hdrafts⟩
    have hlt := h _ ((head?_chunks hlength).mpr
      ⟨j, fun k hk => by simpa using hfails k hk, by simpa using hzero, hpow, rfl⟩) idx hidx
    exact Int.lt_of_lt_of_le hlt (by exact_mod_cast Nat.min_le_left _ _)

variable {completed : Bool}

theorem readsOwnRows_none {slot' : OutputSlot} (hdraws : slot'.draws = [])
    (honce : completed = true → ¬slot.HasToSample) :
    ReadsOwnRows batch completed slot slot' := by
  refine ⟨?_, ?_, fun hcompleted hsample => absurd hsample (honce hcompleted)⟩
  · rw [hdraws]
    exact fun d hd => by cases hd
  · rw [hdraws]
    exact Nat.zero_le _

theorem readsOwnRows_one {slot' : OutputSlot} {d : Draw}
    (hdraws : slot'.draws = [d]) :
    ReadsOwnRows batch completed slot slot' ↔ d.Reads batch slot.recorded := by
  constructor
  · exact fun h => h.own d (hdraws ▸ mem_singleton_self d)
  · intro h
    refine ⟨fun d' hd' => ?_, ?_, fun _ _ => ?_⟩
    · rw [hdraws] at hd'
      rwa [mem_singleton.mp hd']
    · rw [hdraws]
      exact Nat.le_refl _
    · rw [hdraws]
      rfl

theorem ended_draws (completed : Bool) : (slot.ended completed).draws = slot.draws := by
  unfold ended
  split <;> rfl

/-- The single row of a slot is its own unless its prompt has left none. -/
theorem readsOwnRows_output (hwaits : slot.Waits batch)
    (hprocessing : slot.processing = true) (hdrafts : slot.iBatchDft = []) (hfollow : Follow 0 cs)
    (hall : completed = true → decoded 0 cs = batch.length) :
    ReadsOwnRows batch completed slot (ended completed (cs.foldl (afterChunk continues) slot)) ↔
      (slot.embedding = false → slot.recorded = [] → 0 ≤ slot.iBatch →
        decoded 0 cs ≤ slot.iBatch) := by
  obtain ⟨hge, hlt, _⟩ := hwaits.output hprocessing hdrafts
  have hfresh : (ended completed slot).draws = [] := (ended_draws _).trans hwaits.fresh
  cases hembedding : slot.embedding with
  | true =>
    refine iff_of_true (readsOwnRows_none ?_ fun _ hsample => ?_) fun h => by cases h
    · rw [ended_draws, foldl_embedding hembedding hdrafts, hwaits.fresh]
    · rw [hsample.2.1] at hembedding
      cases hembedding
  | false =>
    rw [imp_iff_right rfl]
    by_cases hnone : slot.iBatch = -1
    · rw [foldl_fixed (afterChunk_done hnone hdrafts)]
      refine iff_of_true (readsOwnRows_none hfresh fun _ hsample => ?_) fun _ h => by omega
      exact hsample.2.2.elim (absurd hdrafts) (absurd hnone)
    · obtain ⟨hafter, hbefore⟩ := foldl_output hprocessing hembedding hdrafts hfollow
        (show ((0 : ℕ) : ℤ) ≤ slot.iBatch by omega)
      by_cases hin : slot.iBatch < decoded 0 cs
      · obtain ⟨chunk, _, hle, hlt, hfinal⟩ := hbefore hin
        have hdraws : (ended completed (cs.foldl (afterChunk continues) slot)).draws =
            [{ start := chunk.1, length := chunk.2, indices := [slot.iBatch - chunk.1] }] := by
          rw [ended_draws, hfinal, hwaits.fresh]
          rfl
        rw [readsOwnRows_one hdraws, reads_output hwaits hprocessing hdrafts hle hlt]
        refine imp_congr_right fun _ => iff_of_false (fun h => h) fun h => ?_
        exact absurd hin (Int.not_lt.mpr (h (by omega)))
      · rw [hafter (Int.not_lt.mp hin)]
        refine iff_of_true (readsOwnRows_none hfresh fun hcompleted => ?_)
          fun _ _ => Int.not_lt.mp hin
        rw [hall hcompleted] at hin
        exact absurd hlt hin

/-- The rows of a draft are read at their indices in the batch after the first chunk. -/
theorem readsOwnRows_drafts (hwaits : slot.Waits batch)
    (hprocessing : slot.processing = true) (hdrafts : slot.iBatchDft ≠ []) (hfollow : Follow 0 cs)
    (hcs : completed = true → cs ≠ []) :
    ReadsOwnRows batch completed slot (ended completed (cs.foldl (afterChunk continues) slot)) ↔
      ∀ chunk ∈ cs.head?, ∀ idx ∈ slot.iBatchDft, idx < (chunk.2 : ℤ) := by
  obtain ⟨houtput, _⟩ := hwaits.drafts hprocessing hdrafts
  cases cs with
  | nil =>
    refine iff_of_true (readsOwnRows_none ?_ fun h => absurd rfl (hcs h)) fun chunk h => by cases h
    exact (ended_draws _).trans hwaits.fresh
  | cons chunk cs =>
    obtain ⟨hstart, _⟩ := hfollow
    have hdraws : (ended completed ((chunk :: cs).foldl (afterChunk continues) slot)).draws =
        [{ start := 0, length := chunk.2, indices := slot.iBatchDft }] := by
      rw [ended_draws, foldl_drafts hprocessing houtput hdrafts, hwaits.fresh, hstart]
      rfl
    rw [readsOwnRows_one hdraws, reads_drafts hwaits hprocessing hdrafts, head?_cons]
    simp only [Option.mem_some_iff, forall_eq']

/-- A slot reads its own rows if and only if they fit the chunks. -/
theorem readsOwnRows_iff (hwaits : slot.Waits batch) (hbatch' : batch ≠ []) :
    let c := chunks ret batch.length 0 0 nBatch hbatch
    ReadsOwnRows batch c.2 slot (ended c.2 (c.1.foldl (afterChunk continues) slot)) ↔
      slot.Fits ret nBatch (decoded 0 c.1) := by
  intro c
  have hfollow : Follow 0 c.1 := follow_chunks
  obtain ⟨_, hall⟩ : decoded 0 c.1 ≤ batch.length ∧
      (c.2 = true → decoded 0 c.1 = batch.length) := decoded_chunks (Nat.zero_le _)
  cases hprocessing : slot.processing with
  | false =>
    have hno : ¬slot.processing = true := Bool.eq_false_iff.mp hprocessing
    rw [foldl_fixed (afterChunk_idle hprocessing)]
    refine iff_of_true (readsOwnRows_none ((ended_draws _).trans hwaits.fresh) ?_)
      ⟨fun h => absurd h hno, fun h => absurd h hno⟩
    exact fun _ hsample => hno hsample.1
  | true =>
    by_cases hdrafts : slot.iBatchDft = []
    · rw [readsOwnRows_output hwaits hprocessing hdrafts hfollow hall]
      refine ⟨fun h => ⟨?_, fun _ he _ => h he⟩, fun h he => h.output hprocessing he hdrafts⟩
      rw [hdrafts]
      exact fun _ _ _ _ _ idx hidx => by cases hidx
    · have hcs : c.2 = true → c.1 ≠ [] := by
        intro hcompleted hnil
        have hlength := hall hcompleted
        rw [hnil] at hlength
        exact hbatch' (length_eq_zero_iff.mp hlength.symm)
      rw [readsOwnRows_drafts hwaits hprocessing hdrafts hfollow hcs]
      exact (fits_drafts hwaits hbatch' hprocessing hdrafts _).symm

/-! ## Assembled batches -/

/-- Rows with output stay where they are. -/
def Keeps (batch batch' : List Row) : Prop :=
  batch.length ≤ batch'.length ∧
    ∀ (i : ℕ) (row : Row), row.logits = true → batch[i]? = some row → batch'[i]? = some row

theorem Keeps.refl (batch : List Row) : Keeps batch batch :=
  ⟨Nat.le_refl _, fun _ _ _ h => h⟩

theorem Keeps.append (batch added : List Row) : Keeps batch (batch ++ added) := by
  refine ⟨by simp, fun i row _ hrow => ?_⟩
  rw [List.getElem?_append_left (List.getElem?_eq_some_iff.mp hrow).1, hrow]

theorem Keeps.trans {batch batch' batch'' : List Row} (h : Keeps batch batch')
    (h' : Keeps batch' batch'') : Keeps batch batch'' :=
  ⟨h.1.trans h'.1, fun i row hlogits hrow => h'.2 i row hlogits (h.2 i row hlogits hrow)⟩

theorem Keeps.modify (batch : List Row) (k : ℕ) :
    Keeps batch (batch.modify k fun row => { row with logits := true }) := by
  refine ⟨by simp, fun i row hlogits hrow => ?_⟩
  rw [getElem?_modify, hrow]
  split
  case isTrue =>
    obtain ⟨token, pos, seqId, logits⟩ := row
    obtain rfl : logits = true := hlogits
    rfl
  case isFalse => rfl

theorem IsRow.mono {batch' : List Row} {idx : ℤ} {row : Row} (hkeeps : Keeps batch batch')
    (h : IsRow batch idx row) : IsRow batch' idx row :=
  ⟨h.1, h.2.1, hkeeps.2 _ _ h.2.1 h.2.2⟩

theorem Waits.mono {batch' : List Row} (hkeeps : Keeps batch batch') (h : slot.Waits batch) :
    slot.Waits batch' := by
  obtain ⟨hfresh, hdrafts, houtput⟩ := h
  refine ⟨hfresh, fun hprocessing hne => ?_, fun hprocessing hnil => ?_⟩
  · obtain ⟨hnone, hown⟩ := hdrafts hprocessing hne
    exact ⟨hnone, hown.imp fun idx row => .mono hkeeps⟩
  · obtain ⟨hge, hlt, hrow⟩ := houtput hprocessing hnil
    refine ⟨hge, Int.lt_of_lt_of_le hlt (by exact_mod_cast hkeeps.1), hrow.imp_right ?_⟩
    exact fun ⟨row, hrecorded, hrow⟩ => ⟨row, hrecorded, hrow.mono hkeeps⟩

/-- A slot before the turn: nothing is recorded for it, and a slot with a prompt has been reset. -/
structure Clear (pending : OutputSlot → Option PendingPrompt) (slot : OutputSlot) : Prop where
  fresh : slot.draws = []
  recorded : slot.recorded = []
  output : slot.processing = true → slot.iBatch = -1
  drafts : slot.processing = true ∨ (pending slot).isSome → slot.iBatchDft = []

theorem rows_logits {pos : ℤ} {tokens : List Token} :
    ∀ row ∈ slot.rows pos tokens, row.logits = true := by
  induction tokens generalizing pos with
  | nil => exact fun row hrow => by cases hrow
  | cons token tokens ih =>
    rintro row (_ | ⟨_, hrow⟩)
    · rfl
    · exact ih row hrow

/-- Rows at the end of the batch are at the indices from its length on. -/
theorem forall₂_isRow (batch added : List Row) (hlogits : ∀ row ∈ added, row.logits = true) :
    ((List.range added.length).map fun k => ((batch.length + k : ℕ) : ℤ)).Forall₂
      (IsRow (batch ++ added)) added := by
  rw [forall₂_iff_get]
  refine ⟨by simp, fun k hk hk' => ?_⟩
  have hget : ((range added.length).map fun k => ((batch.length + k : ℕ) : ℤ)).get ⟨k, hk⟩ =
      ((batch.length + k : ℕ) : ℤ) := by
    simp
  rw [hget]
  refine ⟨Int.natCast_nonneg _, hlogits _ (get_mem ..), ?_⟩
  rw [Int.toNat_natCast, getElem?_append_right (Nat.le_add_right ..), Nat.add_sub_cancel_left]
  exact getElem?_eq_getElem hk'

theorem waits_addSampledToken (batch : List Row) (hprocessing : slot.processing = true)
    (hfresh : slot.draws = []) (houtput : slot.iBatch = -1) (hdrafts : slot.iBatchDft = [])
    (draft : Option (List Token × Bool)) :
    Keeps batch (addSampledToken batch slot draft).1 ∧
      (addSampledToken batch slot draft).2.Waits (addSampledToken batch slot draft).1 ∧
      (addSampledToken batch slot draft).2.processing = true := by
  have hroot : ∀ root : Row, root.logits = true → IsRow (batch ++ [root]) batch.length root :=
    fun root hlogits => ⟨by omega, hlogits, by simp⟩
  unfold addSampledToken
  split
  · refine ⟨.append .., ⟨hfresh, fun _ _ => ⟨houtput, forall₂_isRow _ _ ?_⟩, ?_⟩, hprocessing⟩
    · rintro row (_ | ⟨_, hrow⟩)
      · rfl
      · exact rows_logits row hrow
    · intro _ hnil
      simp at hnil
  all_goals
    refine ⟨.append .., ⟨hfresh, fun _ h => absurd hdrafts h, fun _ _ => ?_⟩, hprocessing⟩
    refine ⟨Int.le_trans (by decide) (Int.natCast_nonneg _), ?_, .inr ⟨_, rfl, hroot _ rfl⟩⟩
    dsimp only
    rw [length_append]
    exact_mod_cast Nat.lt_succ_self _

variable {pending : OutputSlot → Option PendingPrompt} {slots : List OutputSlot}

theorem waits_addSampledTokens (batch : List Row)
    (draft : OutputSlot → Option (List Token × Bool))
    (hclear : ∀ slot ∈ slots, slot.Clear pending) :
    Keeps batch (addSampledTokens draft batch slots).1 ∧
      ∀ slot ∈ (addSampledTokens draft batch slots).2,
        slot.processing = true ∧ slot.Waits (addSampledTokens draft batch slots).1 ∨
          slot.processing = false ∧ slot.Clear pending := by
  induction slots generalizing batch with
  | nil => exact ⟨.refl batch, fun slot hslot => by cases hslot⟩
  | cons slot slots ih =>
    obtain ⟨hslot, hslots⟩ := forall_mem_cons.mp hclear
    rw [addSampledTokens]
    cases hprocessing : slot.processing with
    | true =>
      obtain ⟨hkeeps, hwaits, hstill⟩ := waits_addSampledToken batch hprocessing
        hslot.fresh (hslot.output hprocessing) (hslot.drafts (.inl hprocessing)) (draft slot)
      obtain ⟨hrest, hall⟩ := ih (addSampledToken batch slot (draft slot)).1 hslots
      exact ⟨hkeeps.trans hrest, forall_mem_cons.mpr ⟨.inl ⟨hstill, hwaits.mono hrest⟩, hall⟩⟩
    | false =>
      obtain ⟨hrest, hall⟩ := ih batch hslots
      exact ⟨hrest, forall_mem_cons.mpr ⟨.inr ⟨hprocessing, hslot⟩, hall⟩⟩

/-- A slot whose prompt is finished has its last row, if it has left one. -/
theorem waits_batchPrompt (hprocessing : slot.processing = false) (hfresh : slot.draws = [])
    (hdrafts : slot.iBatchDft = []) (prompt : PendingPrompt) :
    Keeps batch (batchPrompt nBatch batch slot prompt).1 ∧
      (batchPrompt nBatch batch slot prompt).2.Waits (batchPrompt nBatch batch slot prompt).1 := by
  unfold batchPrompt
  generalize slot.promptRows prompt nBatch batch.length slot.posNext prompt.tokens = added
  dsimp only
  split
  · refine ⟨(Keeps.append ..).trans (.modify ..), hfresh, fun _ h => absurd hdrafts h, fun _ _ =>
    ?_⟩
    dsimp only
    rw [length_modify]
    refine ⟨by omega, by omega, ?_⟩
    cases hlast : added.1.getLast? with
    | none => exact .inl rfl
    | some row =>
      obtain ⟨init, hinit⟩ := getLast?_eq_some_iff.mp hlast
      have hlength : (batch ++ added.1).length = (batch ++ init).length + 1 := by
        rw [hinit, ← append_assoc, length_append, length_singleton]
      refine .inr ⟨_, rfl, by omega, rfl, ?_⟩
      rw [hlength, Nat.add_sub_cancel, hinit, ← append_assoc,
        show (((batch ++ init).length + 1 : ℕ) - 1 : ℤ).toNat = (batch ++ init).length by omega]
      simp
  · refine ⟨.append .., hfresh, fun h => ?_, fun h => ?_⟩
    · exact absurd (hprocessing.symm.trans h) Bool.false_ne_true
    · exact absurd (hprocessing.symm.trans h) Bool.false_ne_true

theorem waits_idle (hprocessing : slot.processing = false) (hfresh : slot.draws = []) :
    slot.Waits batch :=
  ⟨hfresh, fun h => absurd (hprocessing.symm.trans h) Bool.false_ne_true,
    fun h => absurd (hprocessing.symm.trans h) Bool.false_ne_true⟩

theorem waits_addPrompt (nBatch : ℕ)
    (hslot : slot.processing = true ∧ slot.Waits batch ∨
      slot.processing = false ∧ slot.Clear pending) :
    Keeps batch (addPrompt nBatch batch slot (pending slot)).1 ∧
      (addPrompt nBatch batch slot (pending slot)).2.Waits
        (addPrompt nBatch batch slot (pending slot)).1 := by
  cases hpending : pending slot with
  | none =>
    rcases hslot with ⟨_, hwaits⟩ | ⟨hprocessing, hclear⟩
    · exact ⟨.refl batch, hwaits⟩
    · exact ⟨.refl batch, waits_idle hprocessing hclear.fresh⟩
  | some prompt =>
    rcases hslot with ⟨hprocessing, hwaits⟩ | ⟨hprocessing, hclear⟩
    · rw [addPrompt, if_pos hprocessing]
      exact ⟨.refl batch, hwaits⟩
    · rw [addPrompt, if_neg (Bool.eq_false_iff.mp hprocessing)]
      exact waits_batchPrompt hprocessing hclear.fresh
        (hclear.drafts (.inr (by rw [hpending]; rfl))) prompt

theorem waits_batchPendingPrompt (nBatch : ℕ)
    (hslots : ∀ slot ∈ slots, slot.processing = true ∧ slot.Waits batch ∨
      slot.processing = false ∧ slot.Clear pending) :
    Keeps batch (batchPendingPrompt nBatch pending batch slots).1 ∧
      ∀ slot ∈ (batchPendingPrompt nBatch pending batch slots).2,
        slot.Waits (batchPendingPrompt nBatch pending batch slots).1 := by
  induction slots generalizing batch with
  | nil => exact ⟨.refl batch, fun slot hslot => by cases hslot⟩
  | cons slot slots ih =>
    obtain ⟨hslot, hslots⟩ := forall_mem_cons.mp hslots
    obtain ⟨hkeeps, hwaits⟩ := waits_addPrompt nBatch hslot
    have hothers : ∀ other ∈ slots, other.processing = true ∧
        other.Waits (addPrompt nBatch batch slot (pending slot)).1 ∨
          other.processing = false ∧ other.Clear pending :=
      fun other hother => (hslots other hother).imp_left fun h => ⟨h.1, h.2.mono hkeeps⟩
    unfold batchPendingPrompt
    dsimp only
    split
    case isTrue =>
      refine ⟨hkeeps, forall_mem_cons.mpr ⟨hwaits, fun other hother => ?_⟩⟩
      rcases hothers other hother with ⟨_, h⟩ | ⟨hprocessing, h⟩
      · exact h
      · exact waits_idle hprocessing h.fresh
    case isFalse =>
      obtain ⟨hrest, hall⟩ := ih hothers
      exact ⟨hkeeps.trans hrest, forall_mem_cons.mpr ⟨hwaits.mono hrest, hall⟩⟩

/-- What the slots put together has the rows that they record. -/
theorem waits_assembled
    {draft : OutputSlot → Option (List Token × Bool)} {idle slots : List OutputSlot}
    (hidle : ∀ slot ∈ idle, slot.Clear pending)
    (hslots : (batch, slots) = batchPendingPrompt nBatch pending
      (addSampledTokens draft [] idle).1 (addSampledTokens draft [] idle).2) :
    ∀ slot ∈ slots, slot.Waits batch := by
  obtain ⟨_, hsampled⟩ := waits_addSampledTokens [] draft hidle
  obtain ⟨_, hwaits⟩ := waits_batchPendingPrompt nBatch hsampled
  rwa [← hslots] at hwaits

/-! ## All slots -/

theorem forall₂_readsOwnRows_iff
    (hwaits : ∀ slot ∈ slots, slot.Waits batch) (hne : batch ≠ []) :
    let r := processBatchTokens continues ret batch.length 0 0 nBatch hbatch slots
    List.Forall₂ (ReadsOwnRows batch r.2) slots r.1 ↔ ∀ slot ∈ slots, slot.Fits ret nBatch
        (decoded 0 (chunks ret batch.length 0 0 nBatch hbatch).1) := by
  intro r
  have hr : r = _ := processBatchTokens_eq slots
  rw [hr, forall₂_map_right_iff, forall₂_same]
  exact forall₂_congr fun slot hslot => readsOwnRows_iff (hwaits slot hslot) hne

end OutputSlot

open OutputSlot

/-- Two slots that generate, the first with a draft. -/
def generating : List OutputSlot :=
  [{ id := 0, processing := true, sampled := 5, posNext := 3 },
   { id := 1, processing := true, sampled := 9, posNext := 8 }]

def generatingDraft (slot : OutputSlot) : Option (List Token × Bool) :=
  if slot.id = 0 then some ([6, 7], true) else none

def generatingBatch : List Row × List OutputSlot :=
  batchPendingPrompt 64 (fun _ => none) (addSampledTokens generatingDraft [] generating).1
    (addSampledTokens generatingDraft [] generating).2

theorem generating_clear : ∀ slot ∈ generating, slot.Clear fun _ => none := by
  intro slot hslot
  simp only [generating, mem_cons, not_mem_nil, or_false] at hslot
  rcases hslot with rfl | rfl
  all_goals exact ⟨rfl, rfl, fun _ => rfl, fun _ => rfl⟩

end ExpertPin.Server
