import ExpertPin.Server.SlotSteps
import ExpertPin.Lib.Runs

/-!
# The token list of a slot mirrors its cells

Between two steps the cells of a slot are those of its token list, unless a step changes one of
the two only.  There are such steps: the shift of a prompt removes cells but moves none, as it
takes the cache to be empty; the token list has a bounds test that the cells have not; a call that
gives up leaves its tokens in the list, and one that is tried again leaves cells behind; a prompt
that cannot be loaded leaves the cells removed.

`Sound` says of a step that none of this happens.  In a run of sound steps the token list mirrors
the cells throughout (`mirror_of_run`).
-/

namespace ExpertPin.Server

open Runs
open List
open Option
open Nat

namespace SlotState

/-! ## Sound steps -/

/-- The loop of `process_batch_tokens` leaves no cell behind and no token without one.

Drafts are accepted only when all tokens of the slot are decoded; a call that is tried again has
stored nothing of the slot, and one that gives up all of it; and when the user cancels there is a
cell, or no token, in the slot. -/
def SoundResults (s : SlotState) (i nBatch : ℕ) : List Decoded → Prop
  | [] => True
  | result :: results =>
    let view := (s.batch.drop i).take nBatch
    if result.ret ≠ 0 then
      let s' := s.store (view.take result.stored)
      if nBatch = 1 ∨ result.ret < 0 then
        if result.ret = -3 then s'.cells ≠ [] ∨ s'.cacheTokens = []
        else ownCells (s.batch.drop (i + min result.stored nBatch)) = []
      else ownCells (view.take result.stored) = [] ∧ s'.SoundResults i (nBatch / 2) results
    else
      (s.drafted ≠ none → ownCells (s.batch.drop (i + nBatch)) = []) ∧
        (((s.store view).sample i view.length result).acceptDraft result).SoundResults
          (i + nBatch) nBatch results

/-- No checkpoint is restored, and where a shift of the prompt discards something of the cache,
no more is kept of the cache than stands before it. -/
def SoundStart (V : Vocab) (p : SlotParams) (s : SlotState) (q : Answers) : Prop :=
  let t := s.shifted V p
  t.restoredCheckpoint V q = none ∧
  ((s.promptTokens.length : ℤ) ≥ p.nCtx → ∀ d, promptShift V p { s with nPast := 0 } = some d →
    0 < d.nDiscardCache → q.trims → ∀ r, matchPrompt V false t.toSlot q = .ok r →
      let past := leaveToken t.promptTokens.length r.1 r.2
      needsCheckpoint t.toSlot q past.1 past.1 = false → past.1 ≤ d.nKept)

/-- What is discarded while generating leaves a token. -/
def SoundShift (V : Vocab) (p : SlotParams) (s : SlotState) : Prop :=
  let counts := s.shiftCounts p
  let d := contextShiftFindNTokens V s.promptTokens s.cacheTokens counts.1 counts.2 false
  s.phase ≠ .idle → s.nPast ≥ p.nCtx - 1 → p.ctxShift → counts.2 > 0 →
    d.2 ≤ 0 ∨ d.1 + d.2 < s.cacheTokens.length

def Sound (V : Vocab) (p : SlotParams) (s : SlotState) : SlotEvent → Prop
  | .launch _ _ _ load => ∀ left, load ≠ some (.fails left)
  | .start q _ => s.SoundStart V p q
  | .prompt trims before n after nBatch results =>
    ∀ t, trimCache { s with batch := [] } trims = some t →
      (((t.pushOthers before).fillPrompt n).pushOthers after).SoundResults 0 nBatch results
  | .generate draft before after nBatch results =>
    ((({ s with batch := [] }.pushOthers before).addSampledTokens draft).pushOthers after
      ).SoundResults 0 nBatch results
  | .others n nBatch results => ({ s with batch := [] }.pushOthers n).SoundResults 0 nBatch results
  | .shift => s.SoundShift V p
  | .rewind _ _ => True
  | .release => True

/-! ## What holds between steps -/

structure Tracked (s : SlotState) : Prop where
  mirror : Mirror s.cacheTokens s.cells
  nPast_eq : s.phase = .batching ∨ s.phase = .processing → s.nPast = s.cacheTokens.length
  nPast_loading : s.phase = .loading → s.nPast = 0
  drafted : s.drafted = none
  saved : ∀ prompt ∈ s.saved, Mirror prompt.tokens prompt.cells

/-- The same while a batch is decoded from its token `i` on: the tokens behind the first `m` are
still in the batch. -/
structure Pending (s : SlotState) (i : ℕ) : Prop where
  decoded : ∃ m ≤ s.cacheTokens.length, Mirror (s.cacheTokens.take m) s.cells ∧
    ownCells (s.batch.drop i) = cellsFrom m (s.cacheTokens.drop m)
  nPast_eq : s.phase = .batching ∨ s.phase = .processing → s.nPast = s.cacheTokens.length
  nPast_loading : s.phase = .loading → s.nPast = 0
  draft : ∀ d, s.drafted = some d → s.phase = .processing ∧ d <:+ s.cacheTokens
  saved : ∀ prompt ∈ s.saved, Mirror prompt.tokens prompt.cells

/-! ## Decoding a batch -/

@[simp] theorem ownCells_append (a b : List (Option Cell)) :
    ownCells (a ++ b) = ownCells a ++ ownCells b :=
  filterMap_append

@[simp] theorem ownCells_replicate_none (n : ℕ) : ownCells (List.replicate n none) = [] := by
  induction n with
  | zero => rfl
  | succ n ih => simpa [replicate_succ, ownCells] using ih

@[simp] theorem ownCells_map_some (cells : List Cell) : ownCells (cells.map some) = cells := by
  simp [ownCells, filterMap_map]

theorem ownCells_take_drop (view : List (Option Cell)) (n : ℕ) :
    ownCells (view.take n) ++ ownCells (view.drop n) = ownCells view := by
  rw [← ownCells_append, take_append_drop]

/-- The two parts of a row of cells are rows. -/
theorem cellsFrom_split {a b : List Cell} {m : ℕ} {ts : List Token} (h : a ++ b = cellsFrom m ts) :
    a.length ≤ ts.length ∧ a = cellsFrom m (ts.take a.length) ∧
      b = cellsFrom (m + a.length) (ts.drop a.length) := by
  have hle : a.length ≤ ts.length := by
    have := congrArg length h
    rw [length_append, length_cellsFrom] at this
    omega
  have hsplit : cellsFrom m ts =
      cellsFrom m (ts.take a.length) ++ cellsFrom (m + a.length) (ts.drop a.length) := by
    conv_lhs => rw [← take_append_drop a.length ts, cellsFrom_append, length_take,
      min_eq_left hle]
  rw [hsplit] at h
  exact ⟨hle, append_inj h (by rw [length_cellsFrom, length_take, min_eq_left hle])⟩

/-- Sampled are tokens of the draft, and one more. -/
theorem sampleAndAcceptN_eq (draw : ℕ → Token) (i : ℕ) (draft : List Token) :
    ∃ a ≤ draft.length, ∃ t, sampleAndAcceptN draw i draft = draft.take a ++ [t] := by
  induction draft generalizing i with
  | nil => exact ⟨0, le_refl 0, draw i, rfl⟩
  | cons d draft ih =>
    rw [sampleAndAcceptN]
    split
    case isTrue => exact ⟨0, zero_le _, draw i, rfl⟩
    case isFalse hd =>
      obtain ⟨a, ha, t, heq⟩ := ih (i + 1)
      refine ⟨a + 1, succ_le_succ ha, t, ?_⟩
      rw [heq, ← Decidable.not_not.mp hd, take_succ_cons, cons_append]

namespace Pending

variable {s : SlotState} {i : ℕ}

/-- Once all tokens of the slot are decoded the list mirrors the cells. -/
theorem mirror (h : s.Pending i) (hnil : ownCells (s.batch.drop i) = []) :
    Mirror s.cacheTokens s.cells := by
  obtain ⟨m, hm, hmirror, hown⟩ := h.decoded
  have hlen := congrArg length hown
  rw [hnil, length_cellsFrom, length_drop] at hlen
  rwa [take_of_length_le (by simp only [length_nil] at hlen; omega)] at hmirror

/-- A part of the batch is decoded. -/
theorem store (h : s.Pending i) (n : ℕ) : (s.store ((s.batch.drop i).take n)).Pending (i + n) := by
  obtain ⟨m, hm, hmirror, hown⟩ := h.decoded
  rw [← ownCells_take_drop (s.batch.drop i) n] at hown
  obtain ⟨hle, htake, hdrop⟩ := cellsFrom_split hown
  rw [length_drop] at hle
  refine ⟨⟨m + (ownCells ((s.batch.drop i).take n)).length, ?_, ?_, ?_⟩, h.nPast_eq,
    h.nPast_loading, h.draft, h.saved⟩
  · change _ ≤ s.cacheTokens.length
    omega
  · change Mirror (s.cacheTokens.take _) (s.cells ++ ownCells ((s.batch.drop i).take n))
    rw [take_add]
    have happ := hmirror.append
      ((s.cacheTokens.drop m).take (ownCells ((s.batch.drop i).take n)).length)
    rwa [length_take, min_eq_left hm, ← htake] at happ
  · change ownCells (s.batch.drop (i + n)) = cellsFrom _ (s.cacheTokens.drop _)
    rw [drop_drop] at hdrop
    rw [hdrop, drop_drop]

/-- Nothing of the slot is stored by a call that fails and is tried again. -/
theorem store_of_nil (h : s.Pending i) {view : List (Option Cell)} (hnil : ownCells view = []) :
    (s.store view).Pending i := by
  have hcells : (s.store view).cells = s.cells := by
    change s.cells ++ ownCells view = s.cells
    rw [hnil, append_nil]
  refine ⟨?_, h.nPast_eq, h.nPast_loading, h.draft, h.saved⟩
  rw [hcells]
  exact h.decoded

theorem release (h : s.Pending i) : s.release.Pending i where
  decoded := h.decoded
  nPast_eq hphase := by simp [SlotState.release] at hphase
  nPast_loading hphase := by simp [SlotState.release] at hphase
  draft d hd := by simp [SlotState.release] at hd
  saved := h.saved

theorem sample (h : s.Pending i) (j n : ℕ) (result : Decoded) :
    (s.sample j n result).Pending i := by
  unfold SlotState.sample
  split
  case isFalse => exact h
  case isTrue =>
    cases result.samples with
    | none => exact release ⟨h.decoded, h.nPast_eq, h.nPast_loading, h.draft, h.saved⟩
    | some draw =>
      have h' : Pending { s with sampled := draw 0, iBatch := -1 } i :=
        ⟨h.decoded, h.nPast_eq, h.nPast_loading, h.draft, h.saved⟩
      simp only
      split
      case isTrue => exact h'.release
      case isFalse => exact h'

/-- A state all of whose tokens are decoded. -/
theorem of_mirror {t : SlotState} (hmirror : Mirror t.cacheTokens t.cells)
    (hnil : ownCells (t.batch.drop i) = [])
    (hpast : t.phase = .batching ∨ t.phase = .processing → t.nPast = t.cacheTokens.length)
    (hloading : t.phase = .loading → t.nPast = 0) (hdrafted : t.drafted = none)
    (hsaved : ∀ prompt ∈ t.saved, Mirror prompt.tokens prompt.cells) : t.Pending i where
  decoded := ⟨t.cacheTokens.length, le_refl _, by rwa [take_length],
    by rw [hnil, drop_length, cellsFrom_nil]⟩
  nPast_eq := hpast
  nPast_loading := hloading
  draft d hd := by rw [hdrafted] at hd; cases hd
  saved := hsaved

theorem acceptDraft (h : s.Pending i) (result : Decoded)
    (hnil : s.drafted ≠ none → ownCells (s.batch.drop i) = []) :
    (s.acceptDraft result).Pending i := by
  unfold SlotState.acceptDraft
  cases hdrafted : s.drafted with
  | none => exact h
  | some draft =>
    obtain ⟨hphase, base, hbase⟩ := h.draft draft hdrafted
    have hown := hnil (by rw [hdrafted]; exact some_ne_none draft)
    simp only
    rw [if_neg (not_not_intro hphase)]
    cases result.samples with
    | none => exact h.release
    | some draw =>
      obtain ⟨a, ha, t, hids⟩ := sampleAndAcceptN_eq draw 0 draft
      have hlen : s.cacheTokens.length - draft.length = base.length := by
        rw [← hbase, length_append, Nat.add_sub_cancel]
      have htake : s.cacheTokens.take (s.cacheTokens.length - draft.length) = base := by
        rw [hlen, ← hbase, take_left]
      -- what is accepted is the beginning of the draft
      have hmirror : Mirror (base ++ draft.take a)
          (seqRm s.cells (base.length + ((draft.take a ++ [t]).length - 1)) (-1)) := by
        have hkeep := (h.mirror hown).keepFirst (n := base.length + a) (by
          rw [← hbase, length_append]; omega)
        rw [← hbase, take_length_add_append] at hkeep
        have hcast : ((base.length + a : ℕ) : ℤ) =
            base.length + ((draft.take a ++ [t]).length - 1) := by
          rw [length_append, length_take, Nat.min_eq_left ha, length_singleton]
          omega
        rwa [hcast] at hkeep
      have haccepted : Pending { s with
          cacheTokens := base ++ draft.take a
          sampled := (draft.take a ++ [t]).getLastD 0
          nPast := (base ++ draft.take a).length
          cells := seqRm s.cells (base.length + ((draft.take a ++ [t]).length - 1)) (-1)
          drafted := none } i :=
        of_mirror hmirror hown (fun _ => rfl) (fun hload => by
          simp only [hphase, reduceCtorEq] at hload) rfl h.saved
      simp only [htake, hids, dropLast_concat]
      split
      case isTrue => exact haccepted.release
      case isFalse => exact haccepted

/-- What has no cell yet is forgotten, if there is a cell. -/
theorem cancel (h : s.Pending i) (hne : s.cells ≠ [] ∨ s.cacheTokens = []) : Tracked s.cancel := by
  obtain ⟨m, hm, hmirror, -⟩ := h.decoded
  have hlen := hmirror.length_eq
  rw [length_take, min_eq_left hm] at hlen
  have hmin : min (seqPosMax s.cells + 1).toNat s.cacheTokens.length = m := by
    rcases hne with hne | hnil
    · have hmne : s.cacheTokens.take m ≠ [] := by
        intro htake
        rw [htake] at hmirror
        exact hne (List.Perm.eq_nil hmirror)
      have hpos := seqPosMax_of_mirror hmirror hmne
      rw [length_take, min_eq_left hm] at hpos
      omega
    · rw [hnil] at hm ⊢
      simp only [length_nil, le_zero_eq] at hm
      simp [hm]
  refine ⟨?_, ?_, ?_, rfl, h.saved⟩
  · change Mirror (s.cacheTokens.take _) s.cells
    rwa [hmin]
  · intro hphase
    simp [SlotState.cancel, SlotState.release] at hphase
  · intro hphase
    simp [SlotState.cancel, SlotState.release] at hphase

/-- Nothing is pending any more. -/
theorem tracked (h : s.Pending i) (hnil : ownCells (s.batch.drop i) = [])
    (hdrafted : s.drafted = none) : Tracked s :=
  ⟨h.mirror hnil, h.nPast_eq, h.nPast_loading, hdrafted, h.saved⟩

end Pending

theorem acceptDraft_drafted {s : SlotState} (h : s.drafted ≠ none → s.phase = .processing)
    (result : Decoded) : (s.acceptDraft result).drafted = none := by
  unfold acceptDraft
  cases hdrafted : s.drafted with
  | none => exact hdrafted
  | some draft =>
    simp only
    rw [if_neg (not_not_intro (h (by rw [hdrafted]; exact some_ne_none draft)))]
    cases result.samples with
    | none => rfl
    | some draw =>
      simp only
      split
      case isTrue => rfl
      case isFalse => rfl

theorem sample_batch (s : SlotState) (i n : ℕ) (result : Decoded) :
    (s.sample i n result).batch = s.batch := by
  unfold sample
  split
  case isFalse => rfl
  case isTrue =>
    cases result.samples with
    | none => rfl
    | some draw =>
      simp only
      split
      case isTrue => rfl
      case isFalse => rfl

/-- Sampling leaves a draft alone. -/
theorem sample_drafted (s : SlotState) (i n : ℕ) (result : Decoded)
    (h : (s.sample i n result).drafted ≠ none) : s.sample i n result = s := by
  unfold sample at h ⊢
  split at h
  case isFalse hcond => rw [if_neg hcond]
  case isTrue hcond =>
    exfalso
    refine h ?_
    cases result.samples with
    | none => rfl
    | some draw =>
      simp only
      split
      case isTrue => rfl
      case isFalse => exact hcond.2.1

/-- A decoded batch leaves nothing pending. -/
theorem tracked_processBatchTokens {s t : SlotState} {i nBatch : ℕ} {results : List Decoded}
    (h : s.Pending i) (hdraft : s.drafted ≠ none → ownCells (s.batch.drop i) ≠ [])
    (hsound : s.SoundResults i nBatch results)
    (hstep : s.processBatchTokens i nBatch results = some t) : Tracked t := by
  induction results generalizing s i nBatch with
  | nil =>
    rw [processBatchTokens] at hstep
    split at hstep
    case isFalse => cases hstep
    case isTrue hend =>
      obtain rfl := some.inj hstep
      have hnil : ownCells (s.batch.drop i) = [] := by rw [drop_of_length_le hend]; rfl
      exact h.tracked hnil (by_contra fun hd => hdraft hd hnil)
  | cons result results ih =>
    rw [processBatchTokens] at hstep
    rw [SoundResults] at hsound
    split at hstep
    case isTrue => cases hstep
    case isFalse =>
      simp only at hstep hsound
      split at hstep
      case isTrue hret =>
        rw [if_pos hret] at hsound
        split at hstep
        case isTrue hlast =>
          rw [if_pos hlast] at hsound
          have hview : ((s.batch.drop i).take nBatch).take result.stored =
              (s.batch.drop i).take (min result.stored nBatch) := by rw [take_take]
          have hstored := h.store (min result.stored nBatch)
          rw [← hview] at hstored
          obtain rfl := some.inj hstep
          split
          case isTrue hcancel =>
            rw [if_pos hcancel] at hsound
            exact hstored.cancel hsound
          case isFalse hcancel =>
            rw [if_neg hcancel] at hsound
            exact hstored.release.tracked hsound rfl
        case isFalse hretry =>
          rw [if_neg hretry] at hsound
          exact ih (h.store_of_nil hsound.1) hdraft hsound.2 hstep
      case isFalse hok =>
        rw [if_neg hok] at hsound
        obtain ⟨hall, hrest⟩ := hsound
        refine ih ?_ ?_ hrest hstep
        · refine ((h.store nBatch).sample i _ result).acceptDraft result fun hd => ?_
          rw [sample_batch]
          have hs := sample_drafted _ _ _ _ hd
          rw [hs] at hd
          exact hall hd
        · intro hd
          refine absurd (acceptDraft_drafted (fun hne => ?_) result) hd
          obtain ⟨draft, hdrafted⟩ := ne_none_iff_exists'.mp hne
          exact (((h.store nBatch).sample i _ result).draft draft hdrafted).1

/-! ## Filling the batch -/

theorem foldl_pushToken (s : SlotState) (tokens : List Token) : tokens.foldl pushToken s = { s with
      batch := s.batch ++ (cellsFrom s.cacheTokens.length tokens).map some
      cacheTokens := s.cacheTokens ++ tokens } := by
  induction tokens generalizing s with
  | nil => simp
  | cons t tokens ih =>
    rw [foldl_cons, ih]
    simp [pushToken, cellsFrom]

/-- Tokens of the slot are put in the batch, between those of others. -/
theorem Tracked.push {s t : SlotState} (h : s.Tracked) (tokens : List Token) (before after : ℕ)
    (htokens : t.cacheTokens = s.cacheTokens ++ tokens) (hcells : t.cells = s.cells)
    (hbatch : t.batch = List.replicate before none ++
      (cellsFrom s.cacheTokens.length tokens).map some ++ List.replicate after none)
    (hpast : t.phase = .batching ∨ t.phase = .processing → t.nPast = t.cacheTokens.length)
    (hloading : t.phase = .loading → t.nPast = 0)
    (hdraft : ∀ d, t.drafted = some d → t.phase = .processing ∧ d <:+ t.cacheTokens)
    (hsaved : t.saved = s.saved) : t.Pending 0 := by
  refine ⟨⟨s.cacheTokens.length, ?_, ?_, ?_⟩, hpast, hloading, hdraft, hsaved ▸ h.saved⟩
  · rw [htokens, length_append]
    exact le_add_right _ _
  · rw [htokens, take_left, hcells]
    exact h.mirror
  · rw [htokens, drop_left, hbatch]
    simp

theorem fillPrompt_phase (s : SlotState) (n : ℕ) : (s.fillPrompt n).phase ≠ .loading := by
  unfold fillPrompt
  simp only [ne_eq]
  split
  case isTrue => intro h; cases h
  case isFalse => intro h; cases h

theorem Tracked.fillPrompt {s : SlotState} (h : s.Tracked) (hphase : s.phase = .batching)
    (hbatch : s.batch = []) (before n after : ℕ) :
    (((s.pushOthers before).fillPrompt n).pushOthers after).Pending 0 ∧
      (((s.pushOthers before).fillPrompt n).pushOthers after).drafted = none := by
  have hnone : (((s.pushOthers before).fillPrompt n).pushOthers after).drafted = none := by
    simp only [SlotState.fillPrompt, foldl_pushToken, pushOthers]
    exact h.drafted
  refine ⟨h.push ((s.promptTokens.drop s.nPastPrompt.toNat).take n) before after ?_ ?_ ?_ ?_ ?_ ?_
    ?_, hnone⟩
  · simp only [SlotState.fillPrompt, foldl_pushToken, pushOthers]
  · simp only [SlotState.fillPrompt, foldl_pushToken, pushOthers]
  · simp only [SlotState.fillPrompt, foldl_pushToken, pushOthers, hbatch, nil_append]
  · intro _
    simp only [SlotState.fillPrompt, foldl_pushToken, pushOthers, length_append]
    rw [h.nPast_eq (.inl hphase)]
    omega
  · intro hload
    exact absurd hload (fillPrompt_phase _ n)
  · intro d hd
    rw [hnone] at hd
    cases hd
  · simp only [SlotState.fillPrompt, foldl_pushToken, pushOthers]

theorem Tracked.addSampledTokens {s : SlotState} (h : s.Tracked) (hphase : s.phase = .processing)
    (hbatch : s.batch = []) (draft : Option (List Token)) (before after : ℕ) :
    (((s.pushOthers before).addSampledTokens draft).pushOthers after).Pending 0 ∧
      ownCells (((s.pushOthers before).addSampledTokens draft).pushOthers after).batch ≠ [] := by
  cases draft with
  | none =>
    constructor
    case left =>
      refine h.push [s.sampled] before after rfl rfl ?_ (fun _ => rfl) ?_ ?_ rfl
      · simp [SlotState.addSampledTokens, pushToken, pushOthers, hbatch, cellsFrom]
      · intro hload
        simp [SlotState.addSampledTokens, pushToken, pushOthers, hphase] at hload
      · intro d hd
        change s.drafted = some d at hd
        rw [h.drafted] at hd
        cases hd
    case right =>
      simp [SlotState.addSampledTokens, pushToken, pushOthers, hbatch, ownCells]
  | some draft =>
    constructor
    case left =>
      refine h.push (s.sampled :: draft) before after ?_ ?_ ?_ ?_ ?_ ?_ ?_
      · simp [SlotState.addSampledTokens, foldl_pushToken, pushToken, pushOthers]
      · simp [SlotState.addSampledTokens, foldl_pushToken, pushToken, pushOthers]
      · simp [SlotState.addSampledTokens, foldl_pushToken, pushToken, pushOthers, hbatch, cellsFrom]
      · intro _
        simp [SlotState.addSampledTokens, foldl_pushToken, pushToken, pushOthers]
      · intro hload
        simp [SlotState.addSampledTokens, foldl_pushToken, pushToken, pushOthers, hphase] at hload
      · intro d hd
        simp only [SlotState.addSampledTokens, foldl_pushToken, pushToken, pushOthers,
          some.injEq] at hd ⊢
        subst hd
        exact ⟨hphase, suffix_append _ _⟩
      · simp [SlotState.addSampledTokens, foldl_pushToken, pushToken, pushOthers]
    case right =>
      simp [SlotState.addSampledTokens, foldl_pushToken, pushToken, pushOthers, hbatch, ownCells]

/-! ## Cutting and shifting -/

theorem Tracked.release {s : SlotState} (h : s.Tracked) : s.release.Tracked where
  mirror := h.mirror
  nPast_eq hphase := by simp [SlotState.release] at hphase
  nPast_loading hphase := by simp [SlotState.release] at hphase
  drafted := rfl
  saved := h.saved

theorem Tracked.trimCache {s t : SlotState} (h : s.Tracked) (hphase : s.phase = .batching)
    {trims : Bool} (hstep : s.trimCache trims = some t) :
    t.Tracked ∧ t.phase = .batching ∧ t.batch = s.batch := by
  have hpast := h.nPast_eq (.inl hphase)
  unfold SlotState.trimCache at hstep
  have hnneg : ¬s.nPast < 0 := by omega
  simp only [hnneg, if_false] at hstep
  rw [if_neg (by omega)] at hstep
  split at hstep
  case isTrue =>
    obtain rfl := some.inj hstep
    have hkeep := h.mirror.keepFirst (le_refl _)
    refine ⟨⟨?_, fun _ => ?_, fun hload => ?_, h.drafted, h.saved⟩, hphase, rfl⟩
    · rw [hpast]
      exact hkeep
    · change s.nPast = (s.cacheTokens.take s.nPast.toNat).length
      rw [hpast, Int.toNat_natCast, take_length]
    · rw [hphase] at hload
      cases hload
  case isFalse =>
    obtain rfl := some.inj hstep
    exact ⟨⟨.empty, fun _ => rfl, fun _ => rfl, h.drafted, h.saved⟩, hphase, rfl⟩

theorem contextShiftFindNTokens_nonneg (V : Vocab) (a b : List Token) {nKeep nDiscard : ℤ}
    (hkeep : 0 ≤ nKeep) (hdiscard : 0 ≤ nDiscard) (exact : Bool) :
    0 ≤ (contextShiftFindNTokens V a b nKeep nDiscard exact).1 ∧
      0 ≤ (contextShiftFindNTokens V a b nKeep nDiscard exact).2 := by
  unfold contextShiftFindNTokens
  simp only
  constructor
  case left => split <;> omega
  case right => split <;> omega

theorem posNext_of_nonneg (s : SlotState) {n : ℤ} (h : 0 ≤ n) : s.posNext n = n :=
  if_neg (Int.not_lt.mpr h)

/-- A shift of which no token but the discarded ones is lost. -/
theorem discardNKvAndCacheTokens_mirror {s : SlotState} (h : Mirror s.cacheTokens s.cells)
    (hpast : s.nPast = s.cacheTokens.length) {k d : ℕ}
    (hle : d = 0 ∨ k + d < s.cacheTokens.length) :
    Mirror (s.discardNKvAndCacheTokens k d).cacheTokens (s.discardNKvAndCacheTokens k d).cells ∧
      s.nPast - d = (s.discardNKvAndCacheTokens k d).cacheTokens.length := by
  have hk : s.posNext k = k := s.posNext_of_nonneg (by omega)
  have hkd : s.posNext (k + d) = k + d := s.posNext_of_nonneg (by omega)
  have hsub : (k : ℤ) + d - k = d := by omega
  simp only [discardNKvAndCacheTokens, discardNTokens, hk, hkd, hsub,
    s.posNext_of_nonneg (by omega : 0 ≤ s.nPast)]
  rcases Nat.eq_zero_or_pos d with rfl | hd
  · rw [if_pos (.inl (by omega)), Int.natCast_zero, Int.add_zero, Int.neg_zero]
    exact ⟨by rw [h.discard_zero k]; exact h, by omega⟩
  · rw [if_neg (by omega), hpast, ← cast_add, Int.toNat_natCast, Int.toNat_natCast]
    refine ⟨h.discard (by omega), ?_⟩
    rw [length_append, length_take, length_drop]
    omega

theorem shiftCounts_nonneg (p : SlotParams) (s : SlotState) : 0 ≤ (s.shiftCounts p).1 := by
  have := p.four_le_nCtx
  unfold shiftCounts
  simp only
  split <;> split <;> omega

variable {p : SlotParams} {V : Vocab}

theorem Tracked.contextShift {s : SlotState} (h : s.Tracked)
    (hsound : s.SoundShift V p) : (s.contextShift V p).Tracked := by
  unfold SlotState.contextShift
  split
  case isFalse => exact h
  case isTrue hcond =>
    split
    case isTrue => exact h.release
    case isFalse hshift =>
      simp only
      split
      case isFalse => exact h
      case isTrue hpos =>
        have hsound := hsound hcond.1 hcond.2 (by simpa using hshift) hpos
        have hpast : s.nPast = s.cacheTokens.length := by
          have hload := h.nPast_loading
          have hfour := p.four_le_nCtx
          cases hphase : s.phase with
          | idle => exact absurd hphase hcond.1
          | loading => have := hload hphase; omega
          | batching => exact h.nPast_eq (.inl hphase)
          | processing => exact h.nPast_eq (.inr hphase)
        have hnonneg := contextShiftFindNTokens_nonneg V s.promptTokens s.cacheTokens
          (s.shiftCounts_nonneg p) (Int.le_of_lt hpos) false
        obtain ⟨k, hk⟩ := Int.eq_ofNat_of_zero_le hnonneg.1
        obtain ⟨d, hd⟩ := Int.eq_ofNat_of_zero_le hnonneg.2
        rw [hk, hd] at hsound
        obtain ⟨hmirror, hlen⟩ := discardNKvAndCacheTokens_mirror h.mirror hpast (k := k) (d := d)
          (by omega)
        rw [hk, hd]
        refine ⟨hmirror, fun _ => hlen, fun hload => ?_, h.drafted, h.saved⟩
        have hload : s.nPast = 0 := h.nPast_loading hload
        have := p.four_le_nCtx
        omega

/-! ## Starting a prompt -/

theorem matched_textPrefix (V : Vocab) (a b : List Token) (exact : Bool) :
    Matched V a b exact (textPrefix V a b exact) := by
  obtain ⟨hpre, ha, hb⟩ := commonTokens_spec a b
  exact (matched_findCommonTextTokenPrefix V a b _ exact).add hpre ha hb

theorem matchPrompt_toSlot (V : Vocab) (s : SlotState) (q : Answers) :
    ∃ r, matchPrompt V false s.toSlot q = .ok r ∧
      Matched V s.cacheTokens s.promptTokens false r := by
  have hr : s.toSlot.cacheTokens.getCommonPrefix V s.toSlot.promptTokens false =
      .ok (textPrefix V s.cacheTokens s.promptTokens false) :=
    getCommonPrefix_textTokens V s.cacheTokens s.promptTokens false
  rcases matchPrompt_cases q hr with h | h
  · exact ⟨(0, 0), h, .zero V _ _ false⟩
  · exact ⟨_, h, matched_textPrefix V _ _ false⟩

theorem posNext_textTokens (tokens : List Token) (n : ℕ) : (textTokens tokens).posNext n = .ok n :=
  congrArg Except.ok (if_neg (Int.not_lt.mpr (Int.natCast_nonneg n)))

theorem keepFirst_textTokens {tokens : List Token} {n : ℕ} (h : n ≤ tokens.length) :
    (textTokens tokens).keepFirst n = .ok (textTokens (tokens.take n)) := by
  unfold ServerTokens.keepFirst
  exact if_neg (not_lt.mpr h)

/-- Without a checkpoint all is kept, or nothing. -/
theorem applyCheckpoint_toSlot (s : SlotState) (q : Answers) (n : ℕ) (m : ℤ)
    (hrest : needsCheckpoint s.toSlot q n n = true → restored s.toSlot q n = none) :
    ∃ reuse, applyCheckpoint s.toSlot q n m = .ok reuse ∧
      ((needsCheckpoint s.toSlot q n n = false ∧ reuse.nPast = n ∧
        reuse.cacheTokens = textTokens s.cacheTokens) ∨
      (reuse.nPast = 0 ∧ reuse.cacheTokens = textTokens [])) := by
  have hpos := posNext_textTokens s.cacheTokens n
  unfold applyCheckpoint
  cases hneeds : needsCheckpoint s.toSlot q n n with
  | false =>
    refine ⟨_, by
      simp only [bind, Except.bind, toSlot, hpos] at hneeds ⊢; simp only [hneeds]; rfl,
      .inl ⟨rfl, rfl, rfl⟩⟩
  | true =>
    refine ⟨_, by
      have hrest := hrest hneeds
      simp only [bind, Except.bind, toSlot, hpos] at hneeds hrest ⊢
      simp only [hneeds, hrest, if_true]
      rfl, .inr ⟨rfl, rfl⟩⟩

/-- What is kept of the cache when no checkpoint is restored: the first tokens, and no more than
are matched. -/
theorem startBatching_toSlot {s : SlotState} {q : Answers} {reuse : Reuse}
    (hne : s.promptTokens ≠ []) (hrest : s.restoredCheckpoint V q = none)
    (hstart : startBatching V false s.toSlot q = .ok reuse) :
    if q.trims then
      ∃ n : ℕ, reuse.nPast = n ∧ n ≤ s.cacheTokens.length ∧
        reuse.cacheTokens.tokens = s.cacheTokens.take n ∧
        ∃ r, matchPrompt V false s.toSlot q = .ok r ∧
          let past := leaveToken s.promptTokens.length r.1 r.2
          (n = 0 ∨ needsCheckpoint s.toSlot q past.1 past.1 = false ∧ (n : ℤ) = past.1)
    else reuse.nPast = 0 ∧ reuse.cacheTokens.tokens = [] := by
  obtain ⟨r, hr, hmatch⟩ := matchPrompt_toSlot V s q
  obtain ⟨n, m, hpast, hn, -⟩ := leaveToken_cases hmatch hne
  have hnone : needsCheckpoint s.toSlot q n n = true → restored s.toSlot q n = none := by
    unfold restoredCheckpoint at hrest
    rw [hr] at hrest
    simp only [hpast] at hrest
    exact fun hneeds => by rwa [if_pos hneeds] at hrest
  obtain ⟨reuse', happly, hcases⟩ := applyCheckpoint_toSlot s q n m hnone
  obtain ⟨k, hk, hkeep, hle, hpick⟩ : ∃ k : ℕ, reuse'.nPast = k ∧
      reuse'.cacheTokens.keepFirst k = .ok (textTokens (s.cacheTokens.take k)) ∧
      k ≤ s.cacheTokens.length ∧ (k = 0 ∨ needsCheckpoint s.toSlot q n n = false ∧ k = n) := by
    rcases hcases with ⟨hneeds, hk, hT⟩ | ⟨hk, hT⟩
    · refine ⟨n, hk, ?_, le_trans hn hmatch.fst_le, .inr ⟨hneeds, rfl⟩⟩
      rw [hT]
      exact keepFirst_textTokens (le_trans hn hmatch.fst_le)
    · refine ⟨0, hk, ?_, zero_le _, .inl rfl⟩
      rw [hT]
      exact keepFirst_textTokens (zero_le _)
  rw [startBatching_of hr hpast happly hk hkeep] at hstart
  obtain rfl := Except.ok.inj hstart
  cases q.trims with
  | false => exact ⟨rfl, rfl⟩
  | true =>
    refine ⟨k, hk, hle, rfl, r, hr, ?_⟩
    simp only [hpast]
    rcases hpick with hk | ⟨hneeds, rfl⟩
    · exact .inl hk
    · exact .inr ⟨hneeds, rfl⟩

theorem promptShift_nKept_nonneg {s : SlotState} {d : PromptShift}
    (h : s.promptShift V p = some d) : 0 ≤ d.nKept := by
  have hkeep : 0 ≤ (promptCounts p).1 := Int.le_max_left 0 _
  unfold promptShift at h
  simp only at h
  by_cases hpos : 0 < (promptCounts p).2
  case neg =>
    rw [dif_neg hpos] at h
    cases h
  case pos =>
    rw [dif_pos hpos] at h
    obtain rfl := some.inj h
    simp only
    split
    case isFalse => exact hkeep
    case isTrue =>
      exact (contextShiftFindNTokens_nonneg V _ _ hkeep (Int.le_of_lt hpos) false).1

/-- The cells that a shift of the prompt removes; none is moved, as `nPast` is zero. -/
theorem discardNKvAndCacheTokens_of_nPast {s : SlotState} (h : Mirror s.cacheTokens s.cells)
    (hpast : s.nPast = 0) (k d : ℕ) :
    (s.discardNKvAndCacheTokens k d).cells = seqRm s.cells k (k + d : ℕ) := by
  have hk : s.posNext k = k := s.posNext_of_nonneg (by omega)
  have hkd : s.posNext (k + d) = k + d := s.posNext_of_nonneg (by omega)
  have hsub : (k : ℤ) + d - k = d := by omega
  have hzero : s.posNext s.nPast = 0 := by rw [hpast]; rfl
  simp only [discardNKvAndCacheTokens, hk, hkd, hsub, hzero, cast_add]
  refine seqAdd_of_outside fun cell hcell => ?_
  have hnonneg := h.pos_nonneg cell (mem_of_mem_filter hcell)
  simp only [inRange, decide_eq_false_iff_not]
  omega

/-- What stands before the discarded tokens mirrors its cells still. -/
theorem contextShiftPrompt_mirror {s : SlotState}
    (h : Mirror s.cacheTokens s.cells) (hpast : s.nPast = 0) {n : ℕ}
    (hn : n ≤ (s.contextShiftPrompt V p).cacheTokens.length)
    (hkept : ∀ d, s.promptShift V p = some d → 0 < d.nDiscardCache → (n : ℤ) ≤ d.nKept) :
    Mirror ((s.contextShiftPrompt V p).cacheTokens.take n)
      (seqRm (s.contextShiftPrompt V p).cells n (-1)) := by
  unfold contextShiftPrompt at hn ⊢
  cases hshift : s.promptShift V p with
  | none =>
    rw [hshift] at hn
    exact h.keepFirst hn
  | some d =>
    rw [hshift] at hn
    simp only at hn ⊢
    split
    case isFalse hd =>
      rw [if_neg hd] at hn
      exact h.keepFirst hn
    case isTrue hd =>
      rw [if_pos hd] at hn
      have hnk := hkept d hshift hd
      obtain ⟨k, hk⟩ := Int.eq_ofNat_of_zero_le (promptShift_nKept_nonneg hshift)
      obtain ⟨m, hm⟩ := Int.eq_ofNat_of_zero_le (Int.le_of_lt hd)
      rw [hk] at hnk
      rw [hk, hm] at hn ⊢
      rw [discardNKvAndCacheTokens_of_nPast h hpast]
      change n ≤ (discardNTokens s.cacheTokens k m).length at hn
      change Mirror ((discardNTokens s.cacheTokens k m).take n) _
      unfold discardNTokens at hn ⊢
      split
      case isTrue hall =>
        rw [if_pos hall] at hn
        exact h.keepFirst_seqRm hn (by omega) _
      case isFalse hall =>
        have hkn : n ≤ k := by omega
        rw [Int.toNat_natCast, take_append_of_le_length (by rw [length_take]; omega),
          take_take, min_eq_left hkn]
        exact h.keepFirst_seqRm (by omega) hkn _

theorem discardNTokens_ne_nil {tokens : List Token} (h : tokens ≠ []) (nKeep nDiscard : ℤ) :
    discardNTokens tokens nKeep nDiscard ≠ [] := by
  have hpos := length_pos_iff.mpr h
  unfold discardNTokens
  split
  case isTrue => exact h
  case isFalse hlt =>
    refine append_ne_nil_of_right_ne_nil _ (length_pos_iff.mp ?_)
    rw [length_drop]
    omega

/-- A shift of the prompt leaves some of it, and has nothing to do with drafts and saved
prompts. -/
theorem contextShiftPrompt_frame (V : Vocab) (p : SlotParams) (s : SlotState) :
    (s.promptTokens ≠ [] → (s.contextShiftPrompt V p).promptTokens ≠ []) ∧
      (s.contextShiftPrompt V p).drafted = s.drafted ∧
      (s.contextShiftPrompt V p).saved = s.saved := by
  unfold contextShiftPrompt
  cases s.promptShift V p with
  | none => exact ⟨id, rfl, rfl⟩
  | some d =>
    refine ⟨fun h => discardNTokens_ne_nil (discardNTokens_ne_nil h _ _) _ _, ?_, ?_⟩
    · simp only
      split <;> rfl
    · simp only
      split <;> rfl

theorem Tracked.startPrompt {s t : SlotState} {q : Answers}
    {ckptCells : List Cell} (h : s.Tracked) (hsound : s.SoundStart V p q)
    (hstep : s.startPrompt V p q ckptCells = some t) : t.Tracked := by
  unfold SlotState.startPrompt at hstep
  split at hstep
  case isTrue =>
    obtain rfl := some.inj hstep
    exact h.release
  case isFalse hne =>
    have hne : s.promptTokens ≠ [] := fun heq => hne (.inl heq)
    obtain ⟨hrest, hkept⟩ := hsound
    have hframe : (s.shifted V p).promptTokens ≠ [] ∧ (s.shifted V p).drafted = none ∧
        (s.shifted V p).saved = s.saved := by
      unfold shifted
      split
      case isTrue =>
        obtain ⟨hp, hd, hs⟩ := contextShiftPrompt_frame V p { s with nPast := 0 }
        exact ⟨hp hne, hd.trans h.drafted, hs⟩
      case isFalse => exact ⟨hne, h.drafted, rfl⟩
    obtain ⟨htne, hdrafted, hsaved⟩ := hframe
    simp only at hstep
    split at hstep
    case isTrue => cases hstep
    case isFalse =>
      cases hstart : startBatching V false (s.shifted V p).toSlot q with
      | error e => rw [hstart] at hstep; cases hstep
      | ok reuse =>
        rw [hstart] at hstep
        obtain rfl := some.inj hstep
        have hreuse := startBatching_toSlot htne hrest hstart
        simp only [hrest, isSome_none, Bool.false_eq_true, if_false]
        cases htrims : q.trims with
        | false =>
          rw [htrims] at hreuse
          obtain ⟨hpast, htokens⟩ := hreuse
          refine ⟨?_, fun _ => ?_, fun hload => ?_, hdrafted, hsaved ▸ h.saved⟩
          · simp only [htokens]
            exact .empty
          · simp only [hpast, htokens]
            rfl
          · cases hload
        | true =>
          rw [htrims] at hreuse
          obtain ⟨n, hpast, hle, htokens, r, hr, hpick⟩ := hreuse
          refine ⟨?_, fun _ => ?_, fun hload => ?_, hdrafted, hsaved ▸ h.saved⟩
          · simp only [hpast, htokens, if_true]
            unfold shifted at hle hkept hr hpick ⊢
            split
            case isTrue hlong =>
              rw [if_pos hlong] at hle hkept hr hpick
              refine contextShiftPrompt_mirror (s := { s with nPast := 0 }) h.mirror rfl hle ?_
              intro d hd hpos
              rcases hpick with rfl | ⟨hneeds, hn⟩
              · exact promptShift_nKept_nonneg hd
              · rw [hn]
                exact hkept hlong d hd hpos htrims r hr hneeds
            case isFalse hshort =>
              rw [if_neg hshort] at hle
              exact h.mirror.keepFirst hle
          · simp only [hpast, htokens, length_take]
            omega
          · cases hload

/-! ## Runs -/

theorem Tracked.launch {s t : SlotState} (h : s.Tracked) {prompt : List Token} {saves : Bool}
    {kept : SavedPrompt → Bool} {load : Option Load} (hload : ∀ left, load ≠ some (.fails left))
    (hstep : s.launch prompt saves kept load = some t) : t.Tracked := by
  have hsaved :
    ∀ prompt ∈ s.saved.filter kept ++ (if saves then [⟨s.cacheTokens, s.cells⟩] else []),
      Mirror prompt.tokens prompt.cells := by
    intro prompt hmem
    rcases mem_append.mp hmem with hmem | hmem
    · exact h.saved prompt (mem_of_mem_filter hmem)
    · cases saves with
      | false => cases hmem
      | true =>
        obtain rfl := mem_singleton.mp hmem
        exact h.mirror
  unfold SlotState.launch at hstep
  simp only at hstep
  generalize s.saved.filter kept ++ (if saves then [⟨s.cacheTokens, s.cells⟩] else []) = all
    at hsaved hstep
  cases load with
  | none =>
    obtain rfl := some.inj hstep
    exact ⟨h.mirror, fun hphase => by simp at hphase, fun _ => rfl, rfl, hsaved⟩
  | some load =>
    cases load with
    | fails left => exact absurd rfl (hload left)
    | loads saved =>
      simp only at hstep
      split at hstep
      case isFalse => cases hstep
      case isTrue hmem =>
        obtain rfl := some.inj hstep
        exact ⟨hsaved saved hmem, fun hphase => by simp at hphase, fun _ => rfl, rfl,
          fun prompt hp => hsaved prompt (mem_of_mem_erase hp)⟩

/-- A sound step keeps the token list a mirror of the cells. -/
theorem Tracked.step {s t : SlotState} {e : SlotEvent}
    (h : s.Tracked) (hsound : s.Sound V p e) (hstep : s.step V p e = some t) : t.Tracked := by
  have hempty : Tracked { s with batch := [] } :=
    ⟨h.mirror, h.nPast_eq, h.nPast_loading, h.drafted, h.saved⟩
  cases e with
  | launch prompt saves kept load =>
    rw [SlotState.step] at hstep
    split at hstep
    case isFalse => cases hstep
    case isTrue => exact h.launch hsound hstep
  | start q ckptCells =>
    rw [SlotState.step] at hstep
    split at hstep
    case isFalse => cases hstep
    case isTrue => exact h.startPrompt hsound hstep
  | prompt trims before n after nBatch results =>
    rw [SlotState.step] at hstep
    split at hstep
    case isFalse => cases hstep
    case isTrue hphase =>
      obtain ⟨u, hu, hdecode⟩ := bind_eq_some_iff.mp hstep
      obtain ⟨htracked, huphase, hubatch⟩ := hempty.trimCache hphase.1 hu
      obtain ⟨hpending, hnone⟩ := htracked.fillPrompt huphase hubatch before n after
      exact tracked_processBatchTokens hpending (absurd hnone) (hsound u hu) hdecode
  | generate draft before after nBatch results =>
    rw [SlotState.step] at hstep
    split at hstep
    case isFalse => cases hstep
    case isTrue hphase =>
      obtain ⟨hpending, hown⟩ := hempty.addSampledTokens hphase.1 rfl draft before after
      exact tracked_processBatchTokens hpending (fun _ => hown) hsound hstep
  | others n nBatch results =>
    rw [SlotState.step] at hstep
    split at hstep
    case isFalse => cases hstep
    case isTrue hphase =>
      have hpending : ({ s with batch := [] }.pushOthers n).Pending 0 :=
        .of_mirror h.mirror (by simp [pushOthers]) h.nPast_eq h.nPast_loading h.drafted h.saved
      exact tracked_processBatchTokens hpending (absurd h.drafted) hsound hstep
  | shift =>
    obtain rfl := some.inj hstep
    exact h.contextShift hsound
  | rewind nKeepCache sampled =>
    rw [SlotState.step] at hstep
    split at hstep
    case isFalse => cases hstep
    case isTrue hphase =>
      obtain rfl := some.inj hstep
      refine ⟨?_, fun _ => rfl, fun hload => ?_, h.drafted, h.saved⟩
      · have hkeep := h.mirror.keepFirst (min_le_right nKeepCache s.cacheTokens.length)
        simp only [length_take]
        rwa [← take_eq_take_min] at hkeep
      · rw [show s.phase = .loading from hload] at hphase
        cases hphase
  | release =>
    obtain rfl := some.inj hstep
    exact h.release

/-- The steps of a slot. -/
def Step (V : Vocab) (p : SlotParams) (s : SlotState) (e : SlotEvent) (t : SlotState) : Prop :=
  s.step V p e = some t

/-- The sound steps. -/
def SoundStep (V : Vocab) (p : SlotParams) (s : SlotState) (e : SlotEvent) (t : SlotState) :
    Prop :=
  s.Sound V p e ∧ s.Step V p e t

theorem tracked_initial : Tracked {} :=
  ⟨.empty, fun _ => rfl, fun _ => rfl, rfl, by simp⟩

def smallParams : SlotParams where
  nCtx := 16
  addBosToken := false
  ctxShift := true
  nKeep := 0
  nDiscard := 0
  four_le_nCtx := by decide

/-- The request "x|a" is launched, and its prompt starts to be batched. -/
def launched : SlotState := { phase := .loading, promptTokens := [4, 0] }

def started : SlotState := { phase := .batching, promptTokens := [4, 0] }

/-- Both tokens are decoded, and "bc" is sampled. -/
def decodedAll : List Decoded :=
  [{ ret := 0, stored := 2, samples := some fun _ => 1, stops := false }]

def replying : SlotState where
  phase := .processing
  cacheTokens := [4, 0]
  cells := [⟨0, 4⟩, ⟨1, 0⟩]
  promptTokens := [4, 0]
  nPast := 2
  nPastPrompt := 2
  sampled := 1
  batch := [some ⟨0, 4⟩, some ⟨1, 0⟩]

/-- The first token is decoded, and for the second there is no room. -/
def decodedOne : List Decoded :=
  [{ ret := 1, stored := 0, samples := none, stops := false },
   { ret := 0, stored := 1, samples := none, stops := false },
   { ret := 1, stored := 0, samples := none, stops := false }]

end SlotState
end ExpertPin.Server
