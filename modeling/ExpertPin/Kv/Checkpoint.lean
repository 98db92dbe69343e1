import ExpertPin.Kv.PartialState

/-!
# Checkpoints of speculative decoding

A checkpoint is saved before drafts of a sequence are decoded, and restored when some of them
are rejected.  There are three modes: the graphs keep the states of the single steps, the
cells and all state rows are copied, or the partial state of the sequence is saved.

The first mode moves the position of the cell whose index is the sequence, the second rolls
every sequence back, and the third relies on the search for cells.  `rollback_run` and
`isolation_run` say when a restore is right nevertheless.
-/

namespace ExpertPin.Kv

open Runs
open List
open Option

/-- `llama_spec_ckpt_mode`, as selected -/
inductive SpecCkptMode
  | none
  | perStep
  | gpuFallback
  | cpu
deriving DecidableEq, Repr

/-- `llama_spec_ckpt_restore_result` -/
inductive SpecCkptRestoreResult
  | failed
  | direct
  | baseReplayRequired
deriving DecidableEq, Repr

/-- What `checkpoint_save` copies. -/
structure Snapshot (R : Type) where
  cells : ℕ → Cell
  head : ℕ
  used : ℕ
  stateRows : ℕ → R

/-- The checkpoint of a cache, and whether its tensors have been allocated. -/
structure Checkpoint (R : Type) where
  selectedSpecMode : SpecCkptMode
  shadows : Bool
  perStepSsm : Bool
  savePerStepSsm : Bool
  saved : Option (Snapshot R)
  cpuStateData : Option (PartialState R)

namespace HybridCache

variable {R V : Type}

/-- `llama_spec_ckpt_save` -/
def specCkptSave (c : HybridCache R V) (ckpt : Checkpoint R) (id : ℤ) : Checkpoint R × Bool :=
  match ckpt.selectedSpecMode with
  | .perStep => ({ ckpt with savePerStepSsm := true }, true)
  | .gpuFallback =>
    if ckpt.shadows then
      ({ ckpt with saved := some ⟨c.kv.cells, c.kv.head, c.kv.used, c.stateRows⟩ }, true)
    else (ckpt, false)
  | .cpu => ({ ckpt with cpuStateData := some (c.writePartial id) }, true)
  | .none => (ckpt, false)

/-- `llama_kv_cache_seq_rm` on the cache -/
def removeFrom (c : HybridCache R V) (id p0 : ℤ) : Option (HybridCache R V) :=
  (c.kv.seqRm id p0 (-1)).map fun removed => { c with kv := removed.1 }

/-- `per_step_restore`: the copy has as many rows as the state tensor, whatever the buffer of
the steps holds behind the row of the step. -/
def perStepRestore (c : HybridCache R V) (steps : ℕ → ℕ → R) (step : ℕ) : HybridCache R V :=
  { c with stateRows := fun r => if r < c.kv.qnextStateSlots then steps step r else c.stateRows r }

/-- `kv.cells[seq_id].pos = accepted_pos` -/
def setAccepted (c : HybridCache R V) (id accepted : ℤ) : HybridCache R V :=
  if 0 ≤ id ∧ id < c.kv.size then
    { c with kv := c.kv.setCell id.toNat { c.kv.cells id.toNat with pos := accepted } }
  else c

/-- `checkpoint_restore` -/
def checkpointRestore (c : HybridCache R V) (snap : Snapshot R) : HybridCache R V :=
  { c with
    kv := { c.kv with cells := snap.cells, head := snap.head, used := snap.used }
    stateRows := snap.stateRows }

/-- `llama_spec_ckpt_restore_ex`, with what the graphs have left in the buffers of the steps:
`none` where an assertion fails. -/
def specCkptRestoreEx (c : HybridCache R V) (ckpt : Checkpoint R) (steps : ℕ → ℕ → R)
    (id nPast acceptedStep : ℤ) : Option (HybridCache R V × SpecCkptRestoreResult) :=
  match ckpt.selectedSpecMode with
  | .perStep =>
    if ckpt.perStepSsm = false ∨ acceptedStep < 0 then some (c, .failed)
    else
      let accepted := wrap32 (nPast + acceptedStep)
      (((c.perStepRestore steps acceptedStep.toNat).setAccepted id accepted).removeFrom id
        (wrap32 (accepted + 1))).map fun c => (c, .direct)
  | .gpuFallback =>
    match ckpt.saved with
    | .none => some (c, .failed)
    | .some snap =>
      ((c.checkpointRestore snap).removeFrom id nPast).map fun c => (c, .baseReplayRequired)
  | .cpu =>
    (match ckpt.cpuStateData with
      | .none => some c
      | .some saved => (c.readPartial saved id).map Prod.fst).bind fun c =>
        (c.removeFrom id nPast).map fun c => (c, .baseReplayRequired)
  | .none => some (c, .failed)

/-! ## The operations -/

variable {p : UpdateParams} {c c' now : HybridCache R V} {b : MicroBatch R V}
  {bs : List (MicroBatch R V)} {id : ℤ}

theorem removeFrom_plain (hplain : c.kv.anyCompacted = false) (id p0 : ℤ) :
    c.removeFrom id p0 = some { c with kv := c.kv.sweepRm id p0 (-1) } := by
  rw [removeFrom, Cache.seqRm_plain hplain, map_some]

theorem wrap32_of_small {x : ℤ} (h : 0 ≤ x) (h' : x < 2 ^ 31) : wrap32 x = x :=
  Int.bmod_eq_of_le (by omega) (by omega)

end HybridCache

namespace Cache

variable {cache after : Cache} {id t : ℤ} {i : ℕ} {pos : ℤ}

/-- What is left of a sequence from a position on, where all its positions can be removed. -/
theorem carries_cut {p0 : ℤ} (hid : 0 ≤ id) (hp0 : 0 ≤ p0)
    (hbelow : ∀ i pos, cache.Carries id i pos → pos < 2 ^ 31 - 1) :
    (cache.sweepRm id p0 (-1)).Carries id i pos ↔ cache.Carries id i pos ∧ pos < p0 := by
  rw [carries_sweepRm hid]
  refine and_congr_right fun hcarries => ?_
  have hend : pos < rangeEnd (-1) := hbelow i pos hcarries
  have hstart : rangeStart p0 = p0 := if_neg (Int.not_lt.mpr hp0)
  rw [hstart]
  constructor
  · exact fun hno => Int.not_le.mp fun hle => hno ⟨rfl, hle, hend⟩
  · exact fun hlt hno => absurd hno.2.1 (Int.not_le.mpr hlt)

theorem carries_others {p0 p1 : ℤ} (hid : 0 ≤ id) (ht : t ≠ id) :
    (cache.sweepRm id p0 p1).Carries t i pos ↔ cache.Carries t i pos := by
  rw [carries_sweepRm hid]
  exact and_iff_left fun hno => ht hno.1

/-- What an update leaves alone. -/
theorem frame_update {hasRope canShift : Bool} {maxMoves : ℕ}
    (h : cache.update hasRope canShift maxMoves = some after) :
    after.size = cache.size ∧ after.anyCompacted = cache.anyCompacted := by
  have hdefrag : ∀ mid : Cache, mid.size = cache.size → mid.anyCompacted = cache.anyCompacted →
      mid.updateDefrag maxMoves = some after →
      after.size = cache.size ∧ after.anyCompacted = cache.anyCompacted := by
    intro mid hsize hany hmid
    rw [updateDefrag] at hmid
    split at hmid
    case isTrue =>
      obtain ⟨_, _, rfl⟩ := map_eq_some_iff.mp hmid
      exact ⟨hsize, hany⟩
    case isFalse =>
      obtain rfl := some.inj hmid
      exact ⟨hsize, hany⟩
  rw [update] at h
  split at h
  case isTrue =>
    split at h
    case isTrue =>
      obtain ⟨_, hsize, _, hany⟩ := cache.updateShift.frame_updateCopy
      exact hdefrag _ hsize hany h
    case isFalse =>
      obtain rfl := some.inj h
      exact ⟨rfl, rfl⟩
  case isFalse =>
    obtain ⟨_, hsize, _, hany⟩ := cache.frame_updateCopy
    exact hdefrag _ hsize hany h

/-- A search that fails moves the head at most. -/
theorem findSlot_cases (cache : Cache) (batch : List Token) (hhead : cache.head ≤ cache.size) :
    (∃ head, cache.findSlot batch = ({ cache with head := head }, false)) ∨
    ∃ head, (∀ j, j < batch.length → (cache.cells (head + j)).pos < 0) ∧
      head + batch.length ≤ cache.size ∧
      cache.findSlot batch = ({ cache with
        head := head
        cells := placeTokens cache.cells head batch
        used := cache.used + batch.length }, true) := by
  rw [findSlot]
  split
  case isFalse => exact .inl ⟨cache.head, rfl⟩
  case isTrue hlen =>
    dsimp only
    split
    case isFalse => exact .inl ⟨_, rfl⟩
    case isTrue htrue =>
      obtain ⟨hroom, hfree⟩ := (slotSearch_spec cache.cells 0 hlen hhead).2 htrue
      exact .inr ⟨_, hfree, hroom, rfl⟩

end Cache

namespace HybridCache

variable {R V : Type} {p : UpdateParams} {c c' now after : HybridCache R V}
  {b : MicroBatch R V} {bs : List (MicroBatch R V)} {id : ℤ}

theorem DecodeStep.frame (h : c.DecodeStep p b c') :
    c'.kv.size = c.kv.size ∧ c'.kv.anyCompacted = c.kv.anyCompacted := by
  have hrun := h.2
  rw [decode] at hrun
  split at hrun
  case isTrue => exact absurd (congrArg Prod.snd (some.inj hrun)) Bool.false_ne_true
  case isFalse =>
    obtain ⟨mid, hupdate, hplace⟩ := map_eq_some_iff.mp hrun
    obtain ⟨kv, hkv, rfl⟩ := map_eq_some_iff.mp hupdate
    obtain ⟨hsize, hany⟩ := Cache.frame_update hkv
    have hsame := kv.sameMap_placeBatch b.tokens
    dsimp only at hplace
    split at hplace
    case isFalse => exact absurd (congrArg Prod.snd hplace) Bool.false_ne_true
    case isTrue =>
      obtain rfl := congrArg Prod.fst hplace
      obtain ⟨_, hdsize, _, hdany, _⟩ := Cache.frame_defrag ({ (kv.placeBatch b.tokens).1 with
          head := if (kv.placeBatch b.tokens).1.size ≤
            (kv.placeBatch b.tokens).1.head + b.tokens.length then 0
            else (kv.placeBatch b.tokens).1.head + b.tokens.length } : Cache) b.defragAfter
      exact ⟨hdsize.trans (hsame.size.trans hsize), hdany.trans (hsame.any.trans hany)⟩

theorem frame_run (h : Steps (DecodeStep p) c bs c') :
    c'.kv.size = c.kv.size ∧ c'.kv.anyCompacted = c.kv.anyCompacted :=
  h.invariant (P := fun c' => c'.kv.size = c.kv.size ∧ c'.kv.anyCompacted = c.kv.anyCompacted)
    (fun _ _ _ hmid hstep => ⟨hstep.frame.1.trans hmid.1, hstep.frame.2.trans hmid.2⟩) ⟨rfl, rfl⟩

/-- The other sequences have their cells and their state rows. -/
structure Isolated (now after : HybridCache R V) (id : ℤ) : Prop where
  cells : ∀ t, t ≠ id → ∀ i pos, after.kv.Carries t i pos ↔ now.kv.Carries t i pos
  rows : ∀ t : ℕ, (t : ℤ) ≠ id → after.stateRows t = now.stateRows t

theorem Isolated.removeFrom (hid : 0 ≤ id) (h : Isolated now after id)
    (hplain : after.kv.anyCompacted = false) (p0 : ℤ) :
    ∃ final, after.removeFrom id p0 = some final ∧ Isolated now final id := by
  refine ⟨_, removeFrom_plain hplain id p0, fun t ht i pos => ?_, h.rows⟩
  exact (Cache.carries_others hid ht).trans (h.cells t ht i pos)

theorem Isolated.refl (now : HybridCache R V) (id : ℤ) : Isolated now now id :=
  ⟨fun _ _ _ _ => Iff.rfl, fun _ _ => rfl⟩

theorem Isolated.trans {mid : HybridCache R V} (h : Isolated now mid id)
    (h' : Isolated mid after id) : Isolated now after id :=
  ⟨fun t ht i pos => (h'.cells t ht i pos).trans (h.cells t ht i pos),
    fun t ht => (h'.rows t ht).trans (h.rows t ht)⟩

theorem Isolated.cleanup (hid : 0 ≤ id) (h : Isolated now after id)
    (hplain : after.kv.anyCompacted = false) :
    ∃ final, after.cleanup id = some (final, false) ∧ Isolated now final id ∧
      final.kv.anyCompacted = false := by
  refine ⟨{ after with kv := after.kv.sweepRm id (-1) (-1) }, ?_, ⟨fun t ht i pos => ?_, h.rows⟩,
    ?_⟩
  · rw [HybridCache.cleanup, Cache.seqRm_plain hplain, map_some]
  · exact (Cache.carries_others hid ht).trans (h.cells t ht i pos)
  · exact (after.kv.sameMap_sweepRm id (-1) (-1)).any.trans hplain

/-- Freeing the cells of a sequence and placing it again leaves the other sequences. -/
theorem isolated_found (hid : 0 ≤ id) (hplain : now.kv.anyCompacted = false)
    (hc : now.kv.Consistent) (poss : List ℤ) :
    Isolated now { now with kv :=
      ((now.freed id).findSlot (poss.map fun pos => ⟨pos, [id]⟩)).1 } id := by
  have hcons := consistent_freed hplain hc id
  have hfreed : ∀ t, t ≠ id → ∀ i pos, (now.freed id).Carries t i pos ↔ now.kv.Carries t i pos :=
    fun t ht i pos => Cache.carries_others hid ht
  refine ⟨fun t ht i pos => ?_, fun _ _ => rfl⟩
  let batch : List Token := poss.map fun pos => ⟨pos, [id]⟩
  rw [← hfreed t ht]
  rcases (now.freed id).findSlot_cases batch hcons.head with
    ⟨head, heq⟩ | ⟨head, hfree, hroom, heq⟩
  · show ((now.freed id).findSlot batch).1.Carries t i pos ↔ _
    rw [heq]
    rfl
  · show ((now.freed id).findSlot batch).1.Carries t i pos ↔ _
    rw [heq]
    refine and_congr_right fun hi => ?_
    show (Cache.placeTokens (now.freed id).cells head batch i).hasSeqId t ∧
      (Cache.placeTokens (now.freed id).cells head batch i).pos = pos ↔ _
    rcases cells_placeTokens (now.freed id).cells batch head i with ⟨j, hj, rfl, hcell⟩ | ⟨_, hcell⟩
    · have hempty := (hcons.valid _ hi).isEmpty_of_neg (hfree j hj)
      obtain ⟨pos', _, htoken⟩ := mem_map.mp (getElem_mem hj)
      rw [hcell]
      constructor
      · rintro ⟨hhas, _⟩
        have hmem := ((cellHolds_place hempty batch[j]).2 t).mp hhas
        rw [← htoken] at hmem
        exact absurd (mem_singleton.mp hmem) ht
      · rintro ⟨hhas, _⟩
        exact absurd hempty (Finset.ne_empty_of_mem hhas)
    · rw [hcell]

/-- Reading a partial state leaves the other sequences. -/
theorem readPartial_isolated (hid : 0 ≤ id) (hplain : now.kv.anyCompacted = false)
    (hc : now.kv.Consistent) {saved : PartialState R} (hsaved : saved.pos ≠ []) :
    ∃ after ok, now.readPartial saved id = some (after, ok) ∧ Isolated now after id ∧
      after.kv.anyCompacted = false := by
  rw [readPartial]
  split
  case isTrue =>
    obtain ⟨after, hafter, h⟩ := (Isolated.refl now id).cleanup hid hplain
    exact ⟨after, false, hafter, h⟩
  case isFalse =>
    rw [Cache.seqRm_plain hplain, bind_some]
    dsimp only
    rw [← freed]
    have hfound := isolated_found hid hplain hc saved.pos
    have hany : ((now.freed id).findSlot
        (saved.pos.map fun pos => (⟨pos, [id]⟩ : Token))).1.anyCompacted = false :=
      (Cache.sameMap_findSlot _ _).any.trans
        ((now.kv.sameMap_sweepRm id (-1) (-1)).any.trans hplain)
    generalize (now.freed id).findSlot (saved.pos.map fun pos => ⟨pos, [id]⟩) = found
      at hfound hany ⊢
    have hclean : ∃ after ok,
        ({ now with kv := found.1 } : HybridCache R V).cleanup id = some (after, ok) ∧
          Isolated now after id ∧ after.kv.anyCompacted = false := by
      obtain ⟨after, hafter, h⟩ := hfound.cleanup hid hany
      exact ⟨after, false, hafter, h⟩
    split
    case isTrue => exact hclean
    case isFalse =>
      cases saved.row with
      | none =>
        dsimp only
        split
        case isTrue => exact hclean
        case isFalse => exact ⟨_, _, rfl, hfound, hany⟩
      | some row =>
        dsimp only
        split
        case isFalse => exact hclean
        case isTrue =>
          refine ⟨_, _, rfl, ⟨hfound.cells, fun t ht => Function.update_of_ne ?_ _ _⟩, hany⟩
          rintro rfl
          exact ht (Int.toNat_of_nonneg hid)

/-! ## Rolling back -/

theorem Extends.carries {tokens : List Token} (h : Extends c now tokens) {t : ℤ} {i : ℕ} {pos : ℤ}
    (hc : c.kv.Carries t i pos) : now.kv.Carries t i pos := by
  obtain ⟨hi, hhas, rfl⟩ := hc
  obtain ⟨hpos, hseq, _⟩ := h.kept i hi (Finset.ne_empty_of_mem hhas)
  refine ⟨h.size ▸ hi, ?_, hpos⟩
  rw [Cell.hasSeqId, hseq]
  exact hhas

/-- A cell carries a sequence since before or with a token decoded. -/
theorem Extends.carries_cases {tokens : List Token} (h : Extends c now tokens) {t : ℤ} {i : ℕ}
    {pos : ℤ} (hnow : now.kv.Carries t i pos) :
    c.kv.Carries t i pos ∨ ∃ token ∈ tokens, token.pos = pos ∧ t ∈ token.seqId := by
  obtain ⟨hi, hhas, rfl⟩ := hnow
  rw [h.size] at hi
  by_cases hempty : (c.kv.cells i).isEmpty
  · obtain ⟨token, ht, hpos, hids⟩ := h.new i hi hempty (Finset.ne_empty_of_mem hhas)
    exact .inr ⟨token, ht, hpos.symm, (hids t).mp hhas⟩
  · obtain ⟨hpos, hseq, _⟩ := h.kept i hi hempty
    rw [Cell.hasSeqId, hseq] at hhas
    exact .inl ⟨hi, hhas, hpos.symm⟩

/-- The drafts of a sequence. -/
def drafts (id nPast : ℤ) (m : ℕ) : List Token := (List.range m).map fun j : ℕ => ⟨nPast + j, [id]⟩

/-- The cells of the sequence are those before the save and, where the steps were kept, those
of the accepted drafts. -/
structure RolledBack (mode : SpecCkptMode) (before now after : Cache) (id nPast : ℤ) (a : ℕ) :
    Prop where
  carries : ∀ i pos, after.Carries id i pos ↔ before.Carries id i pos ∨
    mode = .perStep ∧ now.Carries id i pos ∧ nPast ≤ pos ∧ pos ≤ nPast + a
  accepted : mode = .perStep → ∀ j : ℕ, j ≤ a → ∃ i, after.Carries id i (nPast + j)
  used : after.Counted

/-- What each mode needs to roll back. -/
def RollsBack (p : UpdateParams) (mode : SpecCkptMode) (c now : HybridCache R V)
    (bs : List (MicroBatch R V)) (id accepted : ℤ) : Prop :=
  match mode with
  | .perStep => Steps (SettledStep p) c bs now ∧
    ∀ pos, now.kv.Carries id id.toNat pos → pos = accepted
  | .gpuFallback => True
  | .cpu => Steps (SettledStep p) c bs now ∧ c.SrcInRange id ∧
    ∃ k n, c.kv.OwnBlock id k n ∧ now.Returns id k n
  | .none => False

/-- The position of a cell whose index is a sequence changes nothing for those it does not
carry at another position. -/
theorem carries_setAccepted {accepted t : ℤ}
    (hcell : ∀ pos, c.kv.Carries t id.toNat pos → pos = accepted) {i : ℕ} {pos : ℤ} :
    (c.setAccepted id accepted).kv.Carries t i pos ↔ c.kv.Carries t i pos := by
  rw [setAccepted]
  split
  case isFalse => exact Iff.rfl
  case isTrue =>
    refine and_congr_right fun hi => ?_
    by_cases hat : i = id.toNat
    · subst hat
      rw [Cache.setCell_self]
      refine and_congr_right fun hhas => ?_
      rw [hcell _ ⟨hi, hhas, rfl⟩]
    · rw [c.kv.setCell_of_ne hat]

theorem counted_setAccepted (h : c.kv.Counted) (id accepted : ℤ) :
    (c.setAccepted id accepted).kv.Counted := by
  rw [setAccepted]
  split
  case isFalse => exact h
  case isTrue =>
    refine h.trans (Slots.count_congr fun j _ => ?_)
    show ¬(c.kv.cells j).isEmpty ↔ ¬((c.kv.setCell id.toNat _).cells j).isEmpty
    by_cases hat : j = id.toNat
    · subst hat
      rw [Cache.setCell_self]
      exact Iff.rfl
    · rw [c.kv.setCell_of_ne hat]

theorem any_setAccepted (c : HybridCache R V) (id accepted : ℤ) :
    (c.setAccepted id accepted).kv.anyCompacted = c.kv.anyCompacted := by
  rw [setAccepted]
  split
  case isTrue => rfl
  case isFalse => rfl

/-- The cells of drafts that have been decoded. -/
theorem carries_drafts {nPast : ℤ} {m : ℕ} (h : Extends c now (drafts id nPast m)) {i : ℕ}
    {pos : ℤ} (hnow : now.kv.Carries id i pos) :
    c.kv.Carries id i pos ∨ nPast ≤ pos ∧ pos < nPast + m := by
  refine (h.carries_cases hnow).imp_right ?_
  rintro ⟨token, ht, rfl, _⟩
  obtain ⟨j, hj, rfl⟩ := mem_map.mp ht
  have hlt := mem_range.mp hj
  show nPast ≤ nPast + j ∧ nPast + j < nPast + m
  omega

section Rollback

variable {ckpt ckpt' : Checkpoint R} {nPast : ℤ} {m a : ℕ}

theorem rollback_perStep (hid : 0 ≤ id) (hplain : c.kv.anyCompacted = false)
    (hc : c.kv.Consistent) (hmode : ckpt.selectedSpecMode = .perStep)
    (hready : ckpt.perStepSsm = true) (hdrafts : tokensOf bs = drafts id nPast m)
    (hpast : 0 ≤ nPast)
    (hbelow : ∀ i pos, c.kv.Carries id i pos → pos < nPast) (hmax : nPast + m < 2 ^ 31)
    (ha : a < m) (hrun : Steps (SettledStep p) c bs now)
    (hcell : ∀ pos, now.kv.Carries id id.toNat pos → pos = nPast + a) (steps : ℕ → ℕ → R) :
    ∃ after, now.specCkptRestoreEx ckpt steps id nPast a = some (after, .direct) ∧
      RolledBack .perStep c.kv now.kv after.kv id nPast a := by
  obtain ⟨hext, hnow⟩ := extends_run hrun hc
  rw [hdrafts] at hext
  have hacc : wrap32 (nPast + (a : ℤ)) = nPast + a := wrap32_of_small (by omega) (by omega)
  have hnext : wrap32 (nPast + (a : ℤ) + 1) = nPast + a + 1 := wrap32_of_small (by omega) (by omega)
  let mid := (now.perStepRestore steps a).setAccepted id (nPast + a)
  have hmid : ∀ i pos, mid.kv.Carries id i pos ↔ now.kv.Carries id i pos := fun i pos =>
    carries_setAccepted (c := now.perStepRestore steps a) hcell
  have hany : mid.kv.anyCompacted = false := (any_setAccepted _ _ _).trans (hext.any.trans hplain)
  have hsmall : ∀ i pos, mid.kv.Carries id i pos → pos < 2 ^ 31 - 1 := by
    intro i pos hcarries
    rcases carries_drafts hext ((hmid i pos).mp hcarries) with hold | ⟨_, hnew⟩
    · have := hbelow i pos hold
      omega
    · omega
  refine ⟨{ mid with kv := mid.kv.sweepRm id (nPast + a + 1) (-1) }, ?_, ?_⟩
  · rw [specCkptRestoreEx, hmode]
    dsimp only
    rw [if_neg, hacc, hnext, Int.toNat_natCast, removeFrom_plain hany, map_some]
    rintro (hnot | hneg)
    · exact Bool.false_ne_true (hnot.symm.trans hready)
    · exact absurd hneg (Int.not_lt.mpr (Int.natCast_nonneg a))
  · have hcut : ∀ i pos, (mid.kv.sweepRm id (nPast + a + 1) (-1)).Carries id i pos ↔
        now.kv.Carries id i pos ∧ pos ≤ nPast + a := fun i pos => by
      rw [Cache.carries_cut hid (by omega) hsmall, hmid, Int.lt_add_one_iff]
    refine ⟨fun i pos => ?_, fun _ j hj => ?_, ?_⟩
    · rw [hcut]
      constructor
      · rintro ⟨hcarries, hle⟩
        exact (carries_drafts hext hcarries).imp_right fun hnew => ⟨rfl, hcarries, hnew.1, hle⟩
      · rintro (hold | ⟨_, hcarries, _, hle⟩)
        · have := hbelow i pos hold
          exact ⟨hext.carries hold, by omega⟩
        · exact ⟨hcarries, hle⟩
    · have ht : (⟨nPast + j, [id]⟩ : Token) ∈ drafts id nPast m :=
        mem_map.mpr ⟨j, mem_range.mpr (hj.trans_lt ha), rfl⟩
      obtain ⟨i, hi, _, _, hpos, hids⟩ := hext.placed _ ht
      refine ⟨i, (hcut i _).mpr ⟨⟨hext.size ▸ hi, (hids id).mpr mem_cons_self, hpos⟩, ?_⟩⟩
      omega
    · exact Cache.counted_sweepRm hid (counted_setAccepted (c := now.perStepRestore steps a)
        hnow.used id (nPast + a))

/-- The copy of the cells brings back those before the save. -/
theorem rollback_gpuFallback (hid : 0 ≤ id) (hplain : c.kv.anyCompacted = false)
    (hc : c.kv.Consistent) (hmode : ckpt.selectedSpecMode = .gpuFallback)
    (hsaved : ckpt.saved = some ⟨c.kv.cells, c.kv.head, c.kv.used, c.stateRows⟩)
    (hpast : 0 ≤ nPast) (hbelow : ∀ i pos, c.kv.Carries id i pos → pos < nPast)
    (hmax : nPast < 2 ^ 31) (hrun : Steps (DecodeStep p) c bs now) (steps : ℕ → ℕ → R) :
    ∃ after, now.specCkptRestoreEx ckpt steps id nPast a = some (after, .baseReplayRequired) ∧
      RolledBack .gpuFallback c.kv now.kv after.kv id nPast a := by
  obtain ⟨hsize, hany⟩ := frame_run hrun
  let mid := now.checkpointRestore ⟨c.kv.cells, c.kv.head, c.kv.used, c.stateRows⟩
  have hmid : ∀ i pos, mid.kv.Carries id i pos ↔ c.kv.Carries id i pos := fun i pos => by
    rw [Cache.Carries, Cache.Carries, ← hsize]
    exact Iff.rfl
  refine ⟨{ mid with kv := mid.kv.sweepRm id nPast (-1) }, ?_, fun i pos => ?_, ?_, ?_⟩
  · rw [specCkptRestoreEx, hmode]
    dsimp only
    rw [hsaved]
    dsimp only
    rw [removeFrom_plain (c := mid) (hany.trans hplain), map_some]
  · rw [Cache.carries_cut hid hpast, hmid]
    · constructor
      · exact fun h => .inl h.1
      · rintro (hold | ⟨hno, _⟩)
        · exact ⟨hold, hbelow i pos hold⟩
        · cases hno
    · intro i pos hcarries
      have := hbelow i pos ((hmid i pos).mp hcarries)
      omega
  · exact fun hno => SpecCkptMode.noConfusion hno
  · apply Cache.counted_sweepRm hid
    have hused := hc.used
    rw [← hsize] at hused
    exact hused

/-- The partial state brings back the positions, where they are placed as before. -/
theorem rollback_cpu (hid : 0 ≤ id) (hplain : c.kv.anyCompacted = false)
    (hc : c.kv.Consistent) (hmode : ckpt.selectedSpecMode = .cpu)
    (hsaved : ckpt.cpuStateData = some (c.writePartial id))
    (hdrafts : tokensOf bs = drafts id nPast m) (hpast : 0 ≤ nPast)
    (hbelow : ∀ i pos, c.kv.Carries id i pos → pos < nPast) (hmax : nPast + m < 2 ^ 31)
    (hrun : Steps (SettledStep p) c bs now) (hsrc : c.SrcInRange id) {k n : ℕ}
    (hblock : c.kv.OwnBlock id k n) (hret : now.Returns id k n) (steps : ℕ → ℕ → R) :
    ∃ after, now.specCkptRestoreEx ckpt steps id nPast a = some (after, .baseReplayRequired) ∧
      RolledBack .cpu c.kv now.kv after.kv id nPast a := by
  obtain ⟨hext, hnow⟩ := extends_run hrun hc
  rw [hdrafts] at hext
  have hsmall : Below now.kv id := by
    intro i pos hcarries
    rcases carries_drafts hext hcarries with hold | ⟨_, hnew⟩
    · have := hbelow i pos hold
      omega
    · omega
  obtain ⟨mid, hread, _, _, hcounted, hany, hseat⟩ := reseated_of_returns hid
    (hext.any.trans hplain) hnow hsmall hext.size hext.slots hc hsrc hblock hret
  refine ⟨{ mid with kv := mid.kv.sweepRm id nPast (-1) }, ?_, fun i pos => ?_, ?_, ?_⟩
  · rw [specCkptRestoreEx, hmode]
    dsimp only
    rw [hsaved]
    dsimp only
    rw [hread, map_some, bind_some, removeFrom_plain hany, map_some]
  · rw [Cache.carries_cut hid hpast, hseat.own]
    · constructor
      · exact fun h => .inl h.1
      · rintro (hold | ⟨hno, _⟩)
        · exact ⟨hold, hbelow i pos hold⟩
        · cases hno
    · intro i pos hcarries
      have := hbelow i pos ((hseat.own i pos).mp hcarries)
      omega
  · exact fun hno => SpecCkptMode.noConfusion hno
  · exact Cache.counted_sweepRm hid hcounted

/-- What a save leaves for the restore. -/
theorem specCkptSave_spec (h : c.specCkptSave ckpt id = (ckpt', true)) :
    ckpt'.selectedSpecMode = ckpt.selectedSpecMode ∧ ckpt'.perStepSsm = ckpt.perStepSsm ∧
      match ckpt.selectedSpecMode with
      | .none => False
      | .perStep => True
      | .gpuFallback => ckpt'.saved = some ⟨c.kv.cells, c.kv.head, c.kv.used, c.stateRows⟩
      | .cpu => ckpt'.cpuStateData = some (c.writePartial id) := by
  obtain ⟨mode, shadows, _, _, _, _⟩ := ckpt
  cases mode with
  | none => exact absurd (congrArg Prod.snd h) Bool.false_ne_true
  | perStep =>
    obtain rfl := congrArg Prod.fst h
    exact ⟨rfl, rfl, trivial⟩
  | gpuFallback =>
    cases shadows with
    | false => exact absurd (congrArg Prod.snd h) Bool.false_ne_true
    | true =>
      obtain rfl := congrArg Prod.fst h
      exact ⟨rfl, rfl, rfl⟩
  | cpu =>
    obtain rfl := congrArg Prod.fst h
    exact ⟨rfl, rfl, rfl⟩

/-- Saving, decoding drafts and restoring. -/
theorem rollback_run (ckpt : Checkpoint R) (hid : 0 ≤ id) (hplain : c.kv.anyCompacted = false)
    (hc : c.kv.Consistent) (hready : ckpt.selectedSpecMode = .perStep → ckpt.perStepSsm = true)
    (hsave : c.specCkptSave ckpt id = (ckpt', true)) (hrun : Steps (DecodeStep p) c bs now)
    (hdrafts : tokensOf bs = drafts id nPast m) (hpast : 0 ≤ nPast)
    (hbelow : ∀ i pos, c.kv.Carries id i pos → pos < nPast) (hmax : nPast + m < 2 ^ 31)
    (ha : a < m) (hback : RollsBack p ckpt.selectedSpecMode c now bs id (nPast + a))
    (steps : ℕ → ℕ → R) :
    ∃ after result, now.specCkptRestoreEx ckpt' steps id nPast a = some (after, result) ∧
      result ≠ .failed ∧
      RolledBack ckpt.selectedSpecMode c.kv now.kv after.kv id nPast a := by
  obtain ⟨hsame, hssm, hsaved⟩ := specCkptSave_spec hsave
  cases hmode : ckpt.selectedSpecMode with
  | none =>
    rw [hmode] at hsaved
    exact hsaved.elim
  | perStep =>
    rw [hmode] at hback
    obtain ⟨hsettled, hcell⟩ := hback
    obtain ⟨after, hafter, hrolled⟩ := rollback_perStep hid hplain hc (hsame.trans hmode)
      (hssm.trans (hready hmode)) hdrafts hpast hbelow hmax ha hsettled hcell steps
    exact ⟨after, .direct, hafter, by decide, hrolled⟩
  | gpuFallback =>
    rw [hmode] at hsaved
    have hlt : nPast < 2 ^ 31 := (Int.le_add_of_nonneg_right (Int.natCast_nonneg m)).trans_lt hmax
    obtain ⟨after, hafter, hrolled⟩ := rollback_gpuFallback (a := a) hid hplain hc
      (hsame.trans hmode) hsaved hpast hbelow hlt hrun steps
    exact ⟨after, .baseReplayRequired, hafter, by decide, hrolled⟩
  | cpu =>
    rw [hmode] at hback hsaved
    obtain ⟨hsettled, hsrc, k, n, hblock, hret⟩ := hback
    obtain ⟨after, hafter, hrolled⟩ := rollback_cpu (a := a) hid hplain hc
      (hsame.trans hmode) hsaved hdrafts hpast hbelow hmax hsettled hsrc hblock hret steps
    exact ⟨after, .baseReplayRequired, hafter, by decide, hrolled⟩

end Rollback

/-! ## Leaving the other sequences alone -/

/-- A micro-batch of one sequence, with no work deferred. -/
def OwnStep (p : UpdateParams) (id : ℤ) (c : HybridCache R V) (b : MicroBatch R V)
    (c' : HybridCache R V) : Prop :=
  c.kv.Idle ∧ c.DecodeStep p b c' ∧ ∀ token ∈ b.tokens, token.seqId = [id]

theorem OwnStep.isolated (h : c.OwnStep p id b c') (hc : c.kv.Consistent) :
    Isolated c c' id ∧ c'.kv.Consistent := by
  obtain ⟨hidle, hstep, hown⟩ := h
  have hsettled : c.SettledStep p b c' := ⟨hidle.toSettled, hstep⟩
  obtain ⟨hext, hcons⟩ := hsettled.extends hc
  obtain ⟨_, _, _, _, _, _, _, _, hrows, _⟩ := hsettled.spec hc
  have hother : ∀ t, t ≠ id → ∀ token ∈ b.tokens, t ∉ token.seqId := by
    intro t ht token htoken hmem
    rw [hown token htoken] at hmem
    exact ht (mem_singleton.mp hmem)
  refine ⟨⟨fun t ht i pos => ⟨fun hnow => ?_, hext.carries⟩, fun t ht => ?_⟩, hcons⟩
  · rcases hext.carries_cases hnow with hold | ⟨token, htoken, _, hmem⟩
    · exact hold
    · exact absurd hmem (hother t ht token htoken)
  · rw [hrows t (hother t ht), copyStates_of_idle hidle]

theorem isolated_run (h : Steps (OwnStep p id) c bs now) (hc : c.kv.Consistent) :
    Isolated c now id :=
  (h.invariant (P := fun now => Isolated c now id ∧ now.kv.Consistent)
    (fun _ _ _ hmid hstep => by
      obtain ⟨hiso, hcons⟩ := hstep.isolated hmid.2
      exact ⟨hmid.1.trans hiso, hcons⟩) ⟨.refl c id, hc⟩).1

/-- What each mode needs to leave the other sequences alone. -/
def Isolates (p : UpdateParams) (mode : SpecCkptMode) (c now : HybridCache R V)
    (bs : List (MicroBatch R V)) (id accepted : ℤ) : Prop :=
  match mode with
  | .perStep => (∀ t : ℕ, t < now.kv.qnextStateSlots → (t : ℤ) = id) ∧
    ∀ t, t ≠ id → ∀ pos, now.kv.Carries t id.toNat pos → pos = accepted
  | .gpuFallback => Steps (OwnStep p id) c bs now
  | .cpu => now.kv.Consistent ∧ ∃ i pos, c.kv.Carries id i pos
  | .none => False

/-- A sequence with cells has positions to save. -/
theorem writePartial_ne_nil {i : ℕ} {pos : ℤ} (h : c.kv.Carries id i pos) :
    (c.writePartial id).pos ≠ [] := by
  obtain ⟨hi, hhas, _⟩ := h
  have hmem : i ∈ c.kv.cellsOf id :=
    mem_filter.mpr ⟨mem_range.mpr hi, decide_eq_true hhas⟩
  exact ne_nil_of_mem (mem_map_of_mem hmem)

section Isolation

variable {ckpt ckpt' : Checkpoint R} {nPast a : ℤ}

/-- The steps are restored to one state row, and one cell has its position moved. -/
theorem isolation_perStep (hid : 0 ≤ id) (hplain : now.kv.anyCompacted = false)
    (hmode : ckpt.selectedSpecMode = .perStep)
    (hone : ∀ t : ℕ, t < now.kv.qnextStateSlots → (t : ℤ) = id)
    (hcell : ∀ t, t ≠ id → ∀ pos, now.kv.Carries t id.toNat pos → pos = wrap32 (nPast + a))
    (steps : ℕ → ℕ → R) :
    ∃ after result, now.specCkptRestoreEx ckpt steps id nPast a = some (after, result) ∧
      Isolated now after id := by
  rw [specCkptRestoreEx, hmode]
  dsimp only
  split
  case isTrue => exact ⟨now, .failed, rfl, .refl now id⟩
  case isFalse =>
    have hmid : Isolated now
        ((now.perStepRestore steps a.toNat).setAccepted id (wrap32 (nPast + a))) id := by
      refine ⟨fun t ht i pos =>
        carries_setAccepted (c := now.perStepRestore steps a.toNat) (hcell t ht), fun t ht => ?_⟩
      have hrow : (now.perStepRestore steps a.toNat).stateRows t = now.stateRows t :=
        if_neg fun hlt => ht (hone t hlt)
      rw [← hrow, setAccepted]
      split
      case isTrue => rfl
      case isFalse => rfl
    obtain ⟨after, hafter, hiso⟩ := hmid.removeFrom hid ((any_setAccepted _ _ _).trans hplain)
      (wrap32 (wrap32 (nPast + a) + 1))
    exact ⟨after, .direct, by rw [hafter, map_some], hiso⟩

/-- The cells and rows before the save are those of the other sequences still. -/
theorem isolation_gpuFallback (hid : 0 ≤ id) (hplain : c.kv.anyCompacted = false)
    (hc : c.kv.Consistent) (hmode : ckpt.selectedSpecMode = .gpuFallback)
    (hsaved : ckpt.saved = some ⟨c.kv.cells, c.kv.head, c.kv.used, c.stateRows⟩)
    (hrun : Steps (DecodeStep p) c bs now) (hown : Steps (OwnStep p id) c bs now)
    (steps : ℕ → ℕ → R) :
    ∃ after result, now.specCkptRestoreEx ckpt steps id nPast a = some (after, result) ∧
      Isolated now after id := by
  obtain ⟨hsize, hany⟩ := frame_run hrun
  have hkept := isolated_run hown hc
  rw [specCkptRestoreEx, hmode]
  dsimp only
  rw [hsaved]
  dsimp only
  have hmid : Isolated now
      (now.checkpointRestore ⟨c.kv.cells, c.kv.head, c.kv.used, c.stateRows⟩) id := by
    refine ⟨fun t ht i pos => ?_, fun t ht => (hkept.rows t ht).symm⟩
    rw [hkept.cells t ht, Cache.Carries, Cache.Carries, ← hsize]
    exact Iff.rfl
  obtain ⟨after, hafter, hiso⟩ := hmid.removeFrom hid (hany.trans hplain) nPast
  exact ⟨after, .baseReplayRequired, by rw [hafter, map_some], hiso⟩

theorem isolation_cpu (hid : 0 ≤ id) (hplain : now.kv.anyCompacted = false)
    (hc : now.kv.Consistent) (hmode : ckpt.selectedSpecMode = .cpu) {saved : PartialState R}
    (hsaved : ckpt.cpuStateData = some saved) (hpos : saved.pos ≠ []) (steps : ℕ → ℕ → R) :
    ∃ after result, now.specCkptRestoreEx ckpt steps id nPast a = some (after, result) ∧
      Isolated now after id := by
  obtain ⟨mid, ok, hread, hmid, hany⟩ := readPartial_isolated hid hplain hc hpos
  rw [specCkptRestoreEx, hmode]
  dsimp only
  rw [hsaved]
  dsimp only
  rw [hread, map_some, bind_some]
  obtain ⟨after, hafter, hiso⟩ := hmid.removeFrom hid hany nPast
  exact ⟨after, .baseReplayRequired, by rw [hafter, map_some], hiso⟩

/-- Saving, decoding tokens of any sequences and restoring one. -/
theorem isolation_run (ckpt : Checkpoint R) (hid : 0 ≤ id) (hplain : c.kv.anyCompacted = false)
    (hc : c.kv.Consistent) (hsave : c.specCkptSave ckpt id = (ckpt', true))
    (hrun : Steps (DecodeStep p) c bs now)
    (hisolates : Isolates p ckpt.selectedSpecMode c now bs id (wrap32 (nPast + a)))
    (steps : ℕ → ℕ → R) :
    ∃ after result, now.specCkptRestoreEx ckpt' steps id nPast a = some (after, result) ∧
      Isolated now after id := by
  obtain ⟨hsame, _, hsaved⟩ := specCkptSave_spec hsave
  have hany : now.kv.anyCompacted = false := (frame_run hrun).2.trans hplain
  cases hmode : ckpt.selectedSpecMode with
  | none =>
    rw [hmode] at hsaved
    exact hsaved.elim
  | perStep =>
    rw [hmode] at hisolates
    exact isolation_perStep hid hany (hsame.trans hmode) hisolates.1 hisolates.2 steps
  | gpuFallback =>
    rw [hmode] at hisolates hsaved
    exact isolation_gpuFallback hid hplain hc (hsame.trans hmode) hsaved hrun hisolates steps
  | cpu =>
    rw [hmode] at hisolates hsaved
    obtain ⟨hcons, i, pos, hcarries⟩ := hisolates
    exact isolation_cpu hid hany hcons (hsame.trans hmode) hsaved
      (writePartial_ne_nil hcarries) steps

end Isolation

/-! ## One cell in use -/

/-- One cell in use. -/
def lone : HybridCache ℕ ℕ where
  kv := { Cache.init 4 2 true true false false (0, 0) with
    used := 1
    head := 1
    cells := fun i => if i = 0 then ⟨0, 0, 0, {0}⟩ else ⟨-1, 0, i, ∅⟩ }
  stateRows i := i
  kvRows i := i

theorem consistent_lone : lone.kv.Consistent where
  valid := by decide
  used := by decide
  slots := by decide
  src _ _ := by decide
  head := by decide

/-- A micro-batch of one token. -/
def oneToken (pos id : ℤ) : MicroBatch ℕ ℕ where
  tokens := [⟨pos, [id]⟩]
  states _ := 7
  data _ := 7
  defragAfter := false
  deferred _ := 0

theorem step_lone {pos : ℤ} (hpos : 0 ≤ pos) (id : ℤ) (p : UpdateParams) :
    lone.DecodeStep p (oneToken pos id) (lone.placed (oneToken pos id) 1) := by
  constructor
  · intro token ht
    obtain rfl := mem_singleton.mp ht
    exact ⟨hpos, cons_ne_nil id []⟩
  · have hnear : lone.kv.head ≤ lone.kv.used + 2 * (oneToken pos id).tokens.length :=
      (by decide : 1 ≤ 1 + 2 * 1)
    have hone : 0 < (oneToken pos id).tokens.length := Nat.zero_lt_one
    refine decode_of_first ⟨⟨rfl, rfl⟩, rfl⟩ (by decide) hnear hone
      ⟨(by decide : 1 + 1 ≤ 4), fun j hj => ?_, ?_, ?_⟩ rfl
    · obtain rfl := Nat.lt_one_iff.mp hj
      decide
    · intro _ i hle hlt
      exact absurd hle (Nat.not_le.mpr hlt)
    · exact fun hlt => absurd hlt (by decide)

/-- A checkpoint that has not been saved. -/
def unsaved (mode : SpecCkptMode) : Checkpoint ℕ where
  selectedSpecMode := mode
  shadows := true
  perStepSsm := true
  savePerStepSsm := false
  saved := none
  cpuStateData := none

theorem carries_lone {t : ℤ} {i : ℕ} {pos : ℤ} (h : lone.kv.Carries t i pos) :
    t = 0 ∧ i = 0 ∧ pos = 0 := by
  obtain ⟨_, hhas, rfl⟩ := h
  have hzero : i = 0 := by
    by_contra hne
    have hcell : lone.kv.cells i = ⟨-1, 0, i, ∅⟩ := if_neg hne
    rw [hcell] at hhas
    exact absurd hhas (Finset.notMem_empty t)
  subst hzero
  exact ⟨Finset.mem_singleton.mp hhas, rfl, rfl⟩

theorem rollback_run_lone : ∃ after result, (lone.placed (oneToken 1 0) 1).specCkptRestoreEx
      (lone.specCkptSave (unsaved .gpuFallback) 0).1 (fun _ _ => 0) 0 1 (0 : ℕ) =
        some (after, result) ∧ result ≠ .failed ∧
      RolledBack .gpuFallback lone.kv (lone.placed (oneToken 1 0) 1).kv after.kv 0 1 0 := by
  have hrun : Steps (DecodeStep ⟨true, true, 0⟩) lone [oneToken 1 0]
      (lone.placed (oneToken 1 0) 1) := .single (step_lone (by decide) 0 _)
  refine rollback_run (m := 1) (unsaved .gpuFallback) (Int.le_refl 0) rfl consistent_lone
    (fun h => absurd h (by decide)) rfl hrun rfl (by decide) (fun i pos hcarries => ?_) (by decide)
    (by decide) trivial _
  obtain ⟨_, _, rfl⟩ := carries_lone hcarries
  decide

/-- The cell of position 0 has the index of its sequence. -/
theorem not_rollback : ¬∀ (c now : HybridCache ℕ ℕ) (p : UpdateParams)
    (bs : List (MicroBatch ℕ ℕ)) (id nPast : ℤ) (m a : ℕ) (ckpt ckpt' : Checkpoint ℕ)
    (steps : ℕ → ℕ → ℕ), 0 ≤ id → c.kv.anyCompacted = false → c.kv.hasQnextStateStorage →
    c.kv.Consistent → (ckpt.selectedSpecMode = .perStep → ckpt.perStepSsm = true) →
    c.specCkptSave ckpt id = (ckpt', true) → Steps (DecodeStep p) c bs now →
    tokensOf bs = drafts id nPast m → 0 ≤ nPast →
    (∀ i pos, c.kv.Carries id i pos → pos < nPast) → nPast + m < 2 ^ 31 → a < m →
    ∃ after result, now.specCkptRestoreEx ckpt' steps id nPast a = some (after, result) ∧
      result ≠ .failed ∧
      RolledBack ckpt.selectedSpecMode c.kv now.kv after.kv id nPast a := by
  intro hall
  have hbelow : ∀ i pos, lone.kv.Carries 0 i pos → pos < 1 := by
    intro i pos hcarries
    obtain ⟨_, _, rfl⟩ := carries_lone hcarries
    decide
  obtain ⟨after, result, hafter, _, hrolled⟩ := hall lone _ ⟨true, true, 0⟩ [oneToken 1 0] 0 1 1 0
    (unsaved .perStep) _ (fun _ _ => 0) (Int.le_refl 0) rfl (by decide) consistent_lone
    (fun _ => rfl) rfl (.single (step_lone (by decide) 0 _)) rfl (by decide) hbelow (by decide)
    (by decide)
  have hold := (hrolled.carries 0 0).mpr (.inl ⟨by decide, by decide, rfl⟩)
  let mid := ((lone.placed (oneToken 1 0) 1).perStepRestore (fun _ _ => 0) 0).setAccepted 0 1
  have hrestored : (mid.removeFrom 0 2).map (fun c => (c, SpecCkptRestoreResult.direct)) =
      some (after, result) := hafter
  rw [removeFrom_plain (c := mid) rfl, map_some] at hrestored
  obtain rfl := congrArg Prod.fst (some.inj hrestored)
  have hmid := ((Cache.carries_sweepRm (Int.le_refl 0)).mp hold).1
  exact absurd hmid.2.2 (by decide)

theorem isolation_run_lone : ∃ after result, (lone.placed (oneToken 1 0) 1).specCkptRestoreEx
      (lone.specCkptSave (unsaved .gpuFallback) 0).1 (fun _ _ => 0) 0 1 0 = some (after, result) ∧
      Isolated (lone.placed (oneToken 1 0) 1) after 0 := by
  have hstep := step_lone (by decide : (0 : ℤ) ≤ 1) 0 ⟨true, true, 0⟩
  have hown : ∀ token ∈ (oneToken 1 0).tokens, token.seqId = [0] := by
    intro token ht
    obtain rfl := mem_singleton.mp ht
    rfl
  exact isolation_run (unsaved .gpuFallback) (Int.le_refl 0) rfl consistent_lone rfl
    (.single hstep) (.single ⟨⟨⟨rfl, rfl⟩, rfl⟩, hstep, hown⟩) _

/-- The copy of the cells does not have the token that another sequence has decoded since. -/
theorem not_isolation : ¬∀ (c now : HybridCache ℕ ℕ) (p : UpdateParams)
    (bs : List (MicroBatch ℕ ℕ)) (id nPast a : ℤ) (ckpt ckpt' : Checkpoint ℕ)
    (steps : ℕ → ℕ → ℕ), 0 ≤ id → c.kv.anyCompacted = false → c.kv.hasQnextStateStorage →
    c.kv.Consistent → c.specCkptSave ckpt id = (ckpt', true) → Steps (DecodeStep p) c bs now →
    ∃ after result, now.specCkptRestoreEx ckpt' steps id nPast a = some (after, result) ∧
      Isolated now after id := by
  intro hall
  obtain ⟨after, result, hafter, hiso⟩ := hall lone _ ⟨true, true, 0⟩ [oneToken 0 1] 0 1 0
    (unsaved .gpuFallback) _ (fun _ _ => 0) (Int.le_refl 0) rfl (by decide) consistent_lone rfl
    (.single (step_lone (Int.le_refl 0) 1 _))
  have hnow := (hiso.cells 1 (by decide) 1 0).mpr ⟨by decide, by decide, rfl⟩
  let mid := (lone.placed (oneToken 0 1) 1).checkpointRestore
    ⟨lone.kv.cells, lone.kv.head, lone.kv.used, lone.stateRows⟩
  have hrestored : (mid.removeFrom 0 1).map
      (fun c => (c, SpecCkptRestoreResult.baseReplayRequired)) = some (after, result) := hafter
  rw [removeFrom_plain (c := mid) rfl, map_some] at hrestored
  obtain rfl := congrArg Prod.fst (some.inj hrestored)
  have hmid := ((Cache.carries_sweepRm (Int.le_refl 0)).mp hnow).1
  exact absurd hmid.2.1 (by decide)

end HybridCache

end ExpertPin.Kv
