import Mathlib.Data.List.Nodup
import ExpertPin.Lib.Runs
import ExpertPin.Server.SlotTasks

/-!
# One result for each task

A task that is launched is answered once, and its slot is free afterwards, as long as whatever ends
it finds its slot generating: `release` does nothing for a slot that is loading a prompt.  A run is
in order if that is so in all of its steps (`Sound`), and then every state of it is `Settled`.
-/

namespace ExpertPin.Server.Tasks

open Lifecycle Runs
open List
open Option

/-! ## What is promised -/

namespace Action

/-- A final result or an error. -/
def isResult (a : Action) : Bool := a = .final ∨ a = .error

def isToken (a : Action) : Bool := a = .batched ∨ a = .sampled ∨ a = .sent

/-- Nothing is left to be done for the task. -/
def ends (a : Action) : Bool := a.isResult ∨ a = .cancelled

end Action

/-- A task has at most one result, no token after it or after its cancellation, and the slot is free
then.  A task that is launched has its result, or is cancelled, or a slot works on it. -/
structure Settled (s : State) : Prop where
  result : ∀ t, ((actionsOf s.log t).filter Action.isResult).length ≤ 1
  quiet : ∀ t pre a post, actionsOf s.log t = pre ++ a :: post → a.ends = true →
    ∀ b ∈ post, b.isToken = false
  answered : ∀ t, .launched ∈ actionsOf s.log t → .cancelled ∈ actionsOf s.log t ∨
    ((actionsOf s.log t).filter Action.isResult).length = 1 ∨
      ∃ slot ∈ s.slots, slot.idTask = some t ∧ slot.isProcessing = true
  freed : ∀ t, (∃ a ∈ actionsOf s.log t, a.ends = true) →
    ∀ slot ∈ s.slots, slot.idTask = some t → slot.releaseSlot.available = true

/-! ## Phases -/

/-- How far a task is. -/
inductive Phase
  | waiting
  | live
  | done
deriving DecidableEq, Repr

/-- What may be done for a task in a phase. -/
def Phase.next : Phase → Action → Option Phase
  | .waiting, .launched => some .live
  | .waiting, .error | .waiting, .cancelled => some .done
  | .live, .batched | .live, .sampled | .live, .sent => some .live
  | .live, .final | .live, .error | .live, .cancelled => some .done
  | .done, .cancelled => some .done
  | _, _ => none

/-- What has been done for a task that is in a phase. -/
def Phase.Records (acts : List Action) : Phase → Prop
  | .waiting => acts = []
  | .live => ∀ a ∈ acts, a.ends = false
  | .done => (acts.filter Action.isResult).length ≤ 1 ∧
      (.cancelled ∈ acts ∨ (acts.filter Action.isResult).length = 1)

/-- Where nothing ends a task there is no result. -/
theorem filter_isResult {acts : List Action} (h : ∀ a ∈ acts, a.ends = false) :
    acts.filter Action.isResult = [] := by
  refine filter_eq_nil_iff.mpr fun a ha hresult => ?_
  have hends := h a ha
  simp [Action.ends, hresult] at hends

variable {a : Action}

theorem Phase.Records.next {acts : List Action} {p q : Phase}
    (h : p.Records acts) (hnext : p.next a = some q) : q.Records (acts ++ [a]) := by
  cases p with
  | waiting =>
    obtain rfl : acts = [] := h
    cases a <;> cases hnext <;> simp [Phase.Records, Action.isResult, Action.ends]
  | live =>
    have hresults := filter_isResult h
    cases a <;> cases hnext
    case live.batched.refl | live.sampled.refl | live.sent.refl =>
      intro b hb
      rcases mem_append.mp hb with hb | hb
      · exact h b hb
      · obtain rfl := mem_singleton.mp hb
        rfl
    case live.final.refl | live.error.refl | live.cancelled.refl =>
      simp [Phase.Records, filter_append, hresults, Action.isResult]
  | done =>
    cases a <;> cases hnext
    obtain ⟨hle, -⟩ := h
    simpa [Phase.Records, filter_append, Action.isResult] using hle

theorem records_of_follow {acts : List Action} {p : Phase}
    (h : follow Phase.next .waiting acts = some p) : p.Records acts :=
  follow_history (P := fun acts p => p.Records acts) rfl (fun _ _ _ _ => Phase.Records.next) h

/-- A result ends the task, and so does its cancellation. -/
theorem Phase.next_ends {p q : Phase} (h : p.next a = some q) (ha : a.ends = true) :
    q = .done := by
  cases p <;> cases a <;> simp_all [Phase.next, Action.ends, Action.isResult]

theorem Phase.next_done {q : Phase} (h : Phase.next .done a = some q) :
    q = .done ∧ a = .cancelled := by
  cases a <;> cases h
  exact ⟨rfl, rfl⟩

/-! ## Moves of a slot -/

namespace Slot

/-- A slot that is to be released does not generate. -/
def WellFormed (slot : Slot) : Prop := slot.command = .release → slot.state = .idle

/-- The phase of the task that the slot is linked with. -/
def phase (slot : Slot) : Phase := if slot.isProcessing then .live else .done

/-- What is done for the task of a slot is in order, and leads to where the slot is. -/
structure Moves (slot slot' : Slot) (acts : List Action) : Prop where
  idTask : slot'.idTask = slot.idTask
  wellFormed : slot'.WellFormed
  phase : slot.idTask ≠ none → follow Phase.next slot.phase acts = some slot'.phase

variable {slot slot' slot'' : Slot} {acts acts' : List Action}

theorem Moves.refl (h : slot.WellFormed) : Moves slot slot [] := ⟨rfl, h, fun _ => rfl⟩

theorem Moves.trans (h : Moves slot slot' acts) (h' : Moves slot' slot'' acts') :
    Moves slot slot'' (acts ++ acts') where
  idTask := h'.idTask.trans h.idTask
  wellFormed := h'.wellFormed
  phase hid := follow_trans (h.phase hid) (h'.phase (by rwa [h.idTask]))

theorem isProcessing_of_state (h : slot.state = .processing) : slot.isProcessing = true := by
  simp [isProcessing, h]

theorem isProcessing_of_isLoading (h : slot.isLoading = true) : slot.isProcessing = true := by
  simp [isProcessing, h]

/-- The state of a slot is that of one that generates or of one that loads its prompt. -/
theorem state_of_isProcessing (h : slot.isProcessing = true) (hload : slot.isLoading = false) :
    slot.state = .processing := by
  simpa [isProcessing, hload] using h

theorem phase_of_isProcessing (h : slot.isProcessing = true) : slot.phase = .live := if_pos h

theorem phase_of_not_isProcessing (h : slot.isProcessing = false) : slot.phase = .done := by
  simp [phase, h]

/-- A slot that generates is not processing once it is released. -/
theorem phase_release (h : slot.state = .processing) : slot.release.phase = .done := by
  simp [phase, release, h, isProcessing, isLoading]

theorem wellFormed_release (h : slot.WellFormed) : slot.release.WellFormed := by
  unfold release
  split
  · exact fun _ => rfl
  · exact h

theorem idTask_release : slot.release.idTask = slot.idTask := by
  unfold release
  split <;> rfl

/-- Once its task is done a slot is free in the next turn. -/
theorem available_releaseSlot (h : slot.phase = .done) : slot.releaseSlot.available = true := by
  have hidle : slot.isProcessing = false := by
    by_contra hprocessing
    rw [phase_of_isProcessing (by simpa using hprocessing)] at h
    cases h
  cases hstate : slot.state with
  | processing =>
    rw [isProcessing_of_state hstate] at hidle
    cases hidle
  | idle =>
    cases hcommand : slot.command with
    | loadPrompt => simp [isProcessing, isLoading, hstate, hcommand] at hidle
    | release => simp [releaseSlot, available, hcommand]
    | none => simp [releaseSlot, available, hstate, hcommand]

/-- A slot that generates may be released with whatever ends its task. -/
theorem moves_release (h : slot.state = .processing)
    (ha : Phase.next .live a = some .done) : Moves slot slot.release [a] where
  idTask := idTask_release
  wellFormed := by
    rw [release, if_pos h]
    exact fun _ => rfl
  phase _ := by
    rw [phase_of_isProcessing (isProcessing_of_state h), phase_release h]
    exact bind_eq_some_iff.mpr ⟨_, ha, rfl⟩

/-- As long as a slot is processing it may do what is in order for a task that is live. -/
theorem moves_live (hid : slot'.idTask = slot.idTask) (h : slot.isProcessing = true)
    (h' : slot'.isProcessing = true) (hwf : slot'.WellFormed)
    (hacts : follow Phase.next .live acts = some .live) : Moves slot slot' acts where
  idTask := hid
  wellFormed := hwf
  phase _ := by rw [phase_of_isProcessing h, phase_of_isProcessing h', hacts]

/-- A change of what does not matter here. -/
theorem moves_of_eq (hid : slot'.idTask = slot.idTask) (hstate : slot'.state = slot.state)
    (hcommand : slot'.command = slot.command) (hwf : slot.WellFormed) : Moves slot slot' [] where
  idTask := hid
  wellFormed := by
    intro h
    rw [hstate]
    exact hwf (hcommand ▸ h)
  phase _ := by simp [phase, isProcessing, isLoading, hstate, hcommand, follow]

/-! ## The functions of a turn -/

variable {params : Params}

theorem moves_releaseSlot (hwf : slot.WellFormed) : Moves slot slot.releaseSlot [] := by
  by_cases hrelease : slot.command = .release
  · rw [releaseSlot, if_pos hrelease]
    refine ⟨rfl, fun h => absurd h (by simp), fun _ => ?_⟩
    simp [follow, phase, isProcessing, isLoading, hrelease, hwf hrelease]
  · rw [releaseSlot, if_neg hrelease]
    exact .refl hwf

/-- The context is full and cannot be shifted. -/
def ContextFull (params : Params) (slot : Slot) : Prop :=
  params.selfExtend = false ∧ params.ctxShift = false ∧
    params.nCtx ≤ params.nSystem + slot.nPast + 1

instance : Decidable (slot.ContextFull params) := inferInstanceAs (Decidable (_ ∧ _ ∧ _))

theorem moves_contextShift {left : ℕ} (hwf : slot.WellFormed)
    (hfull : slot.isLoading = true → ¬slot.ContextFull params) :
    Moves slot (slot.contextShift params left).1 (slot.contextShift params left).2 := by
  unfold contextShift
  split
  case isTrue h =>
    obtain ⟨hextend, hprocessing, hctx⟩ := h
    split
    case isTrue hshift =>
      have hload : slot.isLoading = false := by
        rw [Bool.eq_false_iff]
        exact fun hload => hfull hload ⟨hextend, hshift, hctx⟩
      exact moves_release (state_of_isProcessing hprocessing hload) rfl
    case isFalse => exact moves_of_eq rfl rfl rfl hwf
  case isFalse => exact .refl hwf

theorem moves_addSampledTokens {drafted nTokens : ℕ} (hwf : slot.WellFormed) :
    Moves slot (slot.addSampledTokens drafted nTokens).2.1
      (slot.addSampledTokens drafted nTokens).2.2 := by
  unfold addSampledTokens
  split
  case isTrue => exact .refl hwf
  case isFalse h =>
    have hstate : slot.state = .processing := by
      cases hs : slot.state with
      | idle => exact absurd hs h
      | processing => rfl
    exact moves_live rfl (isProcessing_of_state hstate) (isProcessing_of_state hstate) hwf
      (follow_replicate rfl _)

/-- The prompt of the slot does not fit the context, and cannot be shortened. -/
def TooBig (params : Params) (slot : Slot) : Prop :=
  params.selfExtend = false ∧ params.ctxShift = false ∧ slot.embedding = false ∧
    params.nCtx ≤ slot.promptTokens ∧ slot.promptTokens ≠ 0 ∧ slot.nPromptTokens = 0

instance : Decidable (slot.TooBig params) :=
  inferInstanceAs (Decidable (_ ∧ _ ∧ _ ∧ _ ∧ _ ∧ _))

/-- A slot that is made to generate and released at once answers its task. -/
theorem moves_discard (hload : slot.isLoading = true)
    (hid : slot'.idTask = slot.idTask)
    (hstate : slot'.state = .processing) (ha : Phase.next .live a = some .done) :
    Moves slot slot'.release [a] where
  idTask := idTask_release.trans hid
  wellFormed := by
    rw [release, if_pos hstate]
    exact fun _ => rfl
  phase _ := by
    rw [phase_of_isProcessing (isProcessing_of_isLoading hload), phase_release hstate]
    exact bind_eq_some_iff.mpr ⟨_, ha, rfl⟩

theorem wellFormed_of_isLoading (h : slot.isLoading = true) : slot.WellFormed := by
  intro hrelease
  simp [isLoading, hrelease] at h

/-- After the first look the slot has answered its task, or goes on loading. -/
theorem moves_lookAtPrompt (look : Look) (hload : slot.isLoading = true)
    (hlook : slot.promptTokens = 0 ∨ slot.nPromptTokens = 0) (hbig : ¬slot.TooBig params) :
    Moves slot (slot.lookAtPrompt params look).2.1 (slot.lookAtPrompt params look).2.2 ∧
      ((slot.lookAtPrompt params look).1 = false →
        (slot.lookAtPrompt params look).2.1.isLoading = true) := by
  have hwf := wellFormed_of_isLoading hload
  unfold lookAtPrompt
  dsimp only
  split
  case isTrue =>
    refine ⟨?_, fun h => by cases h⟩
    dsimp only
    exact moves_discard hload rfl rfl rfl
  case isFalse hempty =>
    split
    case isTrue =>
      split
      case isTrue =>
        refine ⟨?_, fun h => by cases h⟩
        dsimp only
        exact moves_discard hload rfl rfl rfl
      case isFalse => exact ⟨moves_of_eq rfl rfl rfl hwf, fun _ => hload⟩
    case isFalse hembedding =>
      split
      case isTrue h =>
        obtain ⟨hextend, hctx, hshift⟩ := h
        refine absurd ?_ hbig
        exact ⟨hextend, hshift, by simpa using hembedding, hctx, hempty, hlook.resolve_left hempty⟩
      case isFalse => exact ⟨moves_of_eq rfl rfl rfl hwf, fun _ => hload⟩

theorem moves_batchText {load : Load} {batch : Assembly} (hload : slot.isLoading = true) :
    Moves slot (slot.batchText params load batch).2.1 (slot.batchText params load batch).2.2 := by
  have hlive := isProcessing_of_isLoading hload
  unfold batchText
  dsimp only
  split
  case isTrue =>
    exact moves_live rfl hlive (isProcessing_of_state rfl) (fun h => by simp at h)
      (follow_replicate rfl _)
  case isFalse =>
    exact moves_live rfl hlive hlive (wellFormed_of_isLoading hload) (follow_replicate rfl _)

theorem moves_batchPrompt {load : Load} {batch : Assembly} (hload : slot.isLoading = true)
    (hmedia : load.media ≠ some none) :
    Moves slot (slot.batchPrompt params load batch).2.1
      (slot.batchPrompt params load batch).2.2 := by
  have hwf := wellFormed_of_isLoading hload
  unfold batchPrompt
  split
  case isTrue => exact .refl hwf
  case isFalse =>
    split
    case isTrue => exact .refl hwf
    case isFalse =>
      dsimp only
      -- whether the cache is trimmed or not, the slot goes on loading
      generalize htrim : (if load.trimmed = true then slot
        else { slot with nPast := 0, nPastPrompt := 0 }) = trimmed
      have hsame : Moves slot trimmed [] ∧ trimmed.isLoading = true := by
        rw [← htrim]
        split
        · exact ⟨.refl hwf, hload⟩
        · exact ⟨moves_of_eq rfl rfl rfl hwf, hload⟩
      obtain ⟨hmoves, htrimmed⟩ := hsame
      split
      case h_1 => exact hmoves.trans (moves_batchText htrimmed)
      case h_2 media hsome =>
        split
        case isFalse => exact hmoves.trans (moves_batchText htrimmed)
        case isTrue =>
          cases media with
          | none => exact absurd hsome hmedia
          | some n =>
            refine hmoves.trans (Moves.trans ?_ (moves_batchText htrimmed))
            exact moves_live rfl (isProcessing_of_isLoading htrimmed)
              (isProcessing_of_isLoading htrimmed) (wellFormed_of_isLoading htrimmed)
              (follow_replicate rfl _)

theorem moves_batchPendingPrompt {look : Look} {load : Load} {batch : Assembly}
    (hwf : slot.WellFormed)
    (hbig : slot.isLoading = true → ¬slot.TooBig params)
    (hmedia : slot.isLoading = true → load.media ≠ some none) :
    Moves slot (slot.batchPendingPrompt params look load batch).2.1
      (slot.batchPendingPrompt params look load batch).2.2 := by
  unfold batchPendingPrompt
  split
  case isTrue => exact .refl hwf
  case isFalse h =>
    have hload : slot.isLoading = true := by
      by_contra hload
      exact h (Or.inr hload)
    split
    case isTrue hlook =>
      obtain ⟨hmoves, hgoes⟩ := moves_lookAtPrompt look hload hlook (hbig hload)
      dsimp only
      split
      case isTrue => exact hmoves
      case isFalse hdone =>
        exact hmoves.trans (moves_batchPrompt (hgoes (by simpa using hdone)) (hmedia hload))
    case isFalse => exact moves_batchPrompt hload (hmedia hload)

theorem moves_sample {sampled : Sampled} (hwf : slot.WellFormed)
    (hstate : slot.state = .processing) :
    Moves slot (slot.sample sampled).1 (slot.sample sampled).2 := by
  have hlive := isProcessing_of_state hstate
  have hacts : Moves slot slot
      (replicate sampled.nSampled .sampled ++ replicate sampled.nSent .sent) :=
    moves_live rfl hlive hlive hwf (follow_trans (follow_replicate rfl _) (follow_replicate rfl _))
  unfold sample
  dsimp only
  split
  case h_1 nPast _ =>
    have hnext : Moves slot { slot with nPast } [] := moves_of_eq rfl rfl rfl hwf
    simpa only [append_nil] using hacts.trans hnext
  case h_2 => exact hacts.trans (moves_release hstate rfl)
  case h_3 => exact hacts.trans (moves_release hstate rfl)

theorem moves_sampleOutput {sampled : Option Sampled} (hwf : slot.WellFormed) :
    Moves slot (slot.sampleOutput sampled).1 (slot.sampleOutput sampled).2 := by
  unfold sampleOutput
  split
  case h_1 => exact .refl hwf
  case h_2 sampled =>
    split
    case isTrue => exact .refl hwf
    case isFalse h =>
      have hstate : slot.state = .processing := not_not.mp h
      split
      case isTrue => exact moves_release hstate rfl
      case isFalse => exact moves_sample hwf hstate

theorem moves_acceptDrafts {sampled : Option Sampled} (hwf : slot.WellFormed) :
    Moves slot (slot.acceptDrafts sampled).1 (slot.acceptDrafts sampled).2 := by
  unfold acceptDrafts
  split
  case h_1 => exact .refl hwf
  case h_2 sampled =>
    split
    case isTrue => exact .refl hwf
    case isFalse h => exact moves_sample hwf (not_not.mp h)

/-- What the slot answers when the model cannot decode is the first answer for its task, and it does
answer a task that it works on. -/
def FailsWell (ret : ℤ) (slot : Slot) : Prop :=
  slot.idTask ≠ none → (slot.isProcessing = true ↔ ret ≠ -3)

instance {ret : ℤ} : Decidable (slot.FailsWell ret) := inferInstanceAs (Decidable (_ → (_ ↔ _)))

theorem moves_decodeFails {ret : ℤ} (hfails : slot.FailsWell ret) :
    Moves slot (slot.decodeFails ret).1 (slot.decodeFails ret).2 where
  idTask := idTask_release
  wellFormed := wellFormed_release fun h => by simp at h
  phase hid := by
    unfold decodeFails
    dsimp only
    rw [phase_release rfl]
    split
    case isTrue hret =>
      have hidle : slot.isProcessing = false := by
        rw [Bool.eq_false_iff]
        exact fun h => (hfails hid).mp h hret
      rw [phase_of_not_isProcessing hidle]
      rfl
    case isFalse hret =>
      rw [phase_of_isProcessing ((hfails hid).mpr hret)]
      rfl

end Slot

namespace State

open Slot (Moves)

variable {params : Params} {turn : Turn} {s : State}

/-! ## The invariant -/

/-- The slots have tasks of their own, each as far as its slot is.  Nobody works on the other tasks,
and nothing has been done for those that wait. -/
structure Inv (s : State) : Prop where
  distinct : (s.slots.filterMap Slot.idTask).Nodup
  wellFormed : ∀ slot ∈ s.slots, slot.WellFormed
  waiting : ∀ t ∈ s.waiting, t < s.nextId
  untouched : ∀ t, t ∈ s.waiting ∨ s.nextId ≤ t →
    actionsOf s.log t = [] ∧ ∀ slot ∈ s.slots, slot.idTask ≠ some t
  linked : ∀ slot ∈ s.slots, ∀ t, slot.idTask = some t →
    follow Phase.next .waiting (actionsOf s.log t) = some slot.phase
  unlinked : ∀ t, (∀ slot ∈ s.slots, slot.idTask ≠ some t) →
    ∃ p, follow Phase.next .waiting (actionsOf s.log t) = some p ∧ p ≠ .live

/-- With no tasks but those that have not been taken. -/
def initial (n : ℕ) : State := { slots := List.replicate n {} }

theorem inv_initial (n : ℕ) : (initial n).Inv := by
  have hnone : ∀ slot ∈ (initial n).slots, slot = {} := fun slot => eq_of_mem_replicate
  have hlinked : ∀ slot ∈ (initial n).slots, ∀ t, slot.idTask ≠ some t := by
    intro slot hslot t hid
    rw [hnone slot hslot] at hid
    cases hid
  refine ⟨?_, ?_, ?_, fun t _ => ⟨rfl, fun slot hslot => hlinked slot hslot t⟩, ?_, ?_⟩
  · have hnil : (initial n).slots.filterMap Slot.idTask = [] :=
      filterMap_eq_nil_iff.mpr fun slot hslot => by rw [hnone slot hslot]
    rw [hnil]
    exact nodup_nil
  · intro slot hslot
    rw [hnone slot hslot]
    exact fun _ => rfl
  · exact fun t ht => absurd ht not_mem_nil
  · exact fun slot hslot t hid => absurd hid (hlinked slot hslot t)
  · exact fun t _ => ⟨.waiting, rfl, fun h => by cases h⟩

/-! ## Passes -/

variable {t : ℕ}

/-- Some slot is linked with a task if and only if one is after a pass. -/
theorem forall_idTask_ne {slots slots' : List Slot} {log : List (ℕ × Action)}
    (h : Pass Slot.idTask Moves slots slots' log) :
    (∀ slot ∈ slots', slot.idTask ≠ some t) ↔ ∀ slot ∈ slots, slot.idTask ≠ some t := by
  have hiff (slots : List Slot) :
      (∀ slot ∈ slots, slot.idTask ≠ some t) ↔ t ∉ slots.filterMap Slot.idTask := by
    simp [mem_filterMap]
  rw [hiff, hiff, h.filterMap_owner fun _ _ _ hmove => hmove.idTask]

variable {slots : List Slot}

/-- The invariant is kept when the slots move as they may. -/
theorem Inv.pass (h : s.Inv) {log : List (ℕ × Action)}
    (hpass : Pass Slot.idTask Moves s.slots slots log) :
    Inv { s with slots, log := s.log ++ log } := by
  have howners : slots.filterMap Slot.idTask = s.slots.filterMap Slot.idTask :=
    hpass.filterMap_owner fun _ _ _ hmove => hmove.idTask
  have hdistinct : (slots.filterMap Slot.idTask).Nodup := howners ▸ h.distinct
  refine ⟨hdistinct, ?_, h.waiting, ?_, ?_, ?_⟩
  · intro slot hslot
    obtain ⟨_, _, _, hmove⟩ := hpass.exists_moves hslot
    exact hmove.wellFormed
  · intro t ht
    obtain ⟨hnil, hne⟩ := h.untouched t ht
    refine ⟨?_, (forall_idTask_ne hpass).mpr hne⟩
    rw [actionsOf_append, hnil, hpass.actionsOf_of_forall_ne hne, append_nil]
  · intro slot' hslot' t hid'
    have hmem : t ∈ s.slots.filterMap Slot.idTask :=
      howners ▸ mem_filterMap.mpr ⟨slot', hslot', hid'⟩
    obtain ⟨slot, hslot, hid⟩ := mem_filterMap.mp hmem
    obtain ⟨moved, hmoved, hmove⟩ := hpass.exists_actions h.distinct hslot hid
    obtain rfl : moved = slot' :=
      eq_of_owner hdistinct hmoved hslot' (hmove.idTask.trans hid) hid'
    rw [actionsOf_append]
    refine follow_trans (h.linked slot hslot t hid) (hmove.phase ?_)
    rw [hid]
    exact some_ne_none t
  · intro t hne
    have hne' := (forall_idTask_ne hpass).mp hne
    rw [actionsOf_append, hpass.actionsOf_of_forall_ne hne', append_nil]
    exact h.unlinked t hne'

theorem pass_moves {α : Type} {f : ℕ → α → Slot → α × Slot × List Action}
    (i : ℕ) (a : α) (h : ∀ p ∈ slots.zipIdx i, ∀ a, Moves p.1 (f p.2 a p.1).2.1 (f p.2 a p.1).2.2) :
    Pass Slot.idTask Moves slots (pass f i a slots).2.1 (pass f i a slots).2.2 := by
  induction slots generalizing i a with
  | nil => exact .nil
  | cons slot slots ih =>
    refine .cons (h (slot, i) mem_cons_self a) (ih _ _ fun p hp => h p ?_)
    exact mem_cons_of_mem _ hp

theorem Inv.eachSlot {α : Type} {f : ℕ → α → Slot → α × Slot × List Action} {a : α} (h : s.Inv)
    (hf : ∀ p ∈ s.slots.zipIdx, p.1.WellFormed → ∀ a,
      Moves p.1 (f p.2 a p.1).2.1 (f p.2 a p.1).2.2) : (s.eachSlot f a).2.Inv :=
  h.pass (pass_moves 0 a fun p hp => hf p hp (h.wellFormed p.1 (fst_mem_of_mem_zipIdx hp)))

variable {f : ℕ → Slot → Slot × List Action}

theorem Inv.forSlots (h : s.Inv)
    (hf : ∀ p ∈ s.slots.zipIdx, p.1.WellFormed → Moves p.1 (f p.2 p.1).1 (f p.2 p.1).2) :
    (s.forSlots f).Inv :=
  h.eachSlot fun p hp hwf _ => hf p hp hwf

/-! ## A turn -/

/-- All slots may answer as they do when the model cannot decode. -/
def FailsWell (ret : ℤ) (s : State) : Prop := ∀ slot ∈ s.slots, slot.FailsWell ret

instance {ret : ℤ} : Decidable (s.FailsWell ret) :=
  inferInstanceAs (Decidable (∀ slot ∈ s.slots, slot.FailsWell ret))

/-- In `process_batch_tokens` all slots may answer where the model cannot decode. -/
def DecodesWell : List Decode → ℕ → State → Prop
  | [], _, _ => True
  | decode :: decodes, nBatch, s =>
    if decode.ret ≠ 0 then
      if nBatch = 1 ∨ decode.ret < 0 then s.FailsWell decode.ret
      else DecodesWell decodes (nBatch / 2) s
    else DecodesWell decodes nBatch ((s.sampleOutput decode).speculativeDecodingAccept decode)

instance decidableDecodesWell :
    (decodes : List Decode) → (nBatch : ℕ) → (s : State) → Decidable (s.DecodesWell decodes nBatch)
  | [], _, _ => inferInstanceAs (Decidable True)
  | decode :: decodes, nBatch, s => by
      have := decidableDecodesWell decodes (nBatch / 2) s
      have := decidableDecodesWell decodes nBatch
        ((s.sampleOutput decode).speculativeDecodingAccept decode)
      unfold DecodesWell
      infer_instance

/-- A turn up to the prompts, and the number of tokens in the batch. -/
def added (params : Params) (turn : Turn) (s : State) : ℕ × State :=
  (s.releaseSlots.contextShift params turn).addSampledTokens turn

/-- What a turn needs, of the slots that are still loading and where the model cannot decode. -/
structure UpdatesWell (params : Params) (turn : Turn) (s : State) : Prop where
  context : ∀ slot ∈ s.releaseSlots.slots, slot.isLoading = true → ¬slot.ContextFull params
  prompt : ∀ slot ∈ (s.added params turn).2.slots, slot.isLoading = true → ¬slot.TooBig params
  media : ∀ p ∈ (s.added params turn).2.slots.zipIdx,
    p.1.isLoading = true → (turn.load p.2).media ≠ some none
  decodes : ((s.added params turn).2.batchPendingPrompt params turn
    (s.added params turn).1).2.DecodesWell turn.decodes params.nBatch

theorem Inv.releaseSlots (h : s.Inv) : s.releaseSlots.Inv :=
  h.forSlots fun _ _ hwf => Slot.moves_releaseSlot hwf

theorem Inv.contextShift (h : s.Inv)
    (hcontext : ∀ slot ∈ s.slots, slot.isLoading = true → ¬slot.ContextFull params) :
    (s.contextShift params turn).Inv :=
  h.forSlots fun p hp hwf =>
    Slot.moves_contextShift hwf (hcontext p.1 (fst_mem_of_mem_zipIdx hp))

theorem Inv.addSampledTokens (h : s.Inv) : (s.addSampledTokens turn).2.Inv :=
  h.eachSlot fun _ _ hwf _ => Slot.moves_addSampledTokens hwf

theorem Inv.batchPendingPrompt (h : s.Inv) (nTokens : ℕ)
    (hprompt : ∀ slot ∈ s.slots, slot.isLoading = true → ¬slot.TooBig params)
    (hmedia : ∀ p ∈ s.slots.zipIdx, p.1.isLoading = true → (turn.load p.2).media ≠ some none) :
    (s.batchPendingPrompt params turn nTokens).2.Inv := by
  unfold State.batchPendingPrompt
  dsimp only
  split
  case isTrue =>
    refine h.eachSlot fun p hp hwf _ => ?_
    exact Slot.moves_batchPendingPrompt hwf (hprompt p.1 (fst_mem_of_mem_zipIdx hp))
      (hmedia p hp)
  case isFalse => exact h

theorem Inv.sampleChunk (h : s.Inv) (decode : Decode) :
    ((s.sampleOutput decode).speculativeDecodingAccept decode).Inv := by
  have houtput : (s.sampleOutput decode).Inv :=
    h.forSlots fun _ _ hwf => Slot.moves_sampleOutput hwf
  exact houtput.forSlots fun _ _ hwf => Slot.moves_acceptDrafts hwf

theorem Inv.decodeFails (h : s.Inv) {ret : ℤ} (hfails : s.FailsWell ret) :
    (s.decodeFails ret).Inv :=
  h.forSlots fun p hp _ => Slot.moves_decodeFails (hfails p.1 (fst_mem_of_mem_zipIdx hp))

theorem Inv.processBatchTokens (h : s.Inv) {decodes : List Decode} {nBatch : ℕ}
    (hdecodes : s.DecodesWell decodes nBatch) : (s.processBatchTokens decodes nBatch).Inv := by
  induction decodes generalizing nBatch s with
  | nil => exact h
  | cons decode decodes ih =>
    unfold State.processBatchTokens
    unfold DecodesWell at hdecodes
    split
    case isTrue hret =>
      rw [if_pos hret] at hdecodes
      split
      case isTrue hfatal => exact h.decodeFails (by rwa [if_pos hfatal] at hdecodes)
      case isFalse hfatal => exact ih h (by rwa [if_neg hfatal] at hdecodes)
    case isFalse hret =>
      rw [if_neg hret] at hdecodes
      exact ih (h.sampleChunk decode) hdecodes

theorem Inv.updateSlots (h : s.Inv) (hwell : s.UpdatesWell params turn) :
    (s.updateSlots params turn).Inv := by
  have hadded : (s.added params turn).2.Inv :=
    (h.releaseSlots.contextShift hwell.context).addSampledTokens
  have hbatched := hadded.batchPendingPrompt (s.added params turn).1 hwell.prompt hwell.media
  unfold State.updateSlots
  dsimp only
  split
  case isTrue => exact h.releaseSlots
  case isFalse =>
    split
    case isTrue => exact hbatched
    case isFalse => exact hbatched.processBatchTokens hwell.decodes

/-! ## The queue -/

theorem Inv.post (h : s.Inv) :
    Inv { s with waiting := s.waiting ++ [s.nextId], nextId := s.nextId + 1 } where
  distinct := h.distinct
  wellFormed := h.wellFormed
  waiting t ht := by
    rcases mem_append.mp ht with ht | ht
    · exact Nat.lt_succ_of_lt (h.waiting t ht)
    · rw [mem_singleton.mp ht]
      exact Nat.lt_succ_self _
  untouched t ht := by
    refine h.untouched t ?_
    rcases ht with ht | ht
    · rcases mem_append.mp ht with ht | ht
      · exact Or.inl ht
      · exact Or.inr (Nat.le_of_eq (mem_singleton.mp ht).symm)
    · exact Or.inr (Nat.le_of_succ_le ht)
  linked := h.linked
  unlinked := h.unlinked

/-- Something is done for one task that no slot has, and it does not wait any more. -/
theorem Inv.log (h : s.Inv) (ht : t < s.nextId)
    (hne : ∀ slot ∈ s.slots, slot.idTask ≠ some t) {p : Phase}
    (hp : follow Phase.next .waiting (actionsOf s.log t) = some p) (hdone : p.next a = some .done) :
    Inv { s with waiting := s.waiting.filter (· ≠ t), log := s.log ++ [(t, a)] } where
  distinct := h.distinct
  wellFormed := h.wellFormed
  waiting t' ht' := h.waiting t' (mem_filter.mp ht').1
  untouched t' ht' := by
    have hne' : t ≠ t' := by
      rintro rfl
      rcases ht' with ht' | ht'
      · simp at ht'
      · exact Nat.lt_irrefl _ (Nat.lt_of_lt_of_le ht ht')
    obtain ⟨hnil, hnot⟩ := h.untouched t' (ht'.imp_left fun ht' => (mem_filter.mp ht').1)
    refine ⟨?_, hnot⟩
    rw [actionsOf_append, hnil, actionsOf_cons_of_ne hne']
    rfl
  linked slot hslot t' hid := by
    have hne' : t ≠ t' := by
      rintro rfl
      exact hne slot hslot hid
    rw [actionsOf_append, actionsOf_cons_of_ne hne', actionsOf_nil, append_nil]
    exact h.linked slot hslot t' hid
  unlinked t' hnot := by
    rw [actionsOf_append]
    by_cases htt' : t = t'
    · subst htt'
      refine ⟨.done, ?_, fun h => by cases h⟩
      rw [actionsOf_cons_self, actionsOf_nil]
      exact follow_trans hp (bind_eq_some_iff.mpr ⟨_, hdone, rfl⟩)
    · rw [actionsOf_cons_of_ne htt', actionsOf_nil, append_nil]
      exact h.unlinked t' hnot

/-- Where no slot is linked with a task, the task may be cancelled. -/
theorem next_cancelled {p : Phase} (h : p ≠ .live) : p.next .cancelled = some .done := by
  cases p with
  | live => exact absurd rfl h
  | waiting | done => rfl

/-- To be cancelled a task must not be loading. -/
def CancelsWell (t : ℕ) (s : State) : Prop :=
  ∀ slot ∈ s.slots, slot.idTask = some t → slot.isLoading = false

theorem releaseTask_of_forall_ne
    (hne : ∀ slot ∈ slots, slot.idTask ≠ some t) : releaseTask t slots = slots := by
  induction slots with
  | nil => rfl
  | cons slot slots ih =>
    rw [releaseTask, if_neg (hne slot mem_cons_self),
      ih fun slot hslot => hne slot (mem_cons_of_mem _ hslot)]

theorem moves_cancel {slot : Slot} (hwf : slot.WellFormed) (hload : slot.isLoading = false) :
    Moves slot slot.release [.cancelled] := by
  cases hprocessing : slot.isProcessing with
  | true => exact Slot.moves_release (Slot.state_of_isProcessing hprocessing hload) rfl
  | false =>
    have hstate : ¬slot.state = .processing := by
      intro hstate
      rw [Slot.isProcessing_of_state hstate] at hprocessing
      cases hprocessing
    rw [Slot.release, if_neg hstate]
    refine ⟨rfl, hwf, fun _ => ?_⟩
    rw [Slot.phase_of_not_isProcessing hprocessing]
    rfl

/-- A pass in which nothing happens. -/
theorem pass_refl (hwf : ∀ slot ∈ slots, slot.WellFormed) :
    Pass Slot.idTask Moves slots slots [] := by
  induction slots with
  | nil => exact .nil
  | cons slot slots ih =>
    have hhead : Pass Slot.idTask Moves (slot :: slots) (slot :: slots)
        (entries slot.idTask [] ++ []) :=
      .cons (.refl (hwf slot mem_cons_self))
        (ih fun slot hslot => hwf slot (mem_cons_of_mem _ hslot))
    simpa using hhead

theorem releaseTask_pass (hwf : ∀ slot ∈ slots, slot.WellFormed)
    (hload : ∀ slot ∈ slots, slot.idTask = some t → slot.isLoading = false)
    (hmem : ∃ slot ∈ slots, slot.idTask = some t) :
    Pass Slot.idTask Moves slots (releaseTask t slots) [(t, .cancelled)] := by
  induction slots with
  | nil =>
    obtain ⟨slot, hslot, -⟩ := hmem
    exact absurd hslot not_mem_nil
  | cons slot slots ih =>
    have hslot := hwf slot mem_cons_self
    have hslots : ∀ slot ∈ slots, slot.WellFormed :=
      fun slot hslot => hwf slot (mem_cons_of_mem _ hslot)
    unfold releaseTask
    split
    case isTrue hid =>
      have hhead : Pass Slot.idTask Moves (slot :: slots) (slot.release :: slots)
          (entries slot.idTask [.cancelled] ++ []) :=
        .cons (moves_cancel hslot (hload slot mem_cons_self hid)) (pass_refl hslots)
      simpa [hid, entries] using hhead
    case isFalse hid =>
      have hmem' : ∃ slot ∈ slots, slot.idTask = some t := by
        obtain ⟨found, hfound, hfid⟩ := hmem
        rcases mem_cons.mp hfound with rfl | hfound
        · exact absurd hfid hid
        · exact ⟨found, hfound, hfid⟩
      have hrest := ih hslots (fun slot hslot => hload slot (mem_cons_of_mem _ hslot)) hmem'
      have hhead : Pass Slot.idTask Moves (slot :: slots) (slot :: releaseTask t slots)
          (entries slot.idTask [] ++ [(t, .cancelled)]) := .cons (.refl hslot) hrest
      simpa using hhead

/-- A task that a slot is linked with does not wait. -/
theorem Inv.filter_waiting (h : s.Inv) {slot : Slot} (hslot : slot ∈ s.slots)
    (hid : slot.idTask = some t) : s.waiting.filter (· ≠ t) = s.waiting := by
  refine filter_eq_self.mpr fun t' ht' => ?_
  have hne : t' ≠ t := by
    rintro rfl
    exact (h.untouched t' (Or.inl ht')).2 slot hslot hid
  simpa using hne

theorem Inv.cancel (h : s.Inv) (hwell : s.CancelsWell t) : (s.cancel t).Inv := by
  unfold State.cancel
  split
  case isFalse => exact h
  case isTrue ht =>
    by_cases hmem : ∃ slot ∈ s.slots, slot.idTask = some t
    · obtain ⟨slot, hslot, hid⟩ := hmem
      rw [h.filter_waiting hslot hid]
      exact h.pass (releaseTask_pass h.wellFormed hwell ⟨slot, hslot, hid⟩)
    · have hne : ∀ slot ∈ s.slots, slot.idTask ≠ some t :=
        fun slot hslot hid => hmem ⟨slot, hslot, hid⟩
      obtain ⟨p, hp, hlive⟩ := h.unlinked t hne
      rw [releaseTask_of_forall_ne hne]
      exact h.log ht hne hp (next_cancelled hlive)

theorem getElem?_pass {l : List Slot} (i j : ℕ) :
    (pass (fun i (_ : Unit) slot => ((), f i slot)) i () l).2.1[j]? =
      l[j]?.map fun slot => (f (i + j) slot).1 := by
  induction l generalizing i j with
  | nil => rfl
  | cons slot l ih =>
    cases j with
    | zero => rfl
    | succ j =>
      have hij : i + (j + 1) = i + 1 + j := by rw [Nat.add_comm j, Nat.add_assoc]
      rw [hij]
      exact ih (i + 1) j

theorem getElem?_forSlots (i : ℕ) :
    (s.forSlots f).slots[i]? = s.slots[i]?.map fun slot => (f i slot).1 := by
  have hpass := getElem?_pass (f := f) (l := s.slots) 0 i
  rw [Nat.zero_add] at hpass
  exact hpass

/-- A task that does not wait any more, but of which nothing is known yet. -/
structure Fresh (t : ℕ) (s : State) : Prop where
  lt : t < s.nextId
  notWaiting : t ∉ s.waiting
  actions : actionsOf s.log t = []
  unlinked : ∀ slot ∈ s.slots, slot.idTask ≠ some t

theorem Inv.unqueue (h : s.Inv) (t : ℕ) : Inv { s with waiting := s.waiting.filter (· ≠ t) } where
  distinct := h.distinct
  wellFormed := h.wellFormed
  waiting t' ht' := h.waiting t' (mem_filter.mp ht').1
  untouched t' ht' := h.untouched t' (ht'.imp_left fun ht' => (mem_filter.mp ht').1)
  linked := h.linked
  unlinked := h.unlinked

theorem Inv.fresh (h : s.Inv) (ht : t ∈ s.waiting) :
    Fresh t { s with waiting := s.waiting.filter (· ≠ t) } where
  lt := h.waiting t ht
  notWaiting := by simp
  actions := (h.untouched t (Or.inl ht)).1
  unlinked := (h.untouched t (Or.inl ht)).2

theorem Fresh.pass (h : Fresh t s) {log : List (ℕ × Action)}
    (hpass : Pass Slot.idTask Moves s.slots slots log) :
    Fresh t { s with slots, log := s.log ++ log } where
  lt := h.lt
  notWaiting := h.notWaiting
  actions := by
    rw [actionsOf_append, h.actions, hpass.actionsOf_of_forall_ne h.unlinked]
    rfl
  unlinked := (forall_idTask_ne hpass).mpr h.unlinked

theorem Fresh.forSlots (h : Fresh t s)
    (hf : ∀ p ∈ s.slots.zipIdx, Moves p.1 (f p.2 p.1).1 (f p.2 p.1).2) : Fresh t (s.forSlots f) :=
  h.pass (pass_moves 0 () fun p hp _ => hf p hp)

theorem isProcessing_of_available {slot : Slot} (h : slot.available = true) :
    slot.isProcessing = false := by
  have hstate : slot.state = .idle ∧ slot.command = .none := by simpa [Slot.available] using h
  simp [Slot.isProcessing, Slot.isLoading, hstate.1, hstate.2]

/-- A slot that is available takes a task: it works on it, or the task has been answered. -/
theorem launch_spec {slot : Slot} (t : ℕ) (task : Task) (h : slot.available = true) :
    (slot.launch t task).idTask = some t ∧ (slot.launch t task).WellFormed ∧
      follow Phase.next .waiting (if task.accepted then [.launched] else [.launched, .error]) =
        some (slot.launch t task).phase := by
  have hstate : slot.state = .idle ∧ slot.command = .none := by simpa [Slot.available] using h
  unfold Slot.launch
  dsimp only
  split
  case isTrue =>
    refine ⟨rfl, (fun hrelease => by cases hrelease), ?_⟩
    simp [follow, Phase.next, Slot.phase, Slot.isProcessing, Slot.isLoading, Slot.reset, hstate.1]
  case isFalse =>
    refine ⟨rfl, fun _ => hstate.1, ?_⟩
    simp [follow, Phase.next, Slot.phase, Slot.isProcessing, Slot.isLoading, Slot.reset, hstate.1,
      hstate.2]

theorem Inv.launch (h : s.Inv) {t i : ℕ} (slot : Slot) {task : Task} (hfresh : Fresh t s)
    (hget : s.slots[i]? = some slot) (havailable : slot.available = true) :
    Inv { s with
      slots := s.slots.modify i (Slot.launch t task)
      log := s.log ++ entries (some t)
        (if task.accepted then [.launched] else [.launched, .error]) } := by
  obtain ⟨hid, hwf, hfollow⟩ := launch_spec t task havailable
  obtain ⟨hi, hgetElem⟩ := List.getElem?_eq_some_iff.mp hget
  obtain ⟨before, found, after, hslots, hlength, hmodify⟩ :=
    List.exists_of_modify (Slot.launch t task) hi
  obtain rfl : found = slot := by
    have hfound : s.slots[i]? = some found := by simp [hslots, ← hlength]
    exact some.inj (hfound.symm.trans hget)
  have hother : ∀ slot ∈ before ++ after, slot ∈ s.slots := by
    intro slot hslot
    rw [hslots]
    rcases List.mem_append.mp hslot with hslot | hslot
    · exact List.mem_append_left _ hslot
    · exact List.mem_append_right _ (List.mem_cons_of_mem _ hslot)
  have hcases : ∀ slot ∈ before ++ found.launch t task :: after,
      slot = found.launch t task ∨ slot ∈ before ++ after := by
    intro slot hslot
    simp only [List.mem_append, List.mem_cons] at hslot ⊢
    tauto
  rw [hmodify]
  refine ⟨?_, ?_, h.waiting, ?_, ?_, ?_⟩
  · have hnodup : ((before ++ after).filterMap Slot.idTask).Nodup := by
      refine h.distinct.sublist (List.Sublist.filterMap _ ?_)
      rw [hslots]
      exact (List.Sublist.refl before).append (List.sublist_cons_self _ _)
    have hnot : t ∉ (before ++ after).filterMap Slot.idTask := by
      intro ht
      obtain ⟨slot, hslot, hslotid⟩ := List.mem_filterMap.mp ht
      exact hfresh.unlinked slot (hother slot hslot) hslotid
    rw [List.filterMap_append] at hnodup hnot
    dsimp only
    rw [List.filterMap_append, List.filterMap_cons_some hid, List.nodup_middle]
    exact List.nodup_cons.mpr ⟨hnot, hnodup⟩
  · intro slot hslot
    rcases hcases slot hslot with rfl | hslot
    · exact hwf
    · exact h.wellFormed slot (hother slot hslot)
  · intro t' ht'
    have hne : some t ≠ some t' := by
      rintro ⟨⟩
      rcases ht' with ht' | ht'
      · exact hfresh.notWaiting ht'
      · exact Nat.lt_irrefl _ (Nat.lt_of_lt_of_le hfresh.lt ht')
    obtain ⟨hnil, hnot⟩ := h.untouched t' ht'
    refine ⟨by rw [actionsOf_append, hnil, actionsOf_entries_of_ne hne, List.append_nil], ?_⟩
    intro slot hslot
    rcases hcases slot hslot with rfl | hslot
    · rwa [hid]
    · exact hnot slot (hother slot hslot)
  · intro slot hslot t' hslotid
    rw [actionsOf_append]
    rcases hcases slot hslot with rfl | hslot
    · obtain rfl : t = t' := some.inj (hid.symm.trans hslotid)
      rw [hfresh.actions, actionsOf_entries_self, List.nil_append, hfollow]
    · have hne : some t ≠ some t' :=
        fun htt' => hfresh.unlinked slot (hother slot hslot) (hslotid.trans htt'.symm)
      rw [actionsOf_entries_of_ne hne, List.append_nil]
      exact h.linked slot (hother slot hslot) t' hslotid
  · intro t' hnot
    have hne : some t ≠ some t' := by
      intro htt'
      refine hnot (found.launch t task) ?_ (hid.trans htt')
      exact List.mem_append_right _ List.mem_cons_self
    rw [actionsOf_append, actionsOf_entries_of_ne hne, List.append_nil]
    by_cases hfound : found.idTask = some t'
    · refine ⟨_, h.linked found (List.mem_of_getElem? hget) t' hfound, ?_⟩
      rw [Slot.phase_of_not_isProcessing (isProcessing_of_available havailable)]
      exact fun hlive => by cases hlive
    · refine h.unlinked t' fun slot hslot => ?_
      rw [hslots] at hslot
      rcases List.mem_append.mp hslot with hslot | hslot
      · exact hnot slot (List.mem_append_left _ hslot)
      · rcases List.mem_cons.mp hslot with rfl | hslot
        · exact hfound
        · exact hnot slot (List.mem_append_right _ (List.mem_cons_of_mem _ hslot))

theorem Inv.take (h : s.Inv) (t i : ℕ) (task : Task) : (s.take t i task).Inv := by
  unfold State.take
  split
  case h_1 => exact h
  case h_2 slot hget =>
    split
    case isTrue => exact h
    case isFalse hready =>
      obtain ⟨hwaiting, havailable⟩ := not_or.mp hready
      have ht : t ∈ s.waiting := not_not.mp hwaiting
      have hfresh := h.fresh ht
      split
      case isTrue =>
        refine h.log hfresh.lt hfresh.unlinked (p := .waiting) ?_ rfl
        rw [hfresh.actions]
        rfl
      case isFalse =>
        dsimp only
        have hunqueued := h.unqueue t
        split
        case isTrue =>
          have hmoves : ∀ p ∈ s.slots.zipIdx, Moves p.1 { p.1 with nPast := 0 } [] := by
            intro p hp
            exact Slot.moves_of_eq rfl rfl rfl (h.wellFormed p.1 (fst_mem_of_mem_zipIdx hp))
          refine (hunqueued.forSlots fun p hp _ => hmoves p hp).launch { slot with nPast := 0 }
            (hfresh.forSlots hmoves) ?_ ?_
          · rw [getElem?_forSlots, hget]
            rfl
          · exact not_not.mp havailable
        case isFalse => exact hunqueued.launch slot hfresh hget (not_not.mp havailable)

/-! ## Runs -/

/-- What ends a task finds its slot generating. -/
def Sound (params : Params) (s : State) : Event → Prop
  | .cancel t => s.CancelsWell t
  | .update turn => s.UpdatesWell params turn
  | .post | .take _ _ _ => True

theorem Inv.step {e : Event} (h : s.Inv) (hsound : s.Sound params e) : (s.step params e).Inv := by
  cases e with
  | post => exact h.post
  | take t i task => exact h.take t i task
  | cancel t => exact h.cancel hsound
  | update turn => exact h.updateSlots hsound

/-- The steps of a server. -/
def Step (params : Params) (s : State) (e : Event) (s' : State) : Prop := s.step params e = s'

/-- Those which find the slots as they should. -/
def SoundStep (params : Params) (s : State) (e : Event) (s' : State) : Prop :=
  s.Sound params e ∧ s.Step params e s'

/-- In each phase the log has what is promised. -/
theorem Inv.settled (h : s.Inv) : Settled s := by
  have hfollow (t : ℕ) : ∃ p, follow Phase.next .waiting (actionsOf s.log t) = some p ∧
      (p = .live → ∃ slot ∈ s.slots, slot.idTask = some t ∧ slot.isProcessing = true) := by
    by_cases hmem : ∃ slot ∈ s.slots, slot.idTask = some t
    · obtain ⟨slot, hslot, hid⟩ := hmem
      refine ⟨_, h.linked slot hslot t hid, fun hlive => ⟨slot, hslot, hid, ?_⟩⟩
      by_contra hprocessing
      rw [Slot.phase_of_not_isProcessing (by simpa using hprocessing)] at hlive
      cases hlive
    · obtain ⟨p, hp, hlive⟩ := h.unlinked t fun slot hslot hid => hmem ⟨slot, hslot, hid⟩
      exact ⟨p, hp, fun hp' => absurd hp' hlive⟩
  refine ⟨fun t => ?_, fun t pre a post hacts ha => ?_, fun t hlaunched => ?_, ?_⟩
  · obtain ⟨p, hp, -⟩ := hfollow t
    have hrecords := records_of_follow hp
    cases p with
    | waiting =>
      rw [show actionsOf s.log t = [] from hrecords]
      exact Nat.zero_le 1
    | live =>
      rw [filter_isResult hrecords]
      exact Nat.zero_le 1
    | done => exact hrecords.1
  · obtain ⟨p, hp, -⟩ := hfollow t
    rw [hacts] at hp
    obtain ⟨_, _, hrest⟩ := follow_split hp
    obtain ⟨_, hnext, hpost⟩ := follow_cons hrest
    obtain rfl := Phase.next_ends hnext ha
    intro b hb
    have hcancelled := follow_last (fun _ _ => Phase.next_done) hpost b hb
    rw [hcancelled]
    rfl
  · obtain ⟨p, hp, hlive⟩ := hfollow t
    have hrecords := records_of_follow hp
    cases p with
    | waiting =>
      rw [show actionsOf s.log t = [] from hrecords] at hlaunched
      exact absurd hlaunched not_mem_nil
    | live => exact Or.inr (Or.inr (hlive rfl))
    | done => exact hrecords.2.imp_right Or.inl
  · rintro t ⟨a, ha, hends⟩ slot hslot hid
    have hphase := h.linked slot hslot t hid
    obtain ⟨pre, post, hacts⟩ := append_of_mem ha
    rw [hacts] at hphase
    obtain ⟨_, _, hrest⟩ := follow_split hphase
    obtain ⟨_, hnext, hpost⟩ := follow_cons hrest
    obtain rfl := Phase.next_ends hnext hends
    have hdone : slot.phase = .done := by
      refine follow_history (P := fun _ q => q = .done) rfl (fun _ m b q hm hq => ?_) hpost
      rw [hm] at hq
      exact (Phase.next_done hq).1
    exact Slot.available_releaseSlot hdone

end State

def smallServer : Params := { nCtx := 100, nBatch := 8, nUbatch := 8 }

/-- A turn in which three tokens are left of a prompt. -/
def threeTokens (ends : Slot.Ends) : Turn where
  load _ := { text := 3 }
  decodes := [{ output := fun _ => some { nSent := 1, ends } }]

end ExpertPin.Server.Tasks
