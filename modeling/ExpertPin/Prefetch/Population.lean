import ExpertPin.Prefetch.Engine
import ExpertPin.Prefetch.Resident
import ExpertPin.Prefetch.Selection
import Mathlib.Data.Fin.VecNotation

/-!
# Populating the experts of a manifest

`ggml_moe_prefetch_experts` registers the slices of a manifest before it knows whether the tensor
lies in a mapping.  A call for a tensor outside of all mappings returns false, but the slices stay
registered (`allOrNothing_iff`).
-/

namespace ExpertPin.Prefetch

open Intervals Runs

/-- The bytes of an expert, as far as they belong to the tensor. -/
def Tensor.slice (w : Tensor) (id : ℕ) : ℕ × ℕ :=
  (id * w.stride, min w.stride (w.nbytes - id * w.stride))

/-- The ranges of a manifest cover the bytes of its experts. -/
theorem covers_ordered {w : Tensor} {expertIds : List ℕ} {ranges : List (ℕ × ℕ)}
    (h : expertIds.Forall₂ (fun id range => expertRange w id = some range) ranges) (o : ℕ) :
    Covers ranges o ↔ ∃ id ∈ expertIds, Mem o (w.slice id) := by
  induction h with
  | nil => simp
  | @cons id range expertIds ranges hrange _ ih =>
    obtain ⟨_, _, rfl⟩ := expertRange_eq_some_iff.mp hrange
    rw [covers_cons, ih, List.exists_mem_cons_iff]
    rfl

namespace Engine

variable {s t : Engine} {w : Tensor} {expertIds : List ℕ} {ranges : List (ℕ × ℕ)}

/-! ## A call -/

/-- What happens to the engine while a call waits. -/
def Waits (s : Engine) (observations : List Observation) (t : Engine) : Prop :=
  ∃ action, s.poolStep action = some (observations, t)

/-- `ggml_moe_prefetch_experts` as a whole: what it returns, and the engine then.  If the slices
have been enqueued or hinted, it waits for the pool and probes the tensor. -/
inductive Populates (os : Os) (w : Tensor) (expertIds : List ℕ) (s : Engine) :
    Bool → Engine → Prop
  | failed (h : (s.experts w expertIds).1 = false) :
      Populates os w expertIds s false (s.experts w expertIds).2.2
  | populated {tr : List (List Observation)} {t : Engine}
      (h : (s.experts w expertIds).1 = true)
      (wait : Steps Waits (s.experts w expertIds).2.2 tr t) :
      Populates os w expertIds s true (t.accountTensorResidency os w)

/-- A call that fails leaves the engine as it was, and after one that succeeds the tensor is mapped
and the bytes of the listed experts are its resident ones. -/
def AllOrNothing (w : Tensor) (expertIds : List ℕ) (s : Engine) (ok : Bool) (t : Engine) : Prop :=
  (ok = false → t = s) ∧ (ok = true → t.isMapped w.data w.nbytes = true ∧
      ∃ resident, t.residentRanges w.data = some resident ∧
        ∀ o, Covers resident o ↔ ∃ id ∈ expertIds, Mem o (w.slice id))

/-! ## What a call changes -/

theorem experts_of_none (h : collectOrderedExpertRanges w expertIds = none) :
    s.experts w expertIds = (false, [], s) := by
  rw [experts, h]

/-- A call whose ids are valid succeeds if the tensor is mapped. -/
theorem experts_returned (h : collectOrderedExpertRanges w expertIds = some ranges) :
    (s.experts w expertIds).1 = s.isMapped w.data w.nbytes := by
  rw [experts, h]
  dsimp only [enqueueRanges]
  change (_ || s.isMapped w.data w.nbytes) = _
  split
  case h_1 => exact Bool.false_or _
  case h_2 =>
    split
    case isTrue hmapped =>
      have hmapped : s.isMapped w.data w.nbytes = true := hmapped
      rw [hmapped, Bool.or_true]
    case isFalse => exact Bool.false_or _

/-- Of the registries a call changes the resident ranges of the tensor only. -/
theorem experts_registries (h : collectOrderedExpertRanges w expertIds = some ranges) :
    (s.experts w expertIds).2.2.mappings = s.mappings ∧ (s.experts w expertIds).2.2.residentRanges =
        registerResidentRanges s.residentRanges w ranges := by
  rw [experts, h]
  dsimp only [enqueueFor, enqueueRanges]
  split
  case h_1 => exact ⟨rfl, rfl⟩
  case h_2 =>
    split
    case isTrue => exact ⟨rfl, rfl⟩
    case isFalse => exact ⟨rfl, rfl⟩

/-- Without a mapping the slices are registered and nothing is enqueued. -/
theorem experts_of_not_mapped (h : collectOrderedExpertRanges w expertIds = some ranges)
    (hmapped : s.isMapped w.data w.nbytes = false) :
    (s.experts w expertIds).2.2 =
      { s with residentRanges := registerResidentRanges s.residentRanges w ranges } := by
  rw [experts, h]
  dsimp only [enqueueFor, enqueueRanges]
  split
  case h_1 => rfl
  case h_2 =>
    split
    case isTrue hyes =>
      have hyes : s.isMapped w.data w.nbytes = true := hyes
      rw [hmapped] at hyes
      cases hyes
    case isFalse => rfl

theorem Waits.registries {observations : List Observation} (h : s.Waits observations t) :
    t.mappings = s.mappings ∧ t.residentRanges = s.residentRanges := by
  obtain ⟨action, hstep⟩ := h
  rw [poolStep] at hstep
  split at hstep
  case isTrue =>
    obtain ⟨pool, _, hpool⟩ := Option.bind_eq_some_iff.mp hstep
    obtain ⟨p, _, hp⟩ := Option.map_eq_some_iff.mp hpool
    obtain ⟨_, rfl⟩ := Prod.mk.inj hp
    exact ⟨rfl, rfl⟩
  case isFalse => cases hstep

/-- Waiting changes nothing but the pool. -/
theorem registries_of_waits {tr : List (List Observation)} (h : Steps Waits s tr t) :
    t.mappings = s.mappings ∧ t.residentRanges = s.residentRanges := by
  refine h.invariant (P := fun t => t.mappings = s.mappings ∧
    t.residentRanges = s.residentRanges) ?_ ⟨rfl, rfl⟩
  intro u observations v hu hwaits
  obtain ⟨hmappings, hranges⟩ := hwaits.registries
  exact ⟨hmappings.trans hu.1, hranges.trans hu.2⟩

theorem accountTensorResidency_registries (os : Os) :
    (s.accountTensorResidency os w).mappings = s.mappings ∧
      (s.accountTensorResidency os w).residentRanges = s.residentRanges := by
  dsimp only [accountTensorResidency]
  split
  case isTrue => exact ⟨rfl, rfl⟩
  case isFalse => exact ⟨rfl, rfl⟩

/-- Registering leaves the engine as it is only if the very ranges were registered before. -/
theorem register_eq_self_iff :
    { s with residentRanges := registerResidentRanges s.residentRanges w ranges } = s ↔
      s.residentRanges w.data = some (mergeRanges ranges) := by
  constructor
  · intro h
    have hdata := congrFun (congrArg residentRanges h) w.data
    rw [← hdata]
    exact Function.update_self _ _ _
  · intro h
    have hself : registerResidentRanges s.residentRanges w ranges = s.residentRanges := by
      rw [registerResidentRanges, ← h, Function.update_eq_self]
    rw [hself]

/-! ## All or nothing -/

/-- What a successful call leaves. -/
theorem Populates.success {os : Os} (h : Populates os w expertIds s true t) :
    t.isMapped w.data w.nbytes = true ∧ ∃ resident, t.residentRanges w.data = some resident ∧
        ∀ o, Covers resident o ↔ ∃ id ∈ expertIds, Mem o (w.slice id) := by
  cases h with
  | @populated tr u h wait =>
    cases hcollect : collectOrderedExpertRanges w expertIds with
    | none =>
      rw [experts_of_none hcollect] at h
      cases h
    | some ranges =>
      obtain ⟨hmappings, hresident⟩ := experts_registries (s := s) hcollect
      obtain ⟨hwaitMappings, hwaitResident⟩ := registries_of_waits wait
      obtain ⟨hprobeMappings, hprobeResident⟩ :=
        accountTensorResidency_registries (s := u) (w := w) os
      rw [experts_returned hcollect] at h
      refine ⟨?_, mergeRanges ranges, ?_, fun o => ?_⟩
      · rw [isMapped, hprobeMappings, hwaitMappings, hmappings]
        exact h
      · rw [hprobeResident, hwaitResident, hresident]
        exact Function.update_self _ _ _
      · rw [covers_mergeRanges]
        exact covers_ordered (collectOrderedExpertRanges_eq_some hcollect).2 o

/-- A call is all or nothing if and only if its ids are refused, the tensor is mapped, or the very
slices were registered before. -/
theorem allOrNothing_iff {os : Os} {ok : Bool} (h : Populates os w expertIds s ok t) :
    AllOrNothing w expertIds s ok t ↔
      ∀ ranges, collectOrderedExpertRanges w expertIds = some ranges →
        s.isMapped w.data w.nbytes = true ∨
          s.residentRanges w.data = some (mergeRanges ranges) := by
  cases ok with
  | true =>
    have hsuccess : AllOrNothing w expertIds s true t := by
      refine ⟨fun hfalse => ?_, fun _ => h.success⟩
      cases hfalse
    refine iff_of_true hsuccess fun ranges hcollect => .inl ?_
    cases h with
    | populated h _ => rwa [experts_returned hcollect] at h
  | false =>
    cases h with
    | failed h =>
      have hiff : AllOrNothing w expertIds s false (s.experts w expertIds).2.2 ↔
          (s.experts w expertIds).2.2 = s := by
        refine ⟨fun h => h.1 rfl, fun h => ⟨fun _ => h, fun htrue => ?_⟩⟩
        cases htrue
      rw [hiff]
      cases hcollect : collectOrderedExpertRanges w expertIds with
      | none =>
        rw [experts_of_none hcollect]
        refine iff_of_true rfl fun _ hsome => ?_
        cases hsome
      | some ranges =>
        rw [experts_returned hcollect] at h
        rw [experts_of_not_mapped hcollect h, register_eq_self_iff]
        constructor
        · rintro hregistered _ ⟨⟩
          exact .inr hregistered
        · intro hall
          refine (hall ranges rfl).resolve_left ?_
          rw [h]
          exact Bool.false_ne_true

/-- Two experts of 64 bytes at the start of a page. -/
def onePage : Tensor where
  ptr := 1
  data := 4096
  type := ⟨1, 1, 0, false⟩
  ne := ![64, 1, 2, 1]
  nb := ![1, 64, 64, 128]

/-- A kernel that answers no probe. -/
def blindOs : Os where
  page := 4096
  mincore _ _ := none

/-- The second expert of a mapped tensor is populated without a pool. -/
theorem allOrNothing_iff_mapped :
    ∃ t, Populates blindOs onePage [1] { mappings := [⟨4096, 4096⟩] } true t ∧
      AllOrNothing onePage [1] { mappings := [⟨4096, 4096⟩] } true t := by
  have hmapped : isMapped { mappings := [⟨4096, 4096⟩] } onePage.data onePage.nbytes = true := by
    decide
  have hpopulates : Populates blindOs onePage [1] { mappings := [⟨4096, 4096⟩] } true _ :=
    .populated hmapped .refl
  exact ⟨_, hpopulates, (allOrNothing_iff hpopulates).mpr fun _ _ => .inl hmapped⟩

/-- Without a mapping the call fails and its slice stays registered. -/
theorem not_allOrNothing :
    ∃ t, Populates blindOs onePage [1] {} false t ∧ t.residentRanges 4096 = some [(64, 64)] ∧
      ¬AllOrNothing onePage [1] {} false t := by
  have hpopulates : Populates blindOs onePage [1] {} false _ := .failed rfl
  have hregistered : (experts {} onePage [1]).2.2.residentRanges 4096 = some [(64, 64)] := by
    decide +kernel
  refine ⟨_, hpopulates, hregistered, fun h => ?_⟩
  rw [h.1 rfl] at hregistered
  cases hregistered

end Engine

end ExpertPin.Prefetch
