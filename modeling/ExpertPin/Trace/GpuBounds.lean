import Mathlib.Algebra.BigOperators.Group.List.Basic
import ExpertPin.Trace.GpuRecord

/-!
# The GPU trace is bounded and fails closed

In every run the bytes that are asked of the readers and the operations that are counted
stay within their budgets, and no row is written after an operation is rejected.  When the
footer tells of no error and of nothing that was dropped, the rows of each operation of a
scope are all there.

What one call keeps is `Took`, and a run only composes it.
-/

namespace ExpertPin.Trace

open Ggml (TypeTraits)

namespace GpuTrace

/-! ## One call -/

/-- What holds of a trace between two calls. -/
structure Safe (t : GpuTrace) : Prop where
  opened : t.Open
  finished : t.csv.finished = false
  /-- A record is only ever dropped when the writer is full or has failed. -/
  dropped : t.csv.dropped = 0 ∨ t.csv.error = true ∨ t.csv.written = t.csv.limit

theorem safe_new (records readBudget entries : UInt64) : (new records readBudget entries).Safe where
  opened := ⟨fun hactive => absurd hactive Bool.false_ne_true, UInt64.zero_le⟩
  finished := rfl
  dropped := .inl rfl

/-- Nothing is missing from the trace. -/
def Clean (t : GpuTrace) : Prop := t.csv.dropped = 0 ∧ t.csv.error = false

/-- The rows of an operation of a scope are all there: for each weight one for each of the
ids that the reader gave and that is not a sentinel. -/
def Complete : GpuCall → GpuObservation → Prop
  | .setScope _, _ => True
  | .record w₀ w₁ ids reader, o =>
    o.active = true →
      ∃ w ids' read buffer epoch entry, w₀ = some w ∧ ids = some ids' ∧ reader = some read ∧
        read ((request ids').bytes / 4).toNat = some buffer ∧
        ∃ chosen : List Int32, chosen.Pairwise (· < ·) ∧
          (∀ id, id ∈ chosen ↔ id ∈ buffer.toList ∧ 0 ≤ id) ∧
          o.rows.map Row.access = (w :: w₁.toList).zipIdx.flatMap fun p =>
            chosen.map (access epoch ids' p.1 (entry + UInt64.ofNat p.2))

/-- What a call does to the trace, as far as bounds and rows go. -/
structure Took (t : GpuTrace) (call : GpuCall) (t' : GpuTrace) (o : GpuObservation) : Prop where
  safe : t'.Safe
  budget_le : o.bytes + t'.budget.toNat ≤ t.budget.toNat
  entries_eq : t'.entries.toNat + o.admitted.toNat = t.entries.toNat
  bounded : ∀ request, o.request = some request → request.Bounded
  file : t'.csv.file = t.csv.file ++ o.rows.flatMap Row.line
  lines : ∀ row ∈ o.rows, ∃ w : Writer, row.line = w.line row.access
  error : t.csv.error = true → t'.csv.error = true ∧ o.rows = []
  rejected : o.rejected = true → t'.csv.error = true ∧ o.rows = []
  clean : t'.Clean → t.Clean ∧ Complete call o

theorem took_setScope {t : GpuTrace} (h : t.Safe) (scope : Scope) :
    t.Took (.setScope scope) (t.setScope scope) {} where
  safe := by
    refine ⟨⟨fun hactive => ?_, h.opened.within⟩, h.finished, h.dropped⟩
    have hvalid := of_decide_eq_true hactive
    have hphase : (t.setScope scope).csv.scope = scope := if_pos hactive
    rw [hphase]
    rintro hzero
    rw [hzero] at hvalid
    exact absurd hvalid.1 (by decide)
  budget_le := Nat.le_of_eq (Nat.zero_add _)
  entries_eq := rfl
  bounded := fun _ hnone => nomatch hnone
  file := (List.append_nil _).symm
  lines := fun _ hrow => nomatch hrow
  error := fun herror => ⟨herror, rfl⟩
  rejected := fun hrejected => absurd hrejected Bool.false_ne_true
  clean := fun hclean => ⟨hclean, trivial⟩

theorem incomplete_eq {w : Writer} (h : w.finished = false) :
    w.incomplete = { w with dropped := w.dropped + 1, error := true } :=
  if_neg (h ▸ Bool.false_ne_true)

variable {t : GpuTrace}

theorem took_idle (h : t.Safe) (w₀ w₁ ids : Option Tensor)
    (reader : Option IdsReader) : t.Took (.record w₀ w₁ ids reader) t {} where
  safe := h
  budget_le := Nat.le_of_eq (Nat.zero_add _)
  entries_eq := rfl
  bounded := fun _ hnone => nomatch hnone
  file := (List.append_nil _).symm
  lines := fun _ hrow => nomatch hrow
  error := fun herror => ⟨herror, rfl⟩
  rejected := fun hrejected => absurd hrejected Bool.false_ne_true
  clean := fun hclean => ⟨hclean, fun hactive => absurd hactive Bool.false_ne_true⟩

theorem took_refused {o : GpuObservation} {budget entries : UInt64} (h : t.Safe)
    (hspent : Spent t o budget entries) (hrows : o.rows = []) (call : GpuCall) :
    t.Took call { t with csv := t.csv.incomplete, budget, entries, stopped := true } o := by
  have hincomplete := incomplete_eq h.finished
  constructor
  case safe =>
    rw [hincomplete]
    exact ⟨⟨h.opened.phase, h.opened.within⟩, h.finished, .inr (.inl rfl)⟩
  case budget_le => exact hspent.budget_le
  case entries_eq => exact hspent.entries_eq
  case bounded => exact hspent.bounded
  case file =>
    rw [hincomplete, hrows]
    exact (List.append_nil _).symm
  case lines =>
    rw [hrows]
    exact fun _ hrow => nomatch hrow
  case error =>
    rw [hincomplete]
    exact fun _ => ⟨rfl, hrows⟩
  case rejected =>
    rw [hincomplete]
    exact fun _ => ⟨rfl, hrows⟩
  case clean =>
    rintro ⟨-, herror⟩
    rw [hincomplete] at herror
    exact absurd herror (Bool.noConfusion ·)

/-- No more records than the writer can count are dropped by a call. -/
theorem length_accesses_le (epoch entry : UInt64) (ids : Tensor) (selected : List Int32)
    (w : Tensor) (w₁ : Option Tensor) :
    (accesses epoch entry ids selected (w :: w₁.toList)).length ≤
      selected.length + selected.length := by
  have hone : ∀ p : Tensor × ℕ, ((selected.filter fun id => 0 ≤ id).map
      (access epoch ids p.1 (entry + UInt64.ofNat p.2))).length ≤ selected.length := by
    intro p
    rw [List.length_map]
    exact List.length_filter_le _ _
  cases w₁ with
  | none =>
    calc (accesses epoch entry ids selected [w]).length
        = _ := congrArg List.length (List.append_nil _)
      _ ≤ selected.length := hone (w, 0)
      _ ≤ selected.length + selected.length := Nat.le_add_right _ _
  | some w₁ =>
    have happend : accesses epoch entry ids selected [w, w₁] =
        (selected.filter fun id => 0 ≤ id).map (access epoch ids w (entry + UInt64.ofNat 0)) ++
        ((selected.filter fun id => 0 ≤ id).map (access epoch ids w₁ (entry + UInt64.ofNat 1)) ++
          []) := rfl
    rw [Option.toList_some, happend, List.append_nil, List.length_append]
    exact Nat.add_le_add (hone (w, 0)) (hone (w₁, 1))

theorem ofNat_ne_zero {k : ℕ} (hpos : 0 < k) (hlt : k < 2 ^ 64) : UInt64.ofNat k ≠ 0 := by
  intro hzero
  have hnat := congrArg UInt64.toNat hzero
  rw [UInt64.toNat_ofNat_of_lt' hlt] at hnat
  exact absurd hnat (Nat.ne_of_gt hpos)

theorem took_written {w₀ ids : Tensor} {w₁ : Option Tensor} {read : IdsReader}
    {o : GpuObservation} {budget entries entry : UInt64} {csv : Writer}
    {buffer : Vector Int32 ((request ids).bytes / 4).toNat} (h : t.Safe)
    (hspent : Spent t o budget entries) (hready : t.csv.Ready)
    (hroom : t.csv.written ≠ t.csv.limit) (hrejected : o.rejected = false)
    (hanswer : read ((request ids).bytes / 4).toNat = some buffer)
    (hfew : buffer.toList.length ≤ 16384)
    (hwrote : Wrote t.csv csv
      (accesses t.epoch t.entry ids (distinct buffer.toList) (w₀ :: w₁.toList)) o.rows) :
    t.Took (.record (some w₀) w₁ (some ids) (some read)) { t with csv, entry, budget, entries }
      o := by
  have hzero : t.csv.dropped = 0 := by
    rcases h.dropped with hzero | herror | hfull
    · exact hzero
    · exact absurd (hready.error.symm.trans herror) Bool.false_ne_true
    · exact absurd hfull hroom
  have hlength : (accesses t.epoch t.entry ids (distinct buffer.toList)
      (w₀ :: w₁.toList)).length ≤ 16384 + 16384 :=
    have hdistinct := Nat.le_trans (length_distinct_le buffer.toList) hfew
    Nat.le_trans (length_accesses_le _ _ _ _ _ _) (Nat.add_le_add hdistinct hdistinct)
  constructor
  case safe =>
    constructor
    case opened =>
      exact ⟨fun hactive => hwrote.kept.scope ▸ h.opened.phase hactive, hwrote.ready.within⟩
    case finished => exact hwrote.ready.finished
    case dropped =>
      rcases hwrote.outcome with ⟨hdropped, -⟩ | ⟨k, -, -, -, hfull⟩
      · exact .inl (hdropped.trans hzero)
      · exact .inr (.inr hfull)
  case budget_le => exact hspent.budget_le
  case entries_eq => exact hspent.entries_eq
  case bounded => exact hspent.bounded
  case file => exact hwrote.file
  case lines => exact hwrote.lines
  case error => exact fun herror => absurd (hready.error.symm.trans herror) Bool.false_ne_true
  case rejected =>
    exact fun hrejected' => absurd (hrejected.symm.trans hrejected') Bool.false_ne_true
  case clean =>
    rintro ⟨hdropped', -⟩
    refine ⟨⟨hzero, hready.error⟩, fun _ => ?_⟩
    rcases hwrote.outcome with ⟨-, haccess⟩ | ⟨k, hpos, hk, hdropped, -⟩
    · refine ⟨w₀, ids, read, buffer, t.epoch, t.entry, rfl, rfl, rfl, hanswer,
        (distinct buffer.toList).filter fun id => 0 ≤ id, ?_, fun id => ?_, haccess⟩
      · exact (pairwise_distinct _).filter _
      · rw [List.mem_filter, mem_distinct, decide_eq_true_iff]
    · -- what was dropped does not come back to zero
      rw [hzero, UInt64.zero_add] at hdropped
      have hlt : k < 2 ^ 64 := Nat.lt_of_le_of_lt (Nat.le_trans hk hlength) (by decide)
      exact absurd (hdropped.symm.trans hdropped') (ofNat_ne_zero hpos hlt)

theorem took_record (traits : Int32 → TypeTraits) (h : t.Safe) (w₀ w₁ ids : Option Tensor)
    (reader : Option IdsReader) :
    t.Took (.record w₀ w₁ ids reader) (t.record traits w₀ w₁ ids reader).1
      (t.record traits w₀ w₁ ids reader).2 := by
  have hrecorded := recorded traits h.opened w₀ w₁ ids reader
  generalize t.record traits w₀ w₁ ids reader = p at hrecorded ⊢
  obtain ⟨t', o⟩ := p
  cases hrecorded with
  | idle _ => exact took_idle h w₀ w₁ ids reader
  | refused _ hspent _ hrows => exact took_refused h hspent hrows _
  | written _ hspent hready hroom hrejected hanswer hfew hwrote =>
    exact took_written h hspent hready hroom hrejected hanswer hfew hwrote

theorem took_call (traits : Int32 → TypeTraits) (h : t.Safe) (call : GpuCall) :
    t.Took call (t.call traits call).1 (t.call traits call).2 := by
  cases call with
  | setScope scope => exact took_setScope h scope
  | record w₀ w₁ ids reader => exact took_record traits h w₀ w₁ ids reader

/-! ## Runs -/

/-- What a run does to the trace. -/
structure Ran (t t' : GpuTrace) (log : List (GpuCall × GpuObservation)) : Prop where
  safe : t'.Safe
  budget_le : (log.map fun p => p.2.bytes).sum + t'.budget.toNat ≤ t.budget.toNat
  entries_eq : t'.entries.toNat + (log.map fun p => p.2.admitted.toNat).sum = t.entries.toNat
  bounded : ∀ p ∈ log, ∀ request, p.2.request = some request → request.Bounded
  file : t'.csv.file = t.csv.file ++ (log.flatMap fun p => p.2.rows).flatMap Row.line
  lines : ∀ p ∈ log, ∀ row ∈ p.2.rows, ∃ w : Writer, row.line = w.line row.access
  error : t.csv.error = true → ∀ p ∈ log, p.2.rows = []
  rejected : ∀ p ∈ log, p.2.rejected = true → p.2.rows = []
  closed : log.Pairwise fun p p' => p.2.rejected = true → p'.2.rows = []
  clean : t'.Clean → t.Clean ∧ ∀ p ∈ log, Complete p.1 p.2

theorem Ran.refl (h : t.Safe) : t.Ran t [] where
  safe := h
  budget_le := Nat.le_of_eq (Nat.zero_add _)
  entries_eq := rfl
  bounded := fun _ hp => nomatch hp
  file := (List.append_nil _).symm
  lines := fun _ hp => nomatch hp
  error := fun _ _ hp => nomatch hp
  rejected := fun _ hp => nomatch hp
  closed := .nil
  clean := fun hclean => ⟨hclean, fun _ hp => nomatch hp⟩

theorem Ran.cons {t' t'' : GpuTrace} {call : GpuCall} {o : GpuObservation}
    {log : List (GpuCall × GpuObservation)} (h : t.Took call t' o) (h' : t'.Ran t'' log) :
    t.Ran t'' ((call, o) :: log) where
  safe := h'.safe
  budget_le := by
    rw [List.map_cons, List.sum_cons, Nat.add_assoc]
    exact Nat.le_trans (Nat.add_le_add_left h'.budget_le _) h.budget_le
  entries_eq := by
    rw [List.map_cons, List.sum_cons, ← h.entries_eq, ← h'.entries_eq, Nat.add_left_comm,
      Nat.add_comm]
  bounded := List.forall_mem_cons.mpr ⟨h.bounded, h'.bounded⟩
  file := by
    rw [h'.file, h.file, List.flatMap_cons, List.flatMap_append, List.append_assoc]
  lines := List.forall_mem_cons.mpr ⟨h.lines, h'.lines⟩
  error := fun herror =>
    List.forall_mem_cons.mpr ⟨(h.error herror).2, h'.error (h.error herror).1⟩
  rejected := List.forall_mem_cons.mpr ⟨fun hrejected => (h.rejected hrejected).2, h'.rejected⟩
  closed := .cons (fun p hp hrejected => h'.error (h.rejected hrejected).1 p hp) h'.closed
  clean := fun hclean => by
    obtain ⟨hmid, hlog⟩ := h'.clean hclean
    obtain ⟨hfirst, hcall⟩ := h.clean hmid
    exact ⟨hfirst, List.forall_mem_cons.mpr ⟨hcall, hlog⟩⟩

theorem ran_run (traits : Int32 → TypeTraits) (h : t.Safe) (calls : List GpuCall) :
    t.Ran (t.run traits calls).1 (t.run traits calls).2 := by
  induction calls generalizing t with
  | nil => exact .refl h
  | cons call calls ih =>
    have hcall := took_call traits h call
    exact .cons hcall (ih hcall.safe)

end GpuTrace

end ExpertPin.Trace
