import ExpertPin.Trace.Gpu

/-!
# What a call of the GPU trace does

A call of `record` either finds no scope active, or rejects the operation, or writes the
rows of its weights as far as the writer takes them (`recorded`).  What is asked of the
reader is bounded in each case.
-/

namespace ExpertPin.Trace

open Ggml (TypeTraits)

/-! ## The ids of a selection -/

theorem unique_sublist (ids : List Int32) : (unique ids).Sublist ids := by
  induction ids using unique.induct with
  | case1 => exact .refl _
  | case2 id => exact .refl _
  | case3 id ids ih =>
    rw [unique, if_pos rfl]
    exact ih.cons id
  | case4 id next ids hne ih =>
    rw [unique, if_neg hne]
    exact ih.cons_cons id

theorem mem_unique (ids : List Int32) (a : Int32) : a ∈ unique ids ↔ a ∈ ids := by
  induction ids using unique.induct with
  | case1 => rfl
  | case2 id => rfl
  | case3 id ids ih =>
    rw [unique, if_pos rfl, ih, List.mem_cons (a := a) (l := id :: ids)]
    exact ⟨.inr, fun h => h.elim (fun heq => heq ▸ List.mem_cons_self) fun h => h⟩
  | case4 id next ids hne ih =>
      rw [unique, if_neg hne, List.mem_cons, ih, List.mem_cons (b := id)]

theorem pairwise_unique {ids : List Int32} (h : ids.Pairwise (· ≤ ·)) :
    (unique ids).Pairwise (· < ·) := by
  induction ids using unique.induct with
  | case1 => exact .nil
  | case2 id => exact List.pairwise_singleton _ _
  | case3 id ids ih =>
    rw [unique, if_pos rfl]
    exact ih h.of_cons
  | case4 id next ids hne ih =>
    rw [unique, if_neg hne]
    refine .cons (fun a ha => ?_) (ih h.of_cons)
    have hmem : a ∈ next :: ids := (mem_unique _ a).mp ha
    have hnext : id < next :=
      Int32.lt_of_le_of_ne (List.rel_of_pairwise_cons h List.mem_cons_self) hne
    rcases List.mem_cons.mp hmem with rfl | hids
    · exact hnext
    · exact Int32.lt_of_lt_of_le hnext (List.rel_of_pairwise_cons h.of_cons hids)

theorem mem_distinct (ids : List Int32) (a : Int32) : a ∈ distinct ids ↔ a ∈ ids := by
  rw [distinct, mem_unique, List.mem_mergeSort]

theorem length_distinct_le (ids : List Int32) : (distinct ids).length ≤ ids.length := by
  calc (distinct ids).length
      ≤ (ids.mergeSort fun id id' => id ≤ id').length := (unique_sublist _).length_le
    _ = ids.length := (List.mergeSort_perm ids _).length_eq

theorem pairwise_distinct (ids : List Int32) : (distinct ids).Pairwise (· < ·) := by
  apply pairwise_unique
  refine (List.pairwise_mergeSort ?_ ?_ ids).imp fun h => of_decide_eq_true h
  · intro a b c hab hbc
    exact decide_eq_true (Int32.le_trans (of_decide_eq_true hab) (of_decide_eq_true hbc))
  · intro a b
    rw [Bool.or_eq_true, decide_eq_true_iff, decide_eq_true_iff]
    exact Int32.le_total a b

/-! ## Rows -/

/-- What the writer does between two scopes. -/
structure Writer.Kept (w w' : Writer) : Prop where
  limit : w'.limit = w.limit
  requestOnly : w'.requestOnly = w.requestOnly
  scope : w'.scope = w.scope

theorem Writer.Kept.trans {w w' w'' : Writer} (h : w.Kept w') (h' : w'.Kept w'') : w.Kept w'' where
  limit := h'.limit.trans h.limit
  requestOnly := h'.requestOnly.trans h.requestOnly
  scope := h'.scope.trans h.scope

/-- All of some records are written, or as many as there is room for. -/
structure Wrote (w w' : Writer) (as : List Access) (rows : List Row) : Prop where
  kept : w.Kept w'
  ready : w'.Ready
  le : w.written ≤ w'.written
  file : w'.file = w.file ++ rows.flatMap Row.line
  lines : ∀ row ∈ rows, ∃ v : Writer, row.line = v.line row.access
  outcome : (w'.dropped = w.dropped ∧ rows.map Row.access = as) ∨
    ∃ k, 0 < k ∧ k ≤ as.length ∧ w'.dropped = w.dropped + UInt64.ofNat k ∧ w'.written = w'.limit

namespace Wrote

variable {w w' w'' : Writer} {as as' : List Access} {rows rows' : List Row}

theorem refl (h : w.Ready) : Wrote w w [] [] where
  kept := ⟨rfl, rfl, rfl⟩
  ready := h
  le := UInt64.le_refl _
  file := (List.append_nil _).symm
  lines := fun _ hrow => nomatch hrow
  outcome := .inl ⟨rfl, rfl⟩

theorem trans (h : Wrote w w' as rows) (h' : Wrote w' w'' as' rows') :
    Wrote w w'' (as ++ as') (rows ++ rows') where
  kept := h.kept.trans h'.kept
  ready := h'.ready
  le := UInt64.le_trans h.le h'.le
  file := by rw [h'.file, h.file, List.flatMap_append, List.append_assoc]
  lines := fun row hrow => (List.mem_append.mp hrow).elim (h.lines row) (h'.lines row)
  outcome := by
    rcases h.outcome with ⟨hdropped, haccess⟩ | ⟨k, hpos, hk, hdropped, hfull⟩
    · rcases h'.outcome with ⟨hdropped', haccess'⟩ | ⟨k', hpos', hk', hdropped', hfull'⟩
      · exact .inl ⟨hdropped'.trans hdropped, by rw [List.map_append, haccess, haccess']⟩
      · refine .inr ⟨k', hpos', ?_, by rw [hdropped', hdropped], hfull'⟩
        rw [List.length_append]
        exact Nat.le_add_left_of_le hk'
    · -- the writer is full from here on
      have hfull' : w''.written = w''.limit := by
        refine UInt64.le_antisymm h'.ready.within ?_
        rw [h'.kept.limit, ← hfull]
        exact h'.le
      rcases h'.outcome with ⟨hdropped', -⟩ | ⟨k', hpos', hk', hdropped', -⟩
      · refine .inr ⟨k, hpos, ?_, hdropped'.trans hdropped, hfull'⟩
        rw [List.length_append]
        exact Nat.le_add_right_of_le hk
      · refine .inr ⟨k + k', Nat.add_pos_left hpos k', ?_, ?_, hfull'⟩
        · rw [List.length_append]
          exact Nat.add_le_add hk hk'
        · rw [hdropped', hdropped, UInt64.ofNat_add, UInt64.add_assoc]

end Wrote

namespace Writer

variable {w : Writer}

theorem Ready.accepts_eq (h : w.Ready) : w.accepts = decide (w.written < w.limit) := by
  have hphase : ¬(w.requestOnly = true ∧ w.scope.phase = 0) := h.phase
  simp [accepts, h.finished, h.error, hphase]

theorem wrote_record (h : w.Ready) (a : Access) :
    Wrote w (w.record a) [a] (if w.accepts then [⟨a, w.line a⟩] else []) := by
  rw [h.accepts_eq]
  by_cases hroom : w.written < w.limit
  · have hnext : (w.written + 1).toNat = w.written.toNat + 1 := toNat_add_one hroom
    rw [if_pos (decide_eq_true hroom), h.record_eq hroom a]
    constructor
    case kept => exact ⟨rfl, rfl, rfl⟩
    case ready =>
      refine ⟨h.finished, h.error, h.phase, UInt64.le_iff_toNat_le.mpr ?_⟩
      exact Nat.le_trans (Nat.le_of_eq hnext) hroom
    case le =>
      exact UInt64.le_iff_toNat_le.mpr (Nat.le_trans (Nat.le_succ _) (Nat.le_of_eq hnext.symm))
    case file => simp
    case lines =>
      intro row hrow
      exact ⟨w, by rw [List.mem_singleton.mp hrow]⟩
    case outcome => exact .inl ⟨rfl, rfl⟩
  · have hfull : ¬decide (w.written < w.limit) = true := by simpa using hroom
    rw [if_neg hfull, h.record_eq_of_full hroom a]
    constructor
    case kept => exact ⟨rfl, rfl, rfl⟩
    case ready => exact ⟨h.finished, h.error, h.phase, h.within⟩
    case le => exact UInt64.le_refl _
    case file => exact (List.append_nil _).symm
    case lines => exact fun _ hrow => nomatch hrow
    case outcome =>
      exact .inr ⟨1, Nat.one_pos, Nat.le_refl 1, rfl,
        UInt64.le_antisymm h.within (UInt64.not_lt.mp hroom)⟩

theorem wrote_recordAll (h : w.Ready) (as : List Access) :
    Wrote w (w.recordAll as).1 as (w.recordAll as).2 := by
  induction as generalizing w with
  | nil => exact .refl h
  | cons a as ih =>
    have hone := wrote_record h a
    have hall := hone.trans (ih hone.ready)
    have hrows : (w.recordAll (a :: as)).2 =
        (if w.accepts then [⟨a, w.line a⟩] else []) ++ ((w.record a).recordAll as).2 := by
      rw [recordAll]
      cases w.accepts with
      | true => rfl
      | false => rfl
    rw [hrows]
    exact hall

end Writer

/-! ## Requests -/

/-- A request is small, and the addresses of its rows do not overflow. -/
structure IdsRequest.Bounded (request : IdsRequest) : Prop where
  bytes_le : request.row.toNat * request.rows.toNat ≤ maxIdsBytes.toNat
  stride_lt : (request.rows.toNat - 1) * request.stride.toNat + request.row.toNat < 2 ^ 64

theorem IdsRequest.Bounded.toNat_bytes {request : IdsRequest} (h : request.Bounded) :
    request.bytes.toNat = request.row.toNat * request.rows.toNat := by
  rw [bytes, UInt64.toNat_mul]
  exact Nat.mod_eq_of_lt (Nat.lt_of_le_of_lt h.bytes_le (by decide))

/-- The bytes that a call asks for. -/
def GpuObservation.bytes (o : GpuObservation) : ℕ :=
  match o.request with
  | none => 0
  | some request => request.row.toNat * request.rows.toNat

namespace GpuTrace

theorem pos_toUInt64 {i : Int64} (h : 0 < i) : 0 < i.toUInt64.toNat := by
  refine Nat.pos_of_ne_zero fun hzero => ?_
  have hi : i = 0 := congrArg UInt64.toInt64 (UInt64.toNat_inj.mp hzero)
  rw [hi] at h
  exact absurd h (by decide)

/-- What the two checks of the layout of `ids` give. -/
theorem bounded_request {ids : Tensor} (hvalid : validIds ids = true)
    (hbounded : boundedIds ids = true) : (request ids).Bounded := by
  have hids := of_decide_eq_true hvalid
  obtain ⟨-, -, hne₀, hne₁, -, -, -, hcolumns⟩ := hids
  obtain ⟨hrows, -, hstride⟩ := of_decide_eq_true hbounded
  have hcolumns' : (ids.ne 0).toUInt64.toNat ≤ 16384 := hcolumns
  have hrow : ((ids.ne 0).toUInt64 * 4).toNat = (ids.ne 0).toUInt64.toNat * 4 := by
    rw [UInt64.toNat_mul]
    exact Nat.mod_eq_of_lt (Nat.lt_of_le_of_lt (Nat.mul_le_mul_right 4 hcolumns') (by decide))
  have hpos := pos_toUInt64 hne₀
  have hpos₁ := pos_toUInt64 hne₁
  constructor
  case bytes_le =>
    have hdiv : (ids.ne 1).toUInt64.toNat ≤ 65536 / ((ids.ne 0).toUInt64 * 4).toNat := by
      have hle := UInt64.le_iff_toNat_le.mp hrows
      rwa [UInt64.toNat_div] at hle
    calc ((ids.ne 0).toUInt64 * 4).toNat * (ids.ne 1).toUInt64.toNat
        ≤ ((ids.ne 0).toUInt64 * 4).toNat * (65536 / ((ids.ne 0).toUInt64 * 4).toNat) :=
          Nat.mul_le_mul_left _ hdiv
      _ ≤ 65536 := Nat.mul_div_le _ _
  case stride_lt =>
    show ((ids.ne 1).toUInt64.toNat - 1) * (ids.nb 1).toNat + ((ids.ne 0).toUInt64 * 4).toNat <
      2 ^ 64
    have hsmall : ((ids.ne 0).toUInt64 * 4).toNat < 2 ^ 64 - 1 := by
      rw [hrow]
      exact Nat.lt_of_le_of_lt (Nat.mul_le_mul_right 4 hcolumns') (by decide)
    rcases Nat.eq_or_lt_of_le hpos₁ with hone | hmany
    · rw [← hone, Nat.sub_self, Nat.zero_mul, Nat.zero_add]
      exact Nat.lt_trans hsmall (by decide)
    · have hone : (1 : UInt64) ≤ (ids.ne 1).toUInt64 := UInt64.le_iff_toNat_le.mpr hpos₁
      have hpred : (ids.ne 1 - 1).toUInt64.toNat = (ids.ne 1).toUInt64.toNat - 1 := by
        rw [Int64.toUInt64_sub]
        exact UInt64.toNat_sub_of_le _ _ hone
      have hmax : ((-1 : UInt64) - (ids.ne 0).toUInt64 * 4).toNat =
          2 ^ 64 - 1 - ((ids.ne 0).toUInt64 * 4).toNat :=
        UInt64.toNat_sub_of_le _ _ (UInt64.le_iff_toNat_le.mpr (Nat.le_of_lt hsmall))
      have hle : (ids.nb 1).toNat ≤
          (2 ^ 64 - 1 - ((ids.ne 0).toUInt64 * 4).toNat) / ((ids.ne 1).toUInt64.toNat - 1) := by
        have hnot := not_and.mp hstride (UInt64.lt_iff_toNat_lt.mpr hmany)
        have hle := UInt64.le_iff_toNat_le.mp (UInt64.not_lt.mp hnot)
        rwa [UInt64.toNat_div, hmax, hpred] at hle
      have hmul : ((ids.ne 1).toUInt64.toNat - 1) * (ids.nb 1).toNat ≤
          2 ^ 64 - 1 - ((ids.ne 0).toUInt64 * 4).toNat :=
        Nat.le_trans (Nat.mul_le_mul_left _ hle) (Nat.mul_div_le _ _)
      calc ((ids.ne 1).toUInt64.toNat - 1) * (ids.nb 1).toNat + ((ids.ne 0).toUInt64 * 4).toNat
          ≤ 2 ^ 64 - 1 - ((ids.ne 0).toUInt64 * 4).toNat + ((ids.ne 0).toUInt64 * 4).toNat :=
            Nat.add_le_add_right hmul _
        _ = 2 ^ 64 - 1 := Nat.sub_add_cancel (Nat.le_of_lt hsmall)
        _ < 2 ^ 64 := by decide

/-! ## Operations -/

/-- The records of an operation: each of the ids for each of the weights. -/
def accesses (epoch entry : UInt64) (ids : Tensor) (selected : List Int32) (weights : List Tensor) :
    List Access :=
  weights.zipIdx.flatMap fun p =>
    (selected.filter fun id => 0 ≤ id).map (access epoch ids p.1 (entry + UInt64.ofNat p.2))

/-- Only the writer and the next entry change, and the entries are those that are left. -/
theorem wrote_writeWeights_from (t : GpuTrace) (ids : Tensor) (selected : List Int32)
    (ws : List Tensor) (entry : UInt64) (n : ℕ) (hentry : t.entry = entry + UInt64.ofNat n)
    (h : t.csv.Ready) :
    ∃ w e, (t.writeWeights ids selected ws).1 = { t with csv := w, entry := e } ∧
      Wrote t.csv w ((ws.zipIdx n).flatMap fun p => (selected.filter fun id => 0 ≤ id).map
        (access t.epoch ids p.1 (entry + UInt64.ofNat p.2)))
          (t.writeWeights ids selected ws).2 := by
  induction ws generalizing t n with
  | nil => exact ⟨t.csv, t.entry, rfl, .refl h⟩
  | cons w ws ih =>
    have hone := Writer.wrote_recordAll h
      ((selected.filter fun id => 0 ≤ id).map (access t.epoch ids w t.entry))
    have hnext : t.entry + 1 = entry + UInt64.ofNat (n + 1) := by
      rw [hentry, UInt64.ofNat_add, UInt64.add_assoc]
      rfl
    obtain ⟨w', e, heq, hrest⟩ := ih { t with
        csv := (t.csv.recordAll
          ((selected.filter fun id => 0 ≤ id).map (access t.epoch ids w t.entry))).1
        entry := t.entry + 1 } (n + 1) hnext hone.ready
    refine ⟨w', e, heq, ?_⟩
    rw [List.zipIdx_cons, List.flatMap_cons, ← hentry]
    exact hone.trans hrest

theorem wrote_writeWeights (t : GpuTrace) (ids : Tensor) (selected : List Int32)
    (ws : List Tensor) (h : t.csv.Ready) :
    ∃ w e, (t.writeWeights ids selected ws).1 = { t with csv := w, entry := e } ∧
      Wrote t.csv w (accesses t.epoch t.entry ids selected ws) (t.writeWeights ids selected ws).2 :=
  wrote_writeWeights_from t ids selected ws t.entry 0 (UInt64.add_zero _).symm h

/-- What a call takes from the budget and from the entries. -/
structure Spent (t : GpuTrace) (o : GpuObservation) (budget entries : UInt64) : Prop where
  active : o.active = true
  budget_le : o.bytes + budget.toNat ≤ t.budget.toNat
  entries_eq : entries.toNat + o.admitted.toNat = t.entries.toNat
  bounded : ∀ request, o.request = some request → request.Bounded

/-- What a call of `record` does. -/
inductive Recorded (t : GpuTrace) (w₁ : Option Tensor) :
    Option Tensor → Option Tensor → Option IdsReader → GpuTrace → GpuObservation → Prop
  | idle {w₀ ids : Option Tensor} {reader : Option IdsReader} (inactive : t.active = false) :
      Recorded t w₁ w₀ ids reader t {}
  | refused {w₀ ids : Option Tensor} {reader : Option IdsReader} {o : GpuObservation}
      {budget entries : UInt64} (active : t.active = true) (spent : Spent t o budget entries)
      (rejected : o.rejected = true) (rows : o.rows = []) :
      Recorded t w₁ w₀ ids reader
        { t with csv := t.csv.incomplete, budget, entries, stopped := true } o
  | written {w₀ ids : Tensor} {read : IdsReader} {o : GpuObservation}
      {budget entries entry : UInt64} {csv : Writer}
      {buffer : Vector Int32 ((request ids).bytes / 4).toNat} (active : t.active = true)
      (spent : Spent t o budget entries) (ready : t.csv.Ready)
      (room : t.csv.written ≠ t.csv.limit) (rejected : o.rejected = false)
      (answer : read ((request ids).bytes / 4).toNat = some buffer)
      (few : buffer.toList.length ≤ 16384)
      (wrote : Wrote t.csv csv
        (accesses t.epoch t.entry ids (distinct buffer.toList) (w₀ :: w₁.toList)) o.rows) :
      Recorded t w₁ (some w₀) (some ids) (some read) { t with csv, entry, budget, entries } o

variable {t : GpuTrace}

/-- The writer takes records while a scope is active. -/
structure Open (t : GpuTrace) : Prop where
  phase : t.active = true → t.csv.scope.phase ≠ 0
  within : t.csv.written ≤ t.csv.limit

theorem Open.ready (h : t.Open) (hactive : t.active = true) (hremaining : t.csv.remaining ≠ 0) :
    t.csv.Ready := by
  have hnot : ¬(t.csv.error = true ∨ t.csv.finished = true) := fun hor =>
    hremaining (by rw [Writer.remaining, if_pos hor])
  constructor
  case finished => exact Bool.eq_false_iff.mpr fun hfinished => hnot (.inr hfinished)
  case error => exact Bool.eq_false_iff.mpr fun herror => hnot (.inl herror)
  case phase => exact fun hphase => h.phase hactive hphase.2
  case within => exact h.within

theorem Open.room (h : t.Open) (hactive : t.active = true) (hremaining : t.csv.remaining ≠ 0) :
    t.csv.written ≠ t.csv.limit := by
  have hready := h.ready hactive hremaining
  intro hfull
  refine hremaining ?_
  rw [Writer.remaining, hready.finished, hready.error, hfull, UInt64.sub_self]
  rfl

theorem toNat_sub_one {n : UInt64} (h : n ≠ 0) : (n - 1).toNat + 1 = n.toNat := by
  have hpos : 1 ≤ n.toNat := Nat.one_le_iff_ne_zero.mpr fun hzero => h (UInt64.toNat_inj.mp hzero)
  have hle : (1 : UInt64) ≤ n := UInt64.le_iff_toNat_le.mpr hpos
  rw [UInt64.toNat_sub_of_le _ _ hle]
  exact Nat.sub_add_cancel hpos

theorem recorded_readIds {ids w₀ : Tensor} {w₁ : Option Tensor} {budget entries : UInt64}
    (h : t.Open) (hactive : t.active = true) (hremaining : t.csv.remaining ≠ 0)
    (hvalid : validIds ids = true) (hbounded : boundedIds ids = true)
    (hbudget : (request ids).bytes ≤ budget) (hle : budget = t.budget)
    (hentries : entries.toNat + 1 = t.entries.toNat) (reader : Option IdsReader) :
    let p := { t with budget := budget - (request ids).bytes, entries }.readIds
      (w₀ :: w₁.toList) ids reader
    Recorded t w₁ (some w₀) (some ids) reader p.1 p.2 := by
  have hrequest := bounded_request hvalid hbounded
  have hpaid : (request ids).row.toNat * (request ids).rows.toNat +
      (budget - (request ids).bytes).toNat = t.budget.toNat := by
    rw [UInt64.toNat_sub_of_le _ _ hbudget, ← hrequest.toNat_bytes, ← hle]
    exact Nat.add_sub_cancel' (UInt64.le_iff_toNat_le.mp hbudget)
  have hasked : ∀ o : GpuObservation, o.active = true → o.admitted = true →
      o.request = some (request ids) →
      Spent t o (budget - (request ids).bytes) entries := by
    intro o hoactive hoadmitted horequest
    constructor
    case active => exact hoactive
    case budget_le =>
      rw [GpuObservation.bytes, horequest]
      exact Nat.le_of_eq hpaid
    case entries_eq => rw [hoadmitted]; exact hentries
    case bounded =>
      intro request hrequest'
      rw [horequest, Option.some.injEq] at hrequest'
      exact hrequest' ▸ hrequest
  unfold readIds
  dsimp only
  cases reader with
  | none =>
    refine .refused hactive ⟨rfl, ?_, hentries, fun _ hnone => nomatch hnone⟩ rfl rfl
    calc 0 + (budget - (request ids).bytes).toNat
        ≤ (request ids).row.toNat * (request ids).rows.toNat +
            (budget - (request ids).bytes).toNat := Nat.add_le_add_right (Nat.zero_le _) _
      _ = t.budget.toNat := hpaid
  | some read =>
    cases hread : read ((request ids).bytes / 4).toNat with
    | none =>
      simp only [hread]
      exact .refused hactive (hasked _ rfl rfl rfl) rfl rfl
    | some buffer =>
      simp only [hread]
      by_cases hany : buffer.toList.any (invalidId (w₀ :: w₁.toList)) = true
      · rw [if_pos hany]
        exact .refused hactive (hasked _ rfl rfl rfl) rfl rfl
      · rw [if_neg hany]
        obtain ⟨w, e, heq, hwrote⟩ := wrote_writeWeights
          { t with budget := budget - (request ids).bytes, entries } ids
          (distinct buffer.toList) (w₀ :: w₁.toList) (h.ready hactive hremaining)
        have hfew : buffer.toList.length ≤ 16384 := by
          rw [Vector.length_toList, UInt64.toNat_div]
          calc (request ids).bytes.toNat / 4
              ≤ 65536 / 4 := Nat.div_le_div_right (hrequest.toNat_bytes ▸ hrequest.bytes_le)
            _ = 16384 := rfl
        rw [heq]
        exact .written hactive (hasked _ rfl rfl rfl) (h.ready hactive hremaining)
          (h.room hactive hremaining) rfl hread hfew hwrote

theorem recorded (traits : Int32 → TypeTraits) (h : t.Open) (w₀ w₁ ids : Option Tensor)
    (reader : Option IdsReader) :
    Recorded t w₁ w₀ ids reader (t.record traits w₀ w₁ ids reader).1
      (t.record traits w₀ w₁ ids reader).2 := by
  unfold record
  by_cases hactive : t.active = true
  · have hspent : Spent t { active := true, rejected := true } t.budget t.entries :=
      ⟨rfl, Nat.le_of_eq (Nat.zero_add _), rfl, fun _ hnone => nomatch hnone⟩
    rw [if_neg (not_not_intro hactive)]
    by_cases hstopped : t.stopped = true ∨ t.csv.remaining = 0
    · rw [if_pos hstopped]
      exact .refused hactive hspent rfl rfl
    rw [if_neg hstopped]
    by_cases hnone : t.entries = 0
    · rw [if_pos hnone]
      exact .refused hactive hspent rfl rfl
    rw [if_neg hnone]
    have hremaining : t.csv.remaining ≠ 0 := fun hremaining => hstopped (.inr hremaining)
    have hentries := toNat_sub_one hnone
    have hrefuse : Spent t { active := true, admitted := true, rejected := true } t.budget
        (t.entries - 1) :=
      ⟨rfl, Nat.le_of_eq (Nat.zero_add _), hentries, fun _ hnone => nomatch hnone⟩
    cases ids with
    | none => exact .refused hactive hrefuse rfl rfl
    | some ids =>
      cases w₀ with
      | none => exact .refused hactive hrefuse rfl rfl
      | some w₀ =>
        dsimp only
        by_cases hvalid : validIds ids = true
        case neg =>
          rw [if_pos hvalid]
          exact .refused hactive hrefuse rfl rfl
        by_cases hbounded : boundedIds ids = true
        case neg =>
          rw [if_neg (not_not_intro hvalid), if_pos hbounded]
          exact .refused hactive hrefuse rfl rfl
        rw [if_neg (not_not_intro hvalid), if_neg (not_not_intro hbounded)]
        by_cases hcost : t.budget < (ids.ne 0).toUInt64 * 4 * (ids.ne 1).toUInt64 ∨
            ¬(w₀ :: w₁.toList).all (Tensor.validWeight traits) = true
        · rw [if_pos hcost]
          exact .refused hactive hrefuse rfl rfl
        · rw [if_neg hcost]
          have hbudget := UInt64.not_lt.mp (not_or.mp hcost).1
          exact recorded_readIds h hactive hremaining hvalid hbounded hbudget rfl hentries reader
  · rw [if_pos hactive]
    exact .idle (Bool.eq_false_iff.mpr hactive)

end GpuTrace

end ExpertPin.Trace
