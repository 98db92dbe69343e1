import ExpertPin.Cache.Invariants

/-!
# Event totals of a trace with fixed sizes

When sizes are fixed, the exact event totals of a run depend on the capacity
and the trace only (`totals`).  This file relates them to the trace: the first
access of a key always misses, so there are at least as many misses as distinct
keys; as long as nothing is evicted or bypassed, there are exactly that many and
every key stays; and once something is evicted, more bytes were inserted than
the capacity.
-/

namespace ExpertPin.Cache

open Budget
open List

/-- What the accesses of a trace report at a capacity. -/
def reports (capacity : ℕ) (size : CacheKey → ℕ) (trace : List CacheKey) : List CacheAccess :=
  ((Residency.empty capacity).outcomes (sized size trace)).map Outcome.report

/-- The exact totals of a trace at a capacity. -/
def totals (capacity : ℕ) (size : CacheKey → ℕ) (trace : List CacheKey) : Totals :=
  .of (reports capacity size trace)

variable {capacity : ℕ} {size : CacheKey → ℕ}

/-- What the next access to a key reports. -/
def nextReport (capacity : ℕ) (size : CacheKey → ℕ) (trace : List CacheKey) (k : CacheKey) :
    CacheAccess :=
  (((Residency.empty capacity).accessAll (sized size trace)).outcome k (size k)).report

theorem totals_append_singleton (capacity : ℕ) (size : CacheKey → ℕ) (trace : List CacheKey)
    (k : CacheKey) : totals capacity size (trace ++ [k]) =
      (totals capacity size trace).add (nextReport capacity size trace k) := by
  rw [totals, reports, sized_append, Residency.outcomes_append, map_append]
  exact Totals.of_append_singleton _ _

theorem nextReport_hit_iff {trace : List CacheKey} {k : CacheKey} :
    (nextReport capacity size trace k).hit = true ↔ k ∈ pureLru capacity size trace :=
  (Outcome.report_hit_iff _).trans (Residency.outcome_accessAll_eq_hit_iff _ _ _ _)

@[simp] theorem length_reports (trace : List CacheKey) :
    (reports capacity size trace).length = trace.length := by
  rw [reports, length_map, Residency.length_outcomes, length_sized]

/-- Each report is decided by the accesses before it. -/
theorem reports_getElem? (before : List CacheKey) (k : CacheKey) (after : List CacheKey) :
    (reports capacity size (before ++ k :: after))[before.length]? =
      some (nextReport capacity size before k) := by
  have hget := Residency.outcomes_getElem? (.empty capacity) (sized size before) (k, size k)
    (sized size after)
  rw [length_sized] at hget
  rw [reports, getElem?_map, sized_append, sized_cons]
  exact congrArg (Option.map Outcome.report) hget

theorem requests_totals (trace : List CacheKey) :
    (totals capacity size trace).requests = trace.length := by
  induction trace using reverseRecOn with
  | nil => rfl
  | append_singleton trace k ih =>
    rw [totals_append_singleton, Totals.requests_add, ih, length_append]
    rfl

/-- One more access misses unless pure LRU holds its key. -/
theorem misses_totals_append (trace : List CacheKey) (k : CacheKey) :
    (totals capacity size (trace ++ [k])).misses = (totals capacity size trace).misses +
      if k ∈ pureLru capacity size trace then 0 else 1 := by
  rw [totals_append_singleton, Totals.misses_add]
  by_cases h : k ∈ pureLru capacity size trace
  · rw [if_pos h, if_pos (nextReport_hit_iff.mpr h)]
  · rw [if_neg h, if_neg (mt nextReport_hit_iff.mp h)]

theorem length_dedup_append (trace : List CacheKey) (k : CacheKey) :
    (trace ++ [k]).dedup.length = trace.dedup.length + if k ∈ trace then 0 else 1 := by
  rw [dedup_append_singleton, length_append, length_singleton]
  by_cases h : k ∈ trace
  · have := length_erase_add_one (mem_dedup.mpr h)
    rw [if_pos h]
    omega
  · rw [if_neg h, erase_of_not_mem (mt mem_dedup.mp h)]

/-- Every distinct key misses at least once, whatever the capacity. -/
theorem length_dedup_le_misses (trace : List CacheKey) :
    trace.dedup.length ≤ (totals capacity size trace).misses := by
  induction trace using reverseRecOn with
  | nil => exact Nat.zero_le _
  | append_singleton trace k ih =>
    rw [length_dedup_append, misses_totals_append]
    by_cases h : k ∈ pureLru capacity size trace
    · rw [if_pos (mem_of_mem_pureLru h).1, if_pos h]
      exact ih
    · rw [if_neg h]
      split_ifs <;> omega

/-! ## What an access evicts -/

/-- The next access after a trace, case by case.  `held` is what pure LRU holds
after the trace. -/
theorem nextReport_cases (size : CacheKey → ℕ) (hcap : capacity < 2 ^ 64)
    (trace : List CacheKey) (k : CacheKey) :
    (k ∈ pureLru capacity size trace ∧
      nextReport capacity size trace k = { hit := true, cached := true }) ∨
    (k ∉ pureLru capacity size trace ∧ (size k = 0 ∨ capacity < size k) ∧
      nextReport capacity size trace k = { bypassed := true }) ∨
    (k ∉ pureLru capacity size trace ∧ 0 < size k ∧ size k ≤ capacity ∧
      (nextReport capacity size trace k).hit = false ∧
      (nextReport capacity size trace k).bypassed = false ∧
      ((nextReport capacity size trace k).evictedEntries.toNat = 0 ↔
        weight size (pureLru capacity size trace) + size k ≤ capacity) ∧
      weight size (pureLru capacity size (trace ++ [k])) +
          (nextReport capacity size trace k).evictedBytes.toNat =
        weight size (pureLru capacity size trace) + size k) := by
  have hrep := Residency.slices_accessAll capacity size trace
  have hnext := Residency.slices_accessAll capacity size (trace ++ [k])
  rw [sized_append, sized_cons, sized_nil, Residency.accessAll_append_singleton] at hnext
  have hkeys := Residency.keys_accessAll capacity size trace
  have hc : ((Residency.empty capacity).accessAll (sized size trace)).capacity = capacity :=
    Residency.capacity_accessAll _ _
  unfold nextReport
  generalize (Residency.empty capacity).accessAll (sized size trace) = r at *
  have hw : ∀ l, weight Prod.snd (sized size l) = weight size l := fun l => weight_map _ _ _
  cases ho : r.outcome k (size k) with
  | hit =>
    have hm := Residency.outcome_eq_hit_iff.mp ho
    rw [hrep, mem_sized] at hm
    exact .inl ⟨hm, rfl⟩
  | bypass =>
    have hb := Residency.outcome_eq_bypass_iff.mp ho
    rw [hc] at hb
    exact .inr (.inl ⟨fun hm => by have := mem_of_mem_pureLru hm; omega, hb, rfl⟩)
  | insert evicted =>
    obtain ⟨hm, hb, -, happ⟩ := Residency.insert_spec ho
    have hm' : k ∉ pureLru capacity size trace := by rwa [hrep, mem_sized] at hm
    have hforget : r.forget k = r := Residency.forget_eq_self (hkeys ▸ hm')
    obtain ⟨he, heb⟩ := report_insert_toNat (hc ▸ hcap) ho
    have hbytes := Residency.weight_insert ho
    rw [hnext, hforget, hrep, hw, hw] at hbytes
    refine .inr (.inr ⟨hm', by omega, by omega, rfl, rfl, ?_, by rw [heb]; exact hbytes⟩)
    rw [he, ← hw, ← hrep]
    rw [hforget] at happ
    constructor
    · intro h0
      rw [eq_nil_of_length_eq_zero h0, append_nil] at happ
      have hfit := weight_fit_le Prod.snd (r.capacity - size k) r.slices
      rw [← Residency.keep, happ] at hfit
      omega
    · intro hle
      have hkeep : r.keep (size k) = r.slices := fit_eq_self _ (by omega)
      rw [hkeep] at happ
      rw [append_right_eq_self.mp happ]
      rfl

/-! ## Traces that fit -/

/-- As long as nothing is evicted and nothing bypasses, every key stays. -/
theorem pureLru_eq_recency (hcap : capacity < 2 ^ 64) (trace : List CacheKey)
    (hev : (totals capacity size trace).evictions = 0)
    (hby : (totals capacity size trace).bypasses = 0) :
    pureLru capacity size trace = recency trace := by
  induction trace using reverseRecOn with
  | nil => rfl
  | append_singleton trace k ih =>
    rw [totals_append_singleton] at hev hby
    rw [Totals.evictions_add, Nat.add_eq_zero_iff] at hev
    rw [Totals.bypasses_add, Nat.add_eq_zero_iff] at hby
    have ih := ih hev.1 hby.1
    rw [recency_append_singleton, ← ih]
    rcases nextReport_cases size hcap trace k with
      ⟨hm, -⟩ | ⟨-, -, hr⟩ | ⟨hm, hpos, hle, -, -, hr, -⟩
    · exact pureLru_append_of_mem hm
    · rw [hr] at hby
      exact absurd hby.2 (by simp)
    · have hfit := hr.mp hev.2
      rw [pureLru_append_of_notMem hpos hle hm, fit_eq_self _ (by omega), promote,
        erase_of_not_mem hm]

/-- As long as nothing is evicted and nothing bypasses, exactly the first access
of each key misses. -/
theorem misses_eq_length_dedup (hcap : capacity < 2 ^ 64) (trace : List CacheKey)
    (hev : (totals capacity size trace).evictions = 0)
    (hby : (totals capacity size trace).bypasses = 0) :
    (totals capacity size trace).misses = trace.dedup.length := by
  induction trace using reverseRecOn with
  | nil => rfl
  | append_singleton trace k ih =>
    have h := totals_append_singleton capacity size trace k
    rw [h] at hev hby
    rw [Totals.evictions_add, Nat.add_eq_zero_iff] at hev
    rw [Totals.bypasses_add, Nat.add_eq_zero_iff] at hby
    rw [misses_totals_append, length_dedup_append, ih hev.1 hby.1,
      pureLru_eq_recency hcap trace hev.1 hby.1]
    simp

/-- A trace whose distinct keys fit together evicts nothing and bypasses
nothing. -/
theorem no_evictions_of_fits (hcap : capacity < 2 ^ 64) (trace : List CacheKey)
    (hpos : ∀ k ∈ trace, 0 < size k) (hfit : weight size (recency trace) ≤ capacity) :
    (totals capacity size trace).evictions = 0 ∧ (totals capacity size trace).bypasses = 0 := by
  induction trace using reverseRecOn with
  | nil => exact ⟨rfl, rfl⟩
  | append_singleton trace k ih =>
    have hk : size k ≤ weight size (recency (trace ++ [k])) :=
      le_weight_of_mem size (mem_recency.mpr (by simp))
    have hle : weight size (recency trace) ≤ weight size (recency (trace ++ [k])) ∧
        (k ∉ trace → weight size (recency (trace ++ [k])) =
          size k + weight size (recency trace)) := by
      rw [recency_append_singleton]
      by_cases hm : k ∈ trace
      · exact ⟨(weight_perm size (promote_perm (mem_recency.mpr hm))).symm.le, fun h => absurd hm h⟩
      · rw [promote, erase_of_not_mem (mt mem_recency.mp hm), weight_cons]
        exact ⟨Nat.le_add_left _ _, fun _ => rfl⟩
    obtain ⟨hev, hby⟩ := ih (fun x hx => hpos x (mem_append_left _ hx))
      (hle.1.trans hfit)
    have hheld := pureLru_eq_recency hcap trace hev hby
    have hkpos := hpos k (by simp)
    rw [totals_append_singleton, Totals.evictions_add, Totals.bypasses_add, hev, hby]
    rcases nextReport_cases size hcap trace k with
      ⟨-, hr⟩ | ⟨-, hb, -⟩ | ⟨hm, -, -, -, hb, hr, -⟩
    · rw [hr]
      exact ⟨rfl, rfl⟩
    · omega
    · rw [hheld, mem_recency] at hm
      have hroom := hle.2 hm
      rw [hheld] at hr
      rw [hr.mpr (by omega), hb]
      exact ⟨rfl, rfl⟩

/-! ## Traces that do not fit -/

/-- Once something was evicted, more bytes were inserted than the capacity: what
is resident and what was evicted exceed it. -/
theorem capacity_lt_inserted (hcap : capacity < 2 ^ 64) (trace : List CacheKey)
    (hev : (totals capacity size trace).evictions ≠ 0) :
    capacity < weight size (pureLru capacity size trace) +
      (totals capacity size trace).evictedBytes := by
  induction trace using reverseRecOn with
  | nil => exact absurd rfl hev
  | append_singleton trace k ih =>
    rw [totals_append_singleton, Totals.evictions_add] at hev
    rw [totals_append_singleton, Totals.evictedBytes_add]
    rcases nextReport_cases size hcap trace k with
      ⟨hm, hr⟩ | ⟨-, hb, hr⟩ | ⟨hm, hpos, hle, -, -, hr, hbytes⟩
    · rw [hr] at hev ⊢
      rw [pureLru_append_of_mem hm, weight_perm size (promote_perm hm)]
      exact ih hev
    · rw [hr] at hev ⊢
      rw [pureLru_append_of_not_fits (by omega)]
      exact ih hev
    · by_cases h : (totals capacity size trace).evictions = 0
      · -- the first eviction: the new slice did not fit next to the rest
        have hover : ¬weight size (pureLru capacity size trace) + size k ≤ capacity :=
          fun hc => hev (by rw [h, hr.mpr hc])
        omega
      · have := ih h
        omega

/-! ## Runs of the shadow -/

/-- The shadow reports what the policy reports. -/
theorem replay_reports (c₀ : Lru) (capacity : UInt64) (size : CacheKey → UInt64)
    (trace : List CacheKey) :
    ∃ c log, (c₀.reset capacity).replay (sized size trace) = some (c, log) ∧
      Represents c ((Residency.empty capacity.toNat).accessAll
        (sized (UInt64.toNat ∘ size) trace)) ∧
      log = reports capacity.toNat (UInt64.toNat ∘ size) trace ∧ Accounted c log := by
  obtain ⟨c, hrun, hrep⟩ := Lru.replay_spec (represents_reset c₀ capacity) (sized size trace)
  obtain ⟨d, log, hrun', hacc⟩ := accounted_run (accounted_reset c₀ capacity)
    ((sized size trace).map fun p => .access p.1 p.2)
  have hsame : some (d, log) = some (c, _) := hrun'.symm.trans hrun
  rw [toSlices_sized] at hsame hrep
  obtain ⟨rfl, rfl⟩ := Prod.mk.inj (Option.some.inj hsame)
  exact ⟨d, _, hrun', hrep, rfl, hacc⟩

end ExpertPin.Cache

/-!
## Capacity monotonicity

A larger cache never does worse: replaying one trace at two capacities, as long
as every slice fits into the smaller cache, the larger one holds every key the
smaller one holds, so it has every hit of the smaller one and no more misses.
Without bypasses both recency lists are the same, and the longest prefix within
a smaller budget is a prefix of the longest one within a larger budget.
-/

namespace ExpertPin.Cache

open Budget

section Policy

variable {C₁ C₂ : ℕ} {size : CacheKey → ℕ} {trace : List CacheKey}

/-- Nothing bypasses either cache, so both see the same recency list. -/
theorem cacheable_eq_cacheable (hC : C₁ ≤ C₂) (hsize : ∀ k ∈ trace, 0 < size k ∧ size k ≤ C₁) :
    cacheable C₁ size trace = cacheable C₂ size trace := by
  have h₁ : trace.filter (fun k => 0 < size k ∧ size k ≤ C₁) = trace :=
    List.filter_eq_self.mpr fun k hk => by simpa using hsize k hk
  have h₂ : trace.filter (fun k => 0 < size k ∧ size k ≤ C₂) = trace :=
    List.filter_eq_self.mpr fun k hk => by
      have := hsize k hk
      simp only [decide_eq_true_eq]
      omega
  rw [cacheable, cacheable, h₁, h₂]

/-- The larger cache holds what the smaller one holds, and in the same order. -/
theorem pureLru_isPrefix_pureLru (hC : C₁ ≤ C₂) (hsize : ∀ k ∈ trace, 0 < size k ∧ size k ≤ C₁) :
    pureLru C₁ size trace <+: pureLru C₂ size trace := by
  rw [pureLru, pureLru, cacheable_eq_cacheable hC hsize]
  exact fit_isPrefix_fit size hC _

/-- The larger cache misses no more often. -/
theorem misses_totals_le (hC : C₁ ≤ C₂) (hsize : ∀ k ∈ trace, 0 < size k ∧ size k ≤ C₁) :
    (totals C₂ size trace).misses ≤ (totals C₁ size trace).misses := by
  induction trace using List.reverseRecOn with
  | nil => exact le_refl _
  | append_singleton trace k ih =>
    have hpre : ∀ x ∈ trace, 0 < size x ∧ size x ≤ C₁ := fun x hx =>
      hsize x (List.mem_append_left _ hx)
    have hheld := pureLru_isPrefix_pureLru hC hpre
    have ih := ih hpre
    rw [misses_totals_append, misses_totals_append]
    by_cases h₁ : k ∈ pureLru C₁ size trace
    · rw [if_pos h₁, if_pos (hheld.subset h₁)]
      exact ih
    · rw [if_neg h₁]
      split_ifs <;> omega

/-- A hit of the smaller cache is a hit of the larger one. -/
theorem hit_reports (hC : C₁ ≤ C₂) (hsize : ∀ k ∈ trace, 0 < size k ∧ size k ≤ C₁) {i : ℕ}
    {a₁ : CacheAccess} (ha : (reports C₁ size trace)[i]? = some a₁) (hhit : a₁.hit = true) :
    ∃ a₂, (reports C₂ size trace)[i]? = some a₂ ∧ a₂.hit = true := by
  obtain ⟨hi, -⟩ := List.getElem?_eq_some_iff.mp ha
  rw [length_reports] at hi
  obtain ⟨before, k, after, rfl, rfl⟩ :
      ∃ before k after, trace = before ++ k :: after ∧ before.length = i :=
    ⟨trace.take i, _, trace.drop (i + 1),
      by rw [← List.drop_eq_getElem_cons hi, List.take_append_drop], List.length_take_of_le hi.le⟩
  have hpre : ∀ x ∈ before, 0 < size x ∧ size x ≤ C₁ := fun x hx =>
    hsize x (List.mem_append_left _ hx)
  refine ⟨_, reports_getElem? before k after, ?_⟩
  rw [reports_getElem?, Option.some_inj] at ha
  rw [← ha, nextReport_hit_iff] at hhit
  exact nextReport_hit_iff.mpr ((pureLru_isPrefix_pureLru hC hpre).subset hhit)

end Policy

/-- The cache contains the keys of its residency. -/
theorem Represents.contains_iff {c : Lru} {r : Residency CacheKey} (h : Represents c r)
    (k : CacheKey) : c.contains k = true ↔ k ∈ r.keys := by
  rw [Lru.contains, Option.isSome_iff_exists, h.mem_keys_iff]
  simp only [h.coherent.index_iff]
  constructor
  · rintro ⟨-, n, hn, hk, -⟩
    exact ⟨n, hn, hk⟩
  · rintro ⟨n, hn, hk⟩
    exact ⟨n.addr, n, hn, hk, rfl⟩

/-- **Capacity monotonicity.**  After every prefix of the trace, whatever the
smaller cache contains the larger one contains; every hit of the smaller cache
is a hit of the larger one; and the larger one has no more misses, nor does its
miss counter show more as long as the counters have not wrapped. -/
theorem capacity_monotone (C₁ C₂ : UInt64) (size : CacheKey → UInt64) (trace : List CacheKey)
    (hC : C₁ ≤ C₂) (hsize : ∀ k ∈ trace, 1 ≤ size k ∧ size k ≤ C₁) :
    ∀ before, before <+: trace → ∃ c₁ c₂ : Lru, ∃ log₁ log₂ : List CacheAccess,
      (Lru.new C₁).replay (sized size before) = some (c₁, log₁) ∧
      (Lru.new C₂).replay (sized size before) = some (c₂, log₂) ∧
      (∀ k, c₁.contains k = true → c₂.contains k = true) ∧
      (∀ (i : ℕ) (a₁ : CacheAccess), log₁[i]? = some a₁ → a₁.hit = true →
        ∃ a₂ : CacheAccess, log₂[i]? = some a₂ ∧ a₂.hit = true) ∧
      (Totals.of log₂).misses ≤ (Totals.of log₁).misses ∧
      (before.length < 2 ^ 64 → c₂.stats.misses ≤ c₁.stats.misses) := by
  intro before hbefore
  have hCn : C₁.toNat ≤ C₂.toNat := UInt64.le_iff_toNat_le.mp hC
  have hsizen : ∀ k ∈ before, 0 < (UInt64.toNat ∘ size) k ∧ (UInt64.toNat ∘ size) k ≤ C₁.toNat := by
    intro k hk
    obtain ⟨hpos, hle⟩ := hsize k (hbefore.subset hk)
    exact ⟨UInt64.le_iff_toNat_le.mp hpos, UInt64.le_iff_toNat_le.mp hle⟩
  obtain ⟨c₁, _, hrun₁, hrep₁, rfl, hacc₁⟩ := replay_reports (.new 0) C₁ size before
  obtain ⟨c₂, _, hrun₂, hrep₂, rfl, hacc₂⟩ := replay_reports (.new 0) C₂ size before
  have hmisses := misses_totals_le hCn hsizen
  refine ⟨c₁, c₂, _, _, hrun₁, hrun₂, ?_, fun i a₁ => hit_reports hCn hsizen, hmisses, ?_⟩
  · intro k hk
    rw [hrep₁.contains_iff, Residency.keys_accessAll] at hk
    rw [hrep₂.contains_iff, Residency.keys_accessAll]
    exact (pureLru_isPrefix_pureLru hCn hsizen).subset hk
  · intro hlen
    have hreq : ∀ C, (totals C (UInt64.toNat ∘ size) before).requests < 2 ^ 64 := fun C => by
      rwa [requests_totals]
    obtain ⟨-, -, hm₁, -⟩ := hacc₁.toNat_eq (hreq _)
    obtain ⟨-, -, hm₂, -⟩ := hacc₂.toNat_eq (hreq _)
    rw [UInt64.le_iff_toNat_le, hm₁, hm₂]
    exact hmisses

/-- Two slices of sizes two and three, in caches of three and five bytes. -/
theorem capacity_monotone_three_five : ∃ c₁ c₂ : Lru, ∃ log₁ log₂ : List CacheAccess,
      (Lru.new 3).replay (sized (fun k => if k.expert = 0 then 2 else 3)
        [⟨0, 1, 0⟩, ⟨0, 1, 1⟩, ⟨0, 1, 0⟩]) = some (c₁, log₁) ∧
      (Lru.new 5).replay (sized (fun k => if k.expert = 0 then 2 else 3)
        [⟨0, 1, 0⟩, ⟨0, 1, 1⟩, ⟨0, 1, 0⟩]) = some (c₂, log₂) ∧
      (∀ k, c₁.contains k = true → c₂.contains k = true) ∧
      (∀ (i : ℕ) (a₁ : CacheAccess), log₁[i]? = some a₁ → a₁.hit = true →
        ∃ a₂ : CacheAccess, log₂[i]? = some a₂ ∧ a₂.hit = true) ∧
      (Totals.of log₂).misses ≤ (Totals.of log₁).misses ∧
      (3 < 2 ^ 64 → c₂.stats.misses ≤ c₁.stats.misses) :=
  capacity_monotone 3 5 (fun k => if k.expert = 0 then 2 else 3)
    [⟨0, 1, 0⟩, ⟨0, 1, 1⟩, ⟨0, 1, 0⟩] (by decide) (by decide) _ (List.prefix_refl _)

end ExpertPin.Cache
