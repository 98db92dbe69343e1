import ExpertPin.Cache.Coherence
import ExpertPin.Cache.Policy

/-!
# The shadow simulates the policy

`Represents c r` relates a cache to the residency it stands for: `c` is
coherent, its capacity is that of `r`, and its list of entries is the list of
slices of `r`.  `access_spec` is the simulation: an access follows no dangling
iterator, reports the outcome of the policy, leaves a cache that represents the
residency after the access, and books in its event counters what it reports.
-/

namespace ExpertPin.Cache

open Budget

/-- The slice an entry stands for. -/
def Node.slice (n : Node) : CacheKey × ℕ := (n.key, n.size)

/-- The report of an outcome. -/
def Outcome.report : Outcome CacheKey → CacheAccess
  | .hit => { hit := true, cached := true }
  | .bypass => { bypassed := true }
  | .insert evicted =>
    { cached := true
      evictedEntries := UInt64.ofNat evicted.length
      evictedBytes := UInt64.ofNat (weight Prod.snd evicted) }

/-- The event counters after one more access. -/
def CacheStats.count (s : CacheStats) (a : CacheAccess) : CacheStats :=
  { s with
    requests := s.requests + 1
    hits := s.hits + if a.hit then 1 else 0
    misses := s.misses + if a.hit then 0 else 1
    bypasses := s.bypasses + if a.bypassed then 1 else 0
    evictions := s.evictions + a.evictedEntries
    evictedBytes := s.evictedBytes + a.evictedBytes }

/-- The cache `c` stands for the residency `r`. -/
structure Represents (c : Lru) (r : Residency CacheKey) : Prop where
  coherent : c.Coherent
  capacity_eq : c.stats.capacityBytes.toNat = r.capacity
  slices_eq : c.entries.map Node.slice = r.slices

theorem represents_reset (c : Lru) (capacityBytes : UInt64) :
    Represents (c.reset capacityBytes) (.empty capacityBytes.toNat) :=
  ⟨c.coherent_reset capacityBytes, rfl, rfl⟩

namespace Represents

variable {c : Lru} {r : Residency CacheKey}

theorem mem_keys_iff (h : Represents c r) {k : CacheKey} :
    k ∈ r.keys ↔ ∃ n ∈ c.entries, n.key = k := by
  rw [Residency.keys, ← h.slices_eq]
  simp [Node.slice]

theorem mem_slices_iff (h : Represents c r) {k : CacheKey} {bytes : UInt64} :
    (k, bytes.toNat) ∈ r.slices ↔ ∃ n ∈ c.entries, n.key = k ∧ n.bytes = bytes := by
  rw [← h.slices_eq]
  simp [Node.slice, Node.size, UInt64.toNat_inj]

/-- The slices of the entries other than `n`. -/
theorem map_slice_erase (h : Represents c r) {n : Node} (hn : n ∈ c.entries) :
    (c.entries.erase n).map Node.slice = r.slices.filter fun p => p.1 ≠ n.key := by
  rw [← h.slices_eq, h.coherent.entries_nodup.erase_eq_filter, List.filter_map]
  congr 1
  refine List.filter_congr fun m hm => ?_
  have hk : m.key = n.key ↔ m = n :=
    ⟨fun hk => h.coherent.eq_of_key_eq hm hn hk, fun he => he ▸ rfl⟩
  by_cases he : m = n <;> simp [Node.slice, hk, he]

/-- The event counters do not matter to what a cache stands for. -/
theorem of_eq {d : Lru} (h : Represents c r) (he : d.entries = c.entries)
    (hi : d.index = c.index) (hf : d.fresh = c.fresh)
    (hr : d.stats.residentBytes = c.stats.residentBytes)
    (hc : d.stats.capacityBytes = c.stats.capacityBytes) : Represents d r :=
  ⟨h.coherent.of_eq he hi hf hr hc, hc ▸ h.capacity_eq, he ▸ h.slices_eq⟩

theorem promote (h : Represents c r) {n : Node} (hn : n ∈ c.entries)
    (hm : n.slice ∈ r.slices) : Represents (c.promote n) (r.touch n.slice hm) where
  coherent := h.coherent.promote hn
  capacity_eq := h.capacity_eq
  slices_eq := by
    change n.slice :: (c.entries.erase n).map Node.slice = Budget.promote n.slice r.slices
    rw [h.map_slice_erase hn, promote_eq_filter r.slices_nodup]
    congr 1
    refine List.filter_congr fun p hp => ?_
    have hk : p.1 = n.key ↔ p = n.slice :=
      ⟨fun hk => List.inj_on_of_nodup_map r.keys_nodup hp hm hk, fun he => he ▸ rfl⟩
    simp only [ne_eq, hk]

theorem invalidate (h : Represents c r) {n : Node} (hn : n ∈ c.entries) :
    Represents (c.invalidate n n.key) (r.forget n.key) :=
  ⟨h.coherent.invalidate hn, h.capacity_eq, h.map_slice_erase hn⟩

/-- The miss branch, for a key that is not resident. -/
theorem onMiss (h : Represents c r) {k : CacheKey} (hk : k ∉ r.keys) (bytes : UInt64) :
    ∃ d, c.onMiss k bytes = ((r.outcome k bytes.toNat).report, d) ∧
      Represents d (r.access k bytes.toNat) ∧
      d.stats = { c.stats with
        residentBytes := d.stats.residentBytes
        bypasses := c.stats.bypasses +
          if (r.outcome k bytes.toNat).report.bypassed then 1 else 0
        evictions := c.stats.evictions + (r.outcome k bytes.toNat).report.evictedEntries
        evictedBytes := c.stats.evictedBytes +
          (r.outcome k bytes.toNat).report.evictedBytes } := by
  have hm : (k, bytes.toNat) ∉ r.slices := Residency.notMem_slices_of_notMem_keys hk
  have hguard : (bytes = 0 ∨ c.stats.capacityBytes = 0 ∨ bytes > c.stats.capacityBytes) ↔
      (bytes.toNat = 0 ∨ r.capacity < bytes.toNat) := by
    rw [gt_iff_lt, UInt64.lt_iff_toNat_lt, ← UInt64.toNat_inj, ← UInt64.toNat_inj,
      h.capacity_eq, UInt64.toNat_zero]
    omega
  by_cases hb : bytes.toNat = 0 ∨ r.capacity < bytes.toNat
  · refine ⟨{ c with stats.bypasses := c.stats.bypasses + 1 }, ?_, ?_, ?_⟩
    · rw [Lru.onMiss, if_pos (hguard.mpr hb), Residency.outcome_bypass hm hb]
      rfl
    · have hr : r.access k bytes.toNat = r := by
        refine Residency.ext (by simp) ?_
        rw [Residency.slices_access_bypass hm hb, Residency.forget_eq_self hk]
      rw [hr]
      exact h.of_eq rfl rfl rfl rfl rfl
    · rw [Residency.outcome_bypass hm hb]
      simp [Outcome.report]
  · have hle : bytes ≤ c.stats.capacityBytes := by
      rw [UInt64.le_iff_toNat_le, h.capacity_eq]
      omega
    obtain ⟨d, evicted, hev, hcoh, happ, hfit, hstats⟩ := Lru.evict_spec h.coherent hle
    have hkeep : d.entries.map Node.slice = r.keep bytes.toNat := by
      rw [Residency.keep, ← h.slices_eq, fit_map, ← h.capacity_eq, hfit]
      rfl
    have hdrop : r.slices.drop (r.keep bytes.toNat).length = evicted.map Node.slice := by
      rw [← h.slices_eq, ← hkeep, happ, List.map_append, List.drop_left]
    have hout : r.outcome k bytes.toNat = .insert (evicted.map Node.slice) := by
      rw [Residency.outcome_insert hm hb, Residency.forget_eq_self hk, hdrop]
    have hrep : (r.outcome k bytes.toNat).report =
        { cached := true
          evictedEntries := UInt64.ofNat evicted.length
          evictedBytes := UInt64.ofNat (weight Node.size evicted) } := by
      rw [hout, Outcome.report, List.length_map, weight_map]
      rfl
    have hcap : d.stats.capacityBytes = c.stats.capacityBytes := by rw [hstats]
    have hdk : ∀ n ∈ d.entries, n.key ≠ k := fun n hn hnk =>
      hk (h.mem_keys_iff.mpr ⟨n, happ ▸ List.mem_append_left _ hn, hnk⟩)
    have hroom : weight Node.size d.entries + bytes.toNat ≤ d.stats.capacityBytes.toNat := by
      have := weight_fit_le Node.size (c.stats.capacityBytes.toNat - bytes.toNat) c.entries
      rw [← hfit] at this
      rw [hcap, h.capacity_eq]
      rw [h.capacity_eq] at this
      omega
    refine ⟨d.pushFront k bytes
      { evictedEntries := UInt64.ofNat evicted.length
        evictedBytes := UInt64.ofNat (weight Node.size evicted) }, ?_, ?_, ?_⟩
    · rw [Lru.onMiss, if_neg (mt hguard.mp hb), hev, hrep]
    · refine ⟨hcoh.pushFront _ hdk (by omega) hroom, ?_, ?_⟩
      · rw [Residency.capacity_access, ← h.capacity_eq, ← hcap]
        rfl
      · rw [Residency.slices_access_insert hm hb, Residency.forget_eq_self hk, ← hkeep]
        rfl
    · rw [hrep, Lru.pushFront, hstats]
      simp

end Represents

theorem Residency.report_hit_eq_false {r : Residency CacheKey} {k : CacheKey} {b : ℕ}
    (h : (k, b) ∉ r.slices) : (r.outcome k b).report.hit = false := by
  by_cases hb : b = 0 ∨ r.capacity < b
  · rw [Residency.outcome_bypass h hb]; rfl
  · rw [Residency.outcome_insert h hb]; rfl

/-- **Simulation.**  An access to a cache that stands for a residency has a
result, reports the outcome of the policy, leaves a cache that stands for the
residency after the access, and books what it reports. -/
theorem Lru.access_spec {c : Lru} {r : Residency CacheKey} (h : Represents c r) (k : CacheKey)
    (bytes : UInt64) :
    ∃ d, c.access k bytes = some ((r.outcome k bytes.toNat).report, d) ∧
      Represents d (r.access k bytes.toNat) ∧
      d.stats = { c.stats.count (r.outcome k bytes.toNat).report with
        residentBytes := d.stats.residentBytes } := by
  cases hi : c.index k with
  | none =>
    -- no entry under the key: a plain miss
    have hk : k ∉ r.keys := fun hc => by
      obtain ⟨n, hn, hnk⟩ := h.mem_keys_iff.mp hc
      exact h.coherent.index_eq_none_iff.mp hi n hn hnk
    have hhit : (r.outcome k bytes.toNat).report.hit = false :=
      Residency.report_hit_eq_false (Residency.notMem_slices_of_notMem_keys hk)
    have h' : Represents c.countRequest.countMiss r := h.of_eq rfl rfl rfl rfl rfl
    obtain ⟨d, hd, hrep, hstats⟩ := h'.onMiss hk bytes
    refine ⟨d, ?_, hrep, ?_⟩
    · simp only [Lru.access, show c.countRequest.index k = none from hi, hd]
    · rw [hstats, CacheStats.count, hhit]
      simp [countRequest, countMiss]
  | some it =>
    obtain ⟨n, hn, hnk, hderef⟩ := h.coherent.deref_of_index hi
    have hacc : c.access k bytes = if n.bytes = bytes then
        some ({ hit := true, cached := true }, c.countRequest.promote n)
        else some ((c.countRequest.countMiss.invalidate n k).onMiss k bytes) := by
      simp only [Lru.access, show c.countRequest.index k = some it from hi,
        show c.countRequest.deref it = some n from hderef]
    rw [hacc]
    by_cases hb : n.bytes = bytes
    · -- same size: a hit
      subst hnk hb
      have hm : n.slice ∈ r.slices := h.mem_slices_iff.mpr ⟨n, hn, rfl, rfl⟩
      have h' : Represents c.countRequest r := h.of_eq rfl rfl rfl rfl rfl
      have ht : r.access n.key n.bytes.toNat = r.touch n.slice hm := dif_pos hm
      have ho : r.outcome n.key n.bytes.toNat = .hit := Residency.outcome_hit hm
      rw [if_pos rfl, ht, ho]
      exact ⟨_, rfl, h'.promote hn hm, by simp [CacheStats.count, Outcome.report,
        Lru.promote, countRequest]⟩
    · -- another size: the stale entry goes first
      have hm : (k, bytes.toNat) ∉ r.slices := fun hc => by
        obtain ⟨m, hmem, hmk, hmb⟩ := h.mem_slices_iff.mp hc
        exact hb (h.coherent.eq_of_key_eq hmem hn (hmk.trans hnk.symm) ▸ hmb)
      have hhit : (r.outcome k bytes.toNat).report.hit = false :=
        Residency.report_hit_eq_false hm
      have h' : Represents c.countRequest.countMiss r := h.of_eq rfl rfl rfl rfl rfl
      subst hnk
      obtain ⟨d, hd, hrep, hstats⟩ :=
        (h'.invalidate hn).onMiss (r.notMem_keys_forget n.key) bytes
      rw [Residency.outcome_forget hm] at hd hstats
      rw [Residency.access_forget hm] at hrep
      refine ⟨d, ?_, hrep, ?_⟩
      · rw [if_neg hb, hd]
      · rw [hstats, CacheStats.count, hhit]
        simp [countRequest, countMiss, Lru.invalidate]

end ExpertPin.Cache
