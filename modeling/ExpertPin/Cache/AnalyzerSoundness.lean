import ExpertPin.Cache.Analyzer
import ExpertPin.Cache.FixedSizes

/-!
# Soundness of the capacity analysis

The counters that a trace with fixed positive sizes leaves in a fresh shadow pass
every check of the analysis (`Plausible`, `plausible_replay`), and what the
analysis concludes from them about another capacity is what a replay of the same
trace at that capacity does (`capacityResult_sound`).
-/

namespace ExpertPin.Cache

open Binary64 Budget
open List
open UInt64

/-! ## Acceptance -/

theorem raiseIf_of_not {bad : Prop} [Decidable bad] (h : ¬bad) (text : String) :
    raiseIf bad text = .ok () := if_neg h

theorem ok_bind {α β : Type} (a : α) (f : α → Py β) : (Except.ok a >>= f) = f a := rfl

/-- The counters of the shadow as integers. -/
def CacheStats.counters (s : CacheStats) : Counters where
  requests := s.requests.toNat
  hits := s.hits.toNat
  misses := s.misses.toNat
  evictions := s.evictions.toNat
  evictedBytes := s.evictedBytes.toNat
  bypasses := s.bypasses.toNat
  residentBytes := s.residentBytes.toNat
  capacityBytes := s.capacityBytes.toNat

/-- What the analysis demands of the counters of a stable cold start. -/
structure Counters.Plausible (stats : Counters) : Prop where
  enabled : stats.requests ≠ 0 ∧ stats.capacityBytes ≠ 0
  requests_eq : stats.requests = stats.hits + stats.misses
  resident_le : stats.residentBytes ≤ stats.capacityBytes
  inserted : stats.bypasses ≤ stats.misses ∧ stats.evictions ≤ stats.misses - stats.bypasses
  evictions_zero : stats.evictions = 0 ↔ stats.evictedBytes = 0
  evicted_le : stats.evictions ≤ stats.evictedBytes
  unique : stats.evictions = 0 → stats.bypasses = 0 →
    stats.misses ≠ 0 ∧ stats.misses ≤ stats.residentBytes
  pressure : stats.evictions ≠ 0 → stats.capacityBytes < stats.residentBytes + stats.evictedBytes

theorem readCounter_of_lookup {fields : List (String × Value)} {name : String} {n : ℕ}
    (h : fields.lookup name = some (.int n)) : readCounter fields name = .ok n := by
  rw [readCounter, h]
  exact if_neg (by simp)

/-- The counters that the statistics document carries are those of the shadow. -/
theorem readCounters_cacheSimFields (s : CacheStats) :
    readCounters (cacheSimFields s) = .ok s.counters := by
  unfold readCounters
  rw [readCounter_of_lookup (n := s.requests.toNat) rfl, ok_bind,
    readCounter_of_lookup (n := s.hits.toNat) rfl, ok_bind,
    readCounter_of_lookup (n := s.misses.toNat) rfl, ok_bind,
    readCounter_of_lookup (n := s.evictions.toNat) rfl, ok_bind,
    readCounter_of_lookup (n := s.evictedBytes.toNat) rfl, ok_bind,
    readCounter_of_lookup (n := s.bypasses.toNat) rfl, ok_bind,
    readCounter_of_lookup (n := s.residentBytes.toNat) rfl, ok_bind,
    readCounter_of_lookup (n := s.capacityBytes.toNat) rfl, ok_bind]
  rfl

theorem checkCounters_of_plausible {stats : Counters} (h : stats.Plausible) :
    checkCounters stats = .ok () := by
  obtain ⟨⟨hreq, hcap⟩, heq, hres, ⟨hby, hev⟩, hzero, hle, -, -⟩ := h
  unfold checkCounters
  rw [raiseIf_of_not (by omega), ok_bind, raiseIf_of_not (by omega), ok_bind,
    raiseIf_of_not (by omega), ok_bind, raiseIf_of_not (by omega), ok_bind,
    raiseIf_of_not (not_not.mpr hzero), ok_bind, raiseIf_of_not (by omega)]

/-- A quotient that is far from overflow converts to a double. -/
theorem toDouble_of_le {x : ℚ} (hx : |x| ≤ 2 ^ 64) : toDouble x = .ok (round64 x) := by
  have hround := abs_round64_sub_le_of_abs_le hx
  have hdiff := abs_sub_abs_le_abs_sub (round64 x) x
  have hunit : unitRoundoff ≤ 1 := by norm_num [unitRoundoff]
  have hmul := mul_le_mul_of_nonneg_right hunit (show (0 : ℚ) ≤ 2 ^ 64 + 1 by norm_num)
  have hover : (2 : ℚ) ^ 66 ≤ overflow := pow_le_pow_right₀ (by norm_num) (by norm_num)
  refine if_neg (not_le.mpr ?_)
  calc |round64 x| ≤ 2 ^ 64 + 1 * (2 ^ 64 + 1) := by linarith
    _ < 2 ^ 66 := by norm_num
    _ ≤ overflow := hover

theorem toDouble_div {a b : ℕ} (ha : a < 2 ^ 64) : toDouble (a / b) = .ok (round64 (a / b)) := by
  refine toDouble_of_le ?_
  have ha' : (a : ℚ) ≤ 2 ^ 64 := by exact_mod_cast ha.le
  rw [abs_of_nonneg (by positivity)]
  rcases Nat.eq_zero_or_pos b with rfl | hb
  · rw [Nat.cast_zero, div_zero]
    norm_num
  · exact (div_le_self (Nat.cast_nonneg a) (by exact_mod_cast hb)).trans ha'

theorem tolerance_ge : 12 * unitRoundoff ≤ tolerance := by
  norm_num [unitRoundoff, tolerance]

/-- The rate written by the program is close enough to the one the script
computes, although the program rounds the counters before it divides. -/
theorem rateAgrees_hitRate (s : CacheStats) (h : s.counters.Plausible) :
    rateAgrees s.counters (some (.float (hitRate s.hits.toNat s.requests.toNat))) = .ok true := by
  have hle : s.counters.hits ≤ s.counters.requests := by
    rw [h.requests_eq]
    exact Nat.le_add_right _ _
  have hpos : 0 < s.counters.requests := Nat.pos_of_ne_zero h.enabled.1
  have hrate : hitRate s.hits.toNat s.requests.toNat =
      round64 (round64 s.counters.hits / round64 s.counters.requests) := if_neg h.enabled.1
  rw [rateAgrees, toDouble_div (show s.counters.hits < 2 ^ 64 from toNat_lt _), ok_bind,
    hrate,
    isclose_of_abs_sub_le (abs_round64_div_sub_le hle hpos) tolerance_ge]
  rfl

/-- The document of plausible counters is valid. -/
theorem validateStats_statsToJson (s : CacheStats) (h : s.counters.Plausible) :
    validateStats (statsToJson s) = .ok s.counters := by
  have hread : readStats (statsToJson s) = .ok (cacheSimFields s) := rfl
  have hlookup : (cacheSimFields s).lookup "hit_rate" =
      some (.float (hitRate s.hits.toNat s.requests.toNat)) := rfl
  rw [validateStats, hread, ok_bind, readCounters_cacheSimFields, ok_bind,
    checkCounters_of_plausible h, ok_bind, hlookup, rateAgrees_hitRate s h, ok_bind,
    raiseIf_of_not (by simp), ok_bind]
  rfl

/-- The capacities a caller may ask for. -/
structure ValidCapacities (caps : List ℕ) : Prop where
  nonempty : caps ≠ []
  pos : ∀ cap ∈ caps, 0 < cap
  nodup : caps.Nodup

/-- The argument for a list of capacities. -/
def capacityValues (caps : List ℕ) : List Value := caps.map fun cap : ℕ => .int cap

theorem mapM_readCapacity {caps : List ℕ} (h : ∀ cap ∈ caps, 0 < cap) :
    (capacityValues caps).mapM readCapacity = .ok caps := by
  induction caps with
  | nil => rfl
  | cons cap caps ih =>
    have hcap : readCapacity (.int cap) = .ok cap := if_neg (by have := h cap (by simp); omega)
    rw [capacityValues, map_cons, mapM_cons, hcap, ok_bind, ← capacityValues,
      ih fun cap hcap => h cap (mem_cons_of_mem _ hcap), ok_bind]
    rfl

theorem readCapacities_of_valid {caps : List ℕ} (h : ValidCapacities caps) :
    readCapacities (capacityValues caps) = .ok caps := by
  have hne : ¬(capacityValues caps).isEmpty = true := by
    simpa [capacityValues] using h.nonempty
  rw [readCapacities, raiseIf_of_not hne, ok_bind,
    mapM_readCapacity h.pos, ok_bind, raiseIf_of_not (by rw [h.nodup.dedup]; simp), ok_bind]
  rfl

/-- Plausible counters are not rejected. -/
theorem analyze_of_plausible (s : CacheStats) (h : s.counters.Plausible) {caps : List ℕ}
    (hcaps : ValidCapacities caps) :
    ∃ report, analyze (statsToJson s) (capacityValues caps) true = .ok report ∧
      report.capacities = caps.map (capacityResult s.counters (proven s.counters true)) := by
  have hproven : proven s.counters true = true ↔
      s.counters.evictions = 0 ∧ s.counters.bypasses = 0 := by simp [proven]
  have hunique : ¬(proven s.counters true = true ∧ (s.counters.misses = 0 ∨
      s.counters.residentBytes < s.counters.misses)) := by
    rintro ⟨hp, hbad⟩
    obtain ⟨hev, hby⟩ := hproven.mp hp
    have := h.unique hev hby
    omega
  have hpressure : ¬(true = true ∧ s.counters.evictions > 0 ∧
      s.counters.residentBytes + s.counters.evictedBytes ≤ s.counters.capacityBytes) := by
    rintro ⟨-, hev, hbad⟩
    have := h.pressure hev.ne'
    omega
  unfold analyze
  rw [validateStats_statsToJson s h, ok_bind, readCapacities_of_valid hcaps, ok_bind]
  dsimp only
  rw [raiseIf_of_not hunique, ok_bind, raiseIf_of_not hpressure, ok_bind,
    toDouble_div (show s.counters.hits < 2 ^ 64 from toNat_lt _), ok_bind,
    toDouble_div (show s.counters.residentBytes < 2 ^ 64 from toNat_lt _)]
  by_cases hp : proven s.counters true = true
  · rw [if_pos hp]
    exact ⟨_, rfl, rfl⟩
  · rw [if_neg hp]
    exact ⟨_, rfl, rfl⟩

/-! ## The counters of a trace -/

section Trace

variable {capacity : ℕ} {size : CacheKey → ℕ}

/-- The exact counters of a trace with fixed sizes. -/
def observed (capacity : ℕ) (size : CacheKey → ℕ) (trace : List CacheKey) : Counters where
  requests := (totals capacity size trace).requests
  hits := (totals capacity size trace).hits
  misses := (totals capacity size trace).misses
  evictions := (totals capacity size trace).evictions
  evictedBytes := (totals capacity size trace).evictedBytes
  bypasses := (totals capacity size trace).bypasses
  residentBytes := weight size (pureLru capacity size trace)
  capacityBytes := capacity

/-- Every key of the list takes at least one byte. -/
theorem length_le_weight_of_pos {keys : List CacheKey} (h : ∀ k ∈ keys, 0 < size k) :
    keys.length ≤ weight size keys := by
  induction keys with
  | nil => exact Nat.zero_le _
  | cons k keys ih =>
    have hk := h k (by simp)
    have := ih fun x hx => h x (mem_cons_of_mem _ hx)
    rw [length_cons, weight_cons]
    omega

/-- Without evictions and bypasses, everything missed is still resident. -/
theorem misses_le_resident (hcap : capacity < 2 ^ 64) {trace : List CacheKey}
    (hpos : ∀ k ∈ trace, 0 < size k) (hev : (totals capacity size trace).evictions = 0)
    (hby : (totals capacity size trace).bypasses = 0) :
    (totals capacity size trace).misses ≤ weight size (pureLru capacity size trace) := by
  rw [misses_eq_length_dedup hcap trace hev hby, pureLru_eq_recency hcap trace hev hby, recency,
    ← length_reverse]
  refine length_le_weight_of_pos fun k hk => hpos k ?_
  exact mem_dedup.mp (mem_reverse.mp hk)

/-- The counters of a nonempty trace are plausible. -/
theorem plausible_observed (hcap : capacity < 2 ^ 64) (hcap0 : capacity ≠ 0)
    {trace : List CacheKey} (hne : trace ≠ []) (hpos : ∀ k ∈ trace, 0 < size k) {residents : ℕ}
    (hbal : (totals capacity size trace).Balanced residents) :
    (observed capacity size trace).Plausible where
  enabled := by
    refine ⟨?_, hcap0⟩
    change (totals capacity size trace).requests ≠ 0
    rw [requests_totals]
    exact mt eq_nil_of_length_eq_zero hne
  requests_eq := hbal.requests_eq
  resident_le := weight_fit_le _ _ _
  inserted := by
    obtain ⟨-, hins, -, -⟩ := hbal
    change (totals capacity size trace).bypasses ≤ (totals capacity size trace).misses ∧
      (totals capacity size trace).evictions ≤
        (totals capacity size trace).misses - (totals capacity size trace).bypasses
    omega
  evictions_zero := hbal.evictions_zero
  evicted_le := hbal.evictions_le
  unique hev hby := by
    refine ⟨?_, misses_le_resident hcap hpos hev hby⟩
    have hmiss : trace.dedup.length ≤ (totals capacity size trace).misses :=
      length_dedup_le_misses trace
    have hdedup : trace.dedup.length ≠ 0 := fun h =>
      hne ((dedup_eq_nil _).mp (eq_nil_of_length_eq_zero h))
    change (totals capacity size trace).misses ≠ 0
    omega
  pressure := capacity_lt_inserted hcap trace

/-- **The conclusions of the analysis are sound**: what is concluded about a
capacity from the counters observed at another one holds of a replay there. -/
theorem capacityResult_sound {cap : ℕ} (hcapacity : capacity < 2 ^ 64) (hcap : cap < 2 ^ 64)
    {trace : List CacheKey} (hpos : ∀ k ∈ trace, 0 < size k) {residents residents' : ℕ}
    (hbal : (totals capacity size trace).Balanced residents)
    (hbal' : (totals cap size trace).Balanced residents') {row : CapacityResult}
    (hrow : row = capacityResult (observed capacity size trace)
      (proven (observed capacity size trace) true) cap) :
    (row.basis = .conditionalExactFittingReplay → row.hits = some (totals cap size trace).hits ∧
      row.missesLowerBound = some (totals cap size trace).misses ∧
      row.missesUpperBound = some (totals cap size trace).misses ∧
      row.evictions = some 0 ∧ (totals cap size trace).evictions = 0) ∧
    ∀ lo hi, row.missesLowerBound = some lo → row.missesUpperBound = some hi →
      lo ≤ (totals cap size trace).misses ∧ (totals cap size trace).misses ≤ hi := by
  subst hrow
  have hreq : (totals capacity size trace).requests = (totals cap size trace).requests := by
    rw [requests_totals, requests_totals]
  have heq := hbal.requests_eq
  have heq' := hbal'.requests_eq
  cases hp : proven (observed capacity size trace) true with
  | false =>
    constructor
    · intro h
      exact absurd h (by simp [capacityResult])
    · intro lo hi h
      exact absurd h (by simp [capacityResult])
  | true =>
    obtain ⟨hev, hby⟩ : (totals capacity size trace).evictions = 0 ∧
        (totals capacity size trace).bypasses = 0 := by
      simp only [proven, Bool.true_and, Bool.and_eq_true, decide_eq_true_eq] at hp
      exact hp
    have hmisses := misses_eq_length_dedup hcapacity trace hev hby
    have hlower : trace.dedup.length ≤ (totals cap size trace).misses :=
      length_dedup_le_misses trace
    by_cases hfits : weight size (pureLru capacity size trace) ≤ cap
    · -- the whole working set fits, so only first accesses miss in the replay
      have hset := pureLru_eq_recency hcapacity trace hev hby
      obtain ⟨hev', hby'⟩ := no_evictions_of_fits hcap trace hpos (hset ▸ hfits)
      have hmisses' := misses_eq_length_dedup hcap trace hev' hby'
      have hsame : (totals cap size trace).misses = (totals capacity size trace).misses :=
        hmisses'.trans hmisses.symm
      have hhits : (totals cap size trace).hits = (totals capacity size trace).hits := by
        omega
      simp only [capacityResult, observed, Bool.true_and, hfits, decide_true, if_true]
      rw [hsame, hhits]
      refine ⟨fun _ => ⟨rfl, rfl, rfl, trivial, hev'⟩, ?_⟩
      intro lo hi hlo hhi
      exact ⟨(Option.some.inj hlo).ge, (Option.some.inj hhi).le⟩
    · simp only [capacityResult, observed, Bool.true_and, hfits, decide_false, if_true,
        Bool.false_eq_true, if_false]
      refine ⟨fun h => absurd h (by simp), ?_⟩
      intro lo hi hlo hhi
      have := Option.some.inj hlo
      have := Option.some.inj hhi
      omega

end Trace

/-! ## Runs of the shadow -/

theorem Represents.toNat_residentBytes {c : Lru} {r : Residency CacheKey} (h : Represents c r) :
    c.stats.residentBytes.toNat = weight Prod.snd r.slices := by
  rw [h.coherent.resident_eq, ← h.slices_eq, weight_map]
  rfl

/-- The shadow leaves the counters of the trace, as long as none wrapped. -/
theorem counters_replay {c : Lru} {capacity : ℕ} {size : CacheKey → ℕ} {trace : List CacheKey}
    (hrep : Represents c ((Residency.empty capacity).accessAll (sized size trace)))
    (hacc : Accounted c (reports capacity size trace))
    (hw : (totals capacity size trace).NoWrap) :
    c.stats.counters = observed capacity size trace := by
  obtain ⟨hreq, hhits, hmisses, hev, hby⟩ := hacc.toNat_eq hw.1
  have hevb := hacc.toNat_evictedBytes hw
  have hres := hrep.toNat_residentBytes
  have hcap := hrep.capacity_eq
  rw [Residency.slices_accessAll, sized, weight_map] at hres
  rw [Residency.capacity_accessAll] at hcap
  rw [CacheStats.counters, hreq, hhits, hmisses, hev, hby, hevb, hres, hcap]
  rfl

/-- **Soundness of the capacity analysis.**  The counters that a nonempty trace
with fixed positive sizes leaves in a fresh enabled shadow are accepted as long
as no counter wrapped, and for each requested capacity a replay of the trace at
that capacity hits, misses and evicts as reported, within the reported bounds. -/
theorem analyze_sound (capacity : UInt64) (size : CacheKey → UInt64) (trace : List CacheKey)
    (caps : List ℕ) (hcapacity : capacity ≠ 0) (htrace : trace ≠ [])
    (hsize : ∀ k ∈ trace, 1 ≤ size k) (hcaps : ValidCapacities caps) :
    ∃ c log, (Lru.new capacity).replay (sized size trace) = some (c, log) ∧
      ((Totals.of log).NoWrap → ∃ report,
        analyze (statsToJson c.stats) (capacityValues caps) true = .ok report ∧
        report.capacities.map CapacityResult.capacityBytes = caps ∧
        ∀ row ∈ report.capacities, ∀ cap : UInt64, cap.toNat = row.capacityBytes →
          ∃ d log', (Lru.new cap).replay (sized size trace) = some (d, log') ∧
            (row.basis = .conditionalExactFittingReplay → row.hits = some d.stats.hits.toNat ∧
              row.missesLowerBound = some d.stats.misses.toNat ∧
              row.missesUpperBound = some d.stats.misses.toNat ∧
              row.evictions = some 0 ∧ d.stats.evictions = 0) ∧
            ∀ lo hi, row.missesLowerBound = some lo → row.missesUpperBound = some hi →
              lo ≤ d.stats.misses.toNat ∧ d.stats.misses.toNat ≤ hi) := by
  obtain ⟨c, _, hrun, hrep, rfl, hacc⟩ := replay_reports (.new 0) capacity size trace
  refine ⟨c, _, hrun, fun hw => ?_⟩
  have hpos : ∀ k ∈ trace, 0 < (UInt64.toNat ∘ size) k := fun k hk =>
    UInt64.le_iff_toNat_le.mp (hsize k hk)
  have hcounters := counters_replay hrep hacc hw
  have hlt := UInt64.toNat_lt capacity
  have hplausible : c.stats.counters.Plausible := by
    rw [hcounters]
    exact plausible_observed hlt (fun h => hcapacity (UInt64.toNat_inj.mp h)) htrace hpos
      hacc.balanced
  obtain ⟨report, hreport, hrows⟩ := analyze_of_plausible c.stats hplausible hcaps
  refine ⟨report, hreport, ?_, ?_⟩
  · rw [hrows, map_map]
    exact map_id caps
  intro row hrow cap hcap
  rw [hrows, hcounters, mem_map] at hrow
  obtain ⟨n, -, rfl⟩ := hrow
  obtain rfl : cap.toNat = n := hcap
  obtain ⟨d, _, hrun', -, rfl, hacc'⟩ := replay_reports (.new 0) cap size trace
  have hreq' : (totals cap.toNat (UInt64.toNat ∘ size) trace).requests < 2 ^ 64 := by
    have h := hw.1
    rw [← totals, requests_totals] at h
    rwa [requests_totals]
  obtain ⟨-, hhits, hmisses, hev, -⟩ := hacc'.toNat_eq hreq'
  obtain ⟨hexact, hbounds⟩ := capacityResult_sound hlt (UInt64.toNat_lt cap) hpos hacc.balanced
    hacc'.balanced rfl
  refine ⟨d, _, hrun', ?_, ?_⟩
  · rw [hhits, hmisses, ← UInt64.toNat_inj, hev]
    exact hexact
  · rw [hmisses]
    exact hbounds

/-- Two slices in a cache of two bytes, analysed for one and two bytes. -/
theorem analyze_sound_two_slices :
    ∃ c log, (Lru.new 2).replay (sized (fun _ => 1) [⟨0, 1, 0⟩, ⟨0, 1, 1⟩, ⟨0, 1, 0⟩]) =
        some (c, log) ∧
      ((Totals.of log).NoWrap → ∃ report,
        analyze (statsToJson c.stats) (capacityValues [1, 2]) true = .ok report ∧
        report.capacities.map CapacityResult.capacityBytes = [1, 2] ∧
        ∀ row ∈ report.capacities, ∀ cap : UInt64, cap.toNat = row.capacityBytes →
          ∃ d log', (Lru.new cap).replay
              (sized (fun _ => 1) [⟨0, 1, 0⟩, ⟨0, 1, 1⟩, ⟨0, 1, 0⟩]) = some (d, log') ∧
            (row.basis = .conditionalExactFittingReplay → row.hits = some d.stats.hits.toNat ∧
              row.missesLowerBound = some d.stats.misses.toNat ∧
              row.missesUpperBound = some d.stats.misses.toNat ∧
              row.evictions = some 0 ∧ d.stats.evictions = 0) ∧
            ∀ lo hi, row.missesLowerBound = some lo → row.missesUpperBound = some hi →
              lo ≤ d.stats.misses.toNat ∧ d.stats.misses.toNat ≤ hi) :=
  analyze_sound 2 (fun _ => 1) [⟨0, 1, 0⟩, ⟨0, 1, 1⟩, ⟨0, 1, 0⟩] [1, 2] (by decide) (by simp)
    (by decide) ⟨by simp, by simp, by simp⟩

/-- The analysis of what a replay leaves in a fresh shadow. -/
def analyzeReplay (capacity size : UInt64) (trace : List CacheKey) (caps : List ℕ) :
    Option (Py Analysis) :=
  ((Lru.new capacity).replay (sized (fun _ => size) trace)).map fun p =>
    analyze (statsToJson p.1.stats) (capacityValues caps) true

/-- The analysis does reject: an empty trace, a disabled shadow, evicted bytes
that wrapped to zero (two slices of `2 ^ 63` bytes evicted by turns), and lists of
capacities that are empty or repeat one. -/
theorem analyze_rejects : analyzeReplay 1 1 [] [1] =
      some (.error (.valueError "need a nonempty, enabled shadow observation")) ∧
    analyzeReplay 0 1 [⟨0, 1, 0⟩] [1] =
      some (.error (.valueError "need a nonempty, enabled shadow observation")) ∧
    analyzeReplay 9223372036854775808 9223372036854775808 [⟨0, 1, 0⟩, ⟨0, 1, 1⟩, ⟨0, 1, 0⟩] [1] =
      some (.error (.valueError "eviction count and bytes disagree")) ∧
    analyzeReplay 1 1 [⟨0, 1, 0⟩] [] =
      some (.error (.valueError "capacities must be positive integer byte counts")) ∧
    analyzeReplay 1 1 [⟨0, 1, 0⟩] [1, 1] =
      some (.error (.valueError "capacities must be distinct")) := by
  refine ⟨?_, ?_, ?_, ?_, ?_⟩ <;> decide +kernel

end ExpertPin.Cache
