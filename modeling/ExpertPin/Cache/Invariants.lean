import ExpertPin.Cache.Simulation

/-!
# Invariants of every run

`Totals` are the exact event totals of the accesses reported since the last
reset.  The 64-bit counters of the cache are these totals modulo `2 ^ 64`, and
the totals satisfy the accounting identities without any assumption
(`Accounted`).  So the counters satisfy them whenever no total has outgrown 64
bits.
-/

namespace ExpertPin.Cache

open Budget
open List
open UInt64

/-- Exact event totals. -/
structure Totals where
  requests : ℕ := 0
  hits : ℕ := 0
  misses : ℕ := 0
  evictions : ℕ := 0
  evictedBytes : ℕ := 0
  bypasses : ℕ := 0
deriving DecidableEq, Repr

namespace Totals

/-- Book one reported access. -/
def add (t : Totals) (a : CacheAccess) : Totals where
  requests := t.requests + 1
  hits := t.hits + if a.hit then 1 else 0
  misses := t.misses + if a.hit then 0 else 1
  evictions := t.evictions + a.evictedEntries.toNat
  evictedBytes := t.evictedBytes + a.evictedBytes.toNat
  bypasses := t.bypasses + if a.bypassed then 1 else 0

section Add

variable (t : Totals) (a : CacheAccess)

@[simp] theorem requests_add : (t.add a).requests = t.requests + 1 := rfl

@[simp] theorem misses_add : (t.add a).misses = t.misses + if a.hit then 0 else 1 := rfl

@[simp] theorem evictions_add : (t.add a).evictions = t.evictions + a.evictedEntries.toNat := rfl

@[simp] theorem evictedBytes_add :
    (t.add a).evictedBytes = t.evictedBytes + a.evictedBytes.toNat := rfl

@[simp] theorem bypasses_add : (t.add a).bypasses = t.bypasses + if a.bypassed then 1 else 0 := rfl

end Add

/-- The totals of a log. -/
def of (log : List CacheAccess) : Totals := log.foldl add {}

@[simp] theorem of_append_singleton (log : List CacheAccess) (a : CacheAccess) :
    of (log ++ [a]) = (of log).add a := by
  simp [of]

/-- No 64-bit counter has wrapped.  The requests bound the other event counts,
and the evicted bytes are counted separately. -/
def NoWrap (t : Totals) : Prop := t.requests < 2 ^ 64 ∧ t.evictedBytes < 2 ^ 64

end Totals

/-- The counters are the totals modulo `2 ^ 64`. -/
structure CacheStats.Counts (s : CacheStats) (t : Totals) : Prop where
  requests : s.requests = UInt64.ofNat t.requests
  hits : s.hits = UInt64.ofNat t.hits
  misses : s.misses = UInt64.ofNat t.misses
  evictions : s.evictions = UInt64.ofNat t.evictions
  evictedBytes : s.evictedBytes = UInt64.ofNat t.evictedBytes
  bypasses : s.bypasses = UInt64.ofNat t.bypasses

theorem ofNat_add_ite (n : ℕ) (p : Bool) (a b : ℕ) : UInt64.ofNat (n + if p then a else b) =
      UInt64.ofNat n + if p then UInt64.ofNat a else UInt64.ofNat b := by
  rw [ofNat_add]
  cases p <;> rfl

/-- Booking an access keeps the counters in step with the totals. -/
theorem CacheStats.Counts.add {s : CacheStats} {t : Totals} (h : s.Counts t) (a : CacheAccess)
    (residentBytes : UInt64) :
    CacheStats.Counts { s.count a with residentBytes } (t.add a) where
  requests := by simp [count, Totals.add, h.requests, ofNat_add]
  hits := by simp only [count, Totals.add, h.hits, ofNat_add_ite]; rfl
  misses := by simp only [count, Totals.add, h.misses, ofNat_add_ite]; rfl
  evictions := by simp [count, Totals.add, h.evictions, ofNat_add]
  evictedBytes := by simp [count, Totals.add, h.evictedBytes, ofNat_add]
  bypasses := by simp only [count, Totals.add, h.bypasses, ofNat_add_ite]; rfl

/-- The accounting of a run: `residents` entries are left of it. -/
structure Totals.Balanced (t : Totals) (residents : ℕ) : Prop where
  requests_eq : t.requests = t.hits + t.misses
  inserted : residents + t.evictions + t.bypasses ≤ t.misses
  evictions_le : t.evictions ≤ t.evictedBytes
  evictions_zero : t.evictions = 0 ↔ t.evictedBytes = 0

section Step

variable {r : Residency CacheKey} {k : CacheKey} {b : ℕ}

/-- A report counts evictions exactly: they fit in 64 bits. -/
theorem report_insert_toNat {evicted : List (CacheKey × ℕ)} (hcap : r.capacity < 2 ^ 64)
    (h : r.outcome k b = .insert evicted) :
    (Outcome.insert evicted).report.evictedEntries.toNat = evicted.length ∧
      (Outcome.insert evicted).report.evictedBytes.toNat = weight Prod.snd evicted := by
  have hw := Residency.weight_evicted_le h
  have hl := Residency.length_evicted_le h
  exact ⟨toNat_ofNat_of_lt' (by change _ < 2 ^ 64; omega),
    toNat_ofNat_of_lt' (by change _ < 2 ^ 64; omega)⟩

/-- One access keeps the accounting balanced. -/
theorem Totals.Balanced.add {t : Totals} (h : t.Balanced r.slices.length)
    (hcap : r.capacity < 2 ^ 64) (k : CacheKey) (b : ℕ) :
    (t.add (r.outcome k b).report).Balanced (r.access k b).slices.length := by
  obtain ⟨hreq, hins, hle, hzero⟩ := h
  have hforget : (r.forget k).slices.length ≤ r.slices.length := length_filter_le _ _
  cases ho : r.outcome k b with
  | hit =>
    have hlen : (r.access k b).slices.length = r.slices.length := by
      have hm := Residency.outcome_eq_hit_iff.mp ho
      rw [Residency.slices_access_hit hm]
      exact (promote_perm hm).length_eq
    rw [hlen]
    constructor <;> simp [Totals.add, Outcome.report] <;> omega
  | bypass =>
    have hlen : (r.access k b).slices.length ≤ r.slices.length := by
      have hb := Residency.outcome_eq_bypass_iff.mp ho
      have hm : (k, b) ∉ r.slices := fun hc => by
        rw [Residency.outcome_hit hc] at ho; exact absurd ho (by simp)
      rw [Residency.slices_access_bypass hm hb]
      exact hforget
    constructor <;> simp [Totals.add, Outcome.report] <;> omega
  | insert evicted =>
    obtain ⟨he, hb⟩ := report_insert_toNat hcap ho
    have hlen := Residency.length_insert ho
    have hel := Residency.length_evicted_le ho
    have hwe : weight Prod.snd evicted = 0 ↔ evicted.length = 0 := by
      constructor
      · intro h0
        omega
      · intro h0
        rw [eq_nil_of_length_eq_zero h0, weight_nil]
    have hhit : (Outcome.insert evicted).report.hit = false := rfl
    have hby : (Outcome.insert evicted).report.bypassed = false := rfl
    constructor <;>
      simp only [Totals.add, he, hb, hhit, hby, Bool.false_eq_true, if_false] <;> omega

end Step

/-- What holds of a cache and of the log of its accesses in every run. -/
structure Accounted (c : Lru) (log : List CacheAccess) : Prop where
  represented : ∃ r, Represents c r
  counts : c.stats.Counts (.of log)
  balanced : (Totals.of log).Balanced c.entries.length

theorem accounted_reset (c : Lru) (capacityBytes : UInt64) :
    Accounted (c.reset capacityBytes) [] where
  represented := ⟨_, represents_reset c capacityBytes⟩
  counts := ⟨rfl, rfl, rfl, rfl, rfl, rfl⟩
  balanced := ⟨rfl, le_refl _, le_refl _, Iff.rfl⟩

variable {log : List CacheAccess}

/-- One call keeps the accounting. -/
theorem accounted_apply {c : Lru} (h : Accounted c log) (op : CacheOp) :
    ∃ d log', op.apply (c, log) = some (d, log') ∧ Accounted d log' := by
  cases op with
  | reset capacityBytes => exact ⟨_, _, rfl, accounted_reset c capacityBytes⟩
  | access key bytes =>
    obtain ⟨r, hr⟩ := h.represented
    obtain ⟨d, hacc, hd, hstats⟩ := Lru.access_spec hr key bytes
    have hcap : r.capacity < 2 ^ 64 := hr.capacity_eq ▸ toNat_lt _
    have hlen : ∀ {c : Lru} {r : Residency CacheKey}, Represents c r →
        c.entries.length = r.slices.length := fun h => by
      rw [← h.slices_eq, length_map]
    refine ⟨d, log ++ [(r.outcome key bytes.toNat).report], ?_, ⟨_, hd⟩, ?_, ?_⟩
    · rw [CacheOp.apply, hacc]
      rfl
    · rw [hstats, Totals.of_append_singleton]
      exact h.counts.add _ _
    · rw [hlen hd, Totals.of_append_singleton]
      exact (hlen hr ▸ h.balanced).add hcap key bytes.toNat

/-- Every run keeps the accounting, and follows no dangling iterator. -/
theorem accounted_run {c : Lru} (h : Accounted c log)
    (ops : List CacheOp) :
    ∃ d log', ops.foldlM CacheOp.apply (c, log) = some (d, log') ∧ Accounted d log' := by
  induction ops generalizing c log with
  | nil => exact ⟨c, log, rfl, h⟩
  | cons op ops ih =>
    obtain ⟨d, log', hd, h'⟩ := accounted_apply h op
    obtain ⟨e, log'', he, h''⟩ := ih h'
    exact ⟨e, log'', by rw [foldlM_cons, hd]; exact he, h''⟩

/-- The identities among the event counters that the analysis script checks. -/
structure CacheStats.Consistent (s : CacheStats) : Prop where
  requests_eq : s.requests.toNat = s.hits.toNat + s.misses.toNat
  bypasses_le : s.bypasses ≤ s.misses
  evictions_le : s.evictions.toNat ≤ s.misses.toNat - s.bypasses.toNat
  evicted_le : s.evictions ≤ s.evictedBytes
  evictions_zero : s.evictions = 0 ↔ s.evictedBytes = 0

/-- As long as the requests have not wrapped, no counter of events has. -/
theorem Accounted.toNat_eq {c : Lru} (h : Accounted c log)
    (hreq : (Totals.of log).requests < 2 ^ 64) :
    c.stats.requests.toNat = (Totals.of log).requests ∧ c.stats.hits.toNat = (Totals.of log).hits ∧
      c.stats.misses.toNat = (Totals.of log).misses ∧
      c.stats.evictions.toNat = (Totals.of log).evictions ∧
      c.stats.bypasses.toNat = (Totals.of log).bypasses := by
  obtain ⟨htotal, hins, -, -⟩ := h.balanced
  have key : ∀ m, m ≤ (Totals.of log).requests → (ofNat m).toNat = m := fun m hm =>
    toNat_ofNat_of_lt' (hm.trans_lt hreq)
  rw [h.counts.requests, h.counts.hits, h.counts.misses, h.counts.evictions, h.counts.bypasses]
  refine ⟨key _ le_rfl, key _ ?_, key _ ?_, key _ ?_, key _ ?_⟩ <;> omega

theorem Accounted.toNat_evictedBytes {c : Lru} (h : Accounted c log)
    (hw : (Totals.of log).NoWrap) :
    c.stats.evictedBytes.toNat = (Totals.of log).evictedBytes := by
  rw [h.counts.evictedBytes]
  exact toNat_ofNat_of_lt' hw.2

theorem Accounted.consistent {c : Lru} (h : Accounted c log)
    (hw : (Totals.of log).NoWrap) : c.stats.Consistent := by
  obtain ⟨hreq, hhit, hmiss, hev, hby⟩ := h.toNat_eq hw.1
  have hevb := h.toNat_evictedBytes hw
  obtain ⟨htotal, hins, hle, hzero⟩ := h.balanced
  refine ⟨by omega, ?_, by omega, ?_, ?_⟩
  · rw [UInt64.le_iff_toNat_le]
    omega
  · rw [UInt64.le_iff_toNat_le]
    omega
  · rw [← UInt64.toNat_inj, ← UInt64.toNat_inj, hev, hevb]
    exact hzero

/-- **Invariants of every run.**  Whatever is accessed, with whatever sizes, and
however often the cache is reset, the list, the index and the resident bytes of
the reached cache are coherent, and its event counters are consistent as long
as none of them has wrapped. -/
theorem runOps_invariants (capacityBytes : UInt64) (ops : List CacheOp) :
    ∃ c log, runOps (Lru.new capacityBytes) ops = some (c, log) ∧ c.Coherent ∧
      ((Totals.of log).NoWrap → c.stats.Consistent) := by
  obtain ⟨c, log, hrun, h⟩ := accounted_run (accounted_reset _ capacityBytes) ops
  obtain ⟨r, hr⟩ := h.represented
  exact ⟨c, log, hrun, hr.coherent, h.consistent⟩

end ExpertPin.Cache

/-!
## The shadow refines pure LRU

The specification looks at a whole history of accesses at once: among the keys
accessed so far whose size fits at all, latest first, the cache holds the
longest prefix within its capacity (`pureLru`).  For fixed sizes the policy
computes exactly this (`Residency.slices_accessAll`), hence so does the shadow.
-/

namespace ExpertPin.Cache

open Budget
open List

universe u

section Specification

variable {K : Type u} [DecidableEq K]

/-- The keys accessed so far that are neither empty nor larger than the
capacity, latest first. -/
def cacheable (capacity : ℕ) (size : K → ℕ) (trace : List K) : List K :=
  recency (trace.filter fun k => 0 < size k ∧ size k ≤ capacity)

/-- Pure LRU: the longest prefix of `cacheable` within the capacity. -/
def pureLru (capacity : ℕ) (size : K → ℕ) (trace : List K) : List K :=
  fit size capacity (cacheable capacity size trace)

variable {capacity : ℕ} {size : K → ℕ}

variable {trace : List K}

theorem mem_cacheable {k : K} :
    k ∈ cacheable capacity size trace ↔ k ∈ trace ∧ 0 < size k ∧ size k ≤ capacity := by
  simp [cacheable]

theorem cacheable_append_of_fits {k : K} (hpos : 0 < size k)
    (hle : size k ≤ capacity) : cacheable capacity size (trace ++ [k]) =
      promote k (cacheable capacity size trace) := by
  rw [cacheable, filter_append, filter_singleton]
  simp [hpos, hle, recency_append_singleton, cacheable]

theorem cacheable_append_of_not_fits {k : K}
    (h : ¬(0 < size k ∧ size k ≤ capacity)) :
    cacheable capacity size (trace ++ [k]) = cacheable capacity size trace := by
  rw [cacheable, filter_append, filter_singleton]
  simp [h, cacheable]

theorem mem_of_mem_pureLru {k : K} (h : k ∈ pureLru capacity size trace) :
    k ∈ trace ∧ 0 < size k ∧ size k ≤ capacity :=
  mem_cacheable.mp ((isPrefix_fit _ _ _).subset h)

/-- A held key that is accessed again moves to the front. -/
theorem pureLru_append_of_mem {k : K} (h : k ∈ pureLru capacity size trace) :
    pureLru capacity size (trace ++ [k]) = promote k (pureLru capacity size trace) := by
  obtain ⟨-, hpos, hle⟩ := mem_of_mem_pureLru h
  rw [pureLru, cacheable_append_of_fits hpos hle]
  exact fit_promote_of_mem size h

/-- Another key goes before the longest prefix that leaves room for it. -/
theorem pureLru_append_of_notMem {k : K} (hpos : 0 < size k)
    (hle : size k ≤ capacity) (h : k ∉ pureLru capacity size trace) :
    pureLru capacity size (trace ++ [k]) =
      k :: fit size (capacity - size k) (pureLru capacity size trace) := by
  rw [pureLru, cacheable_append_of_fits hpos hle]
  exact fit_promote_of_notMem size h hle

theorem pureLru_append_of_not_fits {k : K}
    (h : ¬(0 < size k ∧ size k ≤ capacity)) :
    pureLru capacity size (trace ++ [k]) = pureLru capacity size trace := by
  rw [pureLru, cacheable_append_of_not_fits h, pureLru]

end Specification

/-- The accesses of a trace of keys whose sizes are fixed. -/
def sized {K β : Type*} (size : K → β) (trace : List K) : List (K × β) :=
  trace.map fun k => (k, size k)

section Sized

variable {K β : Type*} (size : K → β)

@[simp] theorem sized_nil : sized size [] = [] := rfl

@[simp] theorem sized_cons (k : K) (l : List K) :
    sized size (k :: l) = (k, size k) :: sized size l := rfl

@[simp] theorem sized_append (l m : List K) :
    sized size (l ++ m) = sized size l ++ sized size m := map_append

@[simp] theorem length_sized (l : List K) : (sized size l).length = l.length := length_map _

theorem pair_injective : Function.Injective fun k => (k, size k) :=
  fun _ _ h => congrArg Prod.fst h

theorem mem_sized {l : List K} {k : K} : (k, size k) ∈ sized size l ↔ k ∈ l :=
  mem_map_of_injective (pair_injective size)

theorem map_fst_sized (l : List K) : (sized size l).map Prod.fst = l := by
  rw [sized, map_map]
  exact map_id l

end Sized

namespace Residency

variable {K : Type u} [DecidableEq K]

/-- The residency after a sequence of accesses. -/
def accessAll (r : Residency K) (accesses : List (K × ℕ)) : Residency K :=
  accesses.foldl (fun r p => r.access p.1 p.2) r

/-- The outcomes of a sequence of accesses. -/
def outcomes : Residency K → List (K × ℕ) → List (Outcome K)
  | _, [] => []
  | r, p :: accesses => r.outcome p.1 p.2 :: outcomes (r.access p.1 p.2) accesses

@[simp] theorem accessAll_cons (r : Residency K) (p : K × ℕ) (accesses : List (K × ℕ)) :
    r.accessAll (p :: accesses) = (r.access p.1 p.2).accessAll accesses := rfl

theorem accessAll_append_singleton (r : Residency K) (accesses : List (K × ℕ)) (p : K × ℕ) :
    r.accessAll (accesses ++ [p]) = (r.accessAll accesses).access p.1 p.2 := by
  simp [accessAll]

@[simp] theorem capacity_accessAll (r : Residency K) (accesses : List (K × ℕ)) :
    (r.accessAll accesses).capacity = r.capacity := by
  induction accesses generalizing r with
  | nil => rfl
  | cons p accesses ih => rw [accessAll_cons, ih, capacity_access]

theorem outcomes_append (r : Residency K) (before after : List (K × ℕ)) :
    r.outcomes (before ++ after) = r.outcomes before ++ (r.accessAll before).outcomes after := by
  induction before generalizing r with
  | nil => rfl
  | cons p before ih => exact congrArg _ (ih (r.access p.1 p.2))

@[simp] theorem length_outcomes (r : Residency K) (accesses : List (K × ℕ)) :
    (r.outcomes accesses).length = accesses.length := by
  induction accesses generalizing r with
  | nil => rfl
  | cons p accesses ih => exact congrArg Nat.succ (ih (r.access p.1 p.2))

/-- The outcome of an access is decided by the accesses before it. -/
theorem outcomes_getElem? (r : Residency K) (before : List (K × ℕ)) (p : K × ℕ)
    (after : List (K × ℕ)) :
    (r.outcomes (before ++ p :: after))[before.length]? =
      some ((r.accessAll before).outcome p.1 p.2) := by
  rw [outcomes_append, getElem?_append_right (by simp)]
  simp [outcomes]

/-- **The policy is pure LRU** whenever sizes are fixed. -/
theorem slices_accessAll (capacity : ℕ) (size : K → ℕ) (trace : List K) :
    ((empty capacity).accessAll (sized size trace)).slices =
      sized size (pureLru capacity size trace) := by
  induction trace using reverseRecOn with
  | nil => rfl
  | append_singleton trace k ih =>
    have hcap : ((empty capacity).accessAll (sized size trace)).capacity = capacity :=
      capacity_accessAll _ _
    rw [sized_append, sized_cons, sized_nil, accessAll_append_singleton]
    generalize (empty capacity).accessAll (sized size trace) = r at ih hcap
    have hmem : (k, size k) ∈ r.slices ↔ k ∈ pureLru capacity size trace := by
      rw [ih, mem_sized]
    have hkeys : k ∈ r.keys ↔ k ∈ pureLru capacity size trace := by
      rw [keys, ih, map_fst_sized]
    by_cases hin : k ∈ pureLru capacity size trace
    · -- a hit: the key moves to the front on both sides
      rw [slices_access_hit (hmem.mpr hin), ih, sized, promote_map (pair_injective size),
        pureLru_append_of_mem hin, sized]
    · have hforget : r.forget k = r := forget_eq_self (mt hkeys.mp hin)
      by_cases hb : size k = 0 ∨ r.capacity < size k
      · -- a bypass: neither side changes
        rw [slices_access_bypass (mt hmem.mp hin) hb, hforget, ih,
          pureLru_append_of_not_fits (by omega)]
      · -- an insertion: the same prefix is kept on both sides
        rw [slices_access_insert (mt hmem.mp hin) hb, hforget, keep, ih, hcap, sized, fit_map,
          pureLru_append_of_notMem (by omega) (by omega) hin, sized_cons]
        rfl

theorem keys_accessAll (capacity : ℕ) (size : K → ℕ) (trace : List K) :
    ((empty capacity).accessAll (sized size trace)).keys = pureLru capacity size trace := by
  rw [keys, slices_accessAll, map_fst_sized]

/-- An access hits exactly the keys that pure LRU holds. -/
theorem outcome_accessAll_eq_hit_iff (capacity : ℕ) (size : K → ℕ) (trace : List K) (k : K) :
    ((empty capacity).accessAll (sized size trace)).outcome k (size k) = .hit ↔
      k ∈ pureLru capacity size trace := by
  rw [outcome_eq_hit_iff, slices_accessAll, mem_sized]

end Residency

/-! ## Runs of the shadow -/

/-- A sequence of accesses. -/
def Lru.replay (c : Lru) (accesses : List (CacheKey × UInt64)) : Option (Lru × List CacheAccess) :=
  runOps c (accesses.map fun p => .access p.1 p.2)

/-- The slices of a sequence of accesses, with sizes as numbers. -/
def toSlices (accesses : List (CacheKey × UInt64)) : List (CacheKey × ℕ) :=
  accesses.map fun p => (p.1, p.2.toNat)

theorem toSlices_sized (size : CacheKey → UInt64) (trace : List CacheKey) :
    toSlices (sized size trace) = sized (UInt64.toNat ∘ size) trace := by
  simp [toSlices, sized]

/-- The simulation along a sequence of accesses. -/
theorem Lru.replay_spec {c : Lru} {r : Residency CacheKey} (h : Represents c r)
    (accesses : List (CacheKey × UInt64)) :
    ∃ d, c.replay accesses = some (d, (r.outcomes (toSlices accesses)).map Outcome.report) ∧
      Represents d (r.accessAll (toSlices accesses)) := by
  have key : ∀ (log : List CacheAccess) (c : Lru) (r : Residency CacheKey), Represents c r →
      ∃ d, (accesses.map fun p => CacheOp.access p.1 p.2).foldlM CacheOp.apply (c, log) =
          some (d, log ++ (r.outcomes (toSlices accesses)).map Outcome.report) ∧
        Represents d (r.accessAll (toSlices accesses)) := by
    induction accesses with
    | nil => exact fun log c r h => ⟨c, by simp [toSlices, Residency.outcomes], h⟩
    | cons p accesses ih =>
      intro log c r h
      obtain ⟨d, hd, hrep, -⟩ := Lru.access_spec h p.1 p.2
      obtain ⟨e, he, hrep'⟩ := ih (log ++ [(r.outcome p.1 p.2.toNat).report]) d _ hrep
      refine ⟨e, ?_, hrep'⟩
      rw [map_cons, foldlM_cons, CacheOp.apply, hd]
      simpa [toSlices, Residency.outcomes] using he
  obtain ⟨d, hd, hrep⟩ := key [] c r h
  exact ⟨d, hd, hrep⟩

/-- The keys of the list are those of the residency, in order. -/
theorem Represents.map_key {c : Lru} {r : Residency CacheKey} (h : Represents c r) :
    c.entries.map Node.key = r.keys := by
  rw [Residency.keys, ← h.slices_eq, map_map]
  rfl

theorem Outcome.report_hit_iff (o : Outcome CacheKey) : o.report.hit = true ↔ o = .hit := by
  cases o <;> simp [Outcome.report]

theorem Outcome.report_bypassed_iff (o : Outcome CacheKey) :
    o.report.bypassed = true ↔ o = .bypass := by
  cases o <;> simp [Outcome.report]

/-- **The shadow refines pure LRU.**  On a freshly reset cache and with fixed
sizes, no access follows a dangling iterator, the entries are in order the keys
of pure LRU, an access hits exactly when pure LRU held its key just before, and
bypasses exactly when its size is zero or exceeds the capacity, or the capacity
is zero. -/
theorem access_refines_pureLru (c₀ : Lru) (capacity : UInt64) (size : CacheKey → UInt64)
    (trace : List CacheKey) :
    ∃ c log, (c₀.reset capacity).replay (sized size trace) = some (c, log) ∧
      c.entries.map Node.key = pureLru capacity.toNat (UInt64.toNat ∘ size) trace ∧
      ∀ before k after, trace = before ++ k :: after → ∃ a, log[before.length]? = some a ∧
          (a.hit = true ↔ k ∈ pureLru capacity.toNat (UInt64.toNat ∘ size) before) ∧
          (a.bypassed = true ↔ size k = 0 ∨ capacity < size k ∨ capacity = 0) := by
  obtain ⟨c, hrun, hrep⟩ :=
    Lru.replay_spec (represents_reset c₀ capacity) (sized size trace)
  rw [toSlices_sized] at hrun hrep
  refine ⟨c, _, hrun, hrep.map_key.trans (Residency.keys_accessAll _ _ _), ?_⟩
  rintro before k after rfl
  have hget := Residency.outcomes_getElem? (.empty capacity.toNat)
    (sized (UInt64.toNat ∘ size) before) (k, (size k).toNat)
    (sized (UInt64.toNat ∘ size) after)
  rw [length_sized] at hget
  refine ⟨(((Residency.empty capacity.toNat).accessAll
    (sized (UInt64.toNat ∘ size) before)).outcome k (size k).toNat).report, ?_, ?_, ?_⟩
  · rw [getElem?_map, sized_append, sized_cons]
    exact congrArg (Option.map Outcome.report) hget
  · rw [Outcome.report_hit_iff]
    exact Residency.outcome_accessAll_eq_hit_iff capacity.toNat (UInt64.toNat ∘ size) before k
  · rw [Outcome.report_bypassed_iff, Residency.outcome_eq_bypass_iff, Residency.capacity_accessAll,
      ← UInt64.toNat_inj, ← UInt64.toNat_inj, UInt64.lt_iff_toNat_lt, UInt64.toNat_zero]
    change _ ∨ capacity.toNat < _ ↔ _
    omega

end ExpertPin.Cache
