import ExpertPin.Lib.Binary64
import ExpertPin.Lib.Credit
import ExpertPin.Prefetch.Prefetched

/-!
# Prefetch hits

A prefetch hit is counted for an expert that a kernel entry finds in a range of the
ticket, and `prefetched` was increased once for that range when it was enqueued.  So
a range can be hit more often than it was counted: by several experts of it, and by
entry after entry.  The ranges that an enqueue puts on a ticket are taken as credit
that the entries spend (`credit`); as long as they spend no more than there is, the
hit rate is at most one.
-/

namespace ExpertPin.Prefetch

open Engine

/-- What an observation does to the credit of the tickets. -/
def Observation.credit : Observation → Option (Credit.Entry ℕ)
  | .enqueued _ r (.checked .accepted) => some (.earn r.w r.ranges.length)
  | .entered w ids prefetched =>
    some (.spend w.ptr (coveredExperts w prefetched (seenExperts w ids)))
  | .reset => some .clear
  | _ => none

/-- The ranges that accepted enqueues put on tickets, and the experts in them that
kernel entries meet. -/
def credit (obs : List Observation) : List (Credit.Entry ℕ) := obs.filterMap Observation.credit

/-- `prefetch_hit_rate` as `llama_moe_prefetch_stats_to_json` reports it. -/
def prefetchHitRate (stats : Stats) : ℚ :=
  if stats.prefetched ≠ 0 then
    Binary64.round64 (Binary64.round64 stats.prefetchHits / Binary64.round64 stats.prefetched)
  else 0

theorem prefetchHitRate_le_one {stats : Stats} (h : stats.prefetchHits ≤ stats.prefetched) :
    prefetchHitRate stats ≤ 1 := by
  unfold prefetchHitRate
  split
  · refine Binary64.round64_div_le_one (Binary64.round64_nonneg (Nat.cast_nonneg _)) ?_
    exact Binary64.round64_mono (Nat.cast_nonneg _) (by exact_mod_cast h)
  · exact zero_le_one

namespace Engine

/-- The counters after the observations `obs`. -/
structure Counted (obs : List Observation) (s : Engine) : Prop where
  requests : s.stats.requests = s.stats.hits + s.stats.misses
  prefetchHits_le_hits : s.stats.prefetchHits ≤ s.stats.hits
  prefetched : s.stats.prefetched = (Credit.totals (credit obs)).earned
  prefetchHits_le : s.stats.prefetchHits ≤ (Credit.totals (credit obs)).spent

variable {s t : Engine} {obs past : List Observation}

theorem credit_append_singleton (past : List Observation) (o : Observation) :
    credit (past ++ [o]) = credit past ++ o.credit.toList := by
  cases h : o.credit <;> simp [credit, h]

theorem Counted.of_stats (hs : Counted past s) (hstats : t.stats = s.stats) : Counted past t := by
  obtain ⟨hreq, hle, hpre, hhits⟩ := hs
  rw [← hstats] at hreq hle hpre hhits
  exact ⟨hreq, hle, hpre, hhits⟩

/-- What an enqueue counts it earns. -/
theorem totals_enqueued (past : List Observation) (caller : Caller) (r : Request ℕ)
    (outcome : Outcome) :
    Credit.totals (credit (past ++ [.enqueued caller r outcome])) =
      { Credit.totals (credit past) with
        earned := (Credit.totals (credit past)).earned +
          (Observation.enqueued caller r outcome).counted } := by
  rw [credit_append_singleton]
  by_cases hacc : outcome = .checked .accepted
  · subst hacc
    exact Credit.totals_append_singleton _ _
  · have hnone : (Observation.enqueued caller r outcome).credit = none := by
      unfold Observation.credit
      split
      case h_1 heq => exact absurd (Observation.enqueued.inj heq).2.2 hacc
      case h_2 heq => exact absurd heq (by simp)
      case h_3 heq => exact absurd heq (by simp)
      case h_4 => rfl
    rw [hnone, Observation.counted_of_ne hacc]
    simp

theorem Counted.enqueued (hs : Counted past s) (caller : Caller) (w : Tensor) (r : Request ℕ) :
    Counted (past ++ [.enqueued caller r (s.enqueueRanges w r).1]) (s.enqueueRanges w r).2 := by
  have hstats := enqueueRanges_stats (s := s) caller w r
  have htotals := totals_enqueued past caller r (s.enqueueRanges w r).1
  constructor
  · rw [hstats]
    exact hs.requests
  · rw [hstats]
    exact hs.prefetchHits_le_hits
  · rw [hstats, htotals, hs.prefetched]
  · rw [hstats, htotals]
    exact hs.prefetchHits_le

theorem Move.counted (h : Move s obs t) (hs : Counted past s) : Counted (past ++ obs) t := by
  cases h with
  | silent _ stats =>
    rw [List.append_nil]
    exact hs.of_stats stats
  | accounted =>
    rw [List.append_nil]
    exact ⟨hs.requests, hs.prefetchHits_le_hits, hs.prefetched, hs.prefetchHits_le⟩
  | enqueued w requests => exact hs.enqueued _ w _
  | entered os pinned w ids =>
    have hentry := attributed_foldl os pinned (s.prefetchedRanges w) w s.stats (seenExperts w ids)
    have htotals : Credit.totals (credit (past ++ [.entered w ids (s.prefetchedRanges w)])) =
        (Credit.totals (credit past)).add (.spend w.ptr
          (coveredExperts w (s.prefetchedRanges w) (seenExperts w ids))) := by
      rw [credit_append_singleton]
      exact Credit.totals_append_singleton _ _
    constructor
    · exact (hentry.requests.trans (congrArg (· + _) hs.requests)).trans hentry.probes.symm
    · have hle := hentry.prefetchHits_le_hits
      have hbefore := hs.prefetchHits_le_hits
      dsimp only
      omega
    · rw [htotals]
      exact hentry.prefetched.trans hs.prefetched
    · rw [htotals]
      exact hentry.prefetchHits_le.trans (add_le_add_left hs.prefetchHits_le _)
  | reset =>
    have htotals : Credit.totals (credit (past ++ [.reset])) = {} := by
      rw [credit_append_singleton]
      exact Credit.totals_append_singleton _ _
    exact ⟨rfl, le_rfl, by rw [htotals]; rfl, Nat.zero_le _⟩
  | pool e _ stats =>
    have hnone : credit (past ++ [.pool e]) = credit past := by
      rw [credit_append_singleton]
      exact List.append_nil _
    obtain ⟨hreq, hle, hpre, hhits⟩ := hs.of_stats stats
    rw [← hnone] at hpre hhits
    exact ⟨hreq, hle, hpre, hhits⟩

theorem Moves.counted (h : Moves s obs t) (hs : Counted [] s) : Counted obs t := by
  obtain ⟨tr, rfl, hsteps⟩ := h
  refine hsteps.history (P := fun tr t => Counted tr.flatten t) ?_ hs
  intro tr t obs u _ ht hmove
  rw [List.flatten_append, List.flatten_singleton]
  exact hmove.counted ht

/-- **The residency counters.**  In every run of the engine each request is a hit or a
miss, and prefetch hits are hits.  In every run whose kernel entries find no more
experts in the ranges of a ticket than there is credit for them, there are no more
prefetch hits than prefetched ranges, and the hit rate that is reported is at most
one. -/
theorem prefetchHits_le {enabled : Bool} {tr : List (List Observation)}
    (h : Runs.Steps Step { statsEnabled := enabled } tr s) :
    s.stats.requests = s.stats.hits + s.stats.misses ∧ s.stats.prefetchHits ≤ s.stats.hits ∧
      (Credit.Backed (credit tr.flatten) →
        s.stats.prefetchHits ≤ s.stats.prefetched ∧ prefetchHitRate s.stats ≤ 1) := by
  obtain ⟨hreq, hhits, hpre, hle⟩ := (moves_of_steps h).counted ⟨rfl, le_rfl, rfl, le_rfl⟩
  refine ⟨hreq, hhits, fun hbacked => ?_⟩
  have hbound : s.stats.prefetchHits ≤ s.stats.prefetched := by
    rw [hpre]
    exact hle.trans (Credit.spent_le_earned hbacked)
  exact ⟨hbound, prefetchHitRate_le_one hbound⟩

/-! ## Runs with more prefetch hits than there were ranges -/

/-- All pages are resident. -/
def allResident : Os where
  page := 4096
  mincore _ _ := some fun _ => true

/-- The experts of the list are enqueued, and each of the lists after it is met by a
kernel entry. -/
def enqueueAndEnter (experts : List ℕ) (entries : List (List ℕ)) : List Operation :=
  oneMapping ++ .node (.mulMatId (some twoSlices) (some (selecting experts))) ::
    entries.map fun experts =>
      .kernelHook allResident (.mulMatId (some twoSlices) (some (selecting experts))) 0

/-- One expert is enqueued and met once. -/
theorem prefetchHits_le_oneEntry :
    ∃ tr s, Runs.perform step { statsEnabled := true } (enqueueAndEnter [1] [[1]]) = some (tr, s) ∧
      Credit.Backed (credit tr.flatten) ∧
      s.stats.requests = s.stats.hits + s.stats.misses ∧ s.stats.prefetchHits ≤ s.stats.hits ∧
      s.stats.prefetchHits ≤ s.stats.prefetched ∧ prefetchHitRate s.stats ≤ 1 := by
  have hcredit : (Runs.perform step { statsEnabled := true } (enqueueAndEnter [1] [[1]])).map
      (fun p => credit p.1.flatten) = some [.earn 1 1, .spend 1 1] := rfl
  obtain ⟨⟨tr, s⟩, hp, hlog⟩ := Option.map_eq_some_iff.mp hcredit
  have hbacked : Credit.Backed (credit tr.flatten) := by
    rw [hlog]
    have hearned : Credit.Backed ([] ++ [.earn 1 1]) :=
      Credit.backed_append_singleton.mpr ⟨Credit.backed_nil, trivial⟩
    show Credit.Backed ([.earn 1 1] ++ [.spend 1 1])
    exact Credit.backed_append_singleton.mpr ⟨hearned, le_rfl⟩
  obtain ⟨hreq, hhits, hle⟩ := prefetchHits_le (Runs.steps_of_perform _ hp)
  exact ⟨tr, s, hp, hbacked, hreq, hhits, hle hbacked⟩

/-- Two consecutive experts share a range and are both met in it; one expert is met
twice while its range is enqueued once. -/
theorem prefetchHits_gt_prefetched :
    [enqueueAndEnter [0, 1] [[0, 1]], enqueueAndEnter [1] [[1], [1]]].map (fun operations =>
      (Runs.perform step { statsEnabled := true } operations).map fun p =>
        (p.2.stats.prefetched, p.2.stats.prefetchHits)) = [some (1, 2), some (1, 2)] := by
  decide +kernel

end Engine

end ExpertPin.Prefetch
