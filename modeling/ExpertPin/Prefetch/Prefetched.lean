import ExpertPin.Prefetch.Engine
import ExpertPin.Prefetch.Selection
import Mathlib.Data.Fin.VecNotation

/-!
# What a step of the engine is made of

An operation may enqueue for two weights and attribute two kernel entries.  Each
step is a short run of moves with at most one observation each (`moves_of_step`),
and what counters do is proved by cases on a move.
-/

namespace ExpertPin.Prefetch

open List
open Option

/-- The requests that the callers of `enqueue_ranges` make. -/
inductive Caller.Requests : Caller → Request ℕ → Prop
  | selective (w : Tensor) (ids : Ids) (epoch : UInt64) :
      Requests (.selective w ids) (Prefetch.selective w ids epoch)
  | manifest {w : Tensor} {expertIds : List ℕ} {ranges : List (ℕ × ℕ)} (epoch : UInt64)
      (collect : collectOrderedExpertRanges w expertIds = some ranges) :
      Requests (.manifest w expertIds) (Prefetch.manifest w ranges epoch)
  | lookahead (registry : Registry) (w : Tensor) (epoch : UInt64) :
      Requests (.lookahead w) (Prefetch.lookahead registry w epoch)

namespace Engine

inductive Move (s : Engine) : List Observation → Engine → Prop
  | silent (t : Engine) (stats : t.stats = s.stats) : Move s [] t
  | accounted (residentBytes capacityBytes : ℕ) :
      Move s [] { s with stats := { s.stats with residentBytes, capacityBytes } }
  | enqueued {caller : Caller} {r : Request ℕ} (w : Tensor) (requests : caller.Requests r) :
      Move s [.enqueued caller r (s.enqueueRanges w r).1] (s.enqueueRanges w r).2
  | entered (os : Os) (pinned : List (ℕ × ℕ)) (w : Tensor) (ids : Ids) :
      Move s [.entered w ids (s.prefetchedRanges w)]
        { s with stats := (seenExperts w ids).foldl
                    (attributeExpert os pinned (s.prefetchedRanges w) w) s.stats }
  | reset : Move s [.reset] s.resetStats
  | pool (e : Event ℕ) (t : Engine) (stats : t.stats = s.stats) : Move s [.pool e] t

/-- A run of moves, and what is observed of it. -/
def Moves (s : Engine) (obs : List Observation) (t : Engine) : Prop :=
  ∃ tr, tr.flatten = obs ∧ Runs.Steps Move s tr t

variable {s t u : Engine} {obs obs' : List Observation}

theorem Move.moves (h : Move s obs t) : Moves s obs t := ⟨[obs], by simp, .single h⟩

theorem Moves.refl (s : Engine) : Moves s [] s := ⟨[], rfl, .refl⟩

theorem Moves.trans (h : Moves s obs t) (h' : Moves t obs' u) : Moves s (obs ++ obs') u := by
  obtain ⟨tr, rfl, hsteps⟩ := h
  obtain ⟨tr', rfl, hsteps'⟩ := h'
  exact ⟨tr ++ tr', by simp, hsteps.trans hsteps'⟩

/-- The moves of one operation after the other. -/
theorem Moves.andThen {p : List Observation × Engine} {f : Engine → List Observation × Engine}
    (h : Moves s p.1 p.2) (hf : ∀ s, Moves s (f s).1 (f s).2) :
    Moves s (andThen p f).1 (andThen p f).2 := h.trans (hf p.2)

/-! ## The operations -/

theorem moves_enqueueFor {caller : Caller} {r : Request ℕ} (w : Tensor)
    (h : caller.Requests r) : Moves s (s.enqueueFor caller w r).1 (s.enqueueFor caller w r).2 :=
  (Move.enqueued w h).moves

theorem moves_node (node : Node) : Moves s (s.node node).1 (s.node node).2 := by
  unfold Engine.node
  split
  · exact .refl s
  · exact moves_enqueueFor _ (.selective _ _ _)
  · exact (moves_enqueueFor _ (.selective _ _ _)).andThen
      fun s => moves_enqueueFor _ (.selective _ _ _)

theorem moves_tensor (w : Tensor) : Moves s (s.tensor w).1 (s.tensor w).2 := by
  unfold Engine.tensor
  split
  · exact .refl s
  · exact moves_enqueueFor _ (.lookahead _ _ _)

theorem moves_experts (w : Tensor) (expertIds : List ℕ) :
    Moves s (s.experts w expertIds).2.1 (s.experts w expertIds).2.2 := by
  unfold Engine.experts
  split
  · exact .refl s
  case h_2 ranges hranges =>
    have hregister : Moves s []
        { s with residentRanges := registerResidentRanges s.residentRanges w ranges } :=
      Move.moves (.silent _ rfl)
    exact hregister.trans (moves_enqueueFor w (.manifest s.epoch hranges))

theorem moves_attributeKernelEntry (os : Os) (w : Tensor) (ids : Ids) :
    Moves s (s.attributeKernelEntry os w ids).1 (s.attributeKernelEntry os w ids).2 := by
  unfold Engine.attributeKernelEntry
  split
  · exact .refl s
  · exact (Move.entered os _ w ids).moves

theorem moves_attributeBoth (os : Os) (w0 : Tensor) (w1 : Option Tensor) (ids : Ids) :
    Moves s (s.attributeBoth os w0 w1 ids).1 (s.attributeBoth os w0 w1 ids).2 := by
  cases w1 with
  | none => exact moves_attributeKernelEntry os w0 ids
  | some w1 =>
    exact (moves_attributeKernelEntry os w0 ids).andThen
      fun s => moves_attributeKernelEntry os w1 ids

theorem moves_kernelHook (os : Os) (node : Node) (ith : ℕ) :
    Moves s (s.kernelHook os node ith).1 (s.kernelHook os node ith).2 := by
  unfold Engine.kernelHook
  split
  · exact .refl s
  · split
    · exact .refl s
    · split
      · exact moves_attributeBoth os _ _ _
      · exact (moves_attributeBoth os _ _ _).andThen fun s => moves_node node

theorem moves_account (os : Os) (w : Tensor) : Moves s [] (s.accountTensorResidency os w) := by
  unfold accountTensorResidency
  dsimp only
  split
  · exact (Move.accounted _ _).moves
  · exact .refl s

/-- Every step of the engine is a run of moves. -/
theorem moves_of_step (h : Step s obs t) : Moves s obs t := by
  obtain ⟨operation, h⟩ := h
  cases operation with
  | pool action =>
    change s.poolStep action = some (obs, t) at h
    unfold poolStep at h
    split at h
    case isTrue =>
      obtain ⟨pool, -, h⟩ := bind_eq_some_iff.mp h
      obtain ⟨p, -, h⟩ := map_eq_some_iff.mp h
      obtain ⟨rfl, rfl⟩ := Prod.mk.inj h
      exact Move.moves (.pool p.1 _ rfl)
    case isFalse => exact absurd h (by simp)
  | registerMapping base size =>
    obtain ⟨rfl, rfl⟩ := Prod.mk.inj (some.inj h)
    refine Move.moves (.silent _ ?_)
    unfold Engine.registerMapping
    split <;> rfl
  | setThreads nThreads supported =>
    obtain ⟨rfl, rfl⟩ := Prod.mk.inj (some.inj h)
    refine Move.moves (.silent _ ?_)
    unfold Engine.setThreads
    split
    · rfl
    · split <;> rfl
  | unregisterMapping _ | newEpoch =>
    obtain ⟨rfl, rfl⟩ := Prod.mk.inj (some.inj h)
    exact Move.moves (.silent _ rfl)
  | node node =>
    obtain ⟨rfl, rfl⟩ := Prod.mk.inj (some.inj h)
    exact moves_node node
  | tensor w =>
    obtain ⟨rfl, rfl⟩ := Prod.mk.inj (some.inj h)
    exact moves_tensor w
  | experts w expertIds =>
    obtain ⟨rfl, rfl⟩ := Prod.mk.inj (some.inj h)
    exact moves_experts w expertIds
  | account os w =>
    obtain ⟨rfl, rfl⟩ := Prod.mk.inj (some.inj h)
    exact moves_account os w
  | kernelHook os node ith =>
    obtain ⟨rfl, rfl⟩ := Prod.mk.inj (some.inj h)
    exact moves_kernelHook os node ith
  | resetStats =>
    obtain ⟨rfl, rfl⟩ := Prod.mk.inj (some.inj h)
    exact Move.reset.moves

/-- A run of the engine is a run of moves with the same observations. -/
theorem moves_of_steps {tr : List (List Observation)} (h : Runs.Steps Step s tr t) :
    Moves s tr.flatten t := by
  induction h with
  | refl => exact .refl s
  | snoc _ step ih =>
    rw [flatten_append, flatten_singleton]
    exact ih.trans (moves_of_step step)

/-! ## The counters of a kernel entry -/

/-- The experts of an entry whose slices begin in a range of the ticket. -/
def coveredExperts (w : Tensor) (prefetched : List (ℕ × ℕ)) (experts : List ℕ) : ℕ :=
  (experts.filter fun id => prefetchedCover w.data prefetched (id * w.stride)).length

/-- What an entry for a number of experts, some of them covered, adds to the counters. -/
structure Attributed (before after : Stats) (experts covered : ℕ) : Prop where
  requests : after.requests = before.requests + experts
  probes : after.hits + after.misses = before.hits + before.misses + experts
  prefetched : after.prefetched = before.prefetched
  prefetchHits_le : after.prefetchHits ≤ before.prefetchHits + covered
  prefetchHits_le_hits : after.prefetchHits + before.hits ≤ before.prefetchHits + after.hits

theorem attributed_attributeExpert (os : Os) (pinned prefetched : List (ℕ × ℕ)) (w : Tensor)
    (stats : Stats) (id : ℕ) :
    Attributed stats (attributeExpert os pinned prefetched w stats id) 1
      (coveredExperts w prefetched [id]) := by
  cases hres : expertResident os pinned w (id * w.stride) with
  | true =>
    cases hcover : prefetchedCover w.data prefetched (id * w.stride) with
    | true =>
      constructor <;>
        simp [attributeExpert, coveredExperts, hres, hcover, add_right_comm, add_assoc]
    | false => constructor <;> simp [attributeExpert, hres, hcover, add_right_comm]
  | false => constructor <;> simp [attributeExpert, hres, add_assoc]

theorem attributed_foldl (os : Os) (pinned prefetched : List (ℕ × ℕ)) (w : Tensor) (stats : Stats)
    (experts : List ℕ) :
    Attributed stats (experts.foldl (attributeExpert os pinned prefetched w) stats)
      experts.length (coveredExperts w prefetched experts) := by
  induction experts generalizing stats with
  | nil => constructor <;> simp
  | cons id experts ih =>
    have hhead := attributed_attributeExpert os pinned prefetched w stats id
    have hrest := ih (attributeExpert os pinned prefetched w stats id)
    have hcovered : coveredExperts w prefetched (id :: experts) =
        coveredExperts w prefetched [id] + coveredExperts w prefetched experts := by
      rw [coveredExperts, coveredExperts, coveredExperts, ← length_append,
        ← filter_append, singleton_append]
    rw [foldl_cons, length_cons, hcovered]
    constructor
    · rw [hrest.requests, hhead.requests, add_assoc, add_comm 1]
    · rw [hrest.probes, hhead.probes, add_assoc, add_comm 1]
    · rw [hrest.prefetched, hhead.prefetched]
    · have h := hrest.prefetchHits_le.trans (add_le_add_left hhead.prefetchHits_le _)
      rwa [add_assoc] at h
    · have h₁ := hhead.prefetchHits_le_hits
      have h₂ := hrest.prefetchHits_le_hits
      omega

end Engine

end ExpertPin.Prefetch

/-!
## What the counter `prefetched` means

The counter is meant to count the expert slices that enqueues of selected experts and
of manifests cover.  It is increased by one for each range, on the path that all
callers share (`Engine.prefetched_eq`).  The two agree at every moment of a run
exactly if all its enqueues are plain: one range for each slice, and no range of a
lookahead (`Engine.prefetched_eq_slices_iff`).
-/

namespace ExpertPin.Prefetch

open List

/-- The enqueue had no effect: the engine is off, the tensor not mapped, or it was
enqueued before in this epoch. -/
def Outcome.Suppressed (outcome : Outcome) : Prop :=
  outcome ≠ .checked .accepted ∧ outcome ≠ .checked .backpressure

instance (outcome : Outcome) : Decidable outcome.Suppressed := inferInstanceAs (Decidable (_ ∧ _))

variable {w : Tensor}

theorem slices_pos_of_collect {expertIds : List ℕ} {ranges : List (ℕ × ℕ)}
    (h : collectOrderedExpertRanges w expertIds = some ranges) : 0 < slices w ranges := by
  obtain ⟨hstride, hordered⟩ := collectOrderedExpertRanges_eq_some h
  obtain ⟨id, hid⟩ : ∃ id, id ∈ expertIds := by
    refine exists_mem_of_ne_nil _ fun hnil => ?_
    simp [collectOrderedExpertRanges, hnil] at h
  rw [slices_eq_card hstride]
  refine Finset.card_pos.mpr ⟨id, Finset.mem_filter.mpr ⟨?_, ?_⟩⟩
  · exact Finset.mem_range.mpr (lt_nAs_of_ordered hordered id hid)
  · exact (covers_ordered_iff hstride hordered id).mpr hid

namespace Observation

/-- What an enqueue adds to the counter. -/
def counted : Observation → ℕ
  | .enqueued _ r (.checked .accepted) => r.ranges.length
  | _ => 0

/-- What it should add. -/
def covered : Observation → ℕ
  | .enqueued (.selective w _) r outcome => if outcome.Suppressed then 0 else slices w r.ranges
  | .enqueued (.manifest w _) r outcome => if outcome.Suppressed then 0 else slices w r.ranges
  | _ => 0

/-- A selection in which no expert follows another one, a manifest that lists no
expert twice and is not dropped, or a lookahead that has nothing to stream; or nothing
is enqueued. -/
def Plain : Observation → Prop
  | .enqueued (.selective w ids) _ outcome =>
    outcome.Suppressed ∨ if w.nAs ≤ 1 ∨ w.stride = 0 then 0 < w.nbytes
      else ∀ id, ids.seen id = true → ids.seen (id + 1) = true → id + 1 < w.nAs →
        w.nbytes ≤ (id + 1) * w.stride
  | .enqueued (.manifest _ expertIds) _ outcome =>
    outcome.Suppressed ∨ outcome ≠ .checked .backpressure ∧ expertIds.Nodup
  | .enqueued (.lookahead _) r outcome => outcome = .checked .accepted → r.ranges = []
  | _ => True

/-- What the observations of a run are like. -/
def Genuine : Observation → Prop
  | .enqueued caller r outcome =>
    caller.Requests r ∧ (r.urgent = true → outcome ≠ .checked .backpressure)
  | _ => True

variable {outcome : Outcome}

theorem counted_of_ne {caller : Caller} {r : Request ℕ}
    (h : outcome ≠ .checked .accepted) : (enqueued caller r outcome).counted = 0 := by
  unfold counted
  split
  case h_1 heq => exact absurd (enqueued.inj heq).2.2 h
  case h_2 => rfl

/-- An enqueue that is not suppressed is accepted or dropped. -/
theorem accepted_or_dropped (h : ¬outcome.Suppressed) :
    outcome = .checked .accepted ∨ outcome = .checked .backpressure := by
  unfold Outcome.Suppressed at h
  tauto

theorem counted_eq_covered_selective {ids : Ids} {epoch : UInt64}
    (hurgent : outcome ≠ .checked .backpressure) :
    (enqueued (.selective w ids) (selective w ids epoch) outcome).counted =
        (enqueued (.selective w ids) (selective w ids epoch) outcome).covered ↔
      (enqueued (.selective w ids) (selective w ids epoch) outcome).Plain := by
  by_cases hsupp : outcome.Suppressed
  · rw [counted_of_ne hsupp.1]
    simp [covered, Plain, hsupp]
  · obtain rfl := (accepted_or_dropped hsupp).resolve_right hurgent
    simp only [counted, covered, Plain, hsupp, if_false, false_or]
    change (collectSelectedRanges w ids).length = slices w (collectSelectedRanges w ids) ↔ _
    split
    case isTrue hdense => exact length_dense_eq_slices_iff hdense
    case isFalse hslices =>
      rw [not_or, not_le] at hslices
      exact length_selected_eq_slices_iff hslices.1 (Nat.pos_of_ne_zero hslices.2)

theorem counted_eq_covered_manifest {expertIds : List ℕ} {ranges : List (ℕ × ℕ)}
    (hcollect : collectOrderedExpertRanges w expertIds = some ranges) {epoch : UInt64}
    :
    (enqueued (.manifest w expertIds) (manifest w ranges epoch) outcome).counted =
        (enqueued (.manifest w expertIds) (manifest w ranges epoch) outcome).covered ↔
      (enqueued (.manifest w expertIds) (manifest w ranges epoch) outcome).Plain := by
  by_cases hsupp : outcome.Suppressed
  · rw [counted_of_ne hsupp.1]
    simp [covered, Plain, hsupp]
  · rcases accepted_or_dropped hsupp with rfl | rfl
    · simp only [counted, covered, Plain, hsupp, if_false, false_or]
      change ranges.length = slices w ranges ↔ _
      rw [length_ordered_eq_slices_iff hcollect]
      simp
    · have hslices : slices w ranges ≠ 0 := (slices_pos_of_collect hcollect).ne'
      simp only [counted, covered, Plain, hsupp, if_false, false_or]
      simpa [manifest] using hslices.symm

theorem counted_eq_covered_lookahead {r : Request ℕ} :
    (enqueued (.lookahead w) r outcome).counted = (enqueued (.lookahead w) r outcome).covered ↔
      (enqueued (.lookahead w) r outcome).Plain := by
  by_cases hacc : outcome = .checked .accepted
  · subst hacc
    simp [counted, covered, Plain]
  · rw [counted_of_ne hacc]
    simp [covered, Plain, hacc]

/-- An enqueue is counted as it should be exactly if it is plain. -/
theorem counted_eq_covered_iff {o : Observation} (h : o.Genuine) :
    o.counted = o.covered ↔ o.Plain := by
  cases o with
  | enqueued caller r outcome =>
    obtain ⟨hrequests, hurgent⟩ := h
    cases hrequests with
    | selective w ids epoch => exact counted_eq_covered_selective (hurgent rfl)
    | manifest epoch hcollect => exact counted_eq_covered_manifest hcollect
    | lookahead registry w epoch => exact counted_eq_covered_lookahead
  | _ => simp [counted, covered, Plain]

end Observation

/-! ## Since the last reset -/

/-- What is kept of the observations when another one is made. -/
def keepSince (kept : List Observation) : Observation → List Observation
  | .reset => []
  | o => kept ++ [o]

/-- The observations since the counters were last reset. -/
def sinceReset (obs : List Observation) : List Observation := obs.foldl keepSince []

theorem sinceReset_append_singleton (obs : List Observation) (o : Observation) :
    sinceReset (obs ++ [o]) = keepSince (sinceReset obs) o := by
  rw [sinceReset, foldl_append, foldl_cons, foldl_nil, ← sinceReset]

theorem mem_of_mem_sinceReset {obs : List Observation} {o : Observation} (h : o ∈ sinceReset obs) :
    o ∈ obs := by
  induction obs using reverseRecOn with
  | nil => exact h
  | append_singleton obs last ih =>
    rw [sinceReset_append_singleton] at h
    unfold keepSince at h
    split at h
    · exact absurd h not_mem_nil
    · rcases mem_append.mp h with hold | hlast
      · exact mem_append_left _ (ih hold)
      · exact mem_append_right _ hlast

/-- The counter after the observations. -/
def prefetchedAfter (obs : List Observation) : ℕ :=
  ((sinceReset obs).map Observation.counted).sum

/-- The slices that the enqueues since the last reset cover. -/
def coveredAfter (obs : List Observation) : ℕ :=
  ((sinceReset obs).map Observation.covered).sum

/-- The two agree from the first observation to the last exactly if each is counted as
it should be. -/
theorem prefetchedAfter_eq_iff {obs : List Observation} (h : ∀ o ∈ obs, o.Genuine) :
    (∀ past, past <+: obs → prefetchedAfter past = coveredAfter past) ↔ ∀ o ∈ obs, o.Plain := by
  constructor
  · intro hagree
    induction obs using reverseRecOn with
    | nil => exact fun o ho => absurd ho not_mem_nil
    | append_singleton obs last ih =>
      have hpast : ∀ past, past <+: obs → prefetchedAfter past = coveredAfter past :=
        fun past hpast => hagree past (hpast.trans (prefix_append obs [last]))
      intro o ho
      rcases mem_append.mp ho with hold | hlast
      · exact ih (fun o ho => h o (mem_append_left _ ho)) hpast o hold
      · obtain rfl := mem_singleton.mp hlast
        have hbefore := hpast obs (prefix_refl obs)
        have hafter := hagree (obs ++ [o]) (prefix_refl _)
        unfold prefetchedAfter coveredAfter at hbefore hafter
        rw [sinceReset_append_singleton] at hafter
        cases o with
        | reset => trivial
        | _ =>
          refine (Observation.counted_eq_covered_iff (h _ ho)).mp ?_
          simpa [keepSince, hbefore] using hafter
  · intro hplain past hpast
    refine congrArg sum (map_congr_left fun o ho => ?_)
    have hmem : o ∈ obs := hpast.subset (mem_of_mem_sinceReset ho)
    exact (Observation.counted_eq_covered_iff (h o hmem)).mpr (hplain o hmem)

/-! ## Runs of the engine -/

namespace Engine

variable {s t : Engine} {obs : List Observation}

theorem enqueueRanges_ne_backpressure {r : Request ℕ} (hurgent : r.urgent = true) :
    (s.enqueueRanges w r).1 ≠ .checked .backpressure := by
  unfold enqueueRanges
  split
  · simp
  · split
    · simp only [ne_eq, Outcome.checked.injEq, Pool.verdict, hurgent, not_true_eq_false, false_and,
        if_false]
      split_ifs <;> simp
    · simp

/-- Of the counters an enqueue increases one, by what is counted. -/
theorem enqueueRanges_stats (caller : Caller) (w : Tensor) (r : Request ℕ) :
    (s.enqueueRanges w r).2.stats = { s.stats with
        prefetched := s.stats.prefetched +
          (Observation.enqueued caller r (s.enqueueRanges w r).1).counted } := by
  unfold enqueueRanges
  split
  · rfl
  · split
    · dsimp only
      split
      case isTrue hverdict => rw [hverdict]; rfl
      case isFalse hverdict => rw [Observation.counted_of_ne (by simpa using hverdict)]; rfl
    · rfl

theorem Move.genuine (h : Move s obs t) : ∀ o ∈ obs, o.Genuine := by
  cases h with
  | silent => simp
  | accounted => simp
  | enqueued w requests =>
    intro o ho
    obtain rfl := mem_singleton.mp ho
    exact ⟨requests, enqueueRanges_ne_backpressure⟩
  | _ => simp [Observation.Genuine]

theorem prefetchedAfter_append_singleton (obs : List Observation) {o : Observation}
    (ho : o ≠ .reset) : prefetchedAfter (obs ++ [o]) = prefetchedAfter obs + o.counted := by
  have hkeep : keepSince (sinceReset obs) o = sinceReset obs ++ [o] := by
    cases o with
    | reset => exact absurd rfl ho
    | _ => rfl
  rw [prefetchedAfter, sinceReset_append_singleton, hkeep, map_append, sum_append,
    map_singleton, sum_singleton, ← prefetchedAfter]

theorem Move.prefetched (h : Move s obs t) {past : List Observation}
    (hs : s.stats.prefetched = prefetchedAfter past) :
    t.stats.prefetched = prefetchedAfter (past ++ obs) := by
  cases h with
  | silent _ stats => rw [append_nil, stats, hs]
  | accounted => rw [append_nil, ← hs]
  | enqueued w requests =>
    rw [enqueueRanges_stats, hs, prefetchedAfter_append_singleton past (by simp)]
  | entered os pinned w ids =>
    rw [prefetchedAfter_append_singleton past (by simp), ← hs]
    exact (attributed_foldl os pinned _ w s.stats (seenExperts w ids)).prefetched
  | reset =>
    rw [prefetchedAfter, sinceReset_append_singleton]
    rfl
  | pool e _ stats => rw [prefetchedAfter_append_singleton past (by simp), stats, hs]; rfl

theorem Moves.prefetched (h : Moves s obs t) (hs : s.stats.prefetched = 0) :
    t.stats.prefetched = prefetchedAfter obs ∧ ∀ o ∈ obs, o.Genuine := by
  obtain ⟨tr, rfl, hsteps⟩ := h
  refine hsteps.history (P := fun tr t => t.stats.prefetched = prefetchedAfter tr.flatten ∧
    ∀ o ∈ tr.flatten, o.Genuine) ?_ ⟨hs, by simp⟩
  rintro tr t obs u - ⟨hcount, hgenuine⟩ hmove
  rw [flatten_append, flatten_singleton]
  refine ⟨hmove.prefetched hcount, fun o ho => ?_⟩
  rcases mem_append.mp ho with hold | hnew
  · exact hgenuine o hold
  · exact hmove.genuine o hnew

/-- **What `prefetched` counts.**  In every run of the engine the counter is the number
of ranges of the enqueues since the last reset, and from the first moment to the last
this is the number of slices that selections and manifests cover if and only if every
enqueue is plain. -/
theorem prefetched_eq_slices_iff {enabled : Bool} {tr : List (List Observation)}
    (h : Runs.Steps Step { statsEnabled := enabled } tr s) :
    s.stats.prefetched = prefetchedAfter tr.flatten ∧
      ((∀ past, past <+: tr.flatten → prefetchedAfter past = coveredAfter past) ↔
        ∀ o ∈ tr.flatten, o.Plain) := by
  obtain ⟨hcount, hgenuine⟩ := (moves_of_steps h).prefetched rfl
  exact ⟨hcount, prefetchedAfter_eq_iff hgenuine⟩

/-! ## Runs in which they differ -/

/-- Two experts of 64 bytes. -/
def twoSlices : Tensor where
  ptr := 1
  data := 4096
  type := ⟨1, 1, 0, false⟩
  ne := ![64, 1, 2, 1]
  nb := ![1, 64, 64, 128]

/-- One token that selects the experts of the list. -/
def selecting (experts : List ℕ) : Ids where
  ne0 := experts.length
  ne1 := 1
  read _ i0 := experts.getD i0 0

/-- An engine with one worker and a mapping of one page. -/
def oneMapping : List Operation := [.registerMapping 4096 4096, .setThreads 1 true]

/-- A selection of one expert is counted as it should be. -/
theorem prefetched_eq_slices_oneExpert :
    ∃ tr s, Runs.perform step { statsEnabled := true } (oneMapping ++
        [.node (.mulMatId (some twoSlices) (some (selecting [1])))]) = some (tr, s) ∧
      s.stats.prefetched = prefetchedAfter tr.flatten ∧
      ((∀ past, past <+: tr.flatten → prefetchedAfter past = coveredAfter past) ↔
        ∀ o ∈ tr.flatten, o.Plain) := by
  obtain ⟨p, hp⟩ : ∃ p, Runs.perform step { statsEnabled := true } (oneMapping ++
      [.node (.mulMatId (some twoSlices) (some (selecting [1])))]) = some p := ⟨_, rfl⟩
  exact ⟨p.1, p.2, hp, prefetched_eq_slices_iff (Runs.steps_of_perform _ hp)⟩

/-- The counter and the slices covered, for two consecutive experts, for a manifest
that lists an expert twice, and for a lookahead. -/
theorem prefetched_ne_slices :
    [Operation.node (.mulMatId (some twoSlices) (some (selecting [0, 1]))),
      .experts twoSlices [0, 0], .tensor twoSlices].map (fun operation =>
        (Runs.perform step {} (oneMapping ++ [operation])).map fun p =>
          (p.2.stats.prefetched, coveredAfter p.1.flatten)) =
      [some (1, 2), some (2, 1), some (1, 0)] := by
  decide +kernel

end Engine

end ExpertPin.Prefetch
