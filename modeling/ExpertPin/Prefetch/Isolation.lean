import ExpertPin.Lib.Lanes
import ExpertPin.Prefetch.Hooks

/-!
# The lanes of the hooks

An entry changes the shadow of the cache, the histogram and the engine each only if their lane is
included, and then looks at nothing of the other two but the epoch of the engine, which no hook
changes.  So however the calls of the hooks are interleaved, with each other and with the workers,
each lane is what the calls of its own hook make of it (`lanes_isolated`).
-/

namespace ExpertPin.Prefetch

/-! ## One entry -/

/-- What the weights of a node make of something. -/
def NamedNode.forWeights {τ : Type} (f : NamedTensor → Ids → τ → τ) (node : NamedNode) (ith : ℤ)
    (x : τ) : τ :=
  if ith ≠ 0 then x
  else
    match node.weightsAndIds with
    | none => x
    | some (w0, none, ids) => f w0 ids x
    | some (w0, some w1, ids) => f w1 ids (f w0 ids x)

/-- Experts are attributed one by one only where there are some. -/
def NamedTensor.forEntry {τ : Type} (w : NamedTensor) (f : τ → τ) (x : τ) : τ :=
  if w.data = 0 ∨ w.nAs ≤ 1 then x else f x

namespace PrefetchState

variable {os : Os} {node : NamedNode} {ith : ℤ}
  {includeCacheSim includeResidency includeHistogram : Bool} {s : PrefetchState}

section Fields

variable (os : Os) (w : NamedTensor) (ids : Ids) (s : PrefetchState)

@[simp] theorem engine_countHistogram : (s.countHistogram w ids).engine = s.engine := rfl

@[simp] theorem cacheSim_countHistogram : (s.countHistogram w ids).cacheSim = s.cacheSim := rfl

@[simp] theorem histogram_countHistogram :
    (s.countHistogram w ids).histogram = s.histogram.count w ids := rfl

@[simp] theorem cacheSim_feedCacheSim :
    (s.feedCacheSim w ids).cacheSim = s.cacheSim.feed s.engine.epoch w ids := rfl

@[simp] theorem engine_feedCacheSim : (s.feedCacheSim w ids).engine = s.engine := rfl

@[simp] theorem histogram_feedCacheSim : (s.feedCacheSim w ids).histogram = s.histogram := rfl

@[simp] theorem cacheSim_attributeResidency :
    (s.attributeResidency os w ids).cacheSim = s.cacheSim := rfl

@[simp] theorem histogram_attributeResidency :
    (s.attributeResidency os w ids).histogram = s.histogram := rfl

end Fields

theorem cacheSim_attributeKernelEntry (w : NamedTensor) (ids : Ids) :
    (s.attributeKernelEntry os w ids includeCacheSim includeResidency includeHistogram).cacheSim =
      if includeCacheSim then
        w.forEntry (fun c => c.feed s.engine.epoch w ids) s.cacheSim
      else s.cacheSim := by
  unfold attributeKernelEntry NamedTensor.forEntry
  split
  · exact (ite_self _).symm
  · simp only [apply_ite PrefetchState.cacheSim, apply_ite PrefetchState.engine,
      cacheSim_attributeResidency, cacheSim_countHistogram, engine_countHistogram, ite_self,
      cacheSim_feedCacheSim]

theorem histogram_attributeKernelEntry (w : NamedTensor) (ids : Ids) :
    (s.attributeKernelEntry os w ids includeCacheSim includeResidency includeHistogram).histogram =
      if includeHistogram then w.forEntry (fun h => h.count w ids) s.histogram
      else s.histogram := by
  unfold attributeKernelEntry NamedTensor.forEntry
  split
  · exact (ite_self _).symm
  · simp only [apply_ite PrefetchState.histogram, histogram_attributeResidency,
      histogram_feedCacheSim, ite_self, histogram_countHistogram]

/-- The lane for residency is that of the engine. -/
theorem engine_attributeKernelEntry (w : NamedTensor) (ids : Ids) :
    (s.attributeKernelEntry os w ids includeCacheSim includeResidency includeHistogram).engine =
      if includeResidency then (s.engine.attributeKernelEntry os w.toTensor ids).2
      else s.engine := by
  have hbefore : (if includeCacheSim = true then
      (if includeHistogram = true then s.countHistogram w ids else s).feedCacheSim w ids
      else if includeHistogram = true then s.countHistogram w ids else s).engine = s.engine := by
    simp only [apply_ite PrefetchState.engine, engine_feedCacheSim, engine_countHistogram, ite_self]
  unfold attributeKernelEntry Engine.attributeKernelEntry
  split
  case isTrue hnone =>
    rw [if_pos (hnone.imp_right Or.inl)]
    exact (ite_self _).symm
  case isFalse hsome =>
    dsimp only
    rw [apply_ite PrefetchState.engine, attributeResidency, hbefore]
    cases includeResidency with
    | false =>
      rw [if_pos (.inl Bool.false_ne_true), if_neg Bool.false_ne_true]
    | true =>
      by_cases hstats : s.engine.statsEnabled
      · have hentry : ¬(w.data = 0 ∨ w.nAs ≤ 1 ∨ ¬s.engine.statsEnabled) := by
          rintro (hdata | hfew | hoff)
          · exact hsome (.inl hdata)
          · exact hsome (.inr hfew)
          · exact hoff hstats
        rw [if_neg (not_or.mpr ⟨fun h => h rfl, fun h => h hstats⟩), if_pos rfl, if_neg hentry]
      · rw [if_pos (.inr hstats), if_pos rfl, if_pos (.inr (.inr hstats))]

/-! ## One call -/

section Views

variable {τ : Type} {view : PrefetchState → τ}

theorem view_attributeBoth {f : NamedTensor → Ids → τ → τ}
    (h : ∀ (s : PrefetchState) w ids, view (s.attributeKernelEntry os w ids includeCacheSim
      includeResidency includeHistogram) = f w ids (view s))
    (w0 : NamedTensor) (w1 : Option NamedTensor) (ids : Ids) :
    view (s.attributeBoth os w0 w1 ids includeCacheSim includeResidency includeHistogram) =
      match w1 with
      | none => f w0 ids (view s)
      | some w1 => f w1 ids (f w0 ids (view s)) := by
  unfold attributeBoth
  cases w1 with
  | none => exact h s w0 ids
  | some w1 =>
    dsimp only
    rw [h, h]

/-- What a hook makes of a part of the state is what its entries make of it. -/
theorem view_attributeNode {f : NamedTensor → Ids → τ → τ}
    (h : ∀ (s : PrefetchState) w ids, view (s.attributeKernelEntry os w ids includeCacheSim
      includeResidency includeHistogram) = f w ids (view s)) :
    view (s.attributeNode os node ith includeCacheSim includeResidency includeHistogram) =
      node.forWeights f ith (view s) := by
  unfold attributeNode NamedNode.forWeights
  split
  · rfl
  · cases node.weightsAndIds with
    | none => rfl
    | some p =>
      obtain ⟨w0, w1, ids⟩ := p
      cases w1 with
      | none => exact view_attributeBoth h w0 none ids
      | some w1 => exact view_attributeBoth h w0 (some w1) ids

/-- A part of the state that no entry changes is not changed. -/
theorem view_attributeBoth_of_frame
    (h : ∀ (s : PrefetchState) w ids, view (s.attributeKernelEntry os w ids includeCacheSim
      includeResidency includeHistogram) = view s)
    (w0 : NamedTensor) (w1 : Option NamedTensor) (ids : Ids) :
    view (s.attributeBoth os w0 w1 ids includeCacheSim includeResidency includeHistogram) =
      view s := by
  rw [view_attributeBoth (f := fun _ _ x => x) h]
  cases w1 with
  | none => rfl
  | some w1 => rfl

theorem view_attributeNode_of_frame
    (h : ∀ (s : PrefetchState) w ids, view (s.attributeKernelEntry os w ids includeCacheSim
      includeResidency includeHistogram) = view s) :
    view (s.attributeNode os node ith includeCacheSim includeResidency includeHistogram) =
      view s := by
  unfold attributeNode
  split
  · rfl
  · split
    · rfl
    · exact view_attributeBoth_of_frame h _ _ _

/-- The prefetch hook changes the engine only. -/
theorem view_prefetchKernelHook_of_frame (h : ∀ (s : PrefetchState) w ids,
      view (s.attributeKernelEntry os w ids false true false) = view s)
    (hengine : ∀ (s : PrefetchState) e, view { s with engine := e } = view s) :
    view (s.prefetchKernelHook os node ith) = view s := by
  unfold prefetchKernelHook
  split
  · rfl
  · split
    · rfl
    · split
      · exact view_attributeBoth_of_frame h _ _ _
      · exact (hengine _ _).trans (view_attributeBoth_of_frame h _ _ _)

end Views

end PrefetchState

/-! ## The engine -/

namespace Engine

variable (e : Engine)

theorem epoch_attributeKernelEntry (os : Os) (w : Tensor) (ids : Ids) :
    (e.attributeKernelEntry os w ids).2.epoch = e.epoch := by
  unfold attributeKernelEntry
  split
  · rfl
  · rfl

theorem epoch_attributeBoth (os : Os) (w0 : Tensor) (w1 : Option Tensor) (ids : Ids) :
    (e.attributeBoth os w0 w1 ids).2.epoch = e.epoch := by
  unfold attributeBoth
  cases w1 with
  | none => exact epoch_attributeKernelEntry e os w0 ids
  | some w1 =>
    exact (epoch_attributeKernelEntry _ os w1 ids).trans (epoch_attributeKernelEntry e os w0 ids)

theorem epoch_enqueueRanges (w : Tensor) (r : Request ℕ) :
    (e.enqueueRanges w r).2.epoch = e.epoch := by
  unfold enqueueRanges
  split
  · rfl
  · split
    · rfl
    · rfl

theorem epoch_node (node : Node) : (e.node node).2.epoch = e.epoch := by
  unfold Engine.node
  split
  · rfl
  · exact epoch_enqueueRanges e _ _
  · exact (epoch_enqueueRanges _ _ _).trans (epoch_enqueueRanges e _ _)

theorem epoch_kernelHook (os : Os) (node : Node) (ith : ℕ) :
    (e.kernelHook os node ith).2.epoch = e.epoch := by
  unfold kernelHook
  split
  · rfl
  · split
    · rfl
    · split
      · exact epoch_attributeBoth e os _ _ _
      · exact (epoch_node _ node).trans (epoch_attributeBoth e os _ _ _)

theorem epoch_poolStep {action : Action ℕ} {p : List Observation × Engine}
    (h : e.poolStep action = some p) : p.2.epoch = e.epoch := by
  unfold poolStep at h
  split at h
  case isTrue =>
    obtain ⟨pool, -, h⟩ := Option.bind_eq_some_iff.mp h
    obtain ⟨step, -, rfl⟩ := Option.map_eq_some_iff.mp h
    rfl
  case isFalse => exact nomatch h

end Engine

/-- The weights of a node without their names. -/
theorem NamedNode.weightsAndIds_toNode (node : NamedNode) :
    node.toNode.weightsAndIds = node.weightsAndIds.map fun p =>
      (p.1.toTensor, p.2.1.map NamedTensor.toTensor, p.2.2) := by
  cases node with
  | mulMatId src0 src2 =>
    cases src0 with
    | none => rfl
    | some w0 =>
      cases src2 with
      | none => rfl
      | some ids => rfl
  | moeFusedUpGate src0 src1 src3 =>
    cases src0 with
    | none => rfl
    | some w0 =>
      cases src3 with
      | none => rfl
      | some ids => rfl
  | other => rfl

namespace PrefetchState

variable {os : Os} {node : NamedNode} {ith : ℤ} {s : PrefetchState}

theorem engine_attributeBoth (w0 : NamedTensor) (w1 : Option NamedTensor) (ids : Ids) :
    (s.attributeBoth os w0 w1 ids false true false).engine =
      (s.engine.attributeBoth os w0.toTensor (w1.map NamedTensor.toTensor) ids).2 := by
  unfold attributeBoth Engine.attributeBoth
  cases w1 with
  | none => exact engine_attributeKernelEntry w0 ids
  | some w1 =>
    dsimp only
    rw [engine_attributeKernelEntry w1 ids, engine_attributeKernelEntry w0 ids]
    rfl

/-- The prefetch hook is that of the engine. -/
theorem engine_prefetchKernelHook : (s.prefetchKernelHook os node ith).engine =
      (s.engine.kernelHook os node.toNode ith.natAbs).2 := by
  unfold prefetchKernelHook Engine.kernelHook
  by_cases hith : ith = 0
  · subst hith
    rw [if_neg (fun h => h rfl), if_neg (fun h => h rfl), node.weightsAndIds_toNode]
    cases node.weightsAndIds with
    | none => rfl
    | some p =>
      obtain ⟨w0, w1, ids⟩ := p
      dsimp only [Option.map]
      split
      case isTrue => exact engine_attributeBoth w0 w1 ids
      case isFalse =>
        dsimp only
        rw [engine_attributeBoth]
        rfl
  · rw [if_pos hith, if_pos (Int.natAbs_ne_zero.mpr hith)]

theorem cacheSim_prefetchKernelHook : (s.prefetchKernelHook os node ith).cacheSim = s.cacheSim :=
  view_prefetchKernelHook_of_frame (fun _ w ids => cacheSim_attributeKernelEntry w ids)
    fun _ _ => rfl

theorem histogram_prefetchKernelHook : (s.prefetchKernelHook os node ith).histogram = s.histogram :=
  view_prefetchKernelHook_of_frame (fun _ w ids => histogram_attributeKernelEntry w ids)
    fun _ _ => rfl

theorem engine_cacheSimKernelHook : (s.cacheSimKernelHook os node ith).engine = s.engine :=
  view_attributeNode_of_frame fun _ w ids => engine_attributeKernelEntry w ids

theorem histogram_cacheSimKernelHook : (s.cacheSimKernelHook os node ith).histogram = s.histogram :=
  view_attributeNode_of_frame fun _ w ids => histogram_attributeKernelEntry w ids

theorem engine_histogramKernelHook : (s.histogramKernelHook os node ith).engine = s.engine :=
  view_attributeNode_of_frame fun _ w ids => engine_attributeKernelEntry w ids

theorem cacheSim_histogramKernelHook : (s.histogramKernelHook os node ith).cacheSim = s.cacheSim :=
  view_attributeNode_of_frame fun _ w ids => cacheSim_attributeKernelEntry w ids

theorem histogram_histogramKernelHook : (s.histogramKernelHook os node ith).histogram =
      node.forWeights (fun w ids => w.forEntry fun h => h.count w ids) ith s.histogram :=
  view_attributeNode fun _ w ids => histogram_attributeKernelEntry w ids

/-- The shadow with the epoch that is written to its trace. -/
def shadowView (s : PrefetchState) : CacheSim × UInt64 := (s.cacheSim, s.engine.epoch)

theorem shadowView_cacheSimKernelHook : (s.cacheSimKernelHook os node ith).shadowView =
      node.forWeights (fun w ids c => (w.forEntry (fun sim => sim.feed c.2 w ids) c.1, c.2)) ith
        s.shadowView := by
  refine view_attributeNode fun s w ids => ?_
  unfold shadowView
  rw [cacheSim_attributeKernelEntry, engine_attributeKernelEntry]
  rfl

theorem epoch_prefetchKernelHook :
    (s.prefetchKernelHook os node ith).engine.epoch = s.engine.epoch := by
  rw [engine_prefetchKernelHook]
  exact s.engine.epoch_kernelHook os node.toNode ith.natAbs

theorem epoch_work (action : Action ℕ) : (s.work action).engine.epoch = s.engine.epoch := by
  unfold work
  split
  · rfl
  case h_2 p hp => exact s.engine.epoch_poolStep hp

theorem cacheSim_work (action : Action ℕ) : (s.work action).cacheSim = s.cacheSim := by
  unfold work
  split
  · rfl
  · rfl

theorem histogram_work (action : Action ℕ) : (s.work action).histogram = s.histogram := by
  unfold work
  split
  · rfl
  · rfl

theorem engine_work (action : Action ℕ) :
    (s.work action).engine = ((s.engine.poolStep action).map Prod.snd).getD s.engine := by
  unfold work
  cases s.engine.poolStep action with
  | none => rfl
  | some p => rfl

/-! ## The lanes -/

theorem lane_shadow : Lane turn (Turn.calls .cacheSim) shadowView where
  frame s t ht := by
    cases t with
    | call hook os node ith =>
      cases hook with
      | cacheSim => exact nomatch ht
      | histogram =>
        exact Prod.ext cacheSim_histogramKernelHook
          (congrArg Engine.epoch engine_histogramKernelHook)
      | prefetch => exact Prod.ext cacheSim_prefetchKernelHook epoch_prefetchKernelHook
    | worker action => exact Prod.ext (cacheSim_work action) (epoch_work action)
  local_eq s s' t ht hview := by
    cases t with
    | call hook os node ith =>
      cases hook with
      | cacheSim =>
        show (s.cacheSimKernelHook os node ith).shadowView = _
        rw [shadowView_cacheSimKernelHook, hview]
        exact shadowView_cacheSimKernelHook.symm
      | histogram => exact nomatch ht
      | prefetch => exact nomatch ht
    | worker action => exact nomatch ht

theorem lane_histogram : Lane turn (Turn.calls .histogram) histogram where
  frame s t ht := by
    cases t with
    | call hook os node ith =>
      cases hook with
      | cacheSim => exact histogram_cacheSimKernelHook
      | histogram => exact nomatch ht
      | prefetch => exact histogram_prefetchKernelHook
    | worker action => exact histogram_work action
  local_eq s s' t ht hview := by
    cases t with
    | call hook os node ith =>
      cases hook with
      | cacheSim => exact nomatch ht
      | histogram =>
        show (s.histogramKernelHook os node ith).histogram = _
        rw [histogram_histogramKernelHook, hview]
        exact histogram_histogramKernelHook.symm
      | prefetch => exact nomatch ht
    | worker action => exact nomatch ht

theorem lane_engine : Lane turn Turn.prefetches engine where
  frame s t ht := by
    cases t with
    | call hook os node ith =>
      cases hook with
      | cacheSim => exact engine_cacheSimKernelHook
      | histogram => exact engine_histogramKernelHook
      | prefetch => exact nomatch ht
    | worker action => exact nomatch ht
  local_eq s s' t ht hview := by
    cases t with
    | call hook os node ith =>
      cases hook with
      | cacheSim => exact nomatch ht
      | histogram => exact nomatch ht
      | prefetch =>
        show (s.prefetchKernelHook os node ith).engine = _
        rw [engine_prefetchKernelHook, hview]
        exact engine_prefetchKernelHook.symm
    | worker action =>
      show (s.work action).engine = _
      rw [engine_work, hview]
      exact (engine_work action).symm

/-- The shadow of the cache is what the calls of its hook make of it, and so are the histogram and
the engine, which also has the counters, the tickets and the queue. -/
theorem lanes_isolated (s : PrefetchState) (turns : List Turn) :
    (s.run turns).cacheSim = (s.run (turns.filter (Turn.calls .cacheSim))).cacheSim ∧
      (s.run turns).histogram = (s.run (turns.filter (Turn.calls .histogram))).histogram ∧
      (s.run turns).engine = (s.run (turns.filter Turn.prefetches)).engine :=
  ⟨congrArg Prod.fst (lane_shadow.foldl s turns), lane_histogram.foldl s turns,
    lane_engine.foldl s turns⟩

end PrefetchState

end ExpertPin.Prefetch
