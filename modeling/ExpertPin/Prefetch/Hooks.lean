import ExpertPin.Cache.Simulation
import ExpertPin.Prefetch.Engine
import ExpertPin.Trace.Writer

/-!
# The hooks at kernel entry

`attribute_kernel_entry` has a lane for the histogram, one for the shadow of the expert cache with
its trace, and one for residency, and each of the three hooks opens one of them.  The state is that
of the engine together with the other two lanes.  `ggml_moe_prefetch_kernel_hook` also enqueues.

What the kernel answers to `mincore` in a call is a parameter of it.
-/

namespace ExpertPin.Prefetch

open Cache Trace

/-- A shadow cache whose accesses have a result. -/
structure Shadow where
  lru : Lru
  sound : ∃ r, Represents lru r

namespace Shadow

theorem access_isSome (c : Shadow) (key : CacheKey) (bytes : UInt64) :
    ∃ result lru, c.lru.access key bytes = some (result, lru) ∧ ∃ r, Represents lru r := by
  obtain ⟨r, hr⟩ := c.sound
  obtain ⟨lru, haccess, hlru, -⟩ := Lru.access_spec hr key bytes
  exact ⟨_, lru, haccess, _, hlru⟩

def access (c : Shadow) (key : CacheKey) (bytes : UInt64) : CacheAccess × Shadow :=
  match h : c.lru.access key bytes with
  | some (result, lru) => (result, {
      lru
      sound := by
        obtain ⟨result', lru', haccess, hsound⟩ := c.access_isSome key bytes
        obtain rfl : lru = lru' := congrArg Prod.snd (Option.some.inj (h.symm.trans haccess))
        exact hsound })
  | none => absurd h (by
      obtain ⟨result, lru, haccess, -⟩ := c.access_isSome key bytes
      rw [haccess]
      exact Option.some_ne_none _)

def reset (c : Shadow) (capacityBytes : UInt64) : Shadow where
  lru := c.lru.reset capacityBytes
  sound := ⟨_, represents_reset c.lru capacityBytes⟩

end Shadow

/-- A weight with its name and the number of its type. -/
structure NamedTensor extends Tensor where
  name : List UInt8
  ggmlType : Int32

/-- The weights and ids of a MoE operation. -/
inductive NamedNode where
  | mulMatId (src0 : Option NamedTensor) (src2 : Option Ids)
  | moeFusedUpGate (src0 src1 : Option NamedTensor) (src3 : Option Ids)
  | other

namespace NamedNode

def weightsAndIds : NamedNode → Option (NamedTensor × Option NamedTensor × Ids)
  | .mulMatId (some w0) (some ids) => some (w0, none, ids)
  | .moeFusedUpGate (some w0) w1 (some ids) => some (w0, w1, ids)
  | _ => none

def toNode : NamedNode → Node
  | .mulMatId src0 src2 => .mulMatId (src0.map NamedTensor.toTensor) src2
  | .moeFusedUpGate src0 src1 src3 =>
    .moeFusedUpGate (src0.map NamedTensor.toTensor) (src1.map NamedTensor.toTensor) src3
  | .other => .other

end NamedNode

/-! ## The lanes -/

/-- The shadow of the expert cache, and the trace of what it is asked for. -/
structure CacheSim where
  shadow : Shadow
  trace : Option Writer := none
  traceEntry : UInt64 := 0

/-- The histogram of the experts, by the names of their tensors. -/
structure Histogram where
  counts : List UInt8 → Option (List UInt64) := fun _ => none
  entries : UInt64 := 0
  tokenRows : UInt64 := 0

/-- `prefetch_state`. -/
structure PrefetchState where
  engine : Engine := {}
  cacheSim : CacheSim
  histogram : Histogram := {}

/-- One more entry of `w`. -/
def Histogram.count (h : Histogram) (w : NamedTensor) (ids : Ids) : Histogram :=
  let name := w.name.takeWhile (· ≠ 0)
  let counts := (h.counts name).getD []
  let counts := counts ++ List.replicate (w.nAs - counts.length) 0
  { counts := Function.update h.counts name (some (counts.mapIdx fun id count =>
      if id < w.nAs ∧ ids.seen id then count + 1 else count))
    entries := h.entries + 1
    tokenRows := h.tokenRows + UInt64.ofNat ids.ne1 }

namespace CacheSim

/-- The body of the loop over the experts. -/
def access (epoch entry : UInt64) (w : NamedTensor) (ids : Ids) (c : CacheSim) (id : ℕ) :
    CacheSim :=
  if w.stride = 0 ∨ (2 ^ 64 - 1) / w.stride < id then c
  else
    let off := id * w.stride
    if w.nbytes ≤ off then c
    else
      let bytes := min w.stride (w.nbytes - off)
      let (result, shadow) := c.shadow.access
        ⟨UInt64.ofNat w.data, UInt64.ofNat w.stride, UInt32.ofNat id⟩ (UInt64.ofNat bytes)
      { c with
        shadow
        trace := c.trace.map fun trace => trace.record {
          entry
          epoch
          rows := Int64.ofNat ids.ne1
          name := w.name
          type := w.ggmlType
          expert := UInt32.ofNat id
          stride := UInt64.ofNat w.stride
          offset := UInt64.ofNat off
          bytes := UInt64.ofNat bytes
          hit := result.hit
          bypass := result.bypassed } }

/-- The experts of an entry; without a capacity there is no shadow. -/
def feed (c : CacheSim) (epoch : UInt64) (w : NamedTensor) (ids : Ids) : CacheSim :=
  if c.shadow.lru.stats.capacityBytes > 0 then
    let entry := if c.trace.isSome then c.traceEntry else 0
    let c := if c.trace.isSome then { c with traceEntry := c.traceEntry + 1 } else c
    (Engine.seenExperts w.toTensor ids).foldl (access epoch entry w ids) c
  else c

end CacheSim

namespace PrefetchState

def countHistogram (w : NamedTensor) (ids : Ids) (s : PrefetchState) : PrefetchState :=
  { s with histogram := s.histogram.count w ids }

def feedCacheSim (w : NamedTensor) (ids : Ids) (s : PrefetchState) : PrefetchState :=
  { s with cacheSim := s.cacheSim.feed s.engine.epoch w ids }

def attributeResidency (os : Os) (w : NamedTensor) (ids : Ids) (s : PrefetchState) :
    PrefetchState :=
  let pinned := (s.engine.residentRanges w.data).getD []
  let prefetched := s.engine.prefetchedRanges w.toTensor
  let stats := (Engine.seenExperts w.toTensor ids).foldl
    (Engine.attributeExpert os pinned prefetched w.toTensor) s.engine.stats
  { s with engine.stats := stats }

/-- `attribute_kernel_entry`. -/
def attributeKernelEntry (os : Os) (w : NamedTensor) (ids : Ids)
    (includeCacheSim includeResidency includeHistogram : Bool) (s : PrefetchState) :
    PrefetchState :=
  if w.data = 0 ∨ w.nAs ≤ 1 then s
  else
    let s := if includeHistogram then s.countHistogram w ids else s
    let s := if includeCacheSim then s.feedCacheSim w ids else s
    if ¬includeResidency ∨ ¬s.engine.statsEnabled then s
    else s.attributeResidency os w ids

/-- The calls for the one or two weights of a node. -/
def attributeBoth (os : Os) (w0 : NamedTensor) (w1 : Option NamedTensor) (ids : Ids)
    (includeCacheSim includeResidency includeHistogram : Bool) (s : PrefetchState) :
    PrefetchState :=
  let s := s.attributeKernelEntry os w0 ids includeCacheSim includeResidency includeHistogram
  match w1 with
  | none => s
  | some w1 => s.attributeKernelEntry os w1 ids includeCacheSim includeResidency includeHistogram

/-- A hook that only attributes. -/
def attributeNode (os : Os) (node : NamedNode) (ith : ℤ)
    (includeCacheSim includeResidency includeHistogram : Bool) (s : PrefetchState) :
    PrefetchState :=
  if ith ≠ 0 then s
  else
    match node.weightsAndIds with
    | none => s
    | some (w0, w1, ids) =>
      s.attributeBoth os w0 w1 ids includeCacheSim includeResidency includeHistogram

/-- `ggml_moe_cache_sim_kernel_hook`. -/
def cacheSimKernelHook (s : PrefetchState) (os : Os) (node : NamedNode) (ith : ℤ) :
    PrefetchState :=
  s.attributeNode os node ith true false false

/-- `ggml_moe_histogram_kernel_hook`. -/
def histogramKernelHook (s : PrefetchState) (os : Os) (node : NamedNode) (ith : ℤ) :
    PrefetchState :=
  s.attributeNode os node ith false false true

/-- `ggml_moe_prefetch_kernel_hook`.  Without a pool it also hints the ranges to the kernel, which
is no part of the state. -/
def prefetchKernelHook (s : PrefetchState) (os : Os) (node : NamedNode) (ith : ℤ) :
    PrefetchState :=
  if ith ≠ 0 then s
  else
    match node.weightsAndIds with
    | none => s
    | some (w0, w1, ids) =>
      if s.engine.pool.isNone then s.attributeBoth os w0 w1 ids false true false
      else
        let s := s.attributeBoth os w0 w1 ids false true false
        { s with engine := (s.engine.node node.toNode).2 }

end PrefetchState

/-! ## Turns -/

inductive Hook where
  | cacheSim
  | histogram
  | prefetch
deriving DecidableEq, Repr

/-- A call of a hook, for which the kernel answers as given, or a step of a worker, if it is
possible. -/
inductive Turn where
  | call (hook : Hook) (os : Os) (node : NamedNode) (ith : ℤ)
  | worker (action : Action ℕ)

namespace Turn

def calls (hook : Hook) : Turn → Bool
  | .call hook' _ _ _ => hook' = hook
  | .worker _ => false

/-- What the workers do belongs to the calls that enqueue. -/
def prefetches : Turn → Bool
  | .call hook _ _ _ => hook = .prefetch
  | .worker _ => true

end Turn

namespace PrefetchState

def work (s : PrefetchState) (action : Action ℕ) : PrefetchState :=
  match s.engine.poolStep action with
  | none => s
  | some p => { s with engine := p.2 }

def turn (s : PrefetchState) : Turn → PrefetchState
  | .call .cacheSim os node ith => s.cacheSimKernelHook os node ith
  | .call .histogram os node ith => s.histogramKernelHook os node ith
  | .call .prefetch os node ith => s.prefetchKernelHook os node ith
  | .worker action => s.work action

def run (s : PrefetchState) (turns : List Turn) : PrefetchState := turns.foldl turn s

end PrefetchState

end ExpertPin.Prefetch
