import ExpertPin.Prefetch.Ranges
import ExpertPin.Prefetch.Transitions
import Mathlib.Algebra.GroupWithZero.Nat

/-!
# The prefetch engine

`prefetch_state` of `ggml/src/ggml-moe-prefetch.cpp` around the pool: the mapping
registry, the resident ranges, the epoch and the counters, and the operations of
its interface.  An operation is one step, and so are the atomic sections of the
pool's workers and of its callers in `wait` and `cold`.  `ggml_moe_prefetch_experts`
is modelled up to its wait; the probe after it is a step of its own.

What the kernel answers to `mincore` is an input.  The 64-bit counters are natural
numbers: no run is long enough to wrap them.
-/

namespace ExpertPin.Prefetch

open Intervals

structure Mapping where
  base : ℕ
  size : ℕ
deriving DecidableEq, Repr

/-- `engine_stats`, without the time spent waiting. -/
structure Stats where
  requests : ℕ := 0
  hits : ℕ := 0
  misses : ℕ := 0
  prefetched : ℕ := 0
  prefetchHits : ℕ := 0
  residentBytes : ℕ := 0
  capacityBytes : ℕ := 0
deriving DecidableEq, Repr

structure Engine where
  mappings : List Mapping := []
  residentRanges : Registry := fun _ => none
  epoch : UInt64 := 1
  stats : Stats := {}
  pool : Option (Pool ℕ) := none
  /-- `GGML_MOE_STATS`, which is read once. -/
  statsEnabled : Bool := true

/-- The weights and ids of a MoE operation; what is null, or has no data in the case
of ids, is `none`. -/
inductive Node where
  | mulMatId (src0 : Option Tensor) (src2 : Option Ids)
  | moeFusedUpGate (src0 src1 : Option Tensor) (src3 : Option Ids)
  | other

/-- `node_weights_and_ids`, and the check that its callers make. -/
def Node.weightsAndIds : Node → Option (Tensor × Option Tensor × Ids)
  | .mulMatId (some w0) (some ids) => some (w0, none, ids)
  | .moeFusedUpGate (some w0) w1 (some ids) => some (w0, w1, ids)
  | _ => none

/-! ## What the kernel reports -/

/-- The page size, and `mincore`: the first bits of the vector that it fills for an
address and a length, unless it fails. -/
structure Os where
  page : ℕ
  mincore : ℕ → ℕ → Option (ℕ → Bool)

def Os.rangeResident (os : Os) (addr len : ℕ) : Bool :=
  if len = 0 then true
  else
    let astart := alignDown os.page addr
    let alen := addr + len - astart
    match os.mincore astart alen with
    | none => false
    | some vec => (List.range ((alen + os.page - 1) / os.page)).all vec

/-! ## Observations -/

/-- Who calls `enqueue_ranges`. -/
inductive Caller where
  | selective (w : Tensor) (ids : Ids)
  | manifest (w : Tensor) (expertIds : List ℕ)
  | lookahead (w : Tensor)

/-- How `enqueue_ranges` ends. -/
inductive Outcome where
  /-- There is no pool. -/
  | off
  | unmapped
  | checked (verdict : Pool.Verdict)
deriving DecidableEq, Repr

/-- What `enqueue_ranges` returns. -/
def Outcome.returned : Outcome → Bool
  | .checked verdict => verdict ≠ .refused
  | _ => false

inductive Observation where
  | enqueued (caller : Caller) (r : Request ℕ) (outcome : Outcome)
  /-- A kernel entry that attributes residency, with the ranges on the ticket. -/
  | entered (w : Tensor) (ids : Ids) (prefetched : List (ℕ × ℕ))
  | reset
  | pool (e : Event ℕ)

namespace Engine

variable (s : Engine)

/-! ## The registries -/

def registerMapping (base size : ℕ) : Engine :=
  if base = 0 ∨ size = 0 ∨ ∃ m ∈ s.mappings, m.base = base then s
  else { s with mappings := s.mappings ++ [{ base, size }] }

/-- The resident ranges go with the mapping that their tensors lie in. -/
def unregisterMapping (base : ℕ) : Engine :=
  let size := ((s.mappings.find? (·.base = base)).map Mapping.size).getD 0
  { s with
    mappings := s.mappings.filter (·.base ≠ base)
    residentRanges := if size > 0 then
        fun data => if base ≤ data ∧ data < base + size then none else s.residentRanges data
      else s.residentRanges }

def isMapped (p len : ℕ) : Bool :=
  s.mappings.any fun m => m.base ≤ p ∧ p + len ≤ m.base + m.size

/-- `account_tensor_residency`. -/
def accountTensorResidency (os : Os) (w : Tensor) : Engine :=
  let parts := (s.mappings.map fun m =>
    (max m.base w.data, min (m.base + m.size) (w.data + w.nbytes))).filter fun part =>
      part.1 < part.2
  let capacity := (parts.map fun part => part.2 - part.1).sum
  let resident := (parts.map fun part =>
    let pstart := alignDown os.page part.1
    let plen := part.2 - pstart
    match os.mincore pstart plen with
    | none => 0
    | some vec => ((List.range ((plen + os.page - 1) / os.page)).filter vec).length * os.page).sum
  if w.data ≠ 0 ∧ capacity > 0 then
    { s with stats := { s.stats with residentBytes := resident, capacityBytes := capacity } }
  else s

/-! ## The pool -/

/-- `ggml_moe_prefetch_set_n_threads`; whether the kernel supports
`MADV_POPULATE_READ` is an input. -/
def setThreads (nThreads : ℤ) (supported : Bool) : Engine :=
  if nThreads ≤ 0 ∨ ¬supported then { s with pool := none }
  else if (s.pool.map (·.workers.length)) = some nThreads.toNat then s
  else { s with pool := some { workers := List.replicate nThreads.toNat .idle } }

def newEpoch : Engine := { s with epoch := s.epoch + 1 }

/-- `enqueue_ranges` for `w`. -/
def enqueueRanges (w : Tensor) (r : Request ℕ) : Outcome × Engine :=
  match s.pool with
  | none => (.off, s)
  | some pool =>
    if s.isMapped w.data w.nbytes then
      (.checked (pool.verdict r), { s with
          pool := some (pool.enqueue r).2
          stats := if pool.verdict r = .accepted then
              { s.stats with prefetched := s.stats.prefetched + r.ranges.length }
            else s.stats })
    else (.unmapped, s)

/-! ## Prefetching -/

/-- `enqueue_ranges` as one of its callers calls it. -/
def enqueueFor (caller : Caller) (w : Tensor) (r : Request ℕ) : List Observation × Engine :=
  ([.enqueued caller r (s.enqueueRanges w r).1], (s.enqueueRanges w r).2)

/-- One operation after the other. -/
def andThen (p : List Observation × Engine) (f : Engine → List Observation × Engine) :
    List Observation × Engine :=
  (p.1 ++ (f p.2).1, (f p.2).2)

def enqueueSelective (w : Tensor) (ids : Ids) : List Observation × Engine :=
  s.enqueueFor (.selective w ids) w (selective w ids s.epoch)

/-- `ggml_moe_prefetch_node`. -/
def node (node : Node) : List Observation × Engine :=
  match node.weightsAndIds with
  | none => ([], s)
  | some (w0, none, ids) => s.enqueueSelective w0 ids
  | some (w0, some w1, ids) =>
    andThen (s.enqueueSelective w0 ids) fun s => s.enqueueSelective w1 ids

/-- `ggml_moe_prefetch_tensor`. -/
def tensor (w : Tensor) : List Observation × Engine :=
  if w.data = 0 then ([], s)
  else s.enqueueFor (.lookahead w) w (lookahead s.residentRanges w s.epoch)

/-- `ggml_moe_prefetch_experts` up to its wait, with what it returns: without the
pool it hints the ranges of a mapped tensor to the kernel. -/
def experts (w : Tensor) (expertIds : List ℕ) : Bool × List Observation × Engine :=
  match collectOrderedExpertRanges w expertIds with
  | none => (false, [], s)
  | some ranges =>
    let s := { s with residentRanges := registerResidentRanges s.residentRanges w ranges }
    let r := manifest w ranges s.epoch
    ((s.enqueueRanges w r).1.returned || s.isMapped w.data w.nbytes,
      s.enqueueFor (.manifest w expertIds) w r)

/-! ## Kernel entries -/

/-- Subtraction of two addresses, which wraps. -/
def subAddr (a b : ℕ) : ℕ := (a + 2 ^ 64 - b) % 2 ^ 64

/-- The loop over the ticket's ranges in `attribute_kernel_entry`. -/
def prefetchedCover (base : ℕ) (prefetched : List (ℕ × ℕ)) (off : ℕ) : Bool :=
  prefetched.any fun r =>
    subAddr r.1 base ≤ off ∧ off < (subAddr r.1 base + r.2) % 2 ^ 64

/-- The loop over the pinned ranges, and the probe where it finds nothing. -/
def expertResident (os : Os) (pinned : List (ℕ × ℕ)) (w : Tensor) (off : ℕ) : Bool :=
  pinned.any (fun r => r.1 ≤ off ∧ off < r.1 + r.2) || os.rangeResident (w.data + off) w.stride

/-- The counters after one expert. -/
def attributeExpert (os : Os) (pinned prefetched : List (ℕ × ℕ)) (w : Tensor) (stats : Stats)
    (id : ℕ) : Stats :=
  let off := id * w.stride
  let stats := { stats with requests := stats.requests + 1 }
  if expertResident os pinned w off then
    { stats with
      hits := stats.hits + 1
      prefetchHits := stats.prefetchHits + if prefetchedCover w.data prefetched off then 1 else 0 }
  else { stats with misses := stats.misses + 1 }

/-- The distinct experts of a kernel entry. -/
def seenExperts (w : Tensor) (ids : Ids) : List ℕ := (List.range w.nAs).filter ids.seen

/-- The ranges that the ticket of `w` remembers. -/
def prefetchedRanges (w : Tensor) : List (ℕ × ℕ) :=
  ((s.pool.bind fun pool => pool.tickets w.ptr).map Ticket.prefetchedRanges).getD []

/-- `attribute_kernel_entry` as the prefetch hook calls it: of its lanes only the one
for residency. -/
def attributeKernelEntry (os : Os) (w : Tensor) (ids : Ids) : List Observation × Engine :=
  if w.data = 0 ∨ w.nAs ≤ 1 ∨ ¬s.statsEnabled then ([], s)
  else
    let pinned := (s.residentRanges w.data).getD []
    let prefetched := s.prefetchedRanges w
    let stats := (seenExperts w ids).foldl (attributeExpert os pinned prefetched w) s.stats
    ([.entered w ids prefetched], { s with stats })

def attributeBoth (os : Os) (w0 : Tensor) (w1 : Option Tensor) (ids : Ids) :
    List Observation × Engine :=
  match w1 with
  | none => s.attributeKernelEntry os w0 ids
  | some w1 =>
    andThen (s.attributeKernelEntry os w0 ids) fun s => s.attributeKernelEntry os w1 ids

/-- `ggml_moe_prefetch_kernel_hook`; the hints it gives without a pool have no effect
on the engine. -/
def kernelHook (os : Os) (node : Node) (ith : ℕ) : List Observation × Engine :=
  if ith ≠ 0 then ([], s)
  else
    match node.weightsAndIds with
    | none => ([], s)
    | some (w0, w1, ids) =>
      if s.pool.isNone then s.attributeBoth os w0 w1 ids
      else andThen (s.attributeBoth os w0 w1 ids) fun s => s.node node

def resetStats : Engine := { s with stats := {} }

end Engine

/-! ## Steps -/

/-- What a worker or a caller in `wait` or `cold` does.  Only the engine enqueues,
and it replaces a pool that it stops. -/
def Action.internal {W : Type*} : Action W → Bool
  | .enqueue _ => false
  | .stop => false
  | .start _ => false
  | _ => true

inductive Operation where
  | registerMapping (base size : ℕ)
  | unregisterMapping (base : ℕ)
  | setThreads (nThreads : ℤ) (supported : Bool)
  | newEpoch
  | node (node : Node)
  | tensor (w : Tensor)
  | experts (w : Tensor) (expertIds : List ℕ)
  | account (os : Os) (w : Tensor)
  | kernelHook (os : Os) (node : Node) (ith : ℕ)
  | resetStats
  | pool (action : Action ℕ)

namespace Engine

/-- A step of the pool by itself. -/
def poolStep (s : Engine) (action : Action ℕ) : Option (List Observation × Engine) :=
  if action.internal then
    s.pool.bind fun pool => (pool.step action).map fun p =>
      ([.pool p.1], { s with pool := some p.2 })
  else none

def step (s : Engine) : Operation → Option (List Observation × Engine)
  | .registerMapping base size => some ([], s.registerMapping base size)
  | .unregisterMapping base => some ([], s.unregisterMapping base)
  | .setThreads nThreads supported => some ([], s.setThreads nThreads supported)
  | .newEpoch => some ([], s.newEpoch)
  | .node node => some (s.node node)
  | .tensor w => some (s.tensor w)
  | .experts w expertIds => some (s.experts w expertIds).2
  | .account os w => some ([], s.accountTensorResidency os w)
  | .kernelHook os node ith => some (s.kernelHook os node ith)
  | .resetStats => some ([.reset], s.resetStats)
  | .pool action => s.poolStep action

/-- The steps of the engine with what is observed of them. -/
def Step : Engine → List Observation → Engine → Prop := Runs.ofFunction step

end Engine

end ExpertPin.Prefetch
