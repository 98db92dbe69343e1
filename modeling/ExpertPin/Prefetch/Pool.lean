import ExpertPin.Lib.Runs
import Mathlib.Logic.Function.Basic

/-!
# The prefetch pool

`prefetch_pool`, `enqueue_ranges`, `ggml_moe_prefetch_wait` and
`ggml_moe_prefetch_cold` of `ggml/src/ggml-moe-prefetch.cpp` as one transition
system.  Its atomic steps are the sections under the pool's mutex and the atomic
accesses to `pending` outside of it; they may interleave in any order.

Tickets are never removed from the pool, so the ticket of a tensor is identified
by the tensor.  `pending` is a 32-bit `int` with its wrapping arithmetic.  The
serial numbers of enqueues, which jobs and chunks carry, are auxiliary: no step
reads them.
-/

namespace ExpertPin.Prefetch

universe u

/-- `GGML_MOE_PREFETCH_CHUNK`. -/
def chunkBytes : ℕ := 2 * 1024 * 1024

/-- `GGML_MOE_PREFETCH_MAX_QUEUE`. -/
def maxQueue : ℕ := 65536

/-- The `(addr, len)` of a job, and the serial number of the enqueue it is of. -/
structure Chunk where
  addr : ℕ
  len : ℕ
  serial : ℕ
deriving DecidableEq, Repr

structure Ticket where
  pending : Int32 := 0
  epoch : UInt64 := 0
  trackReads : Bool := false
  readChunks : List Chunk := []
  prefetchedRanges : List (ℕ × ℕ) := []
  serial : ℕ := 0
deriving DecidableEq, Repr

structure Job (W : Type u) where
  chunk : Chunk
  tk : W
deriving DecidableEq, Repr

/-- Where a worker stands in `run`. -/
inductive Worker (W : Type u) where
  /-- About to wait for work. -/
  | idle
  /-- It took a job and has not populated it yet. -/
  | popped (job : Job W)
  /-- About to decrement `pending`. -/
  | populated (job : Job W) (doneRead : Bool)
  /-- `pending` was `left`; about to take the mutex again. -/
  | completed (job : Job W) (doneRead : Bool) (left : Int32)
  | exited
deriving DecidableEq, Repr

/-- Where a caller stands in `ggml_moe_prefetch_wait`. -/
inductive Waiter (W : Type u) where
  /-- It has the ticket and is about to read `pending` without the mutex. -/
  | found (w : W)
  /-- It sleeps on `cv_done`. -/
  | blocked (w : W)
deriving DecidableEq, Repr

structure Pool (W : Type u) where
  queue : List (Job W) := []
  shutdown : Bool := false
  tickets : W → Option Ticket := fun _ => none
  workers : List (Worker W) := []
  waiters : List (Waiter W) := []
  serial : ℕ := 0

/-- What `enqueue_ranges` is called with, once it holds the pool's mutex. -/
structure Request (W : Type u) where
  w : W
  base : ℕ
  ranges : List (ℕ × ℕ)
  urgent : Bool
  trackReads : Bool
  curEpoch : UInt64
deriving DecidableEq, Repr

/-- What can be observed of a step. -/
inductive Event (W : Type u) where
  | silent
  | enqueued (r : Request W) (jobs : List (Job W))
  | dropped (jobs : List (Job W))
  | read (job : Job W)
  | completed (job : Job W)
  | recorded (job : Job W)
  | returned (w : W)
  | reclaimed (w : W) (chunks : List Chunk)
deriving DecidableEq, Repr

/-! ## Chunks -/

/-- The jobs of one range: full chunks and what is left over. -/
def chunksOf (serial addr len : ℕ) : List Chunk :=
  (List.range ((len + chunkBytes - 1) / chunkBytes)).map fun i =>
    { addr := addr + i * chunkBytes, len := min chunkBytes (len - i * chunkBytes), serial }

def Request.jobs {W : Type u} (r : Request W) (serial : ℕ) : List (Job W) :=
  r.ranges.flatMap fun range =>
    (chunksOf serial (r.base + range.1) range.2).map fun chunk => { chunk, tk := r.w }

variable {W : Type u} [DecidableEq W]

namespace Pool

/-! ## Tickets -/

def modifyTicket (s : Pool W) (w : W) (f : Ticket → Ticket) : Pool W :=
  { s with tickets := Function.update s.tickets w ((s.tickets w).map f) }

/-- `pending.fetch_sub(1)`. -/
def fetchSub (s : Pool W) (w : W) : Pool W :=
  s.modifyTicket w fun tk => { tk with pending := tk.pending - 1 }

/-- The value that `pending.load()` and `pending.fetch_sub` see. -/
def pending (s : Pool W) (w : W) : Int32 := ((s.tickets w).getD {}).pending

/-! ## `enqueue_ranges` -/

inductive Verdict where
  | refused
  | duplicate
  | backpressure
  | accepted
deriving DecidableEq, Repr

/-- Which of its early returns `enqueue_ranges` takes, if any. -/
def verdict (s : Pool W) (r : Request W) : Verdict :=
  if s.shutdown then .refused
  else if ((s.tickets r.w).getD {}).epoch = r.curEpoch then .duplicate
  else if ¬r.urgent ∧ s.queue.length > maxQueue then .backpressure
  else .accepted

/-- `pool.tickets[w]` creates the ticket before any check. -/
def touchTicket (s : Pool W) (w : W) : Pool W :=
  { s with tickets := Function.update s.tickets w (some ((s.tickets w).getD {})) }

/-- The rest of `enqueue_ranges`.  With no jobs it returns before the `fetch_add`,
which would add nothing. -/
def accept (s : Pool W) (r : Request W) : Pool W :=
  let jobs := r.jobs s.serial
  { s with
    tickets := Function.update s.tickets r.w (some
      { pending := s.pending r.w + Int32.ofNat jobs.length
        epoch := r.curEpoch
        trackReads := r.trackReads
        readChunks := []
        prefetchedRanges := r.ranges.map fun range => (r.base + range.1, range.2)
        serial := s.serial })
    queue := if r.urgent then jobs ++ s.queue else s.queue ++ jobs
    serial := s.serial + 1 }

/-- The section of `enqueue_ranges` under the mutex; what it returns is
`verdict ≠ refused`. -/
def enqueue (s : Pool W) (r : Request W) : Event W × Pool W :=
  match s.verdict r with
  | .refused => (.silent, s)
  | .duplicate => (.silent, s.touchTicket r.w)
  | .backpressure => (.silent, s.touchTicket r.w)
  | .accepted => (.enqueued r (r.jobs s.serial), s.accept r)

/-! ## `stop` and `start` -/

def stop (s : Pool W) : Event W × Pool W :=
  (.dropped s.queue,
    { s.queue.foldl (fun s job => s.fetchSub job.tk) s with shutdown := true, queue := [] })

/-- The end of `start`, after its own `stop` has joined the workers. -/
def start (s : Pool W) (nThreads : ℕ) : Option (Event W × Pool W) :=
  if s.shutdown ∧ ∀ worker ∈ s.workers, worker = .exited then
    some (.silent, { s with shutdown := false, workers := List.replicate nThreads .idle })
  else none

/-! ## `run` -/

def setWorker (s : Pool W) (i : ℕ) (worker : Worker W) : Pool W :=
  { s with workers := s.workers.set i worker }

/-- Take the next job; or return, once the pool is shut down. -/
def pop (s : Pool W) (i : ℕ) : Option (Event W × Pool W) :=
  match s.workers[i]? with
  | some .idle =>
    if s.shutdown then some (.silent, s.setWorker i .exited)
    else
      match s.queue with
      | [] => none
      | job :: queue => some (.silent, { s.setWorker i (.popped job) with queue })
  | _ => none

/-- Populate the chunk, unless it is resident already.  Whether anything was read
from storage is up to the environment. -/
def populate (s : Pool W) (i : ℕ) (doneRead : Bool) : Option (Event W × Pool W) :=
  match s.workers[i]? with
  | some (.popped job) =>
    some (if doneRead then .read job else .silent, s.setWorker i (.populated job doneRead))
  | _ => none

/-- The `fetch_sub`. -/
def complete (s : Pool W) (i : ℕ) : Option (Event W × Pool W) :=
  match s.workers[i]? with
  | some (.populated job doneRead) =>
    some (.completed job,
      (s.fetchSub job.tk).setWorker i (.completed job doneRead (s.pending job.tk)))
  | _ => none

/-- The section after it, which records the chunk.  Waking the sleepers when
`left` was one is not modelled: they may wake up at any time. -/
def record (s : Pool W) (i : ℕ) : Option (Event W × Pool W) :=
  match s.workers[i]? with
  | some (.completed job doneRead _) =>
    if doneRead ∧ ((s.tickets job.tk).getD {}).trackReads then
      some (.recorded job, (s.modifyTicket job.tk fun tk =>
        { tk with readChunks := tk.readChunks ++ [job.chunk] }).setWorker i .idle)
    else some (.silent, s.setWorker i .idle)
  | _ => none

/-! ## `ggml_moe_prefetch_wait` -/

/-- Look the ticket up. -/
def waitFind (s : Pool W) (w : W) : Event W × Pool W :=
  if (s.tickets w).isSome then (.silent, { s with waiters := s.waiters ++ [.found w] })
  else (.returned w, s)

/-- The fast path, which reads `pending` without the mutex. -/
def waitLoad (s : Pool W) (i : ℕ) : Option (Event W × Pool W) :=
  match s.waiters[i]? with
  | some (.found w) =>
    if s.pending w ≤ 0 then some (.returned w, { s with waiters := s.waiters.eraseIdx i })
    else some (.silent, { s with waiters := s.waiters.set i (.blocked w) })
  | _ => none

/-- A sleeper wakes up and checks its predicate. -/
def waitWake (s : Pool W) (i : ℕ) : Option (Event W × Pool W) :=
  match s.waiters[i]? with
  | some (.blocked w) =>
    if s.shutdown ∨ s.pending w ≤ 0 then
      some (.returned w, { s with waiters := s.waiters.eraseIdx i })
    else some (.silent, s)
  | _ => none

/-! ## `ggml_moe_prefetch_cold` -/

/-- Take the recorded chunks of a ticket that tracks its reads. -/
def cold (s : Pool W) (w : W) : Event W × Pool W :=
  match s.tickets w with
  | none => (.silent, s)
  | some tk =>
    if tk.trackReads then
      (.reclaimed w tk.readChunks, s.modifyTicket w fun tk => { tk with readChunks := [] })
    else (.silent, s)

end Pool

/-! ## Steps -/

inductive Action (W : Type u) where
  | enqueue (r : Request W)
  | stop
  | start (nThreads : ℕ)
  | pop (worker : ℕ)
  | populate (worker : ℕ) (doneRead : Bool)
  | complete (worker : ℕ)
  | record (worker : ℕ)
  | waitFind (w : W)
  | waitLoad (waiter : ℕ)
  | waitWake (waiter : ℕ)
  | cold (w : W)
deriving DecidableEq, Repr

/-- One atomic step, if it is possible. -/
def Pool.step (s : Pool W) : Action W → Option (Event W × Pool W)
  | .enqueue r => some (s.enqueue r)
  | .stop => some s.stop
  | .start nThreads => s.start nThreads
  | .pop i => s.pop i
  | .populate i doneRead => s.populate i doneRead
  | .complete i => s.complete i
  | .record i => s.record i
  | .waitFind w => some (s.waitFind w)
  | .waitLoad i => s.waitLoad i
  | .waitWake i => s.waitWake i
  | .cold w => some (s.cold w)

/-- The steps of the pool with what is observed of them. -/
def Pool.Step : Pool W → Event W → Pool W → Prop := Runs.ofFunction Pool.step

end ExpertPin.Prefetch
