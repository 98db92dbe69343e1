import ExpertPin.Prefetch.Transitions
import Mathlib.Algebra.Order.Group.Multiset

/-!
# Tickets count the unfinished jobs

A job is unfinished while it is queued, or a worker has it and has not executed
its `fetch_sub`.  In every run jobs are neither lost nor duplicated (`conserved`),
and `pending` is the number of unfinished jobs of its ticket modulo `2 ^ 32`
(`pending_eq`).
-/

namespace ExpertPin.Prefetch

open Multiset

universe u

variable {W : Type u}

/-- The unfinished job of a worker. -/
def Worker.unfinished : Worker W → List (Job W)
  | .popped job => [job]
  | .populated job _ => [job]
  | _ => []

/-- The jobs that are queued, or popped with their `fetch_sub` still to come. -/
def Pool.unfinished (s : Pool W) : Multiset (Job W) :=
  (s.queue : Multiset (Job W)) + (s.workers.flatMap Worker.unfinished : List (Job W))

/-- The number of unfinished jobs of a ticket. -/
def Pool.outstanding [DecidableEq W] (s : Pool W) (w : W) : ℕ :=
  s.unfinished.countP fun job => job.tk = w

namespace Event

/-- The jobs an event adds to the queue. -/
def enqueuedJobs : Event W → Multiset (Job W)
  | .enqueued _ jobs => jobs
  | _ => 0

/-- The jobs whose `fetch_sub` a worker executes. -/
def completedJobs : Event W → Multiset (Job W)
  | .completed job => {job}
  | _ => 0

/-- The jobs that `stop` completes without executing them. -/
def droppedJobs : Event W → Multiset (Job W)
  | .dropped jobs => jobs
  | _ => 0

end Event

/-- Replacing one element changes a concatenation by what the element contributes. -/
theorem coe_flatMap_set {α β : Type*} (f : α → List β) {l : List α} {i : ℕ} {a : α}
    (h : l[i]? = some a) (b : α) :
    ((l.set i b).flatMap f : Multiset β) + f a = (l.flatMap f : Multiset β) + f b := by
  obtain ⟨hi, rfl⟩ := List.getElem?_eq_some_iff.mp h
  have hset : ((l.set i b).flatMap f : Multiset β) = ↑(f b) + ↑((l.eraseIdx i).flatMap f) :=
    coe_eq_coe.mpr ((List.set_perm_cons_eraseIdx hi b).flatMap_right f)
  have hget : (l.flatMap f : Multiset β) = ↑(f l[i]) + ↑((l.eraseIdx i).flatMap f) :=
    coe_eq_coe.mpr ((List.getElem_cons_eraseIdx_perm hi).symm.flatMap_right f)
  rw [hset, hget]
  ac_rfl

namespace Pool

variable {s t : Pool W} {e : Event W}

/-! ## Conservation -/

/-- All jobs of an enqueue carry its ticket. -/
theorem tk_of_mem_jobs {r : Request W} {serial : ℕ} {job : Job W} (h : job ∈ r.jobs serial) :
    job.tk = r.w := by
  simp only [Request.jobs, List.mem_flatMap, List.mem_map] at h
  obtain ⟨-, -, -, -, rfl⟩ := h
  rfl

theorem unfinished_setWorker {i : ℕ} {worker : Worker W} (h : s.workers[i]? = some worker)
    (worker' : Worker W) :
    (s.setWorker i worker').unfinished + worker.unfinished = s.unfinished + worker'.unfinished := by
  rw [unfinished, unfinished, add_assoc, add_assoc]
  exact congrArg _ (coe_flatMap_set Worker.unfinished h worker')

/-- A worker that neither takes nor finishes a job. -/
theorem unfinished_setWorker_of_eq {i : ℕ} {worker worker' : Worker W}
    (h : s.workers[i]? = some worker) (hjobs : worker.unfinished = worker'.unfinished) :
    (s.setWorker i worker').unfinished = s.unfinished := by
  have hset := unfinished_setWorker h worker'
  rw [hjobs] at hset
  exact add_right_cancel hset

variable [DecidableEq W]

@[simp] theorem workers_foldl_fetchSub (jobs : List (Job W)) :
    (jobs.foldl (fun s job => s.fetchSub job.tk) s).workers = s.workers := by
  induction jobs generalizing s with
  | nil => rfl
  | cons job jobs ih => exact ih

/-- One step neither loses nor duplicates a job. -/
theorem Transition.conserved (h : Transition s e t) :
    s.unfinished + e.enqueuedJobs = t.unfinished + e.completedJobs + e.droppedJobs := by
  have silent : ∀ {u : Pool W}, u.unfinished = s.unfinished →
      s.unfinished + Event.enqueuedJobs (.silent : Event W) =
        u.unfinished + Event.completedJobs (.silent : Event W) +
          Event.droppedJobs (.silent : Event W) := fun {u} h => by
    rw [h]
    exact (add_zero _).trans ((add_zero _).trans (add_zero _)).symm
  cases h with
  | accepted r verdict =>
    have hqueue : ((s.accept r).queue : Multiset (Job W)) = s.queue + r.jobs s.serial := by
      cases hu : r.urgent with
      | true =>
        have hq : (s.accept r).queue = r.jobs s.serial ++ s.queue := by simp [accept, hu]
        rw [hq, ← coe_add, add_comm]
      | false => simp [accept, hu]
    change (s.queue + _ + (r.jobs s.serial : Multiset (Job W))) = (s.accept r).queue + _ + 0 + 0
    rw [hqueue, add_zero, add_zero]
    exact add_right_comm _ _ _
  | stopped =>
    have hworkers : s.stop.2.workers = s.workers := workers_foldl_fetchSub s.queue
    change ((s.queue : Multiset (Job W)) + _ + 0 = 0 + _ + 0 + s.queue)
    rw [hworkers, add_zero, add_zero, zero_add]
    exact add_comm _ _
  | started nThreads shutdown exited =>
    refine silent ?_
    have hnew : ∀ n, (List.replicate n (.idle : Worker W)).flatMap Worker.unfinished = [] := by
      simp [Worker.unfinished]
    have hold : s.workers.flatMap Worker.unfinished = [] := by
      rw [List.flatMap_eq_nil_iff]
      intro worker hworker
      rw [exited worker hworker]
      rfl
    rw [unfinished, unfinished, hold, hnew]
  | exited _ worker | read _ _ worker | skipped _ _ worker | recorded _ _ _ worker
  | forgotten _ _ _ _ worker => exact silent (unfinished_setWorker_of_eq worker rfl)
  | popped i job queue worker head =>
    refine silent ?_
    have h := coe_flatMap_set Worker.unfinished worker (.popped job)
    have hidle : (Worker.idle : Worker W).unfinished = [] := rfl
    rw [hidle, coe_nil, add_zero, Worker.unfinished] at h
    change (queue : Multiset (Job W)) + ↑((s.workers.set i _).flatMap Worker.unfinished) = _
    rw [h, unfinished, head, coe_singleton, ← cons_coe job,
      ← singleton_add]
    ac_rfl
  | completed i job doneRead worker =>
    have h := unfinished_setWorker (s := s.fetchSub job.tk) worker
      (.completed job doneRead (s.pending job.tk))
    change s.unfinished + 0 = _ + {job} + 0
    rw [add_zero, add_zero]
    exact (h.trans (add_zero _)).symm
  | _ => exact silent rfl

/-! ## Pending counters -/

section Pending

variable {w : W}

theorem isSome_modifyTicket (w' : W) (f : Ticket → Ticket) :
    ((s.modifyTicket w' f).tickets w).isSome = (s.tickets w).isSome := by
  rcases eq_or_ne w w' with rfl | hw
  · simp [modifyTicket]
  · simp [modifyTicket, Function.update_of_ne hw]

theorem pending_touchTicket (w' : W) : (s.touchTicket w').pending w = s.pending w := by
  rcases eq_or_ne w w' with rfl | hw
  · simp [touchTicket, pending]
  · simp [touchTicket, pending, Function.update_of_ne hw]

/-- Only `fetchSub` and `accept` touch `pending`. -/
theorem pending_modifyTicket (w' : W) {f : Ticket → Ticket}
    (hf : ∀ tk, (f tk).pending = tk.pending) :
    (s.modifyTicket w' f).pending w = s.pending w := by
  rcases eq_or_ne w w' with rfl | hw
  · cases h : s.tickets w with
    | none => simp [modifyTicket, pending, h]
    | some tk => simp [modifyTicket, pending, h, hf]
  · simp [modifyTicket, pending, Function.update_of_ne hw]

theorem pending_fetchSub_self (h : (s.tickets w).isSome) :
    (s.fetchSub w).pending w = s.pending w - 1 := by
  obtain ⟨tk, htk⟩ := Option.isSome_iff_exists.mp h
  simp [fetchSub, modifyTicket, pending, htk]

theorem pending_fetchSub_of_ne {w' : W} (h : w ≠ w') : (s.fetchSub w').pending w = s.pending w := by
  simp [fetchSub, modifyTicket, pending, Function.update_of_ne h]

/-- Each `fetch_sub` takes one off the counter of its own ticket. -/
theorem pending_fetchSub {w' : W} (h : (s.tickets w').isSome) :
    (s.fetchSub w').pending w + Int32.ofNat (if w' = w then 1 else 0) = s.pending w := by
  rcases eq_or_ne w w' with rfl | hw
  · rw [pending_fetchSub_self h, if_pos rfl]
    exact Int32.sub_add_cancel _ _
  · rw [pending_fetchSub_of_ne hw, if_neg hw.symm]
    exact Int32.add_zero _

/-- The loop of `stop`. -/
theorem pending_foldl_fetchSub {jobs : List (Job W)} (h : ∀ job ∈ jobs, (s.tickets job.tk).isSome) :
    (jobs.foldl (fun s job => s.fetchSub job.tk) s).pending w +
      Int32.ofNat (jobs.countP fun job => job.tk = w) = s.pending w := by
  induction jobs generalizing s with
  | nil => exact Int32.add_zero _
  | cons job jobs ih =>
    have hjob := pending_fetchSub (w := w) (h job (by simp))
    have hjobs := ih (s := s.fetchSub job.tk) fun j hj => by
      rw [fetchSub, isSome_modifyTicket]
      exact h j (List.mem_cons_of_mem _ hj)
    rw [List.foldl_cons, List.countP_cons, Int32.ofNat_add, ← Int32.add_assoc, hjobs]
    simpa using hjob

/-- An enqueue adds its jobs to the counter of its ticket. -/
theorem pending_accept (r : Request W) : (s.accept r).pending w =
      s.pending w + Int32.ofNat ((r.jobs s.serial).countP fun job => job.tk = w) := by
  rcases eq_or_ne w r.w with rfl | hw
  · have hcount : (r.jobs s.serial).countP (fun job => job.tk = r.w) =
        (r.jobs s.serial).length := by
      rw [List.countP_eq_length]
      intro job hjob
      exact decide_eq_true (tk_of_mem_jobs hjob)
    rw [hcount]
    simp [accept, pending]
  · have hcount : (r.jobs s.serial).countP (fun job => job.tk = w) = 0 := by
      rw [List.countP_eq_zero]
      intro job hjob
      rw [tk_of_mem_jobs hjob]
      simpa using hw.symm
    rw [hcount]
    simp [accept, pending, Function.update_of_ne hw]

end Pending

/-- The tickets of unfinished jobs exist, and count them. -/
structure Counted (s : Pool W) : Prop where
  ticketed : ∀ job ∈ s.unfinished, (s.tickets job.tk).isSome
  pending_eq : ∀ w, s.pending w = Int32.ofNat (s.outstanding w)

theorem counted_new : Counted ({} : Pool W) where
  ticketed := by simp [unfinished]
  pending_eq := by simp [pending, outstanding, unfinished]

/-- Tickets are never removed. -/
theorem Transition.isSome_tickets (h : Transition s e t) {w : W} (hw : (s.tickets w).isSome) :
    (t.tickets w).isSome := by
  have update : ∀ (w' : W) (tk : Ticket), (Function.update s.tickets w' (some tk) w).isSome := by
    intro w' tk
    rcases eq_or_ne w w' with rfl | hne
    · simp
    · rwa [Function.update_of_ne hne]
  cases h with
  | touched w' => exact update w' _
  | accepted r verdict => exact update r.w _
  | stopped =>
    have hjobs : ∀ (jobs : List (Job W)) (s : Pool W), (s.tickets w).isSome →
        ((jobs.foldl (fun s job => s.fetchSub job.tk) s).tickets w).isSome := by
      intro jobs
      induction jobs with
      | nil => exact fun s h => h
      | cons job jobs ih =>
        intro s h
        exact ih _ ((isSome_modifyTicket _ _).trans h)
    exact hjobs s.queue s hw
  | completed | recorded | reclaimed => exact (isSome_modifyTicket _ _).trans hw
  | _ => exact hw

/-- The ticket of an enqueue exists afterwards. -/
theorem Transition.isSome_enqueued (h : Transition s e t) {job : Job W}
    (hjob : job ∈ e.enqueuedJobs) : (t.tickets job.tk).isSome := by
  cases h with
  | accepted r verdict =>
    rw [tk_of_mem_jobs (mem_coe.mp hjob)]
    simp [accept]
  | _ => exact absurd hjob (notMem_zero job)

/-- One step moves `pending` by what it enqueues and completes. -/
theorem Transition.pending (h : Transition s e t) (hs : Counted s) (w : W) :
    t.pending w + Int32.ofNat (e.completedJobs.countP (·.tk = w)) +
        Int32.ofNat (e.droppedJobs.countP (·.tk = w)) =
      s.pending w + Int32.ofNat (e.enqueuedJobs.countP (·.tk = w)) := by
  have zero : Int32.ofNat ((0 : Multiset (Job W)).countP (·.tk = w)) = 0 := rfl
  have silent : ∀ {u : Pool W}, u.pending w = s.pending w →
      u.pending w + Int32.ofNat ((0 : Multiset (Job W)).countP (·.tk = w)) +
          Int32.ofNat ((0 : Multiset (Job W)).countP (·.tk = w)) =
        s.pending w + Int32.ofNat ((0 : Multiset (Job W)).countP (·.tk = w)) := fun {u} h => by
    rw [h, zero, Int32.add_zero, Int32.add_zero]
  cases h with
  | touched w' => exact silent (pending_touchTicket w')
  | accepted r verdict =>
    change (s.accept r).pending w + _ + _ = s.pending w + Int32.ofNat _
    rw [pending_accept]
    exact (Int32.add_zero _).trans (Int32.add_zero _)
  | stopped =>
    have hjobs : ∀ job ∈ s.queue, (s.tickets job.tk).isSome := fun job hjob =>
      hs.ticketed job (mem_add.mpr (.inl hjob))
    exact (congrArg (· + _) (Int32.add_zero _)).trans
      ((pending_foldl_fetchSub hjobs).trans (Int32.add_zero _).symm)
  | completed i job doneRead worker =>
    have hmem : job ∈ (s.workers.flatMap Worker.unfinished : Multiset (Job W)) := by
      rw [mem_coe, List.mem_flatMap]
      exact ⟨_, List.mem_of_getElem? worker, by simp [Worker.unfinished]⟩
    have hjob := pending_fetchSub (w := w) (hs.ticketed job (mem_add.mpr (.inr hmem)))
    have hcount : ({job} : Multiset (Job W)).countP (·.tk = w) = if job.tk = w then 1 else 0 := by
      rw [← cons_zero, countP_cons, countP_zero, zero_add]
    change (s.fetchSub job.tk).pending w + Int32.ofNat (countP _ {job}) + 0 = _ + 0
    rw [hcount, hjob]
  | recorded | reclaimed => exact silent (pending_modifyTicket _ fun tk => rfl)
  | _ => exact silent rfl

/-- **One step keeps the count.** -/
theorem Transition.counted (h : Transition s e t) (hs : Counted s) : Counted t where
  ticketed job hjob := by
    have hmem : job ∈ s.unfinished + e.enqueuedJobs := by
      rw [h.conserved]
      exact mem_add.mpr (.inl (mem_add.mpr (.inl hjob)))
    rcases mem_add.mp hmem with hold | hnew
    · exact h.isSome_tickets (hs.ticketed job hold)
    · exact h.isSome_enqueued hnew
  pending_eq w := by
    have hpending := h.pending hs w
    have hcount := congrArg (countP (·.tk = w)) h.conserved
    simp only [countP_add] at hcount
    have hcount := congrArg Int32.ofNat hcount
    simp only [Int32.ofNat_add] at hcount
    rw [hs.pending_eq w] at hpending
    exact (Int32.add_left_inj _).mp ((Int32.add_left_inj _).mp (hpending.trans hcount))

/-! ## Runs -/

/-- In a run no job is lost or duplicated: what was enqueued is unfinished, was
completed by a worker, or dropped by `stop`. -/
theorem conserved {tr : List (Event W)} (h : Runs.Steps Step {} tr s) :
    (tr.map Event.enqueuedJobs).sum =
      s.unfinished + (tr.map Event.completedJobs).sum + (tr.map Event.droppedJobs).sum := by
  refine h.history (P := fun tr s => (tr.map Event.enqueuedJobs).sum =
    s.unfinished + (tr.map Event.completedJobs).sum + (tr.map Event.droppedJobs).sum) ?_ ?_
  · intro tr t e u _ ih step
    have hstep := (transition_of_step step).conserved
    simp only [List.map_append, List.map_singleton, List.sum_append, List.sum_singleton]
    rw [ih]
    calc t.unfinished + (tr.map Event.completedJobs).sum + (tr.map Event.droppedJobs).sum +
          e.enqueuedJobs
        = t.unfinished + e.enqueuedJobs + (tr.map Event.completedJobs).sum +
          (tr.map Event.droppedJobs).sum := by ac_rfl
      _ = u.unfinished + e.completedJobs + e.droppedJobs + (tr.map Event.completedJobs).sum +
          (tr.map Event.droppedJobs).sum := by rw [hstep]
      _ = u.unfinished + ((tr.map Event.completedJobs).sum + e.completedJobs) +
          ((tr.map Event.droppedJobs).sum + e.droppedJobs) := by ac_rfl
  · simp [unfinished]

theorem counted {tr : List (Event W)} (h : Runs.Steps Step {} tr s) : Counted s :=
  h.invariant (fun _ _ _ hs step => (transition_of_step step).counted hs) counted_new

/-- While the count fits, a `wait` that returns finds nothing unfinished, unless the
pool is shut down. -/
theorem outstanding_of_returned (hs : Counted s) {w : W} (hfits : s.outstanding w < 2 ^ 31)
    (h : Step s (.returned w) t) (hup : s.shutdown = false) : s.outstanding w = 0 := by
  have hzero : s.pending w ≤ 0 → s.outstanding w = 0 := by
    intro hle
    rw [hs.pending_eq, Int32.le_iff_toInt_le, Int32.toInt_ofNat_of_lt hfits,
      Int32.toInt_zero] at hle
    omega
  cases transition_of_step h with
  | returned _ waiters done =>
    rcases done with hnone | hshutdown | hle
    · refine hzero ?_
      simp [pending, hnone]
    · exact absurd hshutdown (by simp [hup])
    · exact hzero hle

end Pool

/-- **The ticket protocol.**  In every run of the pool, jobs are neither lost nor
executed twice, except that `stop` drops what is queued; and as long as a ticket
has fewer than `2 ^ 31` unfinished jobs, `pending` is their number, and waiting for
it ends only when there are none, unless the pool is shut down. -/
theorem Pool.ticket_protocol [DecidableEq W] {s : Pool W} {tr : List (Event W)}
    (h : Runs.Steps Pool.Step {} tr s) :
    (tr.map Event.enqueuedJobs).sum =
        s.unfinished + (tr.map Event.completedJobs).sum + (tr.map Event.droppedJobs).sum ∧
      ∀ w, s.outstanding w < 2 ^ 31 → (s.pending w).toInt = s.outstanding w ∧ 0 ≤ s.pending w ∧
        ∀ t, Pool.Step s (.returned w) t → s.shutdown = false → s.outstanding w = 0 := by
  refine ⟨conserved h, fun w hfits => ?_⟩
  have hs := counted h
  have hpending : (s.pending w).toInt = s.outstanding w := by
    rw [hs.pending_eq, Int32.toInt_ofNat_of_lt hfits]
  refine ⟨hpending, ?_, fun t hstep hup => outstanding_of_returned hs hfits hstep hup⟩
  rw [Int32.le_iff_toInt_le, hpending]
  exact Int.natCast_nonneg _

/-- One worker populates the only chunk of a manifest expert while a caller waits. -/
def manifestRun : List (Action Unit) :=
  [.stop, .start 1, .enqueue ⟨(), 4096, [(0, 100)], false, false, 1⟩, .waitFind (), .waitLoad 0,
    .pop 0, .populate 0 true, .complete 0, .waitWake 0]

theorem Pool.ticket_protocol_manifestRun : ∃ (s : Pool Unit) (tr : List (Event Unit)),
      Runs.perform Pool.step {} manifestRun = some (tr, s) ∧
      (tr.map Event.enqueuedJobs).sum =
        s.unfinished + (tr.map Event.completedJobs).sum + (tr.map Event.droppedJobs).sum ∧
      ∀ w, s.outstanding w < 2 ^ 31 → (s.pending w).toInt = s.outstanding w ∧ 0 ≤ s.pending w ∧
        ∀ t, Pool.Step s (.returned w) t → s.shutdown = false → s.outstanding w = 0 :=
  ⟨_, _, rfl, Pool.ticket_protocol (Runs.steps_of_perform Pool.step
    (show Runs.perform Pool.step {} manifestRun = some (_, _) from rfl))⟩

/-- A manifest request that asks `n` times for one slice of one byte. -/
def repeatedRequest (n : ℕ) : Request Unit := ⟨(), 4096, List.replicate n (0, 1), false, false, 1⟩

theorem length_jobs_repeatedRequest (n serial : ℕ) :
    ((repeatedRequest n).jobs serial).length = n := by
  have hone : ∀ addr, (chunksOf serial addr 1).length = 1 := fun addr => rfl
  simp [Request.jobs, repeatedRequest, List.length_flatMap, hone]

/-- A count that is negative as an `int` lets `wait` return at once. -/
theorem Pool.returned_of_overflow {n : ℕ} (hn : Int32.ofNat n < 0) :
    ∃ s : Pool Unit, (∃ tr, Runs.Steps Pool.Step {} tr s) ∧ s.shutdown = false ∧
      s.outstanding () = n ∧ s.pending () < 0 ∧ ∃ t, Pool.Step s (.returned ()) t := by
  let s : Pool Unit := ({} : Pool Unit).accept (repeatedRequest n)
  have henqueue : Pool.Step ({} : Pool Unit) (.enqueued _ _) s :=
    ⟨.enqueue (repeatedRequest n), rfl⟩
  have hfind : Pool.Step s .silent { s with waiters := [.found ()] } := ⟨.waitFind (), rfl⟩
  have hrun := Runs.Steps.snoc (.single henqueue) hfind
  have hcounted := counted hrun
  have hout : Pool.outstanding { s with waiters := [.found ()] } () = n := by
    have hjobs : s.unfinished = ((repeatedRequest n).jobs 0 : Multiset (Job Unit)) := by
      simp [s, unfinished, accept, repeatedRequest]
    calc countP (fun job => job.tk = ()) s.unfinished
        = ((repeatedRequest n).jobs 0).length := by rw [hjobs]; simp
      _ = n := length_jobs_repeatedRequest n 0
  have hneg : Pool.pending { s with waiters := [.found ()] } () < 0 := by
    rw [hcounted.pending_eq, hout]
    exact hn
  refine ⟨_, ⟨_, hrun⟩, rfl, hout, hneg, { s with waiters := [] }, .waitLoad 0, ?_⟩
  exact if_pos (Int32.le_of_lt hneg)

/-- The bound on unfinished jobs is needed: once `2 ^ 31` are, `pending` is
negative and `wait` returns at once. -/
theorem Pool.pending_overflow :
    ∃ s : Pool Unit, (∃ tr, Runs.Steps Pool.Step {} tr s) ∧ s.shutdown = false ∧
      s.outstanding () = 2147483648 ∧ s.pending () < 0 ∧ ∃ t, Pool.Step s (.returned ()) t :=
  returned_of_overflow (by decide)

end ExpertPin.Prefetch
