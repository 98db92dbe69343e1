import ExpertPin.Prefetch.Pool

/-!
# What a step of the pool can do

`Transition s e t` lists the ways in which the pool can step, one constructor for
each outcome of an atomic section, with the guards under which it happens and the
state it leaves.  Every step is one of them (`transition_of_step`), and each
invariant of the pool is proved by cases on it.
-/

namespace ExpertPin.Prefetch

open Option

universe u

variable {W : Type u} [DecidableEq W]

namespace Pool

/-- The outcomes of the atomic sections.  A sleeper may wake up at any time, so
of the waiters only what lets one return is kept. -/
inductive Transition (s : Pool W) : Event W → Pool W → Prop
  | stuttered : Transition s .silent s
  | touched (w : W) : Transition s .silent (s.touchTicket w)
  | accepted (r : Request W) (verdict : s.verdict r = .accepted) :
      Transition s (.enqueued r (r.jobs s.serial)) (s.accept r)
  | stopped : Transition s s.stop.1 s.stop.2
  | started (nThreads : ℕ) (shutdown : s.shutdown = true)
      (exited : ∀ worker ∈ s.workers, worker = .exited) :
      Transition s .silent { s with shutdown := false, workers := List.replicate nThreads .idle }
  | exited (i : ℕ) (worker : s.workers[i]? = some .idle) (shutdown : s.shutdown = true) :
      Transition s .silent (s.setWorker i .exited)
  | popped (i : ℕ) (job : Job W) (queue : List (Job W)) (worker : s.workers[i]? = some .idle)
      (head : s.queue = job :: queue) :
      Transition s .silent { s.setWorker i (.popped job) with queue }
  | read (i : ℕ) (job : Job W) (worker : s.workers[i]? = some (.popped job)) :
      Transition s (.read job) (s.setWorker i (.populated job true))
  | skipped (i : ℕ) (job : Job W) (worker : s.workers[i]? = some (.popped job)) :
      Transition s .silent (s.setWorker i (.populated job false))
  | completed (i : ℕ) (job : Job W) (doneRead : Bool)
      (worker : s.workers[i]? = some (.populated job doneRead)) :
      Transition s (.completed job)
        ((s.fetchSub job.tk).setWorker i (.completed job doneRead (s.pending job.tk)))
  | recorded (i : ℕ) (job : Job W) (left : Int32)
      (worker : s.workers[i]? = some (.completed job true left))
      (track : ((s.tickets job.tk).getD {}).trackReads = true) :
      Transition s (.recorded job) ((s.modifyTicket job.tk fun tk =>
        { tk with readChunks := tk.readChunks ++ [job.chunk] }).setWorker i .idle)
  | forgotten (i : ℕ) (job : Job W) (doneRead : Bool) (left : Int32)
      (worker : s.workers[i]? = some (.completed job doneRead left))
      (untracked : ¬(doneRead = true ∧ ((s.tickets job.tk).getD {}).trackReads = true)) :
      Transition s .silent (s.setWorker i .idle)
  | waiting (waiters : List (Waiter W)) : Transition s .silent { s with waiters }
  | returned (w : W) (waiters : List (Waiter W))
      (done : s.tickets w = none ∨ s.shutdown = true ∨ s.pending w ≤ 0) :
      Transition s (.returned w) { s with waiters }
  | reclaimed (w : W) (tk : Ticket) (ticket : s.tickets w = some tk)
      (track : tk.trackReads = true) :
      Transition s (.reclaimed w tk.readChunks)
        (s.modifyTicket w fun tk => { tk with readChunks := [] })

namespace Transition

variable {s t : Pool W} {e : Event W}

theorem of_enqueue (r : Request W) : Transition s (s.enqueue r).1 (s.enqueue r).2 := by
  unfold enqueue
  cases h : s.verdict r with
  | refused => exact .stuttered
  | duplicate => exact .touched r.w
  | backpressure => exact .touched r.w
  | accepted => exact .accepted r h

theorem of_start {nThreads : ℕ} (h : s.start nThreads = some (e, t)) : Transition s e t := by
  unfold start at h
  split at h
  case isTrue hguard =>
    obtain ⟨rfl, rfl⟩ := Prod.mk.inj (some.inj h)
    exact .started nThreads hguard.1 hguard.2
  case isFalse => exact absurd h (by simp)

theorem of_pop {i : ℕ} (h : s.pop i = some (e, t)) : Transition s e t := by
  unfold pop at h
  split at h
  case h_1 hworker =>
    split at h
    case isTrue hshutdown =>
      obtain ⟨rfl, rfl⟩ := Prod.mk.inj (some.inj h)
      exact .exited i hworker hshutdown
    case isFalse =>
      split at h
      case h_1 => exact absurd h (by simp)
      case h_2 job queue hqueue =>
        obtain ⟨rfl, rfl⟩ := Prod.mk.inj (some.inj h)
        exact .popped i job queue hworker hqueue
  case h_2 => exact absurd h (by simp)

theorem of_populate {i : ℕ} {doneRead : Bool} (h : s.populate i doneRead = some (e, t)) :
    Transition s e t := by
  unfold populate at h
  split at h
  case h_1 job hworker =>
    obtain ⟨rfl, rfl⟩ := Prod.mk.inj (some.inj h)
    cases doneRead with
    | true => exact .read i job hworker
    | false => exact .skipped i job hworker
  case h_2 => exact absurd h (by simp)

theorem of_complete {i : ℕ} (h : s.complete i = some (e, t)) : Transition s e t := by
  unfold complete at h
  split at h
  case h_1 job doneRead hworker =>
    obtain ⟨rfl, rfl⟩ := Prod.mk.inj (some.inj h)
    exact .completed i job doneRead hworker
  case h_2 => exact absurd h (by simp)

theorem of_record {i : ℕ} (h : s.record i = some (e, t)) : Transition s e t := by
  unfold record at h
  split at h
  case h_1 job doneRead left hworker =>
    split at h
    case isTrue htrack =>
      obtain ⟨rfl, htrack⟩ := htrack
      obtain ⟨rfl, rfl⟩ := Prod.mk.inj (some.inj h)
      exact .recorded i job left hworker htrack
    case isFalse htrack =>
      obtain ⟨rfl, rfl⟩ := Prod.mk.inj (some.inj h)
      exact .forgotten i job doneRead left hworker htrack
  case h_2 => exact absurd h (by simp)

theorem of_waitFind (w : W) : Transition s (s.waitFind w).1 (s.waitFind w).2 := by
  unfold waitFind
  cases h : s.tickets w with
  | none => exact .returned w s.waiters (.inl h)
  | some tk => exact .waiting _

theorem of_waitLoad {i : ℕ} (h : s.waitLoad i = some (e, t)) : Transition s e t := by
  unfold waitLoad at h
  split at h
  case h_1 w hwaiter =>
    split at h
    case isTrue hpending =>
      obtain ⟨rfl, rfl⟩ := Prod.mk.inj (some.inj h)
      exact .returned w _ (.inr (.inr hpending))
    case isFalse =>
      obtain ⟨rfl, rfl⟩ := Prod.mk.inj (some.inj h)
      exact .waiting _
  case h_2 => exact absurd h (by simp)

theorem of_waitWake {i : ℕ} (h : s.waitWake i = some (e, t)) : Transition s e t := by
  unfold waitWake at h
  split at h
  case h_1 w hwaiter =>
    split at h
    case isTrue hdone =>
      obtain ⟨rfl, rfl⟩ := Prod.mk.inj (some.inj h)
      exact .returned w _ (.inr hdone)
    case isFalse =>
      obtain ⟨rfl, rfl⟩ := Prod.mk.inj (some.inj h)
      exact .stuttered
  case h_2 => exact absurd h (by simp)

theorem of_cold (w : W) : Transition s (s.cold w).1 (s.cold w).2 := by
  unfold cold
  cases h : s.tickets w with
  | none => exact .stuttered
  | some tk =>
    dsimp only
    split
    case isTrue htrack => exact .reclaimed w tk h htrack
    case isFalse => exact .stuttered

end Transition

/-- Every step is one of the transitions. -/
theorem transition_of_step {s t : Pool W} {e : Event W} (h : Step s e t) : Transition s e t := by
  obtain ⟨action, h⟩ := h
  cases action with
  | enqueue r =>
    obtain ⟨rfl, rfl⟩ := Prod.mk.inj (some.inj h)
    exact .of_enqueue r
  | stop =>
    obtain ⟨rfl, rfl⟩ := Prod.mk.inj (some.inj h)
    exact .stopped
  | start nThreads => exact .of_start h
  | pop i => exact .of_pop h
  | populate i doneRead => exact .of_populate h
  | complete i => exact .of_complete h
  | record i => exact .of_record h
  | waitFind w =>
    obtain ⟨rfl, rfl⟩ := Prod.mk.inj (some.inj h)
    exact .of_waitFind w
  | waitLoad i => exact .of_waitLoad h
  | waitWake i => exact .of_waitWake h
  | cold w =>
    obtain ⟨rfl, rfl⟩ := Prod.mk.inj (some.inj h)
    exact .of_cold w

end Pool

end ExpertPin.Prefetch
