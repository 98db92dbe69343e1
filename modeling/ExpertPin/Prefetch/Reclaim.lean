import ExpertPin.Prefetch.Tickets

/-!
# What `ggml_moe_prefetch_cold` reclaims

A lookahead enqueue arms a ticket: from then on the chunks that workers read are
recorded on it, and `cold` takes what is recorded.  `Armed` follows one lookahead
from its enqueue on.  Of its own chunks every one read so far is recorded, or a
worker still holds it; and whatever else is recorded was recorded by a worker late
with a job of an earlier enqueue (`armed_run`).
-/

namespace ExpertPin.Prefetch

open Multiset

universe u

variable {W : Type u}

/-- The jobs a worker holds, also after its `fetch_sub`. -/
def Worker.jobs : Worker W → List (Job W)
  | .popped job => [job]
  | .populated job _ => [job]
  | .completed job _ _ => [job]
  | _ => []

/-- The chunks a worker read and has not recorded. -/
def Worker.unrecorded : Worker W → List Chunk
  | .populated job true => [job.chunk]
  | .completed job true _ => [job.chunk]
  | _ => []

/-- The jobs around. -/
def Pool.jobs (s : Pool W) : Multiset (Job W) :=
  (s.queue : Multiset (Job W)) + (s.workers.flatMap Worker.jobs : List (Job W))

/-- The chunks that were read and that some worker is still to record. -/
def Pool.unrecorded (s : Pool W) : Multiset Chunk :=
  (s.workers.flatMap Worker.unrecorded : List Chunk)

namespace Event

/-- The chunk a worker reads from storage. -/
def readChunks : Event W → Multiset Chunk
  | .read job => {job.chunk}
  | _ => 0

/-- The chunk a worker records on the ticket of `w`. -/
def recordedChunks [DecidableEq W] (w : W) : Event W → Multiset Chunk
  | .recorded job => if job.tk = w then {job.chunk} else 0
  | _ => 0

end Event

/-- The chunks of the enqueue `serial` that workers read. -/
def readOf (serial : ℕ) (tr : List (Event W)) : Multiset Chunk :=
  (tr.map Event.readChunks).sum.filter fun chunk => chunk.serial = serial

namespace Pool

variable {s t : Pool W} {e : Event W}

variable {job : Job W}

theorem mem_jobs_of_worker {i : ℕ} {worker : Worker W} (h : s.workers[i]? = some worker)
    (hjob : job ∈ worker.jobs) : job ∈ s.jobs :=
  mem_add.mpr (.inr (List.mem_flatMap.mpr ⟨worker, List.mem_of_getElem? h, hjob⟩))

theorem jobs_setWorker {i : ℕ} {worker : Worker W} (h : s.workers[i]? = some worker)
    (worker' : Worker W) (hjobs : worker'.jobs ⊆ worker.jobs)
    (hjob : job ∈ (s.setWorker i worker').jobs) : job ∈ s.jobs := by
  rcases mem_add.mp hjob with hqueue | hworkers
  · exact mem_add.mpr (.inl hqueue)
  · obtain ⟨other, hother, hmem⟩ := List.mem_flatMap.mp (mem_coe.mp hworkers)
    rcases List.mem_or_eq_of_mem_set hother with hold | rfl
    · exact mem_add.mpr (.inr (List.mem_flatMap.mpr ⟨other, hold, hmem⟩))
    · exact mem_jobs_of_worker h (hjobs hmem)

theorem unrecorded_setWorker {i : ℕ} {worker : Worker W} (h : s.workers[i]? = some worker)
    (worker' : Worker W) :
    (s.setWorker i worker').unrecorded + worker.unrecorded = s.unrecorded + worker'.unrecorded :=
  coe_flatMap_set Worker.unrecorded h worker'

theorem unrecorded_setWorker_of_eq {i : ℕ} {worker worker' : Worker W}
    (h : s.workers[i]? = some worker) (heq : worker.unrecorded = worker'.unrecorded) :
    (s.setWorker i worker').unrecorded = s.unrecorded := by
  have hset := unrecorded_setWorker h worker'
  rw [heq] at hset
  exact add_right_cancel hset

/-- A chunk to be recorded is of a job around. -/
theorem exists_job_of_mem_unrecorded {chunk : Chunk} (h : chunk ∈ s.unrecorded) :
    ∃ job ∈ s.jobs, job.chunk = chunk := by
  obtain ⟨worker, hworker, hmem⟩ := List.mem_flatMap.mp (mem_coe.mp h)
  have hjob : ∃ job ∈ worker.jobs, job.chunk = chunk := by
    unfold Worker.unrecorded at hmem
    split at hmem
    case h_1 job => exact ⟨job, List.mem_cons_self, (List.mem_singleton.mp hmem).symm⟩
    case h_2 job _ => exact ⟨job, List.mem_cons_self, (List.mem_singleton.mp hmem).symm⟩
    case h_3 => exact absurd hmem (List.not_mem_nil)
  obtain ⟨job, hjob, rfl⟩ := hjob
  exact ⟨job, mem_add.mpr (.inr (List.mem_flatMap.mpr ⟨worker, hworker, hjob⟩)), rfl⟩

theorem serial_of_mem_jobs {r : Request W} {serial : ℕ} (h : job ∈ r.jobs serial) :
    job.chunk.serial = serial := by
  simp only [Request.jobs, chunksOf, List.mem_flatMap, List.mem_map] at h
  obtain ⟨-, -, -, ⟨-, -, rfl⟩, rfl⟩ := h
  rfl

variable [DecidableEq W]

/-- Only an enqueue brings new jobs. -/
theorem Transition.mem_jobs (h : Transition s e t) (hjob : job ∈ t.jobs) :
    job ∈ s.jobs ∨ job ∈ e.enqueuedJobs := by
  cases h with
  | accepted r verdict =>
    rcases mem_add.mp hjob with hqueue | hworkers
    · have hmem : job ∈ (if r.urgent then r.jobs s.serial ++ s.queue
          else s.queue ++ r.jobs s.serial) := hqueue
      have hor : job ∈ s.queue ∨ job ∈ r.jobs s.serial := by
        split at hmem
        case isTrue => exact (List.mem_append.mp hmem).symm
        case isFalse => exact List.mem_append.mp hmem
      rcases hor with hold | hnew
      · exact .inl (mem_add.mpr (.inl hold))
      · exact .inr hnew
    · exact .inl (mem_add.mpr (.inr hworkers))
  | stopped =>
    refine .inl ?_
    have hworkers : s.stop.2.workers = s.workers := workers_foldl_fetchSub s.queue
    rcases mem_add.mp hjob with hqueue | hmem
    · exact absurd hqueue (notMem_zero job)
    · rw [hworkers] at hmem
      exact mem_add.mpr (.inr hmem)
  | started nThreads shutdown exited =>
    rcases mem_add.mp hjob with hqueue | hworkers
    · exact .inl (mem_add.mpr (.inl hqueue))
    · exact absurd hworkers (by simp [Worker.jobs])
  | exited i worker shutdown => exact .inl (jobs_setWorker worker .exited (List.nil_subset _) hjob)
  | popped i job' queue worker head =>
    refine .inl ?_
    rcases mem_add.mp hjob with hqueue | hworkers
    · refine mem_add.mpr (.inl ?_)
      rw [head]
      exact List.mem_cons_of_mem _ hqueue
    · obtain ⟨other, hother, hmem⟩ := List.mem_flatMap.mp (mem_coe.mp hworkers)
      rcases List.mem_or_eq_of_mem_set hother with hold | rfl
      · exact mem_add.mpr (.inr (List.mem_flatMap.mpr ⟨other, hold, hmem⟩))
      · obtain rfl : job = job' := List.mem_singleton.mp hmem
        refine mem_add.mpr (.inl ?_)
        rw [head]
        exact List.mem_cons_self
  | read i job' worker =>
    exact .inl (jobs_setWorker worker (.populated job' true) (fun _ h => h) hjob)
  | skipped i job' worker =>
    exact .inl (jobs_setWorker worker (.populated job' false) (fun _ h => h) hjob)
  | completed i job' doneRead worker =>
    exact .inl (jobs_setWorker (s := s.fetchSub job'.tk) worker
      (.completed job' doneRead (s.pending job'.tk)) (fun _ h => h) hjob)
  | recorded i job' left worker track =>
    exact .inl (jobs_setWorker (s := s.modifyTicket job'.tk _) worker .idle
      (List.nil_subset _) hjob)
  | forgotten i job' doneRead left worker untracked =>
    exact .inl (jobs_setWorker worker .idle (List.nil_subset _) hjob)
  | _ => exact .inl hjob

/-- A ticket keeps what it records unless it is armed again or its chunks are taken. -/
theorem Transition.readChunks (h : Transition s e t) {w : W} {tk : Ticket}
    (htk : s.tickets w = some tk) (harm : ∀ r jobs, e = .enqueued r jobs → r.w ≠ w)
    (htake : ∀ chunks, e ≠ .reclaimed w chunks) :
    ∃ tk', t.tickets w = some tk' ∧ tk'.trackReads = tk.trackReads ∧
      (tk'.readChunks : Multiset Chunk) = tk.readChunks + e.recordedChunks w := by
  have same : ∀ {tk' : Ticket}, tk'.readChunks = tk.readChunks →
      (tk'.readChunks : Multiset Chunk) = tk.readChunks + 0 := fun h => by rw [h, add_zero]
  have fetchSub : ∀ (s : Pool W) (w' : W) (tk : Ticket), s.tickets w = some tk →
      ∃ tk', (s.fetchSub w').tickets w = some tk' ∧ tk'.trackReads = tk.trackReads ∧
        tk'.readChunks = tk.readChunks := by
    intro s w' tk htk
    rcases eq_or_ne w w' with rfl | hne
    · exact ⟨{ tk with pending := tk.pending - 1 },
        by simp [Pool.fetchSub, modifyTicket, htk], rfl, rfl⟩
    · exact ⟨tk, by simp [Pool.fetchSub, modifyTicket, Function.update_of_ne hne, htk], rfl, rfl⟩
  cases h with
  | touched w' =>
    refine ⟨tk, ?_, rfl, same rfl⟩
    rcases eq_or_ne w w' with rfl | hne
    · simp [touchTicket, htk]
    · simp [touchTicket, Function.update_of_ne hne, htk]
  | accepted r verdict =>
    refine ⟨tk, ?_, rfl, same rfl⟩
    simp [accept, Function.update_of_ne (harm r _ rfl).symm, htk]
  | stopped =>
    have hjobs : ∀ (jobs : List (Job W)) (s : Pool W) (tk : Ticket), s.tickets w = some tk →
        ∃ tk', (jobs.foldl (fun s job => s.fetchSub job.tk) s).tickets w = some tk' ∧
          tk'.trackReads = tk.trackReads ∧ tk'.readChunks = tk.readChunks := by
      intro jobs
      induction jobs with
      | nil => exact fun s tk h => ⟨tk, h, rfl, rfl⟩
      | cons job jobs ih =>
        intro s tk h
        obtain ⟨tk', h', htrack, hread⟩ := fetchSub s job.tk tk h
        obtain ⟨tk'', h'', htrack', hread'⟩ := ih _ tk' h'
        exact ⟨tk'', h'', htrack'.trans htrack, hread'.trans hread⟩
    obtain ⟨tk', h', htrack, hread⟩ := hjobs s.queue s tk htk
    exact ⟨tk', h', htrack, same hread⟩
  | completed i job doneRead worker =>
    obtain ⟨tk', h', htrack, hread⟩ := fetchSub s job.tk tk htk
    exact ⟨tk', h', htrack, same hread⟩
  | recorded i job left worker track =>
    rcases eq_or_ne w job.tk with rfl | hne
    · refine ⟨{ tk with readChunks := tk.readChunks ++ [job.chunk] }, ?_, rfl, ?_⟩
      · simp [setWorker, modifyTicket, htk]
      · simp [Event.recordedChunks, ← coe_add]
    · refine ⟨tk, ?_, rfl, ?_⟩
      · simp [setWorker, modifyTicket, Function.update_of_ne hne, htk]
      · simp [Event.recordedChunks, hne.symm]
  | reclaimed w' tk' ticket track =>
    have hne : w ≠ w' := fun h => htake tk'.readChunks (h ▸ rfl)
    refine ⟨tk, ?_, rfl, same rfl⟩
    simp [modifyTicket, Function.update_of_ne hne, htk]
  | _ => exact ⟨tk, htk, rfl, same rfl⟩

/-- Of the chunks of one enqueue, whose ticket tracks reads, none is forgotten. -/
theorem Transition.unrecorded (h : Transition s e t) {w : W} {tk : Ticket} {a : ℕ}
    (htk : s.tickets w = some tk) (htrack : tk.trackReads = true)
    (hown : ∀ job ∈ s.jobs, job.chunk.serial = a → job.tk = w) :
    s.unrecorded.filter (·.serial = a) + e.readChunks.filter (·.serial = a) =
      t.unrecorded.filter (·.serial = a) + (e.recordedChunks w).filter (·.serial = a) := by
  have silent : ∀ {u : Pool W}, u.unrecorded = s.unrecorded →
      s.unrecorded.filter (·.serial = a) + (0 : Multiset Chunk).filter (·.serial = a) =
        u.unrecorded.filter (·.serial = a) + (0 : Multiset Chunk).filter (·.serial = a) :=
    fun h => by rw [h]
  cases h with
  | stopped =>
    refine silent ?_
    have hworkers : s.stop.2.workers = s.workers := workers_foldl_fetchSub s.queue
    rw [Pool.unrecorded, hworkers, Pool.unrecorded]
  | started nThreads shutdown exited =>
    refine silent ?_
    have hold : s.workers.flatMap Worker.unrecorded = [] := by
      rw [List.flatMap_eq_nil_iff]
      intro worker hworker
      rw [exited worker hworker]
      rfl
    have hnew : (List.replicate nThreads (.idle : Worker W)).flatMap Worker.unrecorded = [] := by
      simp [Worker.unrecorded]
    rw [Pool.unrecorded, Pool.unrecorded, hold, hnew]
  | exited _ worker | popped _ _ _ worker | skipped _ _ worker =>
    exact silent (unrecorded_setWorker_of_eq worker rfl)
  | read i job worker =>
    have hset := unrecorded_setWorker worker (.populated job true)
    have hnone : (Worker.popped job).unrecorded = [] := rfl
    rw [hnone, coe_nil, add_zero] at hset
    rw [hset, filter_add]
    exact (add_zero _).symm
  | completed i job doneRead worker =>
    refine silent (unrecorded_setWorker_of_eq (s := s.fetchSub job.tk) worker ?_)
    cases doneRead <;> rfl
  | recorded i job left worker track =>
    have hset := unrecorded_setWorker (s := s.modifyTicket job.tk fun tk =>
      { tk with readChunks := tk.readChunks ++ [job.chunk] }) worker .idle
    have hrest := congrArg (filter (·.serial = a)) hset.symm
    rw [filter_add, filter_add] at hrest
    refine hrest.trans (congrArg _ ?_)
    rcases eq_or_ne job.tk w with hw | hw
    · simp [Event.recordedChunks, Worker.unrecorded, hw]
    · have hserial : job.chunk.serial ≠ a := fun h =>
        hw (hown job (mem_jobs_of_worker worker List.mem_cons_self) h)
      simp [Event.recordedChunks, Worker.unrecorded, hw, hserial]
  | forgotten i job doneRead left worker untracked =>
    cases doneRead with
    | false => exact silent (unrecorded_setWorker_of_eq worker rfl)
    | true =>
      -- a chunk of an enqueue whose ticket tracks reads would have been recorded
      have hserial : job.chunk.serial ≠ a := fun h => by
        have hw := hown job (mem_jobs_of_worker worker List.mem_cons_self) h
        rw [hw, htk] at untracked
        exact untracked ⟨rfl, htrack⟩
      have hset := unrecorded_setWorker worker .idle
      have hrest := congrArg (filter (·.serial = a)) hset.symm
      rw [filter_add, filter_add] at hrest
      refine hrest.trans (congrArg _ ?_)
      simp [Event.recordedChunks, Worker.unrecorded, hserial]
  | _ => exact silent rfl

/-! ## Serial numbers -/

theorem Transition.serial_of_enqueued (h : Transition s e t)
    (hjob : job ∈ e.enqueuedJobs) : job.chunk.serial = s.serial := by
  cases h with
  | accepted r verdict => exact serial_of_mem_jobs (mem_coe.mp hjob)
  | _ => exact absurd hjob (notMem_zero job)

theorem serial_foldl_fetchSub (jobs : List (Job W)) :
    (jobs.foldl (fun s job => s.fetchSub job.tk) s).serial = s.serial := by
  induction jobs generalizing s with
  | nil => rfl
  | cons job jobs ih => exact ih

/-- Serial numbers grow, and with every enqueue. -/
theorem Transition.serial_le (h : Transition s e t) :
    s.serial ≤ t.serial ∧ (e.enqueuedJobs ≠ 0 → s.serial < t.serial) := by
  cases h with
  | accepted r verdict => exact ⟨Nat.le_succ _, fun _ => Nat.lt_succ_self _⟩
  | stopped => exact ⟨(serial_foldl_fetchSub s.queue).ge, fun h => absurd rfl h⟩
  | _ => exact ⟨le_rfl, fun h => absurd rfl h⟩

/-- Every job around carries the serial number of an earlier enqueue. -/
def Fresh (s : Pool W) : Prop := ∀ job ∈ s.jobs, job.chunk.serial < s.serial

theorem Transition.fresh (h : Transition s e t) (hs : Fresh s) : Fresh t := by
  intro job hjob
  obtain ⟨hle, hlt⟩ := h.serial_le
  rcases h.mem_jobs hjob with hold | hnew
  · exact (hs job hold).trans_le hle
  · rw [h.serial_of_enqueued hnew]
    exact hlt fun hzero => notMem_zero job (hzero ▸ hnew)

variable {tr : List (Event W)}

theorem fresh (h : Runs.Steps Step {} tr s) : Fresh s :=
  h.invariant (fun _ _ _ hs step => (transition_of_step step).fresh hs) (by simp [Fresh, jobs])

/-! ## After a lookahead -/

/-- The events neither arm the ticket of `w` again nor take its chunks. -/
def Quiet (w : W) (e : Event W) : Prop :=
  (∀ r jobs, e = .enqueued r jobs → r.w ≠ w) ∧ ∀ chunks, e ≠ .reclaimed w chunks

/-- The state after a lookahead for `w`, the enqueue `a`, and the events `tr`. -/
structure Armed (w : W) (a : ℕ) (tr : List (Event W)) (s : Pool W) : Prop where
  serial_lt : a < s.serial
  own : ∀ job ∈ s.jobs, job.chunk.serial = a → job.tk = w
  ticket : ∃ tk, s.tickets w = some tk ∧ tk.trackReads = true ∧
    (tk.readChunks : Multiset Chunk) = (tr.map (Event.recordedChunks w)).sum
  read : readOf a tr = (tr.map (Event.recordedChunks w)).sum.filter (·.serial = a) +
    s.unrecorded.filter (·.serial = a)

/-- A lookahead that is accepted arms its ticket. -/
theorem armed_accept {r : Request W} (hs : Fresh s) (htrack : r.trackReads = true)
    (hverdict : s.verdict r = .accepted) : Armed r.w s.serial [] (s.accept r) where
  serial_lt := Nat.lt_succ_self _
  own job hjob hserial := by
    rcases (Transition.accepted r hverdict).mem_jobs hjob with hold | hnew
    · exact absurd hserial (hs job hold).ne
    · exact tk_of_mem_jobs (mem_coe.mp hnew)
  ticket := ⟨_, Function.update_self .., htrack, rfl⟩
  read := by
    have hnone : s.unrecorded.filter (·.serial = s.serial) = 0 := by
      rw [filter_eq_nil]
      intro chunk hchunk hserial
      obtain ⟨job, hjob, rfl⟩ := exists_job_of_mem_unrecorded hchunk
      exact (hs job hjob).ne hserial
    change 0 = 0 + s.unrecorded.filter _
    rw [hnone]
    rfl

theorem Armed.step {w : W} {a : ℕ} (hs : Armed w a tr s)
    (h : Transition s e t) (hquiet : Quiet w e) : Armed w a (tr ++ [e]) t := by
  obtain ⟨hlt, hown, ⟨tk, htk, htrack, hrec⟩, hread⟩ := hs
  obtain ⟨tk', htk', htrack', hrec'⟩ := h.readChunks htk hquiet.1 hquiet.2
  have hunrec := h.unrecorded htk htrack hown
  refine ⟨hlt.trans_le h.serial_le.1, ?_, ⟨tk', htk', htrack'.trans htrack, ?_⟩, ?_⟩
  · intro job hjob hserial
    rcases h.mem_jobs hjob with hold | hnew
    · exact hown job hold hserial
    · exact absurd (h.serial_of_enqueued hnew) (hserial ▸ hlt.ne)
  · rw [hrec', hrec, List.map_append, List.sum_append, List.map_singleton, List.sum_singleton]
  · rw [readOf, List.map_append, List.sum_append, List.map_singleton, List.sum_singleton,
      filter_add, ← readOf, hread, add_assoc, hunrec, List.map_append, List.sum_append,
      List.map_singleton, List.sum_singleton, filter_add]
    ac_rfl

theorem armed_run {w : W} {a : ℕ} (h : Runs.Steps Step s tr t)
    (hs : Armed w a [] s) (hquiet : ∀ e ∈ tr, Quiet w e) : Armed w a tr t := by
  induction h with
  | refl => exact hs
  | snoc _ step ih =>
    exact (ih fun e he => hquiet e (List.mem_append_left _ he)).step (transition_of_step step)
      (hquiet _ (List.mem_append_right _ List.mem_cons_self))

/-- Chunks recorded, and of them those of other enqueues, as the events show them. -/
theorem mem_sum_recordedChunks {w : W} {chunk : Chunk} :
    chunk ∈ (tr.map (Event.recordedChunks w)).sum ↔
      ∃ job, .recorded job ∈ tr ∧ job.tk = w ∧ job.chunk = chunk := by
  induction tr with
  | nil => simp
  | cons e tr ih =>
    rw [List.map_cons, List.sum_cons, mem_add, ih]
    cases e with
    | recorded job =>
      by_cases hw : job.tk = w
      · simp only [Event.recordedChunks, hw, if_true, mem_singleton, List.mem_cons,
          Event.recorded.injEq]
        constructor
        · rintro (rfl | ⟨other, hother, h⟩)
          · exact ⟨job, .inl rfl, hw, rfl⟩
          · exact ⟨other, .inr hother, h⟩
        · rintro ⟨other, rfl | hother, h⟩
          · exact .inl h.2.symm
          · exact .inr ⟨other, hother, h⟩
      · simp only [Event.recordedChunks, hw, if_false, notMem_zero, false_or,
          List.mem_cons, Event.recorded.injEq]
        constructor
        · rintro ⟨other, hother, h⟩
          exact ⟨other, .inr hother, h⟩
        · rintro ⟨other, rfl | hother, h⟩
          · exact absurd h.1 hw
          · exact ⟨other, hother, h⟩
    | _ => simp [Event.recordedChunks]

/-- `cold` takes what is recorded on an armed ticket. -/
theorem Armed.cold {w : W} {a : ℕ} (hs : Armed w a tr s) :
    ∃ chunks, (s.cold w).1 = .reclaimed w chunks ∧
      (chunks : Multiset Chunk) = (tr.map (Event.recordedChunks w)).sum := by
  obtain ⟨tk, htk, htrack, hrec⟩ := hs.ticket
  refine ⟨tk.readChunks, ?_, hrec⟩
  simp [Pool.cold, htk, htrack]

end Pool

/-- **What `cold` takes.**  After a lookahead is enqueued, and with no further
enqueue for its tensor and nothing taken in between, `cold` takes exactly the
chunks of the lookahead that workers read if and only if nothing but chunks of the
lookahead was recorded on the ticket meanwhile, and no worker still holds a chunk
of it that it read and has not recorded. -/
theorem Pool.reclaimed_exact_iff [DecidableEq W] {s s' : Pool W} {tr tr' : List (Event W)}
    {r : Request W} (hs : Runs.Steps Pool.Step {} tr s) (htrack : r.trackReads = true)
    (hverdict : s.verdict r = .accepted) (hs' : Runs.Steps Pool.Step (s.accept r) tr' s')
    (hquiet : ∀ e ∈ tr', Quiet r.w e) :
    ∃ chunks, (s'.cold r.w).1 = .reclaimed r.w chunks ∧
      ((chunks : Multiset Chunk) = readOf s.serial tr' ↔
        (∀ job, .recorded job ∈ tr' → job.tk = r.w → job.chunk.serial = s.serial) ∧
        ∀ chunk ∈ s'.unrecorded, chunk.serial ≠ s.serial) := by
  have harmed := armed_run hs' (armed_accept (fresh hs) htrack hverdict) hquiet
  obtain ⟨chunks, hcold, hchunks⟩ := harmed.cold
  refine ⟨chunks, hcold, ?_⟩
  rw [hchunks, harmed.read]
  constructor
  · intro h
    have hrec : ∀ chunk ∈ (tr'.map (Event.recordedChunks r.w)).sum, chunk.serial = s.serial := by
      intro chunk hchunk
      rw [h] at hchunk
      rcases mem_add.mp hchunk with hmem | hmem
      · exact (mem_filter.mp hmem).2
      · exact (mem_filter.mp hmem).2
    rw [filter_eq_self.mpr hrec, left_eq_add, filter_eq_nil] at h
    exact ⟨fun job hjob hw => hrec _ (mem_sum_recordedChunks.mpr ⟨job, hjob, hw, rfl⟩), h⟩
  · rintro ⟨hrec, hunrec⟩
    have hall : (tr'.map (Event.recordedChunks r.w)).sum.filter (·.serial = s.serial) =
        (tr'.map (Event.recordedChunks r.w)).sum := by
      rw [filter_eq_self]
      intro chunk hchunk
      obtain ⟨job, hjob, hw, rfl⟩ := mem_sum_recordedChunks.mp hchunk
      exact hrec job hjob hw
    have hnone : s'.unrecorded.filter (·.serial = s.serial) = 0 :=
      filter_eq_nil.mpr hunrec
    rw [hall, hnone, add_zero]

/-! ## Runs in which it does not -/

/-- A lookahead of one chunk at `4096`. -/
def oneChunkLookahead : Request Unit := ⟨(), 4096, [(0, 4096)], false, true, 2⟩

def oneChunk (serial : ℕ) : Job Unit := ⟨⟨4096, 4096, serial⟩, ()⟩

/-- The lookahead in the order that the callers rely on. -/
theorem Pool.reclaimed_exact_oneChunk : ∃ (s s' : Pool Unit) (tr tr' : List (Event Unit)),
      Runs.perform Pool.step {} [.stop, .start 1] = some (tr, s) ∧
      Runs.perform Pool.step (s.accept oneChunkLookahead) [.pop 0, .populate 0 true, .complete 0,
        .record 0, .waitFind (), .waitLoad 0] = some (tr', s') ∧
      ∃ chunks, (s'.cold ()).1 = .reclaimed () chunks ∧
        ((chunks : Multiset Chunk) = readOf s.serial tr' ↔
          (∀ job, .recorded job ∈ tr' → job.tk = () → job.chunk.serial = s.serial) ∧
          ∀ chunk ∈ s'.unrecorded, chunk.serial ≠ s.serial) := by
  have hs : Runs.perform Pool.step ({} : Pool Unit) [.stop, .start 1] =
      some ([.dropped [], .silent], { workers := [.idle] }) := rfl
  have hevents : (Runs.perform Pool.step (({ workers := [.idle] } : Pool Unit).accept
      oneChunkLookahead) [.pop 0, .populate 0 true, .complete 0, .record 0, .waitFind (),
        .waitLoad 0]).map Prod.fst =
      some [.silent, .read (oneChunk 0), .completed (oneChunk 0), .recorded (oneChunk 0), .silent,
        .returned ()] := rfl
  obtain ⟨⟨tr', s'⟩, hs', rfl⟩ := Option.map_eq_some_iff.mp hevents
  exact ⟨_, _, _, _, hs, hs', Pool.reclaimed_exact_iff (Runs.steps_of_perform _ hs) rfl rfl
    (Runs.steps_of_perform _ hs') (by simp [Quiet])⟩

/-- A manifest enqueue of one chunk at `4096`, an epoch before. -/
def oneChunkManifest : Request Unit := ⟨(), 4096, [(0, 4096)], false, false, 1⟩

def otherLookahead : Request Unit := ⟨(), 4096, [(4096, 4096)], false, true, 2⟩

def otherChunk : Job Unit := ⟨⟨8192, 4096, 1⟩, ()⟩

/-- Two interleavings in which `cold` does not take what the lookahead read.  In
the first the worker has decremented `pending` but not recorded its chunk when the
wait returns, so that the chunk escapes.  In the second the worker is as late with
the chunk of a manifest enqueue, and records it on the ticket that the lookahead of
the next epoch has armed. -/
theorem Pool.reclaimed_not_exact :
    (Runs.perform Pool.step ({} : Pool Unit) [.stop, .start 1, .enqueue oneChunkLookahead, .pop 0,
        .populate 0 true, .complete 0, .waitFind (), .waitLoad 0, .cold ()]).map Prod.fst =
      some [.dropped [], .silent, .enqueued oneChunkLookahead [oneChunk 0], .silent,
        .read (oneChunk 0), .completed (oneChunk 0), .silent, .returned (), .reclaimed () []] ∧
    (Runs.perform Pool.step ({} : Pool Unit) [.stop, .start 1, .enqueue oneChunkManifest, .pop 0,
        .populate 0 true, .complete 0, .waitFind (), .waitLoad 0, .enqueue otherLookahead,
        .record 0, .pop 0, .populate 0 true, .complete 0, .record 0, .waitFind (), .waitLoad 0,
        .cold ()]).map Prod.fst =
      some [.dropped [], .silent, .enqueued oneChunkManifest [oneChunk 0], .silent,
        .read (oneChunk 0), .completed (oneChunk 0), .silent, .returned (),
        .enqueued otherLookahead [otherChunk], .recorded (oneChunk 0), .silent, .read otherChunk,
        .completed otherChunk, .recorded otherChunk, .silent, .returned (),
        .reclaimed () [(oneChunk 0).chunk, otherChunk.chunk]] :=
  ⟨rfl, rfl⟩

end ExpertPin.Prefetch
