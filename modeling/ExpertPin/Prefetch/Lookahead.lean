import ExpertPin.Prefetch.Reclaim
import ExpertPin.Prefetch.Resident
import Mathlib.Data.Fin.VecNotation

/-!
# Lookahead and resident pages

After a lookahead, `ggml_moe_prefetch_cold` hands the chunks that were read to
`madvise(MADV_COLD)`, which acts on whole pages.  The lookahead leaves registered
ranges out byte by byte, but a page at their end may hold streamed bytes as well.
No registered page is demoted exactly if registration begins and ends at page
boundaries (`Pool.cold_spares_resident_iff`).
-/

namespace ExpertPin.Prefetch

open Intervals
open List

/-! ## The bytes of an enqueue -/

theorem mem_chunksOf_iff {serial addr len x : ℕ} :
    (∃ chunk ∈ chunksOf serial addr len, Mem x (chunk.addr, chunk.len)) ↔ Mem x (addr, len) := by
  have hpos : 0 < chunkBytes := by decide
  have hlt : ∀ i, i < (len + chunkBytes - 1) / chunkBytes ↔ i * chunkBytes < len := by
    intro i
    rw [Nat.lt_iff_add_one_le, Nat.le_div_iff_mul_le hpos, Nat.add_mul]
    omega
  simp only [chunksOf, mem_map, mem_range, hlt]
  constructor
  · rintro ⟨-, ⟨i, hi, rfl⟩, hlo, hhi⟩
    have hlen : i * chunkBytes + min chunkBytes (len - i * chunkBytes) ≤ len := by omega
    refine ⟨(Nat.le_add_right _ _).trans hlo, hhi.trans_le ?_⟩
    rw [Nat.add_assoc]
    exact Nat.add_le_add_left hlen addr
  · rintro ⟨hlo, hhi⟩
    obtain ⟨o, rfl⟩ := Nat.exists_eq_add_of_le hlo
    have ho : o < len := Nat.lt_of_add_lt_add_left hhi
    have hdown : o / chunkBytes * chunkBytes ≤ o := Nat.div_mul_le_self o chunkBytes
    have hup : o < o / chunkBytes * chunkBytes + chunkBytes := Nat.lt_div_mul_add hpos
    refine ⟨_, ⟨o / chunkBytes, hdown.trans_lt ho, rfl⟩, ?_, ?_⟩
    · exact Nat.add_le_add_left hdown addr
    · change addr + o < addr + o / chunkBytes * chunkBytes + min _ _
      omega

theorem len_pos_of_mem_chunksOf {serial addr len : ℕ} {chunk : Chunk}
    (h : chunk ∈ chunksOf serial addr len) : 0 < chunk.len := by
  have hpos : 0 < chunkBytes := by decide
  obtain ⟨i, hi, rfl⟩ := mem_map.mp h
  rw [mem_range, Nat.lt_iff_add_one_le, Nat.le_div_iff_mul_le hpos, Nat.add_mul] at hi
  exact lt_min hpos (by omega)

/-- The jobs of an enqueue are about the bytes of its ranges. -/
theorem mem_jobs_iff {W : Type*} {r : Request W} {serial x : ℕ} :
    (∃ job ∈ r.jobs serial, Mem x (job.chunk.addr, job.chunk.len)) ↔
      ∃ o, Covers r.ranges o ∧ x = r.base + o := by
  simp only [Request.jobs, mem_flatMap, mem_map]
  constructor
  · rintro ⟨-, ⟨range, hrange, chunk, hchunk, rfl⟩, hmem⟩
    obtain ⟨hlo, hhi⟩ := mem_chunksOf_iff.mp ⟨chunk, hchunk, hmem⟩
    obtain ⟨o, rfl⟩ := Nat.exists_eq_add_of_le ((Nat.le_add_right _ _).trans hlo)
    exact ⟨o, ⟨range, hrange, by simpa using hlo, by simpa [Nat.add_assoc] using hhi⟩, rfl⟩
  · rintro ⟨o, ⟨range, hrange, hlo, hhi⟩, rfl⟩
    have hmem : Mem (r.base + o) (r.base + range.1, range.2) :=
      ⟨Nat.add_le_add_left hlo _, by simpa [Nat.add_assoc] using hhi⟩
    obtain ⟨chunk, hchunk, hmem⟩ : ∃ chunk ∈ chunksOf serial (r.base + range.1) range.2,
      Mem (r.base + o) (chunk.addr, chunk.len) := mem_chunksOf_iff.mpr hmem
    exact ⟨_, ⟨range, hrange, chunk, hchunk, rfl⟩, hmem⟩

theorem len_pos_of_mem_jobs {W : Type*} {r : Request W} {serial : ℕ} {job : Job W}
    (h : job ∈ r.jobs serial) : 0 < job.chunk.len := by
  simp only [Request.jobs, mem_flatMap, mem_map] at h
  obtain ⟨range, -, chunk, hchunk, rfl⟩ := h
  exact len_pos_of_mem_chunksOf hchunk

/-! ## Pages -/

/-- What `cold` passes to `madvise`; the mask is for a page size that is a power
of two. -/
def coldRange (page : ℕ) (chunk : Chunk) : ℕ × ℕ :=
  (alignDown page chunk.addr, chunk.addr + chunk.len - alignDown page chunk.addr)

/-- The kernel rounds the length up, and demotes the page `k`. -/
def Demotes (page : ℕ) (chunk : Chunk) (k : ℕ) : Prop :=
  (coldRange page chunk).1 ≤ k * page ∧
    k * page < (coldRange page chunk).1 + alignUp page (coldRange page chunk).2

theorem demotes_iff {page : ℕ} (hpage : 0 < page) {chunk : Chunk} (hlen : 0 < chunk.len) {k : ℕ} :
    Demotes page chunk k ↔ ∃ x, Mem x (chunk.addr, chunk.len) ∧ x / page = k :=
  page_mem_iff hpage hlen

/-- The page `k` holds a byte of a registered range. -/
def ResidentPage (page : ℕ) (registry : Registry) (k : ℕ) : Prop :=
  ∃ data o, registry.Resident data o ∧ (data + o) / page = k

/-- Inside of the tensor registration begins and ends at page boundaries, and what
is registered elsewhere shares no page with bytes of the tensor that are not. -/
structure Aligned (page : ℕ) (registry : Registry) (w : Tensor) : Prop where
  inside : ∀ o, o + 1 < w.nbytes →
    ¬(registry.Resident w.data o ↔ registry.Resident w.data (o + 1)) → page ∣ w.data + (o + 1)
  outside : ∀ o < w.nbytes, ¬registry.Resident w.data o → ∀ data o', registry.Resident data o' →
    (data = w.data → w.nbytes ≤ o') → (w.data + o) / page ≠ (data + o') / page

theorem aligned_iff {page : ℕ} (hpage : 0 < page) {registry : Registry} {w : Tensor} :
    Aligned page registry w ↔ ∀ o < w.nbytes, ¬registry.Resident w.data o →
      ¬ResidentPage page registry ((w.data + o) / page) := by
  constructor
  · rintro ⟨hinside, houtside⟩ o ho hnot ⟨data, o', hres, hpages⟩
    by_cases hown : data = w.data ∧ o' < w.nbytes
    · obtain ⟨rfl, ho'⟩ := hown
      -- registration changes somewhere between the two bytes, at a page boundary
      rcases lt_trichotomy o o' with hlt | rfl | hlt
      · obtain ⟨c, hoc, hco, hchange⟩ :=
          exists_change (P := registry.Resident w.data) hlt fun h => hnot (h.mpr hres)
        have hdvd := hinside c (by omega) hchange
        exact (div_lt_div_of_boundary hpage (by omega) (by omega) hdvd).ne' hpages
      · exact hnot hres
      · obtain ⟨c, hoc, hco, hchange⟩ :=
          exists_change (P := registry.Resident w.data) hlt fun h => hnot (h.mp hres)
        have hdvd := hinside c (by omega) hchange
        exact (div_lt_div_of_boundary hpage (by omega) (by omega) hdvd).ne hpages
    · refine houtside o ho hnot data o' hres ?_ hpages.symm
      exact fun heq => not_lt.mp fun hlt => hown ⟨heq, hlt⟩
  · intro h
    constructor
    · intro o ho hchange
      refine dvd_of_div_ne (x := w.data + o) fun hpages => ?_
      by_cases hres : registry.Resident w.data o
      · have hnot : ¬registry.Resident w.data (o + 1) := fun h =>
          hchange ⟨fun _ => h, fun _ => hres⟩
        exact h (o + 1) ho hnot ⟨w.data, o, hres, hpages⟩
      · have hnext : registry.Resident w.data (o + 1) := by
          by_contra hnot
          exact hchange ⟨fun h => absurd h hres, fun h => absurd h hnot⟩
        exact h o (Nat.lt_of_succ_lt ho) hres ⟨w.data, o + 1, hnext, hpages.symm⟩
    · exact fun o ho hnot data o' hres _ hpages => h o ho hnot ⟨data, o', hres, hpages.symm⟩

/-! ## A lookahead and its chunks -/

section Run

universe u

variable {W : Type u} [DecidableEq W]

/-- What happens after the enqueue `r`, the `a`-th, is accepted in some reachable
state, up to the next enqueue for its tensor. -/
def Cycle (r : Request W) (a : ℕ) (tr : List (Event W)) : Prop :=
  ∃ (past : List (Event W)) (s t : Pool W), Runs.Steps Pool.Step {} past s ∧
    s.verdict r = .accepted ∧ s.serial = a ∧ Runs.Steps Pool.Step (s.accept r) tr t ∧
    ∀ r' jobs, .enqueued r' jobs ∈ tr → r'.w ≠ r.w

/-- No worker is late with a chunk of another enqueue for `w`. -/
def Punctual (w : W) (a : ℕ) (tr : List (Event W)) : Prop :=
  ∀ job, .recorded job ∈ tr → job.tk = w → job.chunk.serial = a

namespace Pool

variable {s t : Pool W} {e : Event W}

/-- Of the enqueue `r`, the `a`-th, are all jobs numbered `a`, and all chunks that
are recorded on its ticket. -/
structure Streaming (r : Request W) (a : ℕ) (s : Pool W) : Prop where
  serial_lt : a < s.serial
  own : ∀ job ∈ s.jobs, job.chunk.serial = a → job ∈ r.jobs a
  ticket : ∃ tk, s.tickets r.w = some tk ∧
    ∀ chunk ∈ tk.readChunks, ∃ job ∈ r.jobs a, job.chunk = chunk

theorem streaming_accept {r : Request W} (hs : Fresh s) (hverdict : s.verdict r = .accepted) :
    Streaming r s.serial (s.accept r) where
  serial_lt := Nat.lt_succ_self _
  own job hjob hserial := by
    rcases (Transition.accepted r hverdict).mem_jobs hjob with hold | hnew
    · exact absurd hserial (hs job hold).ne
    · exact Multiset.mem_coe.mp hnew
  ticket := ⟨_, Function.update_self .., fun _ hchunk => absurd hchunk not_mem_nil⟩

theorem Transition.mem_jobs_of_recorded {job : Job W} (h : Transition s (.recorded job) t) :
    job ∈ s.jobs := by
  generalize he : Event.recorded job = e at h
  cases h with
  | recorded i job' left worker track =>
    obtain rfl := Event.recorded.inj he
    exact mem_jobs_of_worker worker mem_cons_self
  | _ => exact absurd he (by simp [stop])

theorem Transition.of_reclaimed {w : W} {chunks : List Chunk}
    (h : Transition s (.reclaimed w chunks) t) :
    ∃ tk, s.tickets w = some tk ∧ tk.readChunks = chunks ∧
      t.tickets w = some { tk with readChunks := [] } := by
  generalize he : Event.reclaimed w chunks = e at h
  cases h with
  | reclaimed w' tk ticket track =>
    obtain ⟨rfl, rfl⟩ := Event.reclaimed.inj he
    exact ⟨tk, ticket, rfl, by simp [modifyTicket, ticket]⟩
  | _ => exact absurd he (by simp [stop])

theorem Streaming.step {r : Request W} {a : ℕ} (hs : Streaming r a s) (h : Transition s e t)
    (harm : ∀ r' jobs, e = .enqueued r' jobs → r'.w ≠ r.w)
    (hpunctual : ∀ job, e = .recorded job → job.tk = r.w → job.chunk.serial = a) :
    Streaming r a t := by
  obtain ⟨hlt, hown, tk, htk, hrec⟩ := hs
  refine ⟨hlt.trans_le h.serial_le.1, ?_, ?_⟩
  · intro job hjob hserial
    rcases h.mem_jobs hjob with hold | hnew
    · exact hown job hold hserial
    · exact absurd (h.serial_of_enqueued hnew) (hserial ▸ hlt.ne)
  · by_cases htake : ∃ chunks, e = .reclaimed r.w chunks
    · obtain ⟨chunks, rfl⟩ := htake
      obtain ⟨tk', -, -, htk'⟩ := h.of_reclaimed
      exact ⟨_, htk', fun _ hchunk => absurd hchunk not_mem_nil⟩
    · obtain ⟨tk', htk', -, hrec'⟩ := h.readChunks htk harm (not_exists.mp htake)
      refine ⟨tk', htk', fun chunk hchunk => ?_⟩
      rw [← Multiset.mem_coe, hrec', Multiset.mem_add] at hchunk
      rcases hchunk with hold | hnew
      · exact hrec chunk (Multiset.mem_coe.mp hold)
      · cases e with
        | recorded job =>
          simp only [Event.recordedChunks] at hnew
          split at hnew
          case isTrue hw =>
            obtain rfl := Multiset.mem_singleton.mp hnew
            exact ⟨job, hown job h.mem_jobs_of_recorded (hpunctual job rfl hw), rfl⟩
          case isFalse => exact absurd hnew (Multiset.notMem_zero chunk)
        | _ => exact absurd hnew (Multiset.notMem_zero chunk)

/-- While no worker is late, `cold` takes chunks of the enqueue only. -/
theorem Streaming.run {r : Request W} {a : ℕ} {tr : List (Event W)} (hs : Streaming r a s)
    (h : Runs.Steps Step s tr t) (harm : ∀ r' jobs, .enqueued r' jobs ∈ tr → r'.w ≠ r.w)
    (hpunctual : Punctual r.w a tr) :
    Streaming r a t ∧ ∀ chunks, .reclaimed r.w chunks ∈ tr → ∀ chunk ∈ chunks,
      ∃ job ∈ r.jobs a, job.chunk = chunk := by
  induction h with
  | refl => exact ⟨hs, fun _ h => absurd h not_mem_nil⟩
  | @snoc tr t e u run step ih =>
    obtain ⟨ht, hchunks⟩ := ih (fun r' jobs h => harm r' jobs (mem_append_left _ h))
      fun job h => hpunctual job (mem_append_left _ h)
    have hstep := transition_of_step step
    refine ⟨ht.step hstep ?_ ?_, ?_⟩
    · rintro r' jobs rfl
      exact harm r' jobs (mem_append_right _ mem_cons_self)
    · rintro job rfl
      exact hpunctual job (mem_append_right _ mem_cons_self)
    · intro chunks hmem
      rcases mem_append.mp hmem with hold | hnew
      · exact hchunks chunks hold
      · obtain rfl := mem_singleton.mp hnew
        obtain ⟨tk, htk, rfl, -⟩ := hstep.of_reclaimed
        obtain ⟨tk', htk', hrec⟩ := ht.ticket
        obtain rfl := Option.some.inj (htk.symm.trans htk')
        exact hrec

/-! ## A run that reads everything -/

/-- One worker deals with the next job and finds it cold. -/
theorem exists_steps_job {job : Job W} {queue : List (Job W)} {tk : Ticket}
    (hworkers : s.workers = [.idle]) (hup : s.shutdown = false) (hqueue : s.queue = job :: queue)
    (htk : s.tickets job.tk = some tk) (htrack : tk.trackReads = true) :
    ∃ t, Runs.Steps Step s [.silent, .read job, .completed job, .recorded job] t ∧
      t.workers = [.idle] ∧ t.shutdown = false ∧ t.queue = queue ∧
      t.tickets job.tk = some
        { tk with pending := tk.pending - 1, readChunks := tk.readChunks ++ [job.chunk] } := by
  have hpop : s.pop 0 = some (.silent, { s.setWorker 0 (.popped job) with queue }) := by
    simp [pop, hworkers, hup, hqueue]
  set s₁ : Pool W := { s.setWorker 0 (.popped job) with queue } with hs₁
  have hworkers₁ : s₁.workers = [.popped job] := by simp [hs₁, setWorker, hworkers]
  have hpopulate : s₁.populate 0 true = some (.read job, s₁.setWorker 0 (.populated job true)) := by
    simp [populate, hworkers₁]
  set s₂ := s₁.setWorker 0 (.populated job true) with hs₂
  have hworkers₂ : s₂.workers = [.populated job true] := by simp [hs₂, setWorker, hworkers₁]
  have hcomplete : s₂.complete 0 = some (.completed job,
      (s₂.fetchSub job.tk).setWorker 0 (.completed job true (s₂.pending job.tk))) := by
    simp [complete, hworkers₂]
  set s₃ := (s₂.fetchSub job.tk).setWorker 0 (.completed job true (s₂.pending job.tk)) with hs₃
  have hworkers₃ : s₃.workers = [.completed job true (s₂.pending job.tk)] := by
    simp [hs₃, setWorker, fetchSub, modifyTicket, hworkers₂]
  have htickets₃ : s₃.tickets job.tk = some { tk with pending := tk.pending - 1 } := by
    have htickets₂ : s₂.tickets job.tk = some tk := htk
    simp [hs₃, setWorker, fetchSub, modifyTicket, htickets₂]
  have hrecord : s₃.record 0 = some (.recorded job, (s₃.modifyTicket job.tk fun tk =>
      { tk with readChunks := tk.readChunks ++ [job.chunk] }).setWorker 0 .idle) := by
    simp [record, hworkers₃, htickets₃, htrack]
  refine ⟨_, .cons ⟨.pop 0, hpop⟩ (.cons ⟨.populate 0 true, hpopulate⟩
    (.cons ⟨.complete 0, hcomplete⟩ (.single ⟨.record 0, hrecord⟩))), ?_, hup, rfl, ?_⟩
  · simp [setWorker, modifyTicket, hworkers₃]
  · simp [setWorker, modifyTicket, htickets₃]

/-- One worker reads a whole queue of cold chunks of one ticket. -/
theorem exists_steps_queue {w : W} {queue : List (Job W)} {tk : Ticket}
    (hworkers : s.workers = [.idle]) (hup : s.shutdown = false) (hqueue : s.queue = queue)
    (hown : ∀ job ∈ queue, job.tk = w) (htk : s.tickets w = some tk)
    (htrack : tk.trackReads = true) :
    ∃ tr t tk', Runs.Steps Step s tr t ∧ t.tickets w = some tk' ∧ tk'.trackReads = true ∧
      tk'.readChunks = tk.readChunks ++ queue.map Job.chunk ∧
      (∀ r jobs, .enqueued r jobs ∉ tr) ∧ ∀ job, .recorded job ∈ tr → job ∈ queue := by
  induction queue generalizing s tk with
  | nil => exact ⟨[], s, tk, .refl, htk, htrack, by simp, by simp, by simp⟩
  | cons job queue ih =>
    obtain rfl := hown job mem_cons_self
    obtain ⟨t, hsteps, hworkers', hup', hqueue', htk'⟩ :=
      exists_steps_job hworkers hup hqueue htk htrack
    obtain ⟨tr, u, tk', hrest, htk'', htrack'', hread, henqueued, hrecorded⟩ :=
      ih hworkers' hup' hqueue' (fun other h => hown other (mem_cons_of_mem _ h)) htk' htrack
    refine ⟨_, u, tk', hsteps.trans hrest, htk'', htrack'', ?_, ?_, ?_⟩
    · rw [hread, map_cons, append_assoc, singleton_append]
    · intro r jobs hmem
      rcases mem_append.mp hmem with hjob | hmem
      · simp at hjob
      · exact henqueued r jobs hmem
    · intro other hmem
      rcases mem_append.mp hmem with hjob | hmem
      · obtain rfl : other = job := by simpa using hjob
        exact mem_cons_self
      · exact mem_cons_of_mem _ (hrecorded other hmem)

/-- Some run reads every chunk of an enqueue that tracks its reads and reclaims
them all. -/
theorem exists_cycle {r : Request W} (hepoch : r.curEpoch ≠ 0) (htrack : r.trackReads = true) :
    ∃ tr, Cycle r 0 tr ∧ Punctual r.w 0 tr ∧ .reclaimed r.w ((r.jobs 0).map Job.chunk) ∈ tr := by
  let s : Pool W := { workers := [.idle] }
  have hstart : Runs.perform Pool.step ({} : Pool W) [.stop, .start 1] =
      some ([.dropped [], .silent], s) := rfl
  have hverdict : s.verdict r = .accepted := by
    simp [verdict, s, hepoch.symm]
  have hqueue : (s.accept r).queue = r.jobs 0 := by
    cases hurgent : r.urgent <;> simp [accept, s, hurgent]
  obtain ⟨tr, t, tk, hsteps, htk, htrack', hread, henqueued, hrecorded⟩ :=
    exists_steps_queue (s := s.accept r) rfl rfl hqueue (fun job h => tk_of_mem_jobs h)
      (Function.update_self ..) htrack
  have hcold : Step t (.reclaimed r.w ((r.jobs 0).map Job.chunk)) (t.cold r.w).2 := by
    refine ⟨.cold r.w, ?_⟩
    rw [nil_append] at hread
    simp [step, cold, htk, htrack', hread]
  refine ⟨_, ⟨_, s, _, Runs.steps_of_perform _ hstart, hverdict, rfl, .snoc hsteps hcold, ?_⟩,
    ?_, mem_append_right _ mem_cons_self⟩
  · intro r' jobs hmem
    rcases mem_append.mp hmem with hmem | hmem
    · exact absurd hmem (henqueued r' jobs)
    · exact absurd (mem_singleton.mp hmem) (by simp)
  · intro job hmem hw
    rcases mem_append.mp hmem with hmem | hmem
    · exact serial_of_mem_jobs (hrecorded job hmem)
    · exact absurd (mem_singleton.mp hmem) (by simp)

end Pool

end Run

/-- **When `cold` spares what is resident.**  For every lookahead in every run, and
as long as no worker is late with a chunk of an earlier enqueue, no page that holds
a registered byte lies in what `cold` demotes, if and only if registration begins and
ends at page boundaries. -/
theorem Pool.cold_spares_resident_iff {page : ℕ} (hpage : 0 < page) {registry : Registry}
    (hreg : Registered registry) (w : Tensor) :
    (∀ epoch a tr, Cycle (lookahead registry w epoch) a tr → Punctual w.ptr a tr →
      ∀ chunks, .reclaimed w.ptr chunks ∈ tr → ∀ chunk ∈ chunks, ∀ k, Demotes page chunk k →
        ¬ResidentPage page registry k) ↔
      Aligned page registry w := by
  rw [aligned_iff hpage]
  constructor
  · intro hspared o ho hnot hres
    obtain ⟨tr, hcycle, hpunctual, hreclaimed⟩ :=
      exists_cycle (r := lookahead registry w 1) (show (1 : UInt64) ≠ 0 by decide) rfl
    -- the chunk that holds the byte is read and reclaimed
    obtain ⟨job, hjob, hmem⟩ : ∃ job ∈ (lookahead registry w 1).jobs 0,
        Mem (w.data + o) (job.chunk.addr, job.chunk.len) :=
      mem_jobs_iff.mpr ⟨o, (covers_collectNonresidentRanges hreg w o).mpr ⟨ho, hnot⟩, rfl⟩
    have hdemotes : Demotes page job.chunk ((w.data + o) / page) :=
      (demotes_iff hpage (len_pos_of_mem_jobs hjob)).mpr ⟨_, hmem, rfl⟩
    exact hspared 1 0 tr hcycle hpunctual _ hreclaimed job.chunk (mem_map_of_mem hjob) _
      hdemotes hres
  · rintro haligned epoch a tr ⟨past, s, t, hpast, hverdict, rfl, hrun, harm⟩ hpunctual chunks
      hreclaimed chunk hchunk k hdemotes
    obtain ⟨-, hown⟩ := (streaming_accept (fresh hpast) hverdict).run hrun harm hpunctual
    obtain ⟨job, hjob, rfl⟩ := hown chunks hreclaimed chunk hchunk
    obtain ⟨x, hx, rfl⟩ := (demotes_iff hpage (len_pos_of_mem_jobs hjob)).mp hdemotes
    obtain ⟨o, ho, rfl⟩ := mem_jobs_iff.mp ⟨job, hjob, hx⟩
    obtain ⟨hlt, hnot⟩ := (covers_collectNonresidentRanges hreg w o).mp ho
    exact haligned o hlt hnot

/-! ## A slice that ends inside of a page -/

/-- Two experts of 704000 bytes each, which are not whole pages. -/
def twoExperts : Tensor where
  ptr := 1
  data := 1048576
  type := ⟨1, 1, 0, false⟩
  ne := ![1000, 704, 2, 1]
  nb := ![1, 1000, 704000, 1408000]

/-- The first expert is registered. -/
def firstExpert : Registry := registerResidentRanges (fun _ => none) twoExperts [(0, 704000)]

theorem collect_firstExpert : collectOrderedExpertRanges twoExperts [0] = some [(0, 704000)] := rfl

theorem registered_firstExpert : Registered firstExpert := .register .empty collect_firstExpert

theorem lookahead_firstExpert (epoch : UInt64) : lookahead firstExpert twoExperts epoch =
    ⟨1, 1048576, [(704000, 704000)], false, true, epoch⟩ := by
  simp [lookahead, collectNonresidentRanges, firstExpert, registerResidentRanges, mergeRanges,
    mergeStep, nonresidentFrom, twoExperts, Tensor.nbytes, Fin.exists_fin_succ]

theorem Pool.cold_spares_resident_firstExpert : 0 < 4096 ∧ Registered firstExpert ∧
    ((∀ epoch a tr, Cycle (lookahead firstExpert twoExperts epoch) a tr →
      Punctual twoExperts.ptr a tr → ∀ chunks, .reclaimed twoExperts.ptr chunks ∈ tr →
        ∀ chunk ∈ chunks, ∀ k, Demotes 4096 chunk k → ¬ResidentPage 4096 firstExpert k) ↔
      Aligned 4096 firstExpert twoExperts) :=
  ⟨by decide, registered_firstExpert,
    Pool.cold_spares_resident_iff (by decide) registered_firstExpert twoExperts⟩

/-- The manifest pass and a lookahead after it: the second expert is read and
demoted, and with it the page in which the first one ends. -/
theorem Pool.cold_demotes_resident :
    collectOrderedExpertRanges twoExperts [0] = some [(0, 704000)] ∧
    (Runs.perform Pool.step ({} : Pool ℕ) [.stop, .start 1,
        .enqueue (manifest twoExperts [(0, 704000)] 1), .pop 0, .populate 0 true, .complete 0,
        .record 0, .waitFind 1, .waitLoad 0, .enqueue (lookahead firstExpert twoExperts 2), .pop 0,
        .populate 0 true, .complete 0, .record 0, .waitFind 1, .waitLoad 0, .cold 1]).map
      (fun p => p.1.getLast?) =
      some (some (.reclaimed 1 [⟨1048576 + 704000, 704000, 1⟩])) ∧
    Demotes 4096 ⟨1048576 + 704000, 704000, 1⟩ 427 ∧ ResidentPage 4096 firstExpert 427 := by
  refine ⟨collect_firstExpert, ?_, by unfold Demotes; decide, 1048576, 703999, ?_, rfl⟩
  · rw [lookahead_firstExpert]
    rfl
  · refine ⟨[(0, 704000)], ?_, by decide⟩
    simp [firstExpert, registerResidentRanges, mergeRanges, mergeStep, twoExperts]

end ExpertPin.Prefetch
