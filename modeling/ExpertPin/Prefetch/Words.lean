import ExpertPin.Lib.BitSet
import ExpertPin.Prefetch.Selection

/-!
# Ranges and jobs in machine words

`collect_selected_ranges` and the loop of `enqueue_ranges` that cuts ranges into jobs, in the
arithmetic of the code: the set of seen experts is a packed bit set, offsets and lengths are
`size_t`, and the length of a job is a `uint32_t`.

The ranges are those of `collectSelectedRanges` (`collectSelectedRanges_ofTensor`), sorted and
apart from each other, and the jobs tile them (`selected_cut`).  A range must end a chunk before
the end of the address space, or the loop never ends (`not_selected_cut`).
-/

namespace ExpertPin.Prefetch.Words

open Intervals
open Nat
open UInt64

/-! ## Selected experts -/

/-- What is read of a weight tensor: `ne[2]`, which is not negative, `nb[2]`, `ggml_nbytes` and
`data`. -/
structure Weight where
  nAs : ℕ
  stride : UInt64
  nbytes : UInt64
  data : UInt64
deriving DecidableEq, Repr

/-- A tensor of expert ids, in memory. -/
structure IdsTensor where
  ne0 : ℕ
  ne1 : ℕ
  nb0 : UInt64
  nb1 : UInt64
  data : UInt64
  memory : UInt64 → Int32

/-- The id in row `i1` and column `i0`. -/
def IdsTensor.read (ids : IdsTensor) (i1 i0 : ℕ) : Int32 :=
  ids.memory (ids.data + (UInt64.ofNat i1 * ids.nb1 + UInt64.ofNat i0 * ids.nb0))

/-- The ids without their place in memory. -/
def IdsTensor.toIds (ids : IdsTensor) : Ids where
  ne0 := ids.ne0
  ne1 := ids.ne1
  read i1 i0 := (ids.read i1 i0).toInt

/-- Ids that are no experts are left out, such as the sentinel `-1`. -/
def mark (nAs : ℕ) (seen : BitSet) (id : Int32) : BitSet :=
  if id.toInt < 0 ∨ nAs ≤ id.toInt then seen else seen.insert id.toInt.toNat

def markAll (nAs : ℕ) (ids : IdsTensor) : BitSet :=
  (List.range ids.ne1).foldl (fun seen i1 =>
    (List.range ids.ne0).foldl (fun seen i0 => mark nAs seen (ids.read i1 i0)) seen)
    (BitSet.empty nAs)

/-- The loops over `id`, past the experts that are seen or that are not. -/
def scan (seen : BitSet) (nAs : ℕ) (past : Bool) (id : ℕ) : ℕ :=
  if _h : id < nAs ∧ seen.contains id = past then scan seen nAs past (id + 1) else id
termination_by nAs - id
decreasing_by exact Nat.sub_lt_sub_left _h.1 (Nat.lt_succ_self id)

theorem le_scan (seen : BitSet) (nAs : ℕ) (past : Bool) (id : ℕ) : id ≤ scan seen nAs past id := by
  fun_induction scan seen nAs past id with
  | case1 id h ih => exact (le_succ id).trans ih
  | case2 id h => exact le_rfl

theorem scan_le {seen : BitSet} {nAs id : ℕ} {past : Bool} (h : id ≤ nAs) :
    scan seen nAs past id ≤ nAs := by
  fun_induction scan seen nAs past id with
  | case1 id hpast ih => exact ih hpast.1
  | case2 id hstop => exact h

/-- A loop that stops before the last expert has one that is not passed. -/
theorem contains_scan {seen : BitSet} {nAs id : ℕ} {past : Bool}
    (h : scan seen nAs past id < nAs) : seen.contains (scan seen nAs past id) = !past := by
  fun_induction scan seen nAs past id with
  | case1 id hpast ih => exact ih h
  | case2 id hstop => exact Bool.eq_not.mpr fun hpast => hstop ⟨h, hpast⟩

theorem lt_scan {seen : BitSet} {nAs id : ℕ} {past : Bool} (h : id < nAs)
    (hpast : seen.contains id = past) : id < scan seen nAs past id := by
  rw [scan, dif_pos ⟨h, hpast⟩]
  exact le_scan seen nAs past (id + 1)

/-- `std::min`. -/
def minWord (a b : UInt64) : UInt64 := if b < a then b else a

theorem toNat_minWord (a b : UInt64) : (minWord a b).toNat = min a.toNat b.toNat := by
  rw [minWord]
  split
  case isTrue h => exact (min_eq_right (lt_iff_toNat_lt.mp h).le).symm
  case isFalse h =>
    exact (min_eq_left (not_lt.mp fun hlt => h (lt_iff_toNat_lt.mpr hlt))).symm

/-- The bytes of the experts from `first` up to `stop`, if there are any.  The difference of
`wbytes` and `off` wraps where the guard fails. -/
def runRange (w : Weight) (first stop : ℕ) : List (UInt64 × UInt64) :=
  let off := UInt64.ofNat first * w.stride
  let len := minWord (UInt64.ofNat (stop - first) * w.stride) (w.nbytes - off)
  if off < w.nbytes ∧ len > 0 then [(off, len)] else []

/-- The loop that coalesces consecutive experts. -/
def selectedFrom (w : Weight) (seen : BitSet) (id : ℕ) : List (UInt64 × UInt64) :=
  if id < w.nAs then
    let first := scan seen w.nAs false id
    if _h : w.nAs ≤ first then []
    else
      let stop := scan seen w.nAs true first
      runRange w first stop ++ selectedFrom w seen stop
  else []
termination_by w.nAs - id
decreasing_by
  have hle : id ≤ scan seen w.nAs false id := le_scan _ _ _ _
  have hlt : scan seen w.nAs false id < scan seen w.nAs true (scan seen w.nAs false id) :=
    lt_scan (not_le.mp _h) (contains_scan (not_le.mp _h))
  omega

/-- `none` where the number of words, `(n_as + 31)/32`, overflows. -/
def collectSelectedRanges (w : Weight) (ids : IdsTensor) : Option (List (UInt64 × UInt64)) :=
  if w.nAs ≤ 1 ∨ w.stride = 0 then some [(0, w.nbytes)]
  else if 2 ^ 63 ≤ w.nAs + 31 then none
  else some (selectedFrom w (markAll w.nAs ids) 0)

/-! ## Jobs -/

/-- `(addr, len)` of a job. -/
structure Job where
  addr : UInt64
  len : UInt32
deriving DecidableEq, Repr

/-- `GGML_MOE_PREFETCH_CHUNK` as a `size_t`. -/
def chunk : UInt64 := 2 * 1024 * 1024

/-- The jobs of a range that ends at `stop`, from the offset `o` on; `none` if the loop does not end
within the given number of turns. -/
def cutFrom (data stop : UInt64) : ℕ → UInt64 → Option (List Job)
  | 0, _ => none
  | fuel + 1, o =>
    if o < stop then do
      let len := minWord chunk (stop - o)
      let jobs ← cutFrom data stop fuel (o + chunk)
      some ({ addr := data + o, len := len.toUInt32 } :: jobs)
    else some []

def cut (data : UInt64) (fuel : ℕ) (ranges : List (UInt64 × UInt64)) : Option (List Job) :=
  (ranges.mapM fun r => cutFrom data (r.1 + r.2) fuel r.1).map List.flatten

/-! ## The set of seen experts -/

/-- The set has a word for each expert. -/
def Room (nAs : ℕ) (seen : BitSet) : Prop := ∀ id < nAs, id / 32 < seen.length

variable {nAs id : ℕ} {seen : BitSet}

theorem mark_spec (hseen : Room nAs seen) (hid : id < nAs) (x : Int32) :
    Room nAs (mark nAs seen x) ∧
      (mark nAs seen x).contains id = (seen.contains id || decide (x.toInt = id)) := by
  rw [mark]
  split
  case isTrue hout =>
    have hne : x.toInt ≠ id := by omega
    rw [decide_eq_false hne, Bool.or_false]
    exact ⟨hseen, rfl⟩
  case isFalse hin =>
    have hlt : x.toInt.toNat < nAs := by omega
    have heq : x.toInt.toNat = id ↔ x.toInt = id := by omega
    rw [BitSet.contains_insert (hseen _ hlt), decide_eq_decide.mpr heq]
    exact ⟨fun i hi => (BitSet.length_insert seen _).symm ▸ hseen i hi, rfl⟩

/-- A loop whose turns each insert what `P` says. -/
theorem foldl_spec {α : Type*} {step : BitSet → α → BitSet} {P : α → Bool}
    (hstep : ∀ seen a, Room nAs seen → Room nAs (step seen a) ∧
      (step seen a).contains id = (seen.contains id || P a)) (l : List α)
    (hseen : Room nAs seen) :
    Room nAs (l.foldl step seen) ∧
      (l.foldl step seen).contains id = (seen.contains id || l.any P) := by
  induction l generalizing seen with
  | nil => exact ⟨hseen, (Bool.or_false _).symm⟩
  | cons a l ih =>
    obtain ⟨hroom, hone⟩ := hstep seen a hseen
    obtain ⟨hroom', hall⟩ := ih hroom
    refine ⟨hroom', ?_⟩
    rw [List.foldl_cons, hall, hone, List.any_cons, Bool.or_assoc]

/-- An expert is in the set if its id occurs. -/
theorem contains_markAll (ids : IdsTensor) (hid : id < nAs) :
    (markAll nAs ids).contains id = ids.toIds.seen id := by
  have hrow : ∀ seen i1, Room nAs seen → _ := fun seen i1 hseen =>
    foldl_spec (fun seen i0 hseen => mark_spec hseen hid (ids.read i1 i0)) (List.range ids.ne0)
    hseen
  have hall := foldl_spec hrow (List.range ids.ne1)
    (fun i hi => BitSet.div_lt_length_empty hi : Room nAs (BitSet.empty nAs))
  exact hall.2.trans (by rw [BitSet.contains_empty, Bool.false_or]; rfl)

/-! ## Runs of seen experts -/

theorem runsFrom_scan_none : runsFrom seen.contains (nAs - id) id none =
      runsFrom seen.contains (nAs - scan seen nAs false id) (scan seen nAs false id) none := by
  fun_induction scan seen nAs false id with
  | case1 id h ih =>
    have hleft : nAs - id = nAs - (id + 1) + 1 := by omega
    rw [← ih, hleft, runsFrom, h.2]
    rfl
  | case2 id h => rfl

theorem runsFrom_scan_some (first : ℕ) : runsFrom seen.contains (nAs - id) id (some first) =
      (first, scan seen nAs true id) ::
        runsFrom seen.contains (nAs - scan seen nAs true id) (scan seen nAs true id) none := by
  fun_induction scan seen nAs true id with
  | case1 id h ih =>
    have hleft : nAs - id = nAs - (id + 1) + 1 := by omega
    rw [← ih, hleft, runsFrom, if_pos h.2]
  | case2 id h =>
    rcases Nat.lt_or_ge id nAs with hlt | hle
    · have hleft : nAs - id = nAs - (id + 1) + 1 := by omega
      have hnot : seen.contains id = false := by simpa [hlt] using h
      rw [hleft, runsFrom, runsFrom, hnot]
      rfl
    · rw [Nat.sub_eq_zero_of_le hle]
      rfl

/-- Only the experts that there are matter. -/
theorem runsFrom_congr {seen seen' : ℕ → Bool} {n id : ℕ} {openRun : Option ℕ}
    (h : ∀ i < id + n, seen i = seen' i) :
    runsFrom seen n id openRun = runsFrom seen' n id openRun := by
  induction n generalizing id openRun with
  | zero =>
    cases openRun with
    | none => rfl
    | some first => rfl
  | succ n ih =>
    have hid : seen id = seen' id := h id (Nat.lt_add_of_pos_right (Nat.succ_pos n))
    have hrest : ∀ i < id + 1 + n, seen i = seen' i := fun i hi => h i (by omega)
    cases openRun with
    | none => rw [runsFrom, runsFrom, hid, ih hrest]
    | some first => rw [runsFrom, runsFrom, hid, ih hrest, ih hrest]

/-! ## Ranges in words -/

/-- A range of words as numbers. -/
def toNats (r : UInt64 × UInt64) : ℕ × ℕ := (r.1.toNat, r.2.toNat)

theorem toNat_ofNat_mul {n : ℕ} {x : UInt64} (h : n * x.toNat < 2 ^ 64) :
    (UInt64.ofNat n * x).toNat = n * x.toNat := by
  rw [UInt64.toNat_mul, UInt64.toNat_ofNat', mod_mul_mod, mod_eq_of_lt h]

theorem map_runRange {w : Weight} {first stop : ℕ} (hfirst : first ≤ w.nAs) (hstop : stop ≤ w.nAs)
    (hno : w.nAs * w.stride.toNat < 2 ^ 64) :
    (runRange w first stop).map toNats =
      (sliceRange w.stride.toNat w.nbytes.toNat (first, stop)).toList := by
  have hoff : (UInt64.ofNat first * w.stride).toNat = first * w.stride.toNat :=
    toNat_ofNat_mul ((mul_le_mul_right _ hfirst).trans_lt hno)
  have hall : (UInt64.ofNat (stop - first) * w.stride).toNat = (stop - first) * w.stride.toNat :=
    toNat_ofNat_mul ((mul_le_mul_right _ ((sub_le _ _).trans hstop)).trans_lt hno)
  simp only [runRange, sliceRange]
  generalize UInt64.ofNat first * w.stride = off at hoff ⊢
  generalize UInt64.ofNat (stop - first) * w.stride = all at hall ⊢
  rw [← hoff, ← hall]
  by_cases hin : off < w.nbytes
  · have hleft : (w.nbytes - off).toNat = w.nbytes.toNat - off.toNat :=
      UInt64.toNat_sub_of_le _ _ (UInt64.le_of_lt hin)
    have hlen :
        (minWord all (w.nbytes - off)).toNat = min all.toNat (w.nbytes.toNat - off.toNat) := by
      rw [toNat_minWord, hleft]
    have hin' : off.toNat < w.nbytes.toNat := UInt64.lt_iff_toNat_lt.mp hin
    by_cases hpos : minWord all (w.nbytes - off) > 0
    · have hpos' : min all.toNat (w.nbytes.toNat - off.toNat) > 0 :=
        hlen ▸ UInt64.lt_iff_toNat_lt.mp hpos
      rw [if_pos ⟨hin, hpos⟩, if_pos ⟨hin', hpos'⟩, ← hlen]
      rfl
    · have hpos' : ¬min all.toNat (w.nbytes.toNat - off.toNat) > 0 :=
        fun h => hpos (UInt64.lt_iff_toNat_lt.mpr (hlen.symm ▸ h))
      rw [if_neg fun h => hpos h.2, if_neg fun h => hpos' h.2]
      rfl
  · rw [if_neg (fun h => hin h.1), if_neg (fun h => hin (UInt64.lt_iff_toNat_lt.mpr h.1))]
    rfl

theorem map_selectedFrom {w : Weight} (hno : w.nAs * w.stride.toNat < 2 ^ 64) (id : ℕ) :
    (selectedFrom w seen id).map toNats = (runsFrom seen.contains (w.nAs - id) id none).filterMap
        (sliceRange w.stride.toNat w.nbytes.toNat) := by
  fun_induction selectedFrom w seen id with
  | case1 id hlt first hend =>
    rw [runsFrom_scan_none, Nat.sub_eq_zero_of_le hend]
    rfl
  | case2 id hlt first hend stop ih =>
    have hfirst : first < w.nAs := not_le.mp hend
    have hleft : w.nAs - first = w.nAs - (first + 1) + 1 := by omega
    have hrun : runsFrom seen.contains (w.nAs - first) first none =
        (first, stop) :: runsFrom seen.contains (w.nAs - stop) stop none := by
      have hseen : seen.contains first = true := contains_scan hfirst
      have hstop : stop = scan seen w.nAs true (first + 1) := by
        rw [show stop = scan seen w.nAs true first from rfl, scan, dif_pos ⟨hfirst, hseen⟩]
      rw [hleft, runsFrom, if_pos hseen, runsFrom_scan_some, hstop]
    have hskip : runsFrom seen.contains (w.nAs - id) id none =
        runsFrom seen.contains (w.nAs - first) first none := runsFrom_scan_none
    rw [List.map_append, ih, map_runRange hfirst.le (scan_le hfirst.le) hno, hskip, hrun,
      List.filterMap_cons]
    cases sliceRange w.stride.toNat w.nbytes.toNat (first, stop) with
    | none => rfl
    | some range => rfl
  | case3 id hend =>
    rw [Nat.sub_eq_zero_of_le (not_lt.mp hend)]
    rfl

/-- The ranges in words are those of the runs of the experts whose ids occur. -/
theorem map_collectSelectedRanges {w : Weight} (hnAs : 1 < w.nAs) (hwords : w.nAs + 31 < 2 ^ 63)
    (hstride : w.stride ≠ 0) (hno : w.nAs * w.stride.toNat < 2 ^ 64) (ids : IdsTensor) :
    ∃ ranges, collectSelectedRanges w ids = some ranges ∧
      ranges.map toNats = (runsFrom ids.toIds.seen w.nAs 0 none).filterMap
        (sliceRange w.stride.toNat w.nbytes.toNat) := by
  refine ⟨selectedFrom w (markAll w.nAs ids) 0, ?_, ?_⟩
  · rw [collectSelectedRanges, if_neg (by simp [hstride, hnAs]), if_neg (not_le.mpr hwords)]
  · have hseen : ∀ id < 0 + w.nAs, (markAll w.nAs ids).contains id = ids.toIds.seen id :=
      fun id hid => contains_markAll ids (by simpa using hid)
    rw [map_selectedFrom hno, Nat.sub_zero, runsFrom_congr hseen]

/-- The words of a tensor. -/
def Weight.ofTensor (w : Tensor) : Weight where
  nAs := w.nAs
  stride := UInt64.ofNat w.stride
  nbytes := UInt64.ofNat w.nbytes
  data := UInt64.ofNat w.data

/-- In a tensor whose sizes do not overflow the ranges are the same. -/
theorem collectSelectedRanges_ofTensor {w : Tensor} (hwords : w.nAs + 31 < 2 ^ 63)
    (hstride : w.stride < 2 ^ 64) (hnbytes : w.nbytes < 2 ^ 64)
    (hno : w.nAs * w.stride < 2 ^ 64) (ids : IdsTensor) :
    ∃ ranges, collectSelectedRanges (.ofTensor w) ids = some ranges ∧
      ranges.map toNats = Prefetch.collectSelectedRanges w ids.toIds := by
  have hstride' : (UInt64.ofNat w.stride).toNat = w.stride := UInt64.toNat_ofNat_of_lt' hstride
  have hnbytes' : (UInt64.ofNat w.nbytes).toNat = w.nbytes := UInt64.toNat_ofNat_of_lt' hnbytes
  have hzero : UInt64.ofNat w.stride = 0 ↔ w.stride = 0 := by
    rw [← UInt64.toNat_inj, hstride', UInt64.toNat_zero]
  by_cases hdense : w.nAs ≤ 1 ∨ w.stride = 0
  · refine ⟨[(0, UInt64.ofNat w.nbytes)], if_pos (hdense.imp_right hzero.mpr), ?_⟩
    rw [Prefetch.collectSelectedRanges, if_pos hdense]
    exact congrArg (fun n => [(0, n)]) hnbytes'
  · obtain ⟨hnAs, hne⟩ := not_or.mp hdense
    obtain ⟨ranges, hranges, hmap⟩ := @map_collectSelectedRanges (.ofTensor w) (not_le.mp hnAs)
      hwords (fun h => hne (hzero.mp h)) (hstride'.symm ▸ hno) ids
    refine ⟨ranges, hranges, hmap.trans ?_⟩
    rw [Prefetch.collectSelectedRanges, if_neg hdense, runRange_eq]
    exact congrArg₂ (fun stride nbytes => (runsFrom ids.toIds.seen w.nAs 0 none).filterMap
      (sliceRange stride nbytes)) hstride' hnbytes'

/-! ## Ranges that are apart -/

/-- Between two runs there is an expert that is not selected. -/
theorem runsFrom_apart (seen : ℕ → Bool) (n id : ℕ) :
    ((runsFrom seen n id none).Pairwise (fun a b => a.2 < b.1) ∧
      ∀ run ∈ runsFrom seen n id none, id ≤ run.1) ∧
    ∀ first ≤ id, (runsFrom seen n id (some first)).Pairwise (fun a b => a.2 < b.1) ∧
      ∀ run ∈ runsFrom seen n id (some first), first ≤ run.1 := by
  induction n generalizing id with
  | zero =>
    refine ⟨⟨List.Pairwise.nil, by simp [runsFrom]⟩, fun first _ => ⟨?_, by simp [runsFrom]⟩⟩
    exact List.pairwise_singleton _ _
  | succ n ih =>
    obtain ⟨⟨hapart, hle⟩, hopen⟩ := ih (id + 1)
    cases hseen : seen id with
    | true =>
      constructor
      · rw [runsFrom, if_pos hseen]
        exact hopen id (le_succ id)
      · intro first hfirst
        rw [runsFrom, if_pos hseen]
        exact hopen first (hfirst.trans (le_succ id))
    | false =>
      have hnot : ¬seen id = true := by simp [hseen]
      constructor
      · rw [runsFrom, if_neg hnot]
        exact ⟨hapart, fun run hrun => (le_succ id).trans (hle run hrun)⟩
      · intro first hfirst
        rw [runsFrom, if_neg hnot]
        refine ⟨List.pairwise_cons.mpr ⟨hle, hapart⟩, fun run hrun => ?_⟩
        rcases List.mem_cons.mp hrun with rfl | hrun
        · exact le_rfl
        · exact hfirst.trans ((le_succ id).trans (hle run hrun))

theorem bounds_of_sliceRange {stride nbytes : ℕ} {run range : ℕ × ℕ}
    (h : sliceRange stride nbytes run = some range) :
    range.1 = run.1 * stride ∧ 0 < range.2 ∧ range.1 + range.2 ≤ run.2 * stride ∧
      range.1 + range.2 ≤ nbytes := by
  simp only [sliceRange, Nat.sub_mul] at h
  split at h
  case isFalse => cases h
  case isTrue hpos =>
    cases h
    omega

/-- The ranges of a selection are sorted, and there is a byte between two of them. -/
theorem pairwise_slices {seen : ℕ → Bool} {stride : ℕ} (hstride : 0 < stride) (nbytes : ℕ) :
    ((runsFrom seen nAs 0 none).filterMap (sliceRange stride nbytes)).Pairwise
      fun a b => a.1 + a.2 < b.1 := by
  refine (runsFrom_apart seen nAs 0).1.1.filterMap _ fun a b hab range hrange range' hrange' => ?_
  obtain ⟨-, -, hstop, -⟩ := bounds_of_sliceRange hrange
  obtain ⟨hstart, -⟩ := bounds_of_sliceRange hrange'
  rw [hstart]
  exact hstop.trans_lt (Nat.mul_lt_mul_of_pos_right hab hstride)

/-! ## Jobs that tile the ranges -/

/-- The place of a job in the tensor. -/
def Job.place (data : UInt64) (job : Job) : ℕ × ℕ := ((job.addr - data).toNat, job.len.toNat)

/-- The jobs tile the range, and none is longer than a chunk. -/
def IsCut (data : UInt64) (range : UInt64 × UInt64) (jobs : List Job) : Prop :=
  Tiles range.1.toNat (range.1.toNat + range.2.toNat) (jobs.map (Job.place data)) ∧
    ∀ job ∈ jobs, job.len.toNat ≤ chunkBytes

theorem toNat_chunk : chunk.toNat = chunkBytes := rfl

theorem place_eq {data o len : UInt64} (hlen : len.toNat ≤ chunkBytes) :
    Job.place data { addr := data + o, len := len.toUInt32 } = (o.toNat, len.toNat) := by
  have haddr : data + o - data = o := by
    rw [UInt64.add_comm, UInt64.add_sub_cancel]
  have hfits : len.toUInt32.toNat = len.toNat := by
    rw [UInt64.toNat_toUInt32]
    exact mod_eq_of_lt (hlen.trans_lt (by decide))
  rw [Job.place, haddr, hfits]

/-- The loop ends, if the range ends a chunk before the end of the address space. -/
theorem cutFrom_spec {data stop o : UInt64} {fuel : ℕ} (hroom : stop.toNat + chunkBytes ≤ 2 ^ 64)
    (ho : o.toNat ≤ stop.toNat) (hfuel : stop.toNat - o.toNat < fuel) :
    ∃ jobs, cutFrom data stop fuel o = some jobs ∧
      Tiles o.toNat stop.toNat (jobs.map (Job.place data)) ∧
      ∀ job ∈ jobs, job.len.toNat ≤ chunkBytes := by
  induction fuel generalizing o with
  | zero => exact absurd hfuel (Nat.not_lt_zero _)
  | succ fuel ih =>
    rw [cutFrom]
    by_cases hlt : o < stop
    · have hlt' : o.toNat < stop.toNat := UInt64.lt_iff_toNat_lt.mp hlt
      have hleft : (stop - o).toNat = stop.toNat - o.toNat :=
        UInt64.toNat_sub_of_le _ _ (UInt64.le_of_lt hlt)
      have hnext : (o + chunk).toNat = o.toNat + chunkBytes := by
        rw [UInt64.toNat_add, toNat_chunk, Nat.mod_eq_of_lt (by omega)]
      have hlen : (minWord chunk (stop - o)).toNat = min chunkBytes (stop.toNat - o.toNat) := by
        rw [toNat_minWord, hleft, toNat_chunk]
      have hle : (minWord chunk (stop - o)).toNat ≤ chunkBytes := hlen.trans_le (min_le_left _ _)
      have hpos : 0 < (minWord chunk (stop - o)).toNat := by
        rw [hlen]
        exact lt_min (by decide) (Nat.sub_pos_of_lt hlt')
      have hrest : ∃ jobs, cutFrom data stop fuel (o + chunk) = some jobs ∧
          Tiles (o.toNat + (minWord chunk (stop - o)).toNat) stop.toNat
            (jobs.map (Job.place data)) ∧
          ∀ job ∈ jobs, job.len.toNat ≤ chunkBytes := by
        rcases le_or_gt (o.toNat + chunkBytes) stop.toNat with hmore | hlast
        · -- a whole chunk
          have hwhole : (minWord chunk (stop - o)).toNat = chunkBytes := by omega
          rw [hwhole, ← hnext]
          exact ih (hnext.trans_le hmore) (by omega)
        · -- the last one, which the next offset lies behind
          obtain ⟨turns, rfl⟩ := Nat.exists_eq_add_one_of_ne_zero (show fuel ≠ 0 by omega)
          have hend : ¬o + chunk < stop := fun h => by
            rw [UInt64.lt_iff_toNat_lt, hnext] at h
            exact h.not_gt hlast
          rw [cutFrom, if_neg hend, hlen]
          exact ⟨[], rfl, by simp only [List.map_nil, Tiles]; omega,
            fun job hjob => absurd hjob List.not_mem_nil⟩
      obtain ⟨jobs, hjobs, htiles, hshort⟩ := hrest
      rw [if_pos hlt, hjobs]
      refine ⟨_, rfl, ?_, fun job hjob => ?_⟩
      · rw [List.map_cons, place_eq hle]
        exact ⟨rfl, hpos, htiles⟩
      · rcases List.mem_cons.mp hjob with rfl | hjob
        · exact (Nat.mod_le _ _).trans hle
        · exact hshort job hjob
    · have heq : o.toNat = stop.toNat :=
        ho.antisymm (not_lt.mp fun h => hlt (UInt64.lt_iff_toNat_lt.mpr h))
      rw [if_neg hlt]
      exact ⟨[], rfl, heq, fun job hjob => absurd hjob List.not_mem_nil⟩

/-- So do the loops over the ranges of a tensor. -/
theorem cut_spec {data : UInt64} {nbytes fuel : ℕ} {ranges : List (UInt64 × UInt64)}
    (hroom : nbytes + chunkBytes ≤ 2 ^ 64)
    (hranges : ∀ r ∈ ranges, r.1.toNat + r.2.toNat ≤ nbytes) (hfuel : nbytes < fuel) :
    ∃ pieces, cut data fuel ranges = some pieces.flatten ∧
      List.Forall₂ (IsCut data) ranges pieces := by
  suffices h : ∃ pieces, (ranges.mapM fun r => cutFrom data (r.1 + r.2) fuel r.1) = some pieces ∧
      List.Forall₂ (IsCut data) ranges pieces by
    obtain ⟨pieces, hcut, hpieces⟩ := h
    exact ⟨pieces, by rw [cut, hcut, Option.map_some], hpieces⟩
  induction ranges with
  | nil => exact ⟨[], rfl, .nil⟩
  | cons r ranges ih =>
    have hr := hranges r List.mem_cons_self
    have hchunk : 0 < chunkBytes := by decide
    have hstop : (r.1 + r.2).toNat = r.1.toNat + r.2.toNat := by
      rw [UInt64.toNat_add, mod_eq_of_lt (by omega)]
    obtain ⟨jobs, hjobs, hcut⟩ :=
      @cutFrom_spec data (r.1 + r.2) r.1 fuel (by omega) (by omega) (by omega)
    obtain ⟨pieces, hpieces, hcuts⟩ := ih fun q hq => hranges q (List.mem_cons_of_mem r hq)
    rw [hstop] at hcut
    rw [List.mapM_cons, hjobs, hpieces]
    exact ⟨jobs :: pieces, rfl, .cons hcut hcuts⟩

/-! ## Selections and their jobs -/

/-- The id occurs in the tensor. -/
def IdsTensor.Occurs (ids : IdsTensor) (id : ℕ) : Prop :=
  ∃ i1 < ids.ne1, ∃ i0 < ids.ne0, (ids.read i1 i0).toInt = id

theorem seen_iff {ids : IdsTensor} : ids.toIds.seen id = true ↔ ids.Occurs id := by
  simp only [Ids.seen, List.any_eq_true, List.mem_range]
  constructor
  · rintro ⟨i1, hi1, i0, hi0, hid⟩
    exact ⟨i1, hi1, i0, hi0, of_decide_eq_true hid⟩
  · rintro ⟨i1, hi1, i0, hi0, hid⟩
    exact ⟨i1, hi1, i0, hi0, decide_eq_true hid⟩

/-- The ranges of a selection are sorted and apart, they hold exactly the bytes of the experts that
occur, and they are cut into jobs that tile them. -/
theorem selected_cut {w : Weight} (hnAs : 1 < w.nAs) (hstride : w.stride ≠ 0)
    (hno : w.nAs * w.stride.toNat < 2 ^ 64) (hwords : w.nAs + 31 < 2 ^ 63)
    (hroom : w.nbytes.toNat + chunkBytes ≤ 2 ^ 64) (ids : IdsTensor) :
    ∃ ranges, collectSelectedRanges w ids = some ranges ∧
      ranges.Pairwise (fun a b => a.1.toNat + a.2.toNat < b.1.toNat) ∧
      (∀ o, Covers (ranges.map toNats) o ↔ o < w.nbytes.toNat ∧
        ∃ id < w.nAs, ids.Occurs id ∧ Mem o (id * w.stride.toNat, w.stride.toNat)) ∧
      ∀ fuel > w.nbytes.toNat, ∃ pieces, cut w.data fuel ranges = some pieces.flatten ∧
        List.Forall₂ (IsCut w.data) ranges pieces := by
  have hpos : 0 < w.stride.toNat :=
    Nat.pos_of_ne_zero fun h => hstride (UInt64.toNat_inj.mp h)
  obtain ⟨ranges, hranges, hmap⟩ := map_collectSelectedRanges hnAs hwords hstride hno ids
  refine ⟨ranges, hranges, ?apart, fun o => ?covers, ?cut⟩
  case apart =>
    have hpairs : (ranges.map toNats).Pairwise fun a b => a.1 + a.2 < b.1 :=
      hmap ▸ pairwise_slices hpos w.nbytes.toNat
    exact List.pairwise_map.mp hpairs
  case covers =>
    have hdiv : ∀ id, Mem o (id * w.stride.toNat, w.stride.toNat) ↔ o / w.stride.toNat = id := by
      intro id
      rw [Nat.div_eq_iff hpos, Mem, Nat.le_sub_one_iff_lt (Nat.add_pos_right _ hpos)]
    rw [hmap, covers_slices hpos, seen_iff]
    constructor
    · rintro ⟨hbytes, hlt, hoccurs⟩
      exact ⟨hbytes, _, hlt, hoccurs, (hdiv _).mpr rfl⟩
    · rintro ⟨hbytes, id, hlt, hoccurs, hmem⟩
      obtain rfl := (hdiv id).mp hmem
      exact ⟨hbytes, hlt, hoccurs⟩
  case cut =>
    have hinside : ∀ r ∈ ranges, r.1.toNat + r.2.toNat ≤ w.nbytes.toNat := by
      intro r hr
      have hmem : toNats r ∈ ranges.map toNats := List.mem_map_of_mem hr
      rw [hmap] at hmem
      obtain ⟨run, -, hrun⟩ := List.mem_filterMap.mp hmem
      exact (bounds_of_sliceRange hrun).2.2.2
    exact fun fuel hfuel => cut_spec hroom hinside hfuel

/-- A tensor of two experts of 32 bytes, the last of them cut off after 8 bytes. -/
def smallWeight : Weight where
  nAs := 2
  stride := 32
  nbytes := 40
  data := 4096

/-- The ids 0 and 1 in one row. -/
def twoIds : IdsTensor where
  ne0 := 2
  ne1 := 1
  nb0 := 4
  nb1 := 8
  data := 0
  memory addr := if addr = 4 then 1 else 0

theorem selected_cut_smallWeight :
    ∃ ranges, collectSelectedRanges smallWeight twoIds = some ranges ∧
      ranges.Pairwise (fun a b => a.1.toNat + a.2.toNat < b.1.toNat) ∧
      (∀ o, Covers (ranges.map toNats) o ↔ o < 40 ∧
        ∃ id < 2, twoIds.Occurs id ∧ Mem o (id * 32, 32)) ∧
      ∀ fuel > 40, ∃ pieces, cut 4096 fuel ranges = some pieces.flatten ∧
        List.Forall₂ (IsCut 4096) ranges pieces :=
  @selected_cut smallWeight (by decide) (by decide) (by decide) (by decide) (by decide) twoIds

/-- Behind the last chunk the offset starts again at the beginning. -/
theorem cutFrom_eq_none {data stop o : UInt64} (hstop : 2 ^ 64 < stop.toNat + chunkBytes)
    (ho : chunkBytes ∣ o.toNat) (fuel : ℕ) : cutFrom data stop fuel o = none := by
  have hspace : chunkBytes ∣ 2 ^ 64 := by decide
  induction fuel generalizing o with
  | zero => rfl
  | succ fuel ih =>
    have hlt : o < stop := by
      obtain ⟨k, hk⟩ := ho
      obtain ⟨m, hm⟩ := hspace
      have hkm : k + 1 ≤ m :=
        Nat.lt_of_mul_lt_mul_left (hk ▸ hm ▸ o.toNat_lt : chunkBytes * k < chunkBytes * m)
      have hle : chunkBytes * (k + 1) ≤ chunkBytes * m := Nat.mul_le_mul_left _ hkm
      rw [UInt64.lt_iff_toNat_lt]
      rw [Nat.mul_succ] at hle
      omega
    have hnext : chunkBytes ∣ (o + chunk).toNat := by
      rw [UInt64.toNat_add, toNat_chunk]
      exact (Nat.dvd_mod_iff hspace).mpr (Nat.dvd_add ho (Nat.dvd_refl _))
    rw [cutFrom, if_pos hlt, ih hnext]
    rfl

/-- Two experts of almost half of the address space each. -/
def wideWeight : Weight where
  nAs := 2
  stride := 0x7fffffffffffffff
  nbytes := 0xfffffffffffffffe
  data := 0

/-- The loop over the chunks of a range that ends there never ends; and so many experts that the
number of words overflows have no set. -/
theorem not_selected_cut : (1 < wideWeight.nAs ∧ wideWeight.stride ≠ 0 ∧
      wideWeight.nAs * wideWeight.stride.toNat < 2 ^ 64 ∧
      ∃ ranges, collectSelectedRanges wideWeight twoIds = some ranges ∧
        ∀ fuel, cut wideWeight.data fuel ranges = none) ∧
    collectSelectedRanges { nAs := 2 ^ 63 - 1, stride := 1, nbytes := 1, data := 0 } twoIds =
      none := by
  refine ⟨⟨by decide, by decide, by decide, ?_⟩, by decide +kernel⟩
  obtain ⟨ranges, hranges, hmap⟩ :=
    @map_collectSelectedRanges wideWeight (by decide) (by decide) (by decide) (by decide) twoIds
  have hwhole : ranges.map toNats = [(0, 0xfffffffffffffffe)] := hmap.trans (by decide +kernel)
  refine ⟨ranges, hranges, fun fuel => ?_⟩
  obtain ⟨r, rfl, hr⟩ := List.map_eq_singleton_iff.mp hwhole
  have hstart : r.1.toNat = 0 := congrArg Prod.fst hr
  have hlen : r.2.toNat = 0xfffffffffffffffe := congrArg Prod.snd hr
  have hstop : 2 ^ 64 < (r.1 + r.2).toNat + chunkBytes := by
    rw [UInt64.toNat_add, hstart, hlen]
    decide
  have hdvd : chunkBytes ∣ r.1.toNat := hstart.symm ▸ Nat.dvd_zero _
  rw [cut, List.mapM_cons, cutFrom_eq_none hstop hdvd]
  rfl

end ExpertPin.Prefetch.Words
