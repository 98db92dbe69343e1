import Mathlib.Data.List.Basic

/-!
# Rows in a flat buffer

A buffer that holds rows of one width, one after the other, and copies of strips of these rows: a
loop of `memcpy` with a step on each side.  Strips of the same number of rows are put side by side
by `joinRows`.
-/

namespace ExpertPin.Strided

open List
open Nat

variable {α : Type*} {l l' pre post spre spost d s x : List α}
  {rows done rest strip : List (List α)}
  {drows srows : List (List α)} {strips : List (List (List α))}
  {pos len width count off doff soff dstep sstep n : ℕ}

/-! ## Copies -/

/-- The buffer with other elements from a position on. -/
def overwrite (dst : List α) (pos : ℕ) (src : List α) : List α :=
  dst.take pos ++ src ++ dst.drop (pos + src.length)

/-- So many copies of `len` elements, with a step for each of the two buffers. -/
def copyRows (len : ℕ) : ℕ → List α → ℕ → ℕ → List α → ℕ → ℕ → List α
  | 0, dst, _, _, _, _, _ => dst
  | rows + 1, dst, dstPos, dstStep, src, srcPos, srcStep =>
    copyRows len rows (overwrite dst dstPos ((src.drop srcPos).take len)) (dstPos + dstStep) dstStep
      src (srcPos + srcStep) srcStep

theorem overwrite_append_left : overwrite (pre ++ l) (pre.length + pos) x =
    pre ++ overwrite l pos x := by
  unfold overwrite
  rw [take_length_add_append, Nat.add_assoc, drop_length_add_append]
  simp only [append_assoc]

theorem overwrite_append_right (h : pos + x.length ≤ l.length) :
    overwrite (l ++ post) pos x = overwrite l pos x ++ post := by
  unfold overwrite
  rw [take_append_of_le_length (le_of_add_right_le h), drop_append_of_le_length h]
  simp only [append_assoc]

theorem length_overwrite (h : pos + x.length ≤ l.length) :
    (overwrite l pos x).length = l.length := by
  unfold overwrite
  rw [length_append, length_append, length_take, length_drop]
  omega

theorem overwrite_zero (h : x.length = l.length) : overwrite l 0 x = x := by
  unfold overwrite
  rw [Nat.zero_add, h, drop_length, take_zero, nil_append, append_nil]

/-- **Strips**: a loop over rows of the two buffers copies a strip of each. -/
theorem copyRows_flatten (hd : ∀ d ∈ drows, d.length = dstep) (hs : ∀ s ∈ srows, s.length = sstep)
    (hlength : drows.length = srows.length) (hdoff : doff + len ≤ dstep)
    (hsoff : soff + len ≤ sstep) :
    copyRows len drows.length (pre ++ drows.flatten ++ post) (pre.length + doff) dstep
        (spre ++ srows.flatten ++ spost) (spre.length + soff) sstep =
      pre ++ (List.zipWith (fun d s => overwrite d doff ((s.drop soff).take len)) drows
        srows).flatten
        ++ post := by
  induction drows generalizing srows pre spre with
  | nil =>
    cases srows with
    | nil => rfl
    | cons s srows => exact absurd hlength (succ_ne_zero _).symm
  | cons d drows ih =>
    cases srows with
    | nil => exact absurd hlength (succ_ne_zero _)
    | cons s srows =>
      obtain ⟨hdlen, hd⟩ := forall_mem_cons.mp hd
      obtain ⟨hslen, hs⟩ := forall_mem_cons.mp hs
      have hpiece : ((spre ++ (s :: srows).flatten ++ spost).drop (spre.length + soff)).take len =
          (s.drop soff).take len := by
        rw [append_assoc, drop_length_add_append, flatten_cons, append_assoc,
          drop_append_of_le_length (by omega),
          take_append_of_le_length (by rw [length_drop]; omega)]
      have hlen : ((s.drop soff).take len).length = len := by
        rw [length_take, length_drop]
        omega
      have hover : overwrite (pre ++ (d :: drows).flatten ++ post) (pre.length + doff)
          ((s.drop soff).take len) =
          (pre ++ overwrite d doff ((s.drop soff).take len)) ++ drows.flatten ++ post := by
        rw [append_assoc, overwrite_append_left, flatten_cons, append_assoc,
          overwrite_append_right (by omega)]
        simp only [append_assoc]
      have hdpos : pre.length + doff + dstep =
          (pre ++ overwrite d doff ((s.drop soff).take len)).length + doff := by
        rw [length_append, length_overwrite (by omega)]
        omega
      have hspos : spre.length + soff + sstep = (spre ++ s).length + soff := by
        rw [length_append]
        omega
      have hsrc : spre ++ (s :: srows).flatten ++ spost = (spre ++ s) ++ srows.flatten ++
          spost := by
        rw [flatten_cons]
        simp only [append_assoc]
      rw [length_cons, copyRows, hpiece, hover, hdpos, hspos, hsrc,
        ih hd hs (succ.inj hlength), zipWith_cons_cons, flatten_cons]
      simp only [append_assoc]

/-! ## Rows of a buffer -/

theorem length_flatten_rows (h : ∀ r ∈ rows, r.length = width) :
    rows.flatten.length = rows.length * width := by
  induction rows with
  | nil => exact (Nat.zero_mul width).symm
  | cons r rows ih =>
    obtain ⟨hr, hrows⟩ := forall_mem_cons.mp h
    rw [flatten_cons, length_append, hr, ih hrows, length_cons, Nat.succ_mul,
      Nat.add_comm]

/-- So many rows of one width. -/
def chunks (width : ℕ) : ℕ → List α → List (List α)
  | 0, _ => []
  | rows + 1, l => l.take width :: chunks width rows (l.drop width)

@[simp] theorem length_chunks : (chunks width n l).length = n := by
  induction n generalizing l with
  | zero => rfl
  | succ n ih => exact congrArg succ ih

theorem flatten_chunks (h : l.length = n * width) : (chunks width n l).flatten = l := by
  induction n generalizing l with
  | zero => exact (eq_nil_of_length_eq_zero (h.trans (Nat.zero_mul _))).symm
  | succ n ih =>
    rw [chunks, flatten_cons, ih, take_append_drop]
    rw [length_drop, h, Nat.succ_mul, Nat.add_sub_cancel]

theorem length_of_mem_chunks (h : l.length = n * width) :
    ∀ r ∈ chunks width n l, r.length = width := by
  induction n generalizing l with
  | zero => exact forall_mem_nil _
  | succ n ih =>
    rw [succ_mul] at h
    refine forall_mem_cons.mpr ⟨?_, ih ?_⟩
    · rw [length_take]
      omega
    · rw [length_drop]
      omega

/-! ## Strips side by side -/

/-- The strips side by side. -/
def joinRows (count : ℕ) : List (List (List α)) → List (List α)
  | [] => List.replicate count []
  | strip :: strips => List.zipWith (· ++ ·) strip (joinRows count strips)

theorem zipWith_append_assoc (a b c : List (List α)) :
    List.zipWith (· ++ ·) (List.zipWith (· ++ ·) a b) c =
      List.zipWith (· ++ ·) a (List.zipWith (· ++ ·) b c) := by
  induction a generalizing b c with
  | nil => rfl
  | cons x a ih =>
    cases b with
    | nil => rfl
    | cons y b =>
      cases c with
      | nil => rfl
      | cons z c => simp only [zipWith_cons_cons, append_assoc, ih]

theorem replicate_nil_zipWith_append (h : rows.length = count) :
    List.zipWith (· ++ ·) (List.replicate count []) rows = rows := by
  subst h
  induction rows with
  | nil => rfl
  | cons r rows ih =>
    rw [length_cons, replicate_succ, zipWith_cons_cons, ih, nil_append]

theorem length_zipWith_append (hdone : done.length = count) (hrest : rest.length = count) :
    (List.zipWith (· ++ ·) done rest).length = count := by
  rw [length_zipWith, hdone, hrest, Nat.min_self]

theorem length_joinRows (h : ∀ strip ∈ strips, strip.length = count) :
    (joinRows count strips).length = count := by
  induction strips with
  | nil => exact length_replicate
  | cons strip strips ih =>
    obtain ⟨hstrip, hstrips⟩ := forall_mem_cons.mp h
    exact length_zipWith_append hstrip (ih hstrips)

theorem length_of_mem_zipWith_append (hdone : ∀ d ∈ done, d.length = off)
    (hrest : ∀ r ∈ rest, r.length = width) :
    ∀ x ∈ List.zipWith (· ++ ·) done rest, x.length = off + width := by
  induction done generalizing rest with
  | nil => exact forall_mem_nil _
  | cons d done ih =>
    cases rest with
    | nil => exact forall_mem_nil _
    | cons r rest =>
      obtain ⟨hd, hdone⟩ := forall_mem_cons.mp hdone
      obtain ⟨hr, hrest⟩ := forall_mem_cons.mp hrest
      refine forall_mem_cons.mpr ⟨?_, ih hdone hrest⟩
      rw [length_append, hd, hr]

/-- A strip written behind what is there. -/
theorem zipWith_overwrite (hdone : ∀ d ∈ done, d.length = off)
    (hstrip : ∀ s ∈ strip, s.length = len)
    (hlength : rest.length = strip.length) :
    List.zipWith (fun d s => overwrite d off ((s.drop 0).take len))
        (List.zipWith (· ++ ·) done rest) strip =
      List.zipWith (· ++ ·) (List.zipWith (· ++ ·) done strip) (rest.map (List.drop len)) := by
  induction done generalizing rest strip with
  | nil => rfl
  | cons d done ih =>
    cases rest with
    | nil => cases strip <;> rfl
    | cons t rest =>
      cases strip with
      | nil => rfl
      | cons s strip =>
        obtain ⟨hd, hdone⟩ := forall_mem_cons.mp hdone
        obtain ⟨hs, hstrip⟩ := forall_mem_cons.mp hstrip
        simp only [zipWith_cons_cons, map_cons, ih hdone hstrip (Nat.succ.inj hlength)]
        congr 1
        subst hd
        have h := @overwrite_append_left α t d s 0
        rw [Nat.add_zero] at h
        rw [drop_zero, take_of_length_le (Nat.le_of_eq hs), h, overwrite,
          take_zero, Nat.zero_add, hs, nil_append, append_assoc]

/-- A strip taken out again. -/
theorem zipWith_extract (hd : ∀ d ∈ drows, d.length = len) (hlength : drows.length = strip.length)
    (hdone : ∀ d ∈ done, d.length = off) (hdonelen : done.length = strip.length)
    (hstrip : ∀ s ∈ strip, s.length = len) (hrest : rest.length = strip.length) :
    List.zipWith (fun d s => overwrite d 0 ((s.drop off).take len)) drows
        (List.zipWith (· ++ ·) done (List.zipWith (· ++ ·) strip rest)) = strip := by
  induction strip generalizing drows done rest with
  | nil =>
    rw [eq_nil_of_length_eq_zero hlength]
    rfl
  | cons s strip ih =>
    obtain ⟨hs, hstrip⟩ := forall_mem_cons.mp hstrip
    cases drows with
    | nil => exact absurd hlength.symm (succ_ne_zero _)
    | cons d drows =>
      cases done with
      | nil => exact absurd hdonelen.symm (succ_ne_zero _)
      | cons a done =>
        cases rest with
        | nil => exact absurd hrest.symm (succ_ne_zero _)
        | cons t rest =>
          obtain ⟨hdlen, hd⟩ := forall_mem_cons.mp hd
          obtain ⟨ha, hdone⟩ := forall_mem_cons.mp hdone
          have htail := ih hd (succ.inj hlength) hdone (succ.inj hdonelen) hstrip
            (succ.inj hrest)
          simp only [zipWith_cons_cons, htail]
          congr 1
          subst ha
          rw [drop_left, ← hs, take_left, overwrite_zero (hs.trans hdlen.symm)]

end ExpertPin.Strided
