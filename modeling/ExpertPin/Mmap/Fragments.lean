import Mathlib.Algebra.GroupWithZero.Nat
import Mathlib.Data.List.Induction
import ExpertPin.Lib.Rounding

/-!
# The fragments of a file mapping

`llama_mmap::impl` of `src/llama-mmap.cpp` keeps the ranges of a file that are still mapped.
`unmap_fragment` unmaps the whole pages of a range and takes them out of the list; the destructor
unmaps what is left.  The calls of `munmap` are kept beside the list, which does not depend on them.
-/

namespace ExpertPin.Mmap

open Rounding
open List

/-- A mapping of a file.  No mapping is made of an empty file; the page size is a power of two, and
rounding the size of the file up to pages stays inside of a `size_t`. -/
structure Mapping where
  size : ℕ
  pageBits : ℕ
  pos : 0 < size
  fits : size + 2 ^ pageBits ≤ 2 ^ 64

def Mapping.pageSize (m : Mapping) : ℕ := 2 ^ m.pageBits

/-! ## Rounding to pages -/

/-- `align_range`. -/
def alignRange (first last pageSize : ℕ) : ℕ × ℕ :=
  let offsetInPage := first &&& (pageSize - 1)
  let offsetToPage := if offsetInPage = 0 then 0 else pageSize - offsetInPage
  let first := (first + offsetToPage) % 2 ^ 64
  let last := last &&& (2 ^ 64 - 1 - (pageSize - 1))
  if last ≤ first then (first, first) else (first, last)

/-! ## Unmapping -/

/-- `munmap(addr + offset, len)`. -/
structure Call where
  offset : ℕ
  len : ℕ
deriving DecidableEq, Repr

structure State where
  mappedFragments : List (ℕ × ℕ)
  munmaps : List Call
deriving DecidableEq, Repr

/-- What the loop of `unmap_fragment` leaves of one fragment. -/
def leave (first last : ℕ) (frag : ℕ × ℕ) : List (ℕ × ℕ) :=
  if frag.1 < first ∧ frag.2 > last then [(frag.1, first), (last, frag.2)]
  else if frag.1 < first ∧ frag.2 > first then [(frag.1, first)]
  else if frag.1 < last ∧ frag.2 > last then [(last, frag.2)]
  else if frag.1 ≥ first ∧ frag.2 ≤ last then []
  else [frag]

/-- The calls of the destructor. -/
def State.destroy (s : State) : List Call :=
  s.mappedFragments.map fun frag => ⟨frag.1, frag.2 - frag.1⟩

namespace Mapping

variable (m : Mapping)

/-- What the constructor leaves. -/
def initial : State where
  mappedFragments := [(0, m.size)]
  munmaps := []

/-- `unmap_fragment`, unless one of its assertions fails. -/
def unmapFragment (s : State) (first last : ℕ) : Option State :=
  let range := alignRange first last m.pageSize
  let len := range.2 - range.1
  if len = 0 then some s
  else if range.1 % m.pageSize = 0 ∧ range.2 % m.pageSize = 0 ∧ range.2 > range.1 then
    some {
      mappedFragments := s.mappedFragments.flatMap (leave range.1 range.2)
      munmaps := s.munmaps ++ [⟨range.1, len⟩] }
  else none

/-- The mapping after some requests. -/
def run (requests : List (ℕ × ℕ)) : Option State :=
  requests.foldlM (fun s request => m.unmapFragment s request.1 request.2) m.initial

end Mapping

/-! ## Ranges of bytes -/

/-- A byte lies in a half-open range. -/
def In (o : ℕ) (range : ℕ × ℕ) : Prop := range.1 ≤ o ∧ o < range.2

/-- The page of a byte lies in a range as a whole. -/
def InPages (pageSize o : ℕ) (range : ℕ × ℕ) : Prop :=
  range.1 ≤ o / pageSize * pageSize ∧ (o / pageSize + 1) * pageSize ≤ range.2

/-- The bytes that a call unmaps: the system rounds the end up to pages. -/
def Call.Unmaps (pageSize : ℕ) (call : Call) (o : ℕ) : Prop :=
  call.offset ≤ o ∧ o < roundUp (call.offset + call.len) pageSize

variable {m : Mapping} {s : State} {first last o : ℕ} {frag : ℕ × ℕ}

theorem Mapping.pageSize_pos (m : Mapping) : 0 < m.pageSize := Nat.two_pow_pos _

/-- The complement of the low bits, in 64 bits. -/
theorem and_complement {x bits : ℕ} (hbits : bits ≤ 64) (hx : x < 2 ^ 64) :
    x &&& (2 ^ 64 - 1 - (2 ^ bits - 1)) = x / 2 ^ bits * 2 ^ bits := by
  have hmask : 2 ^ 64 - 1 - (2 ^ bits - 1) = (2 ^ (64 - bits) - 1) <<< bits := by
    have hpos := Nat.two_pow_pos bits
    rw [Nat.shiftLeft_eq, Nat.sub_mul, ← Nat.pow_add, Nat.sub_add_cancel hbits, Nat.one_mul]
    omega
  rw [hmask, ← Nat.shiftRight_eq_div_pow, ← Nat.shiftLeft_eq]
  apply Nat.eq_of_testBit_eq
  intro i
  rw [Nat.testBit_and, Nat.testBit_shiftLeft, Nat.testBit_shiftLeft, Nat.testBit_shiftRight,
    Nat.testBit_two_pow_sub_one]
  by_cases hi : bits ≤ i
  · rw [decide_eq_true hi, Nat.add_sub_cancel' hi, Bool.true_and, Bool.true_and]
    by_cases hlt : i < 64
    · rw [decide_eq_true (Nat.sub_lt_sub_right hi hlt), Bool.and_true]
    · have hzero : x.testBit i = false :=
        Nat.testBit_lt_two_pow (Nat.lt_of_lt_of_le hx (Nat.pow_le_pow_right (by decide) (by omega)))
      rw [hzero, Bool.false_and]
  · rw [decide_eq_false hi, Bool.false_and, Bool.false_and, Bool.and_false]

/-- The first page that begins in the range, and the end of the last one that ends in it. -/
theorem alignRange_eq (hle : first ≤ last) (hsize : last ≤ m.size) :
    alignRange first last m.pageSize = (roundUp first m.pageSize,
        max (roundUp first m.pageSize) (last / m.pageSize * m.pageSize)) := by
  have hpage := m.pageSize_pos
  have hfits : m.size + m.pageSize ≤ 2 ^ 64 := m.fits
  have hbits : m.pageBits ≤ 64 :=
    (Nat.pow_le_pow_iff_right (by decide)).mp (Nat.le_trans (Nat.le_add_left _ _) m.fits)
  have hmod : first &&& (m.pageSize - 1) = first % m.pageSize :=
    Nat.and_two_pow_sub_one_eq_mod first m.pageBits
  have hlast : last &&& (2 ^ 64 - 1 - (m.pageSize - 1)) = last / m.pageSize * m.pageSize :=
    and_complement hbits (by omega)
  have hlt : first % m.pageSize < m.pageSize := Nat.mod_lt _ hpage
  have hdiv : m.pageSize * (first / m.pageSize) + first % m.pageSize = first :=
    Nat.div_add_mod first m.pageSize
  have hfirst : roundUp first m.pageSize =
      first + (if first % m.pageSize = 0 then 0 else m.pageSize - first % m.pageSize) := by
    split
    case isTrue hzero =>
      exact roundUp_eq hpage (Nat.dvd_of_mod_eq_zero hzero) (Nat.le_refl _) (by omega)
    case isFalse hpos =>
      refine roundUp_eq hpage ?_ (Nat.le_add_right _ _) (by omega)
      have hnext : first + (m.pageSize - first % m.pageSize) =
          m.pageSize * (first / m.pageSize) + m.pageSize := by omega
      rw [hnext]
      exact Nat.dvd_add (Nat.dvd_mul_right _ _) (Nat.dvd_refl _)
  have hwrap : roundUp first m.pageSize < 2 ^ 64 :=
    Nat.lt_of_lt_of_le (roundUp_lt hpage) (by omega)
  unfold alignRange
  dsimp only
  rw [hmod, hlast, ← hfirst, Nat.mod_eq_of_lt hwrap]
  split
  case isTrue h => rw [Nat.max_eq_left h]
  case isFalse h => rw [Nat.max_eq_right (Nat.le_of_not_le h)]

/-- The range that is unmapped consists of the pages that lie in the request as a whole. -/
theorem in_alignRange_iff (hle : first ≤ last) (hsize : last ≤ m.size) :
    In o (alignRange first last m.pageSize) ↔ InPages m.pageSize o (first, last) := by
  have hpage := m.pageSize_pos
  have hbegin : roundUp first m.pageSize ≤ o ↔ first ≤ o / m.pageSize * m.pageSize := by
    obtain ⟨k, hk⟩ : m.pageSize ∣ roundUp first m.pageSize := dvd_roundUp
    constructor
    · intro h
      refine Nat.le_trans (le_roundUp hpage) ?_
      rw [hk, Nat.mul_comm] at h ⊢
      exact Nat.mul_le_mul_right _ ((Nat.le_div_iff_mul_le hpage).mpr h)
    · intro h
      exact Nat.le_trans (roundUp_le hpage (Nat.dvd_mul_left _ _) h) (Nat.div_mul_le_self _ _)
  have hend : o < last / m.pageSize * m.pageSize ↔ (o / m.pageSize + 1) * m.pageSize ≤ last := by
    rw [← Nat.div_lt_iff_lt_mul hpage, ← Nat.le_div_iff_mul_le hpage]
    rfl
  rw [alignRange_eq hle hsize, In, InPages, ← hbegin, ← hend]
  dsimp only
  omega

/-! ## What is left of a fragment -/

theorem in_leave_iff (hrange : first < last) :
    (∃ part ∈ leave first last frag, In o part) ↔ In o frag ∧ ¬In o (first, last) := by
  unfold leave In
  dsimp only
  split
  · simp only [mem_cons, not_mem_nil, or_false, exists_eq_or_imp, exists_eq_left]
    omega
  · split
    · simp only [mem_singleton, exists_eq_left]
      omega
    · split
      · simp only [mem_singleton, exists_eq_left]
        omega
      · split
        · simp only [not_mem_nil, false_and, exists_false, false_iff]
          omega
        · simp only [mem_singleton, exists_eq_left]
          omega

/-- What is left is inside of the fragment, and ends where that does or at the unmapped range. -/
theorem of_mem_leave (hrange : first < last) (hfrag : frag.1 < frag.2) {part : ℕ × ℕ}
    (hpart : part ∈ leave first last frag) :
    part.1 < part.2 ∧ frag.1 ≤ part.1 ∧ part.2 ≤ frag.2 ∧ (part.1 = frag.1 ∨ part.1 = last) ∧
      (part.2 = frag.2 ∨ part.2 = first) := by
  unfold leave at hpart
  split at hpart
  · simp only [mem_cons, not_mem_nil, or_false] at hpart
    rcases hpart with rfl | rfl
    · exact ⟨by omega, by omega, by omega, .inl rfl, .inr rfl⟩
    · exact ⟨by omega, by omega, by omega, .inr rfl, .inl rfl⟩
  · split at hpart
    · obtain rfl := mem_singleton.mp hpart
      exact ⟨by omega, by omega, by omega, .inl rfl, .inr rfl⟩
    · split at hpart
      · obtain rfl := mem_singleton.mp hpart
        exact ⟨by omega, by omega, by omega, .inr rfl, .inl rfl⟩
      · split at hpart
        · exact absurd hpart not_mem_nil
        · obtain rfl := mem_singleton.mp hpart
          exact ⟨hfrag, Nat.le_refl _, Nat.le_refl _, .inl rfl, .inl rfl⟩

theorem pairwise_leave (hrange : first < last) (frag : ℕ × ℕ) :
    (leave first last frag).Pairwise fun a b => a.2 ≤ b.1 := by
  unfold leave
  split
  · exact pairwise_pair.mpr (Nat.le_of_lt hrange)
  · split
    · exact pairwise_singleton _ _
    · split
      · exact pairwise_singleton _ _
      · split
        · exact .nil
        · exact pairwise_singleton _ _

/-! ## Requests -/

/-- What holds of the fragments and the calls after some requests. -/
structure Keeps (m : Mapping) (requests : List (ℕ × ℕ)) (s : State) : Prop where
  sorted : s.mappedFragments.Pairwise fun a b => a.2 ≤ b.1
  nonempty : ∀ frag ∈ s.mappedFragments, frag.1 < frag.2
  aligned : ∀ frag ∈ s.mappedFragments,
    m.pageSize ∣ frag.1 ∧ (m.pageSize ∣ frag.2 ∨ frag.2 = m.size)
  covers : ∀ o, (∃ frag ∈ s.mappedFragments, In o frag) ↔
    o < m.size ∧ ∀ request ∈ requests, ¬InPages m.pageSize o request
  ends : ∀ call ∈ s.munmaps, m.pageSize ∣ call.offset + call.len
  requested : ∀ call ∈ s.munmaps,
    ∃ request ∈ requests, request.1 ≤ call.offset ∧ call.offset + call.len ≤ request.2
  pages : ∀ call ∈ s.munmaps, ∀ o, call.offset ≤ o → o < call.offset + call.len →
    ∃ request ∈ requests, InPages m.pageSize o request

theorem keeps_initial (m : Mapping) : Keeps m [] m.initial where
  sorted := pairwise_singleton _ _
  nonempty := forall_mem_singleton.mpr m.pos
  aligned := forall_mem_singleton.mpr ⟨Nat.dvd_zero _, .inr rfl⟩
  covers := by
    intro o
    simp [Mapping.initial, In]
  ends := forall_mem_nil _
  requested := forall_mem_nil _
  pages := forall_mem_nil _

variable {requests : List (ℕ × ℕ)} {request : ℕ × ℕ}

/-- A request without a whole page changes nothing. -/
theorem Keeps.skip (h : Keeps m requests s) (hnone : ∀ o, ¬InPages m.pageSize o request) :
    Keeps m (requests ++ [request]) s where
  sorted := h.sorted
  nonempty := h.nonempty
  aligned := h.aligned
  covers := by
    intro o
    rw [h.covers o, forall_mem_append, forall_mem_singleton, and_iff_left (hnone o)]
  ends := h.ends
  requested := by
    intro call hcall
    obtain ⟨before, hbefore, hinside⟩ := h.requested call hcall
    exact ⟨before, mem_append_left _ hbefore, hinside⟩
  pages := by
    intro call hcall o hlo hhi
    obtain ⟨before, hbefore, hpages⟩ := h.pages call hcall o hlo hhi
    exact ⟨before, mem_append_left _ hbefore, hpages⟩

/-- The whole pages of a request are taken out of the fragments. -/
theorem Keeps.cut (h : Keeps m requests s) {first last : ℕ} (hrange : first < last)
    (hfirst : m.pageSize ∣ first) (hlast : m.pageSize ∣ last)
    (hrequest : request.1 ≤ first ∧ last ≤ request.2)
    (hpages : ∀ o, In o (first, last) ↔ InPages m.pageSize o request) :
    Keeps m (requests ++ [request]) {
      mappedFragments := s.mappedFragments.flatMap (leave first last)
      munmaps := s.munmaps ++ [⟨first, last - first⟩] } := by
  have hskip : last = first + (last - first) := (Nat.add_sub_cancel' (Nat.le_of_lt hrange)).symm
  refine ⟨?sorted, ?nonempty, ?aligned, ?covers, ?ends, ?requested, ?pages⟩
  case sorted =>
    refine pairwise_flatMap.mpr ⟨fun frag _ => pairwise_leave hrange frag, ?_⟩
    refine (List.Pairwise.and_mem.mp h.sorted).imp fun hab a' ha' b' hb' => ?_
    obtain ⟨ha, hb, hab⟩ := hab
    calc a'.2 ≤ _ := (of_mem_leave hrange (h.nonempty _ ha) ha').2.2.1
      _ ≤ _ := hab
      _ ≤ b'.1 := (of_mem_leave hrange (h.nonempty _ hb) hb').2.1
  case nonempty =>
    intro part hpart
    obtain ⟨frag, hfrag, hpart⟩ := mem_flatMap.mp hpart
    exact (of_mem_leave hrange (h.nonempty frag hfrag) hpart).1
  case aligned =>
    intro part hpart
    obtain ⟨frag, hfrag, hpart⟩ := mem_flatMap.mp hpart
    obtain ⟨hbegin, hend⟩ := h.aligned frag hfrag
    obtain ⟨-, -, -, hpart₁, hpart₂⟩ := of_mem_leave hrange (h.nonempty frag hfrag) hpart
    constructor
    · rcases hpart₁ with heq | heq
      · rwa [heq]
      · rwa [heq]
    · rcases hpart₂ with heq | heq
      · rwa [heq]
      · rw [heq]
        exact .inl hfirst
  case covers =>
    intro o
    rw [forall_mem_append, forall_mem_singleton, ← hpages o, ← and_assoc, ← h.covers o]
    constructor
    · rintro ⟨part, hpart, hin⟩
      obtain ⟨frag, hfrag, hpart⟩ := mem_flatMap.mp hpart
      obtain ⟨hin, hnot⟩ := (in_leave_iff hrange).mp ⟨part, hpart, hin⟩
      exact ⟨⟨frag, hfrag, hin⟩, hnot⟩
    · rintro ⟨⟨frag, hfrag, hin⟩, hnot⟩
      obtain ⟨part, hpart, hin⟩ := (in_leave_iff hrange).mpr ⟨hin, hnot⟩
      exact ⟨part, mem_flatMap.mpr ⟨frag, hfrag, hpart⟩, hin⟩
  case ends =>
    refine forall_mem_append.mpr ⟨h.ends, forall_mem_singleton.mpr ?_⟩
    rwa [← hskip]
  case requested =>
    refine forall_mem_append.mpr ⟨?_, forall_mem_singleton.mpr ?_⟩
    · intro call hcall
      obtain ⟨before, hbefore, hinside⟩ := h.requested call hcall
      exact ⟨before, mem_append_left _ hbefore, hinside⟩
    · refine ⟨request, mem_append_right _ mem_cons_self, hrequest.1, ?_⟩
      rw [← hskip]
      exact hrequest.2
  case pages =>
    refine forall_mem_append.mpr ⟨?_, forall_mem_singleton.mpr ?_⟩
    · intro call hcall o hlo hhi
      obtain ⟨before, hbefore, hpages⟩ := h.pages call hcall o hlo hhi
      exact ⟨before, mem_append_left _ hbefore, hpages⟩
    · intro o hlo hhi
      rw [← hskip] at hhi
      exact ⟨request, mem_append_right _ mem_cons_self, (hpages o).mp ⟨hlo, hhi⟩⟩

/-- A request is served, and no assertion fails. -/
theorem Keeps.step (h : Keeps m requests s) (hle : request.1 ≤ request.2)
    (hsize : request.2 ≤ m.size) :
    ∃ s', m.unmapFragment s request.1 request.2 = some s' ∧ Keeps m (requests ++ [request]) s' := by
  have hpage := m.pageSize_pos
  have hpages : ∀ o, In o (alignRange request.1 request.2 m.pageSize) ↔
      InPages m.pageSize o request := fun o => in_alignRange_iff hle hsize
  have hrange := alignRange_eq hle hsize
  unfold Mapping.unmapFragment
  generalize alignRange request.1 request.2 m.pageSize = range at hpages hrange ⊢
  dsimp only
  by_cases hnone : range.2 - range.1 = 0
  · refine ⟨s, if_pos hnone, h.skip fun o ho => ?_⟩
    have hin := (hpages o).mpr ho
    exact absurd (Nat.lt_of_le_of_lt hin.1 hin.2) (Nat.not_lt.mpr (Nat.le_of_sub_eq_zero hnone))
  · have hlt : range.1 < range.2 := Nat.lt_of_sub_ne_zero hnone
    have hfirst : range.1 = roundUp request.1 m.pageSize := congrArg Prod.fst hrange
    have hlast : range.2 = request.2 / m.pageSize * m.pageSize := by
      have hmax : range.2 = max range.1 (request.2 / m.pageSize * m.pageSize) := by rw [hrange]
      rcases Nat.le_total range.1 (request.2 / m.pageSize * m.pageSize) with hle | hle
      · rwa [Nat.max_eq_right hle] at hmax
      · rw [Nat.max_eq_left hle] at hmax
        exact absurd hmax (Nat.ne_of_gt hlt)
    have hdvd₁ : m.pageSize ∣ range.1 := hfirst ▸ dvd_roundUp
    have hdvd₂ : m.pageSize ∣ range.2 := hlast ▸ Nat.dvd_mul_left _ _
    refine ⟨_, (if_neg hnone).trans (if_pos ⟨Nat.mod_eq_zero_of_dvd hdvd₁,
      Nat.mod_eq_zero_of_dvd hdvd₂, hlt⟩), h.cut hlt hdvd₁ hdvd₂ ⟨?_, ?_⟩ hpages⟩
    · rw [hfirst]
      exact le_roundUp hpage
    · rw [hlast]
      exact Nat.div_mul_le_self _ _

theorem keeps_run (h : ∀ request ∈ requests, request.1 ≤ request.2 ∧ request.2 ≤ m.size) :
    ∃ s, m.run requests = some s ∧ Keeps m requests s := by
  induction requests using reverseRecOn with
  | nil => exact ⟨m.initial, rfl, keeps_initial m⟩
  | append_singleton requests request ih =>
    obtain ⟨hbefore, hlast⟩ := forall_mem_append.mp h
    obtain ⟨hle, hsize⟩ := forall_mem_singleton.mp hlast
    obtain ⟨s, hrun, hkeeps⟩ := ih hbefore
    obtain ⟨s', hstep, hkeeps'⟩ := hkeeps.step hle hsize
    refine ⟨s', ?_, hkeeps'⟩
    unfold Mapping.run at hrun ⊢
    rw [foldlM_append, hrun]
    show (m.unmapFragment s request.1 request.2 >>= pure) = some s'
    rw [hstep]
    rfl

/-! ## The destructor -/

/-- The rounding of the system goes no further than to the end of the last page. -/
theorem Keeps.unmaps_iff (h : Keeps m requests s) {call : Call} (hcall : call ∈ s.munmaps) :
    call.Unmaps m.pageSize o ↔ call.offset ≤ o ∧ o < call.offset + call.len := by
  rw [Call.Unmaps, roundUp_eq m.pageSize_pos (h.ends call hcall) (Nat.le_refl _)
    (Nat.lt_add_of_pos_right m.pageSize_pos)]

/-- What the destructor unmaps is not unmapped before. -/
theorem Keeps.unmapped_once (h : Keeps m requests s)
    (hsize : ∀ request ∈ requests, request.2 ≤ m.size) {call before : Call}
    (hcall : call ∈ s.destroy) (hbefore : before ∈ s.munmaps)
    (ho : call.Unmaps m.pageSize o) : ¬before.Unmaps m.pageSize o := by
  obtain ⟨frag, hfrag, rfl⟩ := mem_map.mp hcall
  rw [h.unmaps_iff hbefore]
  rintro ⟨hlo, hhi⟩
  obtain ⟨hbegin, hend⟩ := ho
  dsimp only at hbegin hend
  rw [Nat.add_sub_cancel' (Nat.le_of_lt (h.nonempty frag hfrag))] at hend
  rcases Nat.lt_or_ge o frag.2 with hin | hout
  · obtain ⟨request, hrequest, hpages⟩ := h.pages before hbefore o hlo hhi
    exact ((h.covers o).mp ⟨frag, hfrag, hbegin, hin⟩).2 request hrequest hpages
  · -- only the end of the file is not the end of a page
    have hlast : frag.2 = m.size := by
      rcases (h.aligned frag hfrag).2 with hdvd | hlast
      · have hle := roundUp_le m.pageSize_pos hdvd (Nat.le_refl _)
        exact absurd (Nat.lt_of_lt_of_le hend hle) (Nat.not_lt.mpr hout)
      · exact hlast
    obtain ⟨request, hrequest, -, hinside⟩ := h.requested before hbefore
    exact absurd (hsize request hrequest) (by omega)

theorem Keeps.unmapped_apart (h : Keeps m requests s) : s.destroy.Pairwise fun call call' =>
    ∀ o, call.Unmaps m.pageSize o → ¬call'.Unmaps m.pageSize o := by
  refine pairwise_map.mpr ((List.Pairwise.and_mem.mp h.sorted).imp fun hab o ho ho' => ?_)
  rename_i a b
  obtain ⟨ha, hb, hab⟩ := hab
  have hend : o < roundUp (a.1 + (a.2 - a.1)) m.pageSize := ho.2
  rw [Nat.add_sub_cancel' (Nat.le_of_lt (h.nonempty a ha))] at hend
  have hle := roundUp_le m.pageSize_pos (h.aligned b hb).1 hab
  exact Nat.not_lt.mpr ho'.1 (Nat.lt_of_lt_of_le hend hle)

/-- The fragments are the ranges of the file that are still mapped, a call of `munmap` stays inside
of the request that it serves, and the destructor unmaps no byte twice. -/
structure Faithful (m : Mapping) (requests : List (ℕ × ℕ)) (s : State) : Prop where
  sorted : s.mappedFragments.Pairwise fun a b => a.2 ≤ b.1
  nonempty : ∀ frag ∈ s.mappedFragments, frag.1 < frag.2
  covers : ∀ o, (∃ frag ∈ s.mappedFragments, In o frag) ↔
    o < m.size ∧ ∀ request ∈ requests, ¬InPages m.pageSize o request
  requested : ∀ call ∈ s.munmaps, ∃ request ∈ requests, ∀ o, call.Unmaps m.pageSize o → In o request
  once : ∀ call ∈ s.destroy, ∀ before ∈ s.munmaps, ∀ o, call.Unmaps m.pageSize o →
    ¬before.Unmaps m.pageSize o
  apart : s.destroy.Pairwise fun call call' => ∀ o, call.Unmaps m.pageSize o →
    ¬call'.Unmaps m.pageSize o

/-- After any requests inside of the file the fragments are right. -/
theorem faithful_run (m : Mapping) (requests : List (ℕ × ℕ))
    (h : ∀ request ∈ requests, request.1 ≤ request.2 ∧ request.2 ≤ m.size) :
    ∃ s, m.run requests = some s ∧ Faithful m requests s := by
  obtain ⟨s, hrun, hkeeps⟩ := keeps_run h
  refine ⟨s, hrun, hkeeps.sorted, hkeeps.nonempty, hkeeps.covers, ?_, ?_, hkeeps.unmapped_apart⟩
  · intro call hcall
    obtain ⟨request, hrequest, hbegin, hend⟩ := hkeeps.requested call hcall
    refine ⟨request, hrequest, fun o ho => ?_⟩
    obtain ⟨hlo, hhi⟩ := (hkeeps.unmaps_iff hcall).mp ho
    exact ⟨Nat.le_trans hbegin hlo, Nat.lt_of_lt_of_le hhi hend⟩
  · intro call hcall before hbefore o ho
    exact hkeeps.unmapped_once (fun request hrequest => (h request hrequest).2) hcall hbefore ho

/-- A file of ten pages and a bit, of which two overlapping parts are unmapped. -/
def tenPages : Mapping := ⟨40970, 12, by decide, by decide⟩

theorem faithful_tenPages : ∃ s, tenPages.run [(5000, 20000), (9000, 30000)] = some s ∧
    Faithful tenPages [(5000, 20000), (9000, 30000)] s :=
  faithful_run tenPages _ (by decide)

end ExpertPin.Mmap
