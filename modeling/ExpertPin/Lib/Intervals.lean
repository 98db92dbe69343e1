import Mathlib.Algebra.Order.Group.Nat
import Mathlib.Data.List.Basic

/-!
# Lists of half-open intervals

An interval is given by its start and its length.  This file is about the
numbers a list of intervals covers, about the gaps that are left below a bound,
and about pages: blocks of equal size that a range of addresses touches.
-/

namespace ExpertPin.Intervals

open Nat

/-- `x` lies in the interval that starts at `i.1` and is `i.2` long. -/
def Mem (x : ℕ) (i : ℕ × ℕ) : Prop := i.1 ≤ x ∧ x < i.1 + i.2

instance (x : ℕ) (i : ℕ × ℕ) : Decidable (Mem x i) := inferInstanceAs (Decidable (_ ∧ _))

/-- Some interval of the list contains `x`. -/
def Covers (l : List (ℕ × ℕ)) (x : ℕ) : Prop := ∃ i ∈ l, Mem x i

instance (l : List (ℕ × ℕ)) (x : ℕ) : Decidable (Covers l x) :=
  inferInstanceAs (Decidable (∃ i ∈ l, Mem x i))

@[simp] theorem not_covers_nil (x : ℕ) : ¬Covers [] x := by simp [Covers]

@[simp] theorem covers_cons {i : ℕ × ℕ} {l : List (ℕ × ℕ)} {x : ℕ} :
    Covers (i :: l) x ↔ Mem x i ∨ Covers l x := by simp [Covers]

@[simp] theorem covers_append {l m : List (ℕ × ℕ)} {x : ℕ} :
    Covers (l ++ m) x ↔ Covers l x ∨ Covers m x := by
  simp [Covers, or_and_right, exists_or]

theorem covers_congr {l m : List (ℕ × ℕ)} (h : ∀ i, i ∈ l ↔ i ∈ m) (x : ℕ) :
    Covers l x ↔ Covers m x := by
  simp [Covers, h]

/-- Two intervals that overlap or touch, as one. -/
theorem mem_union_iff {a b : ℕ × ℕ} (hle : a.1 ≤ b.1) (htouch : b.1 ≤ a.1 + a.2) (x : ℕ) :
    Mem x (a.1, max (a.1 + a.2) (b.1 + b.2) - a.1) ↔ Mem x a ∨ Mem x b := by
  have hstop : a.1 + (max (a.1 + a.2) (b.1 + b.2) - a.1) = max (a.1 + a.2) (b.1 + b.2) :=
    Nat.add_sub_cancel' (le_max_of_le_left (Nat.le_add_right _ _))
  simp only [Mem, hstop, lt_max_iff]
  constructor
  · rintro ⟨hlo, h | h⟩
    · exact .inl ⟨hlo, h⟩
    · rcases lt_or_ge x (a.1 + a.2) with hx | hx
      · exact .inl ⟨hlo, hx⟩
      · exact .inr ⟨htouch.trans hx, h⟩
  · rintro (⟨hlo, h⟩ | ⟨hlo, h⟩)
    · exact ⟨hlo, .inl h⟩
    · exact ⟨hle.trans hlo, .inr h⟩

/-! ## Intervals in the order of their starts -/

/-- The starts do not decrease. -/
def Ordered (l : List (ℕ × ℕ)) : Prop := l.Pairwise fun a b => a.1 ≤ b.1

/-- Before the first start nothing is covered. -/
theorem Ordered.le_of_covers {i : ℕ × ℕ} {l : List (ℕ × ℕ)} (h : Ordered (i :: l)) {x : ℕ}
    (hx : Covers (i :: l) x) : i.1 ≤ x := by
  obtain ⟨j, hj, hmem⟩ := hx
  rcases List.mem_cons.mp hj with rfl | hj
  · exact hmem.1
  · exact (List.rel_of_pairwise_cons h hj).trans hmem.1

/-! ## Tilings -/

/-- The intervals follow each other without gaps from `start` up to `stop`, and none is empty. -/
def Tiles : ℕ → ℕ → List (ℕ × ℕ) → Prop
  | start, stop, [] => start = stop
  | start, stop, i :: l => i.1 = start ∧ 0 < i.2 ∧ Tiles (start + i.2) stop l

/-! ## Where a property changes -/

/-- Between a number that has a property and a later one that has it not, or the
other way round, there is a place where it changes. -/
theorem exists_change {P : ℕ → Prop} {a b : ℕ} (hab : a < b) (h : ¬(P a ↔ P b)) :
    ∃ c, a ≤ c ∧ c < b ∧ ¬(P c ↔ P (c + 1)) := by
  induction b, hab using le_induction with
  | base => exact ⟨a, le_rfl, lt_succ_self a, h⟩
  | succ b hab ih =>
    by_cases hb : P a ↔ P b
    · exact ⟨b, le_of_succ_le hab, lt_succ_self b, fun hc => h (hb.trans hc)⟩
    · obtain ⟨c, hac, hcb, hc⟩ := ih hb
      exact ⟨c, hac, hcb.trans (lt_succ_self b), hc⟩

/-! ## Pages -/

/-- `addr` rounded down to a page boundary. -/
def alignDown (page addr : ℕ) : ℕ := addr / page * page

/-- `len` rounded up to whole pages. -/
def alignUp (page len : ℕ) : ℕ := (len + page - 1) / page * page

variable {page : ℕ}

/-- Rounding a range outwards ends after the page of its last byte. -/
theorem alignDown_add_alignUp (hpage : 0 < page) {addr len : ℕ} (hlen : 0 < len) :
    alignDown page addr + alignUp page (addr + len - alignDown page addr) =
      ((addr + len - 1) / page + 1) * page := by
  have hdown : addr / page * page ≤ addr := Nat.div_mul_le_self addr page
  have hup : (addr + len - addr / page * page + page - 1) =
      (addr + len - 1 - page * (addr / page)) + page := by
    rw [Nat.mul_comm page]
    omega
  have hq : addr / page ≤ (addr + len - 1) / page := Nat.div_le_div_right (by omega)
  rw [alignDown, alignUp, hup, Nat.add_div_right _ hpage, Nat.sub_mul_div, ← Nat.add_mul]
  congr 1
  omega

/-- The pages from the one of `addr` on, up to a length rounded up to whole pages,
are those that a byte of the range lies in. -/
theorem page_mem_iff (hpage : 0 < page) {addr len k : ℕ} (hlen : 0 < len) :
    (alignDown page addr ≤ k * page ∧
      k * page < alignDown page addr + alignUp page (addr + len - alignDown page addr)) ↔
      ∃ x, Mem x (addr, len) ∧ x / page = k := by
  rw [alignDown_add_alignUp hpage hlen, alignDown, Nat.mul_le_mul_right_iff hpage,
    Nat.mul_lt_mul_right hpage, Nat.lt_succ_iff]
  constructor
  · rintro ⟨hlo, hhi⟩
    rcases le_total addr (k * page) with h | h
    · refine ⟨k * page, ⟨h, ?_⟩, Nat.mul_div_cancel k hpage⟩
      have := (Nat.le_div_iff_mul_le hpage).mp hhi
      change k * page < addr + len
      omega
    · refine ⟨addr, ⟨le_rfl, Nat.lt_add_of_pos_right hlen⟩, le_antisymm hlo ?_⟩
      exact (Nat.le_div_iff_mul_le hpage).mpr h
  · rintro ⟨x, ⟨hlo, hhi⟩, rfl⟩
    change x < addr + len at hhi
    exact ⟨Nat.div_le_div_right hlo, Nat.div_le_div_right (by omega)⟩

/-- A page boundary between two addresses separates their pages. -/
theorem div_lt_div_of_boundary (hpage : 0 < page) {x y c : ℕ} (hx : x < c) (hc : c ≤ y)
    (hdvd : page ∣ c) : x / page < y / page :=
  ((Nat.div_lt_iff_lt_mul hpage).mpr (by rwa [Nat.div_mul_cancel hdvd])).trans_le
    (Nat.div_le_div_right hc)

/-- Neighbouring addresses of one page have no boundary between them. -/
theorem dvd_of_div_ne {x : ℕ} (h : x / page ≠ (x + 1) / page) : page ∣ x + 1 := by
  by_contra hdvd
  exact h (succ_div_of_not_dvd hdvd).symm

end ExpertPin.Intervals
