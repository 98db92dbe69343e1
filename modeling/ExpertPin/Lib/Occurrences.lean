import Mathlib.Data.Finset.Card

/-!
# Occurrences of a string in a text

A string occurs at a position of a text when it is a prefix of what follows.  With a window
at each position (`windowed`) only the strings that fit into it are counted, and when one of
the windows grows, it is the strings that become visible there that count once more.
-/

namespace ExpertPin.Occurrences

open Finset
open Nat

universe u

variable {α : Type u} [DecidableEq α]

/-- The number of positions at which a string starts. -/
def occurrences (s text : List α) : ℕ :=
  ((range text.length).filter fun j => s <+: text.drop j).card

/-- The number of windows that begin with a string. -/
def windowed (lens : ℕ → ℕ) (s text : List α) : ℕ :=
  ((range text.length).filter fun j => s <+: (text.drop j).take (lens j)).card

variable {s text : List α} {lens lens' : ℕ → ℕ}

omit [DecidableEq α] in
theorem infix_iff_exists_isPrefix (hs : s ≠ []) :
    s <:+: text ↔ ∃ j < text.length, s <+: text.drop j := by
  constructor
  · rintro ⟨pre, post, rfl⟩
    refine ⟨pre.length, ?_, ?_⟩
    · rw [List.length_append, List.length_append]
      have hpos := List.length_pos_iff.mpr hs
      exact Nat.lt_add_right _ (Nat.lt_add_of_pos_right hpos)
    · rw [List.append_assoc, List.drop_left]
      exact List.prefix_append s post
  · rintro ⟨j, -, hbegins⟩
    exact hbegins.isInfix.trans (List.drop_suffix j text).isInfix

theorem occurrences_pos_iff (hs : s ≠ []) : 0 < occurrences s text ↔ s <:+: text := by
  rw [infix_iff_exists_isPrefix hs, occurrences, card_pos]
  constructor
  · rintro ⟨j, hj⟩
    obtain ⟨hlt, hbegins⟩ := mem_filter.mp hj
    exact ⟨j, mem_range.mp hlt, hbegins⟩
  · rintro ⟨j, hlt, hbegins⟩
    exact ⟨j, mem_filter.mpr ⟨mem_range.mpr hlt, hbegins⟩⟩

theorem occurrences_le_length (s text : List α) : occurrences s text ≤ text.length := by
  calc occurrences s text
      ≤ (range text.length).card := card_filter_le _ _
    _ = text.length := card_range _

/-! ## A text that is cut in two -/

omit [DecidableEq α] in
theorem append_singleton_prefix_iff {x : α} :
    s ++ [x] <+: text ↔ s <+: text ∧ text[s.length]? = some x := by
  induction s generalizing text with
  | nil =>
    cases text with
    | nil => simp
    | cons y text => simp [eq_comm]
  | cons y s ih =>
    cases text with
    | nil => simp
    | cons z text =>
      rw [List.cons_append, List.cons_prefix_cons, List.cons_prefix_cons, ih, and_assoc,
        List.length_cons, List.getElem?_cons_succ]

/-- The occurrences in two texts stay in the text that they make up, and one that is cut is in
neither of them. -/
theorem occurrences_add_le_append {h new : List α} {j : ℕ} (hj : j < h.length)
    (hcut : s <+: (h ++ new).drop j) (hnot : ¬s <+: h.drop j) :
    occurrences s h + occurrences s new + 1 ≤ occurrences s (h ++ new) := by
  let left := (range h.length).filter fun j => s <+: h.drop j
  let right := ((range new.length).filter fun j => s <+: new.drop j).map
    ⟨fun k => h.length + k, fun _ _ => Nat.add_left_cancel⟩
  have hleft : left ⊆ (range h.length).erase j := by
    intro i hi
    obtain ⟨hlt, hbegins⟩ := mem_filter.mp hi
    refine mem_erase.mpr ⟨?_, hlt⟩
    rintro rfl
    exact hnot hbegins
  have hdisjoint : Disjoint left right := by
    refine disjoint_left.mpr fun i hi hi' => ?_
    obtain ⟨k, -, rfl⟩ := mem_map.mp hi'
    have hlt := mem_range.mp (mem_of_mem_erase (hleft hi))
    exact Nat.not_lt.mpr (Nat.le_add_right h.length k) hlt
  have hnotMem : j ∉ left ∪ right := by
    intro hmem
    rcases mem_union.mp hmem with hmem | hmem
    · exact ne_of_mem_erase (hleft hmem) rfl
    · obtain ⟨k, -, hk⟩ := mem_map.mp hmem
      exact Nat.not_lt.mpr (Nat.le_add_right h.length k) (hk.trans_lt hj)
  have hsubset : insert j (left ∪ right) ⊆
      (range (h ++ new).length).filter fun j => s <+: (h ++ new).drop j := by
    intro i hi
    rw [mem_filter, mem_range, List.length_append]
    rcases mem_insert.mp hi with rfl | hi
    · exact ⟨Nat.lt_add_right _ hj, hcut⟩
    rcases mem_union.mp hi with hi | hi
    · obtain ⟨hlt, hbegins⟩ := mem_filter.mp hi
      have hlt := mem_range.mp hlt
      refine ⟨Nat.lt_add_right _ hlt, ?_⟩
      rw [List.drop_append_of_le_length (Nat.le_of_lt hlt)]
      exact hbegins.trans (List.prefix_append _ _)
    · obtain ⟨k, hk, rfl⟩ := mem_map.mp hi
      obtain ⟨hlt, hbegins⟩ := mem_filter.mp hk
      refine ⟨Nat.add_lt_add_left (mem_range.mp hlt) _, ?_⟩
      show s <+: (h ++ new).drop (h.length + k)
      rwa [List.drop_length_add_append]
  calc occurrences s h + occurrences s new + 1
      = left.card + right.card + 1 := by rw [card_map]; rfl
    _ = (insert j (left ∪ right)).card := by
        rw [card_insert_of_notMem hnotMem, card_union_of_disjoint hdisjoint]
    _ ≤ occurrences s (h ++ new) := card_le_card hsubset

/-! ## The occurrences that end behind a position -/

def endings (lo : ℕ) (s text : List α) : ℕ :=
  ((range text.length).filter fun j => s <+: text.drop j ∧ lo < j + s.length).card

theorem endings_le (lo : ℕ) (s text : List α) : endings lo s text ≤ occurrences s text :=
  card_le_card (monotone_filter_right _ fun _ _ h => h.1)

theorem endings_of_lt {lo : ℕ} (h : lo < s.length) : endings lo s text = occurrences s text := by
  refine congrArg card (filter_congr fun j _ => ?_)
  exact and_iff_left (Nat.lt_add_left j h)

/-- An occurrence that ends before the position is not counted. -/
theorem endings_lt {lo j : ℕ} (hj : j < text.length) (hbegins : s <+: text.drop j)
    (hlo : j + s.length ≤ lo) : endings lo s text < occurrences s text := by
  refine card_lt_card (ssubset_iff_of_subset ?_ |>.mpr ⟨j, ?_, ?_⟩)
  · exact monotone_filter_right _ fun _ _ h => h.1
  · exact mem_filter.mpr ⟨mem_range.mpr hj, hbegins⟩
  · intro hmem
    exact not_lt.mpr hlo (mem_filter.mp hmem).2.2

/-! ## Windows -/

theorem windowed_congr (h : ∀ j < text.length, lens j = lens' j) (s : List α) :
    windowed lens s text = windowed lens' s text := by
  refine congrArg card (filter_congr fun j hj => ?_)
  rw [h j (mem_range.mp hj)]

theorem windowed_pos_iff :
    0 < windowed lens s text ↔ ∃ j < text.length, s <+: (text.drop j).take (lens j) := by
  rw [windowed, card_pos]
  constructor
  · rintro ⟨j, hj⟩
    obtain ⟨hlt, hbegins⟩ := mem_filter.mp hj
    exact ⟨j, mem_range.mp hlt, hbegins⟩
  · rintro ⟨j, hlt, hbegins⟩
    exact ⟨j, mem_filter.mpr ⟨mem_range.mpr hlt, hbegins⟩⟩

/-- The windows of a text stay when it goes on. -/
theorem windowed_append (hs : s ≠ []) (more : List α) (h : ∀ j, lens j ≤ text.length - j) :
    windowed lens s (text ++ more) = windowed lens s text := by
  refine congrArg card (Finset.ext fun j => ?_)
  rw [mem_filter, mem_filter, mem_range, mem_range, List.length_append]
  rcases Nat.lt_or_ge j text.length with hlt | hge
  · have htake : ((text ++ more).drop j).take (lens j) = (text.drop j).take (lens j) := by
      rw [List.drop_append_of_le_length (Nat.le_of_lt hlt),
        List.take_append_of_le_length (by rw [List.length_drop]; exact h j)]
    rw [htake]
    exact and_congr_left fun _ => ⟨fun _ => hlt, fun hlt => Nat.lt_add_right _ hlt⟩
  · have hzero : lens j = 0 := Nat.le_zero.mp (Nat.sub_eq_zero_of_le hge ▸ h j)
    have hnot : ¬s <+: (List.drop j (text ++ more)).take (lens j) := by
      rw [hzero, List.take_zero, List.prefix_nil]
      exact hs
    exact ⟨fun h => absurd h.2 hnot, fun h => absurd h.1 (Nat.not_lt.mpr hge)⟩

/-- A window grows. -/
theorem windowed_update {j len : ℕ} (hj : j < text.length) (hlen : lens j ≤ len) (s : List α) :
    windowed (Function.update lens j len) s text = windowed lens s text +
      if lens j < s.length ∧ s <+: (text.drop j).take len then 1 else 0 := by
  have hother : ∀ i ≠ j, Function.update lens j len i = lens i := fun i hi =>
    Function.update_of_ne hi _ _
  split
  case isTrue h =>
    obtain ⟨hlong, hbegins⟩ := h
    have hnot : j ∉ (range text.length).filter
        fun i => s <+: (text.drop i).take (lens i) := by
      intro hmem
      have hshort := (List.prefix_take_iff.mp (mem_filter.mp hmem).2).2
      exact not_lt.mpr hshort hlong
    rw [windowed, windowed, ← card_insert_of_notMem hnot]
    refine congrArg card (Finset.ext fun i => ?_)
    rw [mem_insert, mem_filter, mem_filter]
    by_cases hij : i = j
    · rw [hij, Function.update_self]
      exact ⟨fun _ => .inl rfl, fun _ => ⟨mem_range.mpr hj, hbegins⟩⟩
    · rw [hother i hij]
      exact ⟨.inr, fun h => h.resolve_left hij⟩
  case isFalse h =>
    refine congrArg card (filter_congr fun i _ => ?_)
    by_cases hij : i = j
    · rw [hij, Function.update_self]
      constructor
      · intro hbegins
        have hshort : s.length ≤ lens j := not_lt.mp fun hlong => h ⟨hlong, hbegins⟩
        exact List.prefix_take_iff.mpr ⟨(List.prefix_take_iff.mp hbegins).1, hshort⟩
      · intro hbegins
        obtain ⟨hdrop, hshort⟩ := List.prefix_take_iff.mp hbegins
        exact List.prefix_take_iff.mpr ⟨hdrop, le_trans hshort hlen⟩
    · rw [hother i hij]

/-- Windows of one size, cut off at the end, show the strings of at most that size. -/
theorem windowed_min {size : ℕ} (h : s.length ≤ size) :
    windowed (fun j => min (text.length - j) size) s text = occurrences s text := by
  refine congrArg card (filter_congr fun j _ => ?_)
  rw [List.prefix_take_iff]
  refine ⟨fun hboth => hboth.1, fun hbegins => ⟨hbegins, le_min ?_ h⟩⟩
  rw [← List.length_drop]
  exact hbegins.length_le

end ExpertPin.Occurrences
