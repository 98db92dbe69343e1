import Mathlib.Algebra.Group.Fin.Basic
import Mathlib.Data.Fintype.Card

/-!
# Linear probing

A key is looked for from its own slot on, around a table of `n` slots, until it or an empty
slot is found.  As long as slots are only filled where such a search ends, every key is found
where it was put (`Holds.insert`), and there is room for as many keys as there are slots.
-/

namespace ExpertPin.LinearProbing

open Function (update update_self update_of_ne)

variable {α : Type*} [DecidableEq α] {n : ℕ} {slots : Fin n → Option α}
  {hash : α → Fin n} {key other : α} {i j : Fin n} {keys : Finset α}

/-- A slot ends the search for a key. -/
def Stops (slots : Fin n → Option α) (key : α) (i : Fin n) : Prop :=
  slots i = none ∨ slots i = some key

instance : DecidablePred (Stops slots key) := fun _ => instDecidableOr

/-- The first slot, from the key's own on around the table, that ends the search. -/
def find (slots : Fin n → Option α) (hash : α → Fin n) (key : α) : Option (Fin n) :=
  ((List.finRange n).map (hash key + ·)).find? (Stops slots key ·)

theorem not_stops_of_find (h : find slots hash key = none) (i : Fin n) : ¬Stops slots key i := by
  have : NeZero n := ⟨i.pos.ne'⟩
  have hmem : i ∈ (List.finRange n).map (hash key + ·) :=
    List.mem_map.mpr ⟨i - hash key, List.mem_finRange _, add_sub_cancel (hash key) i⟩
  simpa using List.find?_eq_none.mp h i hmem

/-- Where a search does not end at the slot that is filled, it ends as before. -/
theorem find_update (hi : slots i = none) (h : find slots hash other = some j)
    (hj : Stops (update slots i (some key)) other j) :
    find (update slots i (some key)) hash other = some j := by
  obtain ⟨-, front, back, heq, hfront⟩ := List.find?_eq_some_iff_append.mp h
  refine List.find?_eq_some_iff_append.mpr ⟨decide_eq_true hj, front, back, heq, fun x hx => ?_⟩
  have hstops : ¬Stops slots other x := by simpa using hfront x hx
  have hne : x ≠ i := fun heq => hstops (.inl (heq ▸ hi))
  rw [Stops, ← update_of_ne hne (some key) slots] at hstops
  exact congrArg not (decide_eq_false hstops)

/-- The table holds these keys, each where it is found. -/
structure Holds (slots : Fin n → Option α) (hash : α → Fin n) (keys : Finset α) : Prop where
  find_eq : ∀ i key, slots i = some key → find slots hash key = some i
  mem_iff : ∀ key, key ∈ keys ↔ ∃ i, slots i = some key

theorem holds_empty (hash : α → Fin n) : Holds (fun _ => none) hash ∅ :=
  ⟨nofun, fun _ => iff_of_false (Finset.notMem_empty _) nofun⟩

/-- The slot at which the search for a new key ends is one for it. -/
theorem Holds.insert (h : Holds slots hash keys) (hfind : find slots hash key = some i)
    (hi : slots i = none) : Holds (update slots i (some key)) hash (insert key keys) where
  find_eq j other hj := by
    refine find_update hi ?_ (.inr hj)
    by_cases heq : j = i
    · subst heq
      rw [update_self] at hj
      exact Option.some.inj hj ▸ hfind
    · exact h.find_eq j other ((update_of_ne heq _ _).symm.trans hj)
  mem_iff other := by
    rw [Finset.mem_insert, h.mem_iff]
    constructor
    · rintro (rfl | ⟨j, hj⟩)
      · exact ⟨i, update_self i _ _⟩
      · have hne : j ≠ i := by
          rintro rfl
          exact nomatch hi.symm.trans hj
        exact ⟨j, (update_of_ne hne _ _).trans hj⟩
    · rintro ⟨j, hj⟩
      by_cases heq : j = i
      · rw [heq, update_self] at hj
        exact .inl (Option.some.inj hj).symm
      · rw [update_of_ne heq] at hj
        exact .inr ⟨j, hj⟩

/-- With fewer keys than slots, the search for a new key finds a free slot. -/
theorem Holds.find_of_notMem (h : Holds slots hash keys) (hkey : key ∉ keys)
    (hcard : keys.card < n) : ∃ i, find slots hash key = some i ∧ slots i = none := by
  cases hfind : find slots hash key with
  | some i =>
    have hstops : Stops slots key i := by simpa using List.find?_some hfind
    exact ⟨i, rfl, hstops.resolve_right fun hi => hkey ((h.mem_iff key).mpr ⟨i, hi⟩)⟩
  | none =>
    -- in every slot there is a key of its own
    choose other hother using fun i => Option.ne_none_iff_exists'.mp fun hi =>
      not_stops_of_find hfind i (.inl hi)
    refine absurd (Finset.card_le_card_of_injOn other (s := Finset.univ)
      (fun i _ => (h.mem_iff _).mpr ⟨i, hother i⟩) fun i _ j _ hij => ?_) ?_
    · exact Option.some.inj ((h.find_eq i _ (hother i)).symm.trans
        (hij ▸ h.find_eq j _ (hother j)))
    · rwa [Finset.card_fin, Nat.not_le]

end ExpertPin.LinearProbing
