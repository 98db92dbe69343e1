import ExpertPin.Lib.LinearProbing
import Mathlib.Algebra.GroupWithZero.Nat

/-!
# Hash sets of tensors

`ggml` keeps sets of tensors, and arrays beside them, by their addresses in hash tables with
linear probing.  A key is new just if the set does not have it, and then there is room for it.
-/

namespace ExpertPin.Ggml

open Function (update)

/-- `ggml_hash_set`. -/
structure HashSet (n : ℕ) where
  used : Fin n → Bool := fun _ => false
  keys : Fin n → ℕ := fun _ => 0

variable {n : ℕ}

namespace HashSet

variable {s : HashSet n} {key : ℕ} {i : Fin n}

def slots (s : HashSet n) (i : Fin n) : Option ℕ := if s.used i then some (s.keys i) else none

def put (s : HashSet n) (i : Fin n) (key : ℕ) : HashSet n :=
  ⟨update s.used i true, update s.keys i key⟩

theorem slots_put : (s.put i key).slots = update s.slots i (some key) := by
  funext j
  by_cases h : j = i
  · subst h
    simp [slots, put]
  · simp [slots, put, h]

variable [NeZero n]

/-- The last four bits of an address are zero. -/
def hash (key : ℕ) : Fin n := Fin.ofNat n (key / 16)

/-- `ggml_hash_find`, with `none` for a full table. -/
def find (s : HashSet n) (key : ℕ) : Option (Fin n) := LinearProbing.find s.slots hash key

/-- `ggml_hash_insert`: the index of a new key.  In a full table it aborts. -/
def insert (s : HashSet n) (key : ℕ) : Option (Option (Fin n) × HashSet n) :=
  (s.find key).map fun i => if s.used i then (none, s) else (some i, s.put i key)

/-- The set has these keys. -/
def Holds (s : HashSet n) (keys : Finset ℕ) : Prop := LinearProbing.Holds s.slots hash keys

variable {keys : Finset ℕ}

theorem holds_empty : ({} : HashSet n).Holds ∅ := LinearProbing.holds_empty hash

theorem Holds.insert_of_mem (h : s.Holds keys) (hkey : key ∈ keys) :
    s.insert key = some (none, s) := by
  obtain ⟨i, hi⟩ := (h.mem_iff key).mp hkey
  obtain ⟨hused, -⟩ := Option.ite_none_right_eq_some.mp hi
  have hfind : s.find key = some i := h.find_eq i key hi
  rw [HashSet.insert, hfind, Option.map_some, if_pos hused]

theorem Holds.insert_of_notMem (h : s.Holds keys) (hkey : key ∉ keys) (hcard : keys.card < n) :
    ∃ i, s.insert key = some (some i, s.put i key) ∧
      (s.put i key).Holds (Insert.insert key keys) := by
  obtain ⟨i, hfind, hi⟩ := LinearProbing.Holds.find_of_notMem h hkey hcard
  have hfree : ¬s.used i := by simpa [slots] using hi
  refine ⟨i, ?_, ?_⟩
  · rw [HashSet.insert, HashSet.find, hfind, Option.map_some, if_neg hfree]
  · rw [Holds, slots_put]
    exact LinearProbing.Holds.insert h hfind hi

end HashSet

end ExpertPin.Ggml
