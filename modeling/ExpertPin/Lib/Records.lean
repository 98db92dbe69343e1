import Mathlib.Algebra.GroupWithZero.Nat
import Mathlib.Data.List.Basic

/-!
# Binary records

A reader takes what it needs from the front of some bytes.  It reads a value back from the bytes
that the value was written as if it does so whatever comes after them (`Reads`), and then records
can be put together from their fields.  Numbers are written with the lowest byte first.
-/

namespace ExpertPin.Records

/-- A reader fails where there are not enough bytes. -/
abbrev Reader (α : Type) := StateT (List UInt8) Option α

variable {α β : Type}

/-- Whatever follows the bytes, the reader finds the value and leaves the rest. -/
def Reads (r : Reader α) (bytes : List UInt8) (a : α) : Prop :=
  ∀ rest, r (bytes ++ rest) = some (a, rest)

variable {r : Reader α} {bytes : List UInt8}

theorem Reads.eq {a : α} (h : Reads r bytes a) :
    r bytes = some (a, []) := by
  simpa using h []

theorem reads_pure (a : α) : Reads (pure a) [] a := fun _ => rfl

/-- A record is read field by field. -/
theorem Reads.bind {f : α → Reader β} {bytes bytes' : List UInt8}
    {a : α} {b : β} (h : Reads r bytes a) (h' : Reads (f a) bytes' b) :
    Reads (r >>= f) (bytes ++ bytes') b := by
  intro rest
  show (r (bytes ++ bytes' ++ rest)).bind (fun p => f p.1 p.2) = some (b, rest)
  rw [List.append_assoc, h (bytes' ++ rest)]
  exact h' rest

/-- After the last field nothing is read. -/
theorem Reads.last {f : α → Reader β} {a : α} {b : β}
    (h : Reads r bytes a) (h' : Reads (f a) [] b) : Reads (r >>= f) bytes b := by
  have hbind := h.bind h'
  rwa [List.append_nil] at hbind

/-- Nothing is read before the first field. -/
theorem Reads.first {f : α → Reader β} {a : α} {b : β}
    (h : Reads r [] a) (h' : Reads (f a) bytes b) : Reads (r >>= f) bytes b := h.bind h'

theorem Reads.map {f : α → β} {a : α}
    (h : Reads r bytes a) : Reads (f <$> r) bytes (f a) := by
  intro rest
  show (r (bytes ++ rest)).bind (fun p => some (f p.1, p.2)) = some (f a, rest)
  rw [h rest]
  rfl

/-! ## Fields -/

/-- The next `n` bytes. -/
def take (n : ℕ) : Reader (List UInt8) := fun bytes =>
  if n ≤ bytes.length then some (bytes.take n, bytes.drop n) else none

theorem reads_take (bytes : List UInt8) : Reads (take bytes.length) bytes bytes := by
  intro rest
  simp [take]

/-- A number, in a width. -/
def bytesOf : ℕ → ℕ → List UInt8
  | 0, _ => []
  | width + 1, n => UInt8.ofNat (n % 256) :: bytesOf width (n / 256)

/-- The number that is written in some bytes. -/
def valueOf : List UInt8 → ℕ
  | [] => 0
  | b :: bytes => b.toNat + 256 * valueOf bytes

@[simp] theorem length_bytesOf (width n : ℕ) : (bytesOf width n).length = width := by
  induction width generalizing n with
  | zero => rfl
  | succ width ih => rw [bytesOf, List.length_cons, ih]

theorem valueOf_bytesOf {width n : ℕ} (h : n < 256 ^ width) : valueOf (bytesOf width n) = n := by
  induction width generalizing n with
  | zero => exact (Nat.lt_one_iff.mp h).symm
  | succ width ih =>
    have hdiv : n / 256 < 256 ^ width := by
      rw [Nat.div_lt_iff_lt_mul (by decide)]
      exact h
    have hbyte : (UInt8.ofNat (n % 256)).toNat = n % 256 :=
      UInt8.toNat_ofNat_of_lt' (Nat.mod_lt n (by decide))
    rw [bytesOf, valueOf, ih hdiv, hbyte, Nat.mod_add_div]

/-- A number of a width. -/
def nat (width : ℕ) : Reader ℕ := valueOf <$> take width

theorem reads_nat {width n : ℕ} (h : n < 256 ^ width) : Reads (nat width) (bytesOf width n) n := by
  have hread : Reads (nat width) (bytesOf width n) (valueOf (bytesOf width n)) := by
    have htake := reads_take (bytesOf width n)
    rw [length_bytesOf] at htake
    exact htake.map
  rwa [valueOf_bytesOf h] at hread

/-- A machine word of `8 * width` bits. -/
def word (width : ℕ) : Reader (BitVec (8 * width)) := BitVec.ofNat (8 * width) <$> nat width

theorem reads_word {width : ℕ} (x : BitVec (8 * width)) :
    Reads (word width) (bytesOf width x.toNat) x := by
  have hx : x.toNat < 256 ^ width := by
    have hlt := x.isLt
    rwa [Nat.pow_mul] at hlt
  have hread : Reads (word width) (bytesOf width x.toNat) (BitVec.ofNat (8 * width) x.toNat) :=
    (reads_nat hx).map
  rwa [BitVec.ofNat_toNat, BitVec.setWidth_eq] at hread

/-! ## Lists -/

/-- Some records in a row.  The reader may depend on the place of the record. -/
def list (r : ℕ → Reader α) : ℕ → ℕ → Reader (List α)
  | _, 0 => pure []
  | i, n + 1 => do
      let a ← r i
      let rest ← list r (i + 1) n
      return a :: rest

theorem reads_list_of_mem {r : ℕ → Reader β} {write : α → List UInt8} {f : α → β} {as : List α}
    (h : ∀ a ∈ as, ∀ i, Reads (r i) (write a) (f a)) (i : ℕ) :
    Reads (list r i as.length) (as.flatMap write) (as.map f) := by
  induction as generalizing i with
  | nil => exact reads_pure []
  | cons a as ih =>
    obtain ⟨ha, has⟩ := List.forall_mem_cons.mp h
    rw [List.flatMap_cons, List.map_cons]
    exact (ha i).bind ((ih has (i + 1)).last (reads_pure _))

theorem reads_list {r : ℕ → Reader β} {write : α → List UInt8} {f : α × ℕ → β}
    (h : ∀ a i, Reads (r i) (write a) (f (a, i))) (as : List α) (i : ℕ) :
    Reads (list r i as.length) (as.flatMap write) ((as.zipIdx i).map f) := by
  induction as generalizing i with
  | nil => exact reads_pure []
  | cons a as ih =>
    rw [List.flatMap_cons, List.zipIdx_cons, List.map_cons]
    exact (h a i).bind ((ih (i + 1)).last (reads_pure _))

end ExpertPin.Records
