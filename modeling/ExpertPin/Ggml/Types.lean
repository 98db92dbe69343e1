import Mathlib.Data.Nat.Notation

/-!
# Types and sizes of tensors

A tensor has four dimensions `ne` and as many strides `nb`, which `ggml` derives from the
block size and the type size of its type.
-/

namespace ExpertPin.Ggml

/-- The dimensions of a tensor have literals. -/
instance neZeroDims : @NeZero ℕ Zero.ofOfNat0 4 := ⟨Nat.succ_ne_zero 3⟩

/-- The entry of a type in the table `type_traits`. -/
structure TypeTraits where
  blckSize : Int64
  typeSize : UInt64
  rowMetaSize : UInt64
deriving DecidableEq, Repr

/-- `GGML_TYPE_I32`. -/
def typeI32 : Int32 := 26

/-- `GGML_TYPE_I2_S`. -/
def typeI2S : Int32 := 36

/-- `GGML_TYPE_COUNT`. -/
def typeCount : Int32 := 400

/-- `ggml_row_size`, whose division is one of unsigned numbers. -/
def rowSize (traits : TypeTraits) (ne : Int64) : UInt64 :=
  traits.rowMetaSize + traits.typeSize * ne.toUInt64 / traits.blckSize.toUInt64

/-- `ggml_nbytes` of a tensor of type `type`. -/
def nbytes (traits : Int32 → TypeTraits) (type : Int32) (ne : Fin 4 → Int64) (nb : Fin 4 → UInt64) :
    UInt64 :=
  let rest (i : Fin 4) : UInt64 := (ne i - 1).toUInt64 * nb i
  if ne 0 ≤ 0 ∨ ne 1 ≤ 0 ∨ ne 2 ≤ 0 ∨ ne 3 ≤ 0 then 0
  else if (traits type).blckSize = 1 then
    let nbytes := (traits type).typeSize + rest 0 + rest 1 + rest 2 + rest 3
    if type = typeI2S then nbytes / 4 + 32 else nbytes
  else rowSize (traits type) (ne 0) + rest 1 + rest 2 + rest 3

/-- The number of dimensions up to the last that is not one. -/
def nDims (ne : Fin 4 → Int64) : ℕ :=
  if ne 3 ≠ 1 then 4 else if ne 2 ≠ 1 then 3 else if ne 1 ≠ 1 then 2 else if ne 0 ≠ 1 then 1 else 0

/-- The strides of `ggml_new_tensor`, which takes the first `n` of the dimensions. -/
def strides (traits : TypeTraits) (n : ℕ) (ne : Fin 4 → Int64) : Fin 4 → UInt64 :=
  let dim (i : Fin 4) : UInt64 := if i.val < n then (ne i).toUInt64 else 1
  let nb₁ := rowSize traits (ne 0)
  let nb₂ := nb₁ * dim 1
  let nb₃ := nb₂ * dim 2
  fun i => match i with
    | 0 => traits.typeSize
    | 1 => nb₁
    | 2 => nb₂
    | 3 => nb₃

end ExpertPin.Ggml
