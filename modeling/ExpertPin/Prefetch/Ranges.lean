import ExpertPin.Ggml.Types
import ExpertPin.Lib.Intervals
import ExpertPin.Prefetch.Pool
import Mathlib.Data.List.Sort

/-!
# Byte ranges of a weight tensor

What the prefetch engine of `ggml/src/ggml-moe-prefetch.cpp` computes about byte
ranges `(offset, length)` of a tensor: the slices of selected experts, the slices
of the experts of a manifest, the registry of resident ranges, and the rest of the
tensor, which a lookahead streams.

Offsets and sizes are natural numbers: a tensor lies within the address space, so
`size_t` does not wrap on them.
-/

namespace ExpertPin.Prefetch

open Intervals

/-- The entry of `type_traits` that the size of a tensor depends on. -/
structure TypeTraits where
  blckSize : ℕ
  typeSize : ℕ
  rowMetaSize : ℕ
  isI2S : Bool
deriving DecidableEq, Repr

/-- The fields of a `ggml_tensor` that the engine reads.  `ptr` is the address of
the tensor object, by which tickets are looked up. -/
structure Tensor where
  ptr : ℕ
  data : ℕ
  type : TypeTraits
  ne : Fin 4 → ℕ
  nb : Fin 4 → ℕ

namespace Tensor

/-- `ggml_row_size`. -/
def rowSize (w : Tensor) : ℕ :=
  w.type.rowMetaSize + w.type.typeSize * w.ne 0 / w.type.blckSize

/-- `ggml_nbytes`. -/
def nbytes (w : Tensor) : ℕ :=
  if ∃ i, w.ne i = 0 then 0
  else if w.type.blckSize = 1 then
    let nbytes := w.type.typeSize + (w.ne 0 - 1) * w.nb 0 + (w.ne 1 - 1) * w.nb 1 +
      (w.ne 2 - 1) * w.nb 2 + (w.ne 3 - 1) * w.nb 3
    if w.type.isI2S then nbytes / 4 + 32 else nbytes
  else
    w.rowSize + (w.ne 1 - 1) * w.nb 1 + (w.ne 2 - 1) * w.nb 2 + (w.ne 3 - 1) * w.nb 3

/-- The number of experts, `ne[2]`. -/
def nAs (w : Tensor) : ℕ := w.ne 2

/-- The distance of two experts, `nb[2]`. -/
def stride (w : Tensor) : ℕ := w.nb 2

end Tensor

/-- A tensor of expert ids: what is read at row `i1` and column `i0`. -/
structure Ids where
  ne0 : ℕ
  ne1 : ℕ
  read : ℕ → ℕ → ℤ

/-- The expert `id` occurs among the ids. -/
def Ids.seen (ids : Ids) (id : ℕ) : Bool :=
  (List.range ids.ne1).any fun i1 => (List.range ids.ne0).any fun i0 => ids.read i1 i0 = id

/-! ## Selected experts -/

/-- The loop that coalesces consecutive experts: `n` experts are left from `id` on,
and a run is open from `first` on. -/
def runsFrom (seen : ℕ → Bool) : ℕ → ℕ → Option ℕ → List (ℕ × ℕ)
  | 0, _, none => []
  | 0, id, some first => [(first, id)]
  | n + 1, id, none => runsFrom seen n (id + 1) (if seen id then some id else none)
  | n + 1, id, some first =>
    if seen id then runsFrom seen n (id + 1) (some first)
    else (first, id) :: runsFrom seen n (id + 1) none

/-- The byte range of the experts from `run.1` up to `run.2`, if it has any bytes. -/
def runRange (w : Tensor) (run : ℕ × ℕ) : Option (ℕ × ℕ) :=
  let off := run.1 * w.stride
  let len := min ((run.2 - run.1) * w.stride) (w.nbytes - off)
  if off < w.nbytes ∧ len > 0 then some (off, len) else none

def collectSelectedRanges (w : Tensor) (ids : Ids) : List (ℕ × ℕ) :=
  if w.nAs ≤ 1 ∨ w.stride = 0 then [(0, w.nbytes)]
  else (runsFrom ids.seen w.nAs 0 none).filterMap (runRange w)

/-! ## Manifest experts -/

def expertRange (w : Tensor) (id : ℕ) : Option (ℕ × ℕ) :=
  if w.nAs ≤ id then none
  else if w.nbytes ≤ id * w.stride then none
  else some (id * w.stride, min w.stride (w.nbytes - id * w.stride))

/-- One range for each id, in the order of the manifest. -/
def collectOrderedExpertRanges (w : Tensor) (expertIds : List ℕ) : Option (List (ℕ × ℕ)) :=
  if w.data = 0 ∨ expertIds = [] ∨ w.nAs ≤ 1 ∨ w.stride = 0 then none
  else expertIds.mapM (expertRange w)

/-! ## Resident ranges -/

/-- One turn of the merging loop; the list is kept with its back first. -/
def mergeStep : List (ℕ × ℕ) → ℕ × ℕ → List (ℕ × ℕ)
  | [], range => [range]
  | back :: merged, range =>
    if back.1 + back.2 < range.1 then range :: back :: merged
    else (back.1, max (back.1 + back.2) (range.1 + range.2) - back.1) :: merged

/-- The lexicographic order of pairs. -/
def pairLe (a b : ℕ × ℕ) : Bool := a.1 < b.1 ∨ a.1 = b.1 ∧ a.2 ≤ b.2

/-- Sorted, with overlapping and touching ranges merged. -/
def mergeRanges (ranges : List (ℕ × ℕ)) : List (ℕ × ℕ) :=
  ((ranges.mergeSort pairLe).foldl mergeStep []).reverse

/-- `resident_ranges`, by the data address of the tensor. -/
abbrev Registry := ℕ → Option (List (ℕ × ℕ))

def registerResidentRanges (registry : Registry) (w : Tensor) (ranges : List (ℕ × ℕ)) :
    Registry :=
  Function.update registry w.data (some (mergeRanges ranges))

/-- What the resident ranges leave of the tensor from `cursor` on. -/
def nonresidentFrom (wbytes : ℕ) : ℕ → List (ℕ × ℕ) → List (ℕ × ℕ)
  | cursor, [] => if cursor < wbytes then [(cursor, wbytes - cursor)] else []
  | cursor, range :: resident =>
    let start := min range.1 wbytes
    let stop := min (range.1 + range.2) wbytes
    (if cursor < start then [(cursor, start - cursor)] else []) ++
      nonresidentFrom wbytes (max cursor stop) resident

def collectNonresidentRanges (registry : Registry) (w : Tensor) : List (ℕ × ℕ) :=
  nonresidentFrom w.nbytes 0 ((registry w.data).getD [])

/-! ## What the callers enqueue -/

/-- The request of `ggml_moe_prefetch_node` for one of its weights. -/
def selective (w : Tensor) (ids : Ids) (curEpoch : UInt64) : Request ℕ where
  w := w.ptr
  base := w.data
  ranges := collectSelectedRanges w ids
  urgent := true
  trackReads := false
  curEpoch

/-- The request of `ggml_moe_prefetch_experts`. -/
def manifest (w : Tensor) (ranges : List (ℕ × ℕ)) (curEpoch : UInt64) : Request ℕ where
  w := w.ptr
  base := w.data
  ranges
  urgent := false
  trackReads := false
  curEpoch

/-- The request of `ggml_moe_prefetch_tensor`. -/
def lookahead (registry : Registry) (w : Tensor) (curEpoch : UInt64) : Request ℕ where
  w := w.ptr
  base := w.data
  ranges := collectNonresidentRanges registry w
  urgent := false
  trackReads := true
  curEpoch

end ExpertPin.Prefetch
