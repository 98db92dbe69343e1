import ExpertPin.Lib.Strided
import Mathlib.Data.Nat.ModEq

/-!
# Rows of a cache on several devices

With split mode graph a cache tensor is on several devices, each of which has a piece of every row.
`get_tensor_data_split` gathers rows from the devices into one buffer, and
`read_kv_cache_data_split` scatters them again.  The widths of the pieces are those of the weights
that the cache was split like, or those of the state itself.

`none` is a failed assertion, an exception, or a null pointer that is followed.
-/

namespace ExpertPin.Kv.Saving

open Strided
open List
open Nat

/-- What row sizes need of `ggml_type_traits_t`. -/
structure GgmlType where
  blckSize : ℕ
  typeSize : ℕ
  rowMetaSize : ℕ
deriving DecidableEq

/-- `ggml_row_size` -/
def GgmlType.rowSize (type : GgmlType) (ne : ℕ) : ℕ :=
  type.rowMetaSize + type.typeSize * ne / type.blckSize

/-- A tensor on one device. -/
structure Tensor where
  type : GgmlType
  ne0 : ℕ
  ne1 : ℕ
  data : List UInt8

namespace Tensor

/-- `ggml_backend_tensor_get` -/
def get? (t : Tensor) (offset size : ℕ) : Option (List UInt8) :=
  if offset + size ≤ t.data.length then some ((t.data.drop offset).take size) else none

/-- `ggml_backend_tensor_set` -/
def set? (t : Tensor) (bytes : List UInt8) (offset : ℕ) : Option Tensor :=
  if offset + bytes.length ≤ t.data.length then
    some { t with data := overwrite t.data offset bytes }
  else none

end Tensor

/-- A tensor of the cache, with the pieces on the devices if it is split. -/
structure CacheTensor extends Tensor where
  extra : Option (List (Option Tensor))

/-- A weight, with the numbers of rows on the devices if it is split. -/
structure Weight where
  ne1 : ℕ
  extra : Option (List (Option ℕ))

/-- What the cache needs of `llama_layer`. -/
structure Layer where
  wk : Option Weight
  wv : Option Weight
  /-- `attn_k_norm->ne[0]` -/
  attnKNorm : Option ℕ

/-- `get_kv_cache_split_tensor` -/
def getKvCacheSplitTensor (tensor : CacheTensor) (l : Layer) : Option Weight :=
  match l.wv with
  | none => l.wk
  | some wv => do
    let useVForK ← match l.attnKNorm with
      | none => some false
      | some ne => l.wk.map fun wk => decide (ne = wk.ne1)
    if 1 < tensor.ne1 ∧ ¬useVForK then l.wk else some wv

/-- The pieces with their widths, device by device.  A width past the end counts as none. -/
def pairUp : List (Option Tensor) → List (Option ℕ) → List (Option Tensor × Option ℕ)
  | [], _ => []
  | split :: splits, widths => (split, widths.head?.join) :: pairUp splits widths.tail

/-! ## Gathering -/

/-- The loop of `get_tensor_data_split` over the devices. -/
def gatherLoop (type : GgmlType) (fullRowSize firstRow numRows : ℕ) :
    List (Option Tensor × Option ℕ) → List UInt8 → ℕ → ℕ → Option (List UInt8 × ℕ)
  | [], ptr, _, totalSize => some (ptr, totalSize)
  | (none, none) :: devices, ptr, splitOffset, totalSize =>
    gatherLoop type fullRowSize firstRow numRows devices ptr splitOffset totalSize
  | (some split, some ne) :: devices, ptr, splitOffset, totalSize =>
    let splitRowSize := type.rowSize ne
    if split.type = type then do
      let aux ← split.get? (firstRow * splitRowSize) (splitRowSize * numRows)
      gatherLoop type fullRowSize firstRow numRows devices
        (copyRows splitRowSize numRows ptr splitOffset fullRowSize aux 0 splitRowSize)
        (splitOffset + splitRowSize) (totalSize + splitRowSize * numRows)
    else none
  | _, _, _, _ => none

/-- What the two functions of the name `get_tensor_data_split` have in common. -/
def gather (type : GgmlType) (ne : ℕ) (devices : List (Option Tensor × Option ℕ))
    (ptr : List UInt8) (offset size : ℕ) : Option (List UInt8) :=
  let fullRowSize := type.rowSize ne
  if fullRowSize ≠ 0 ∧ offset % fullRowSize = 0 ∧ size % fullRowSize = 0 then do
    let (ptr, totalSize) ← gatherLoop type fullRowSize (offset / fullRowSize) (size / fullRowSize)
      devices ptr 0 0
    if totalSize = size then some ptr else none
  else none

/-- `get_tensor_data_split` for keys and values. -/
def getTensorDataSplit (ptr : List UInt8) (tensor : CacheTensor) (kv : Weight)
    (offset size : ℕ) : Option (List UInt8) := do
  let extra ← tensor.extra
  let kvExtra ← kv.extra
  gather tensor.type kv.ne1 (pairUp extra kvExtra) ptr offset size

/-- `get_tensor_data_split` for recurrent states. -/
def getStateDataSplit (ptr : List UInt8) (tensor : CacheTensor) (offset size : ℕ) :
    Option (List UInt8) := do
  let extra ← tensor.extra
  gather tensor.type tensor.ne0 (pairUp extra (extra.map (Option.map Tensor.ne0))) ptr offset size

/-! ## Scattering -/

/-- The loop of `read_kv_cache_data_split` over the devices, with the sums that it makes. -/
def scatterLoop (type : GgmlType) (data : List UInt8) (head rowSize nrows : ℕ) :
    List (Option Tensor × Option ℕ) → ℕ → ℕ → Option (List (Option Tensor) × ℕ × ℕ)
  | [], sumNe, sumSplitRowSize => some ([], sumNe, sumSplitRowSize)
  | (none, none) :: devices, sumNe, sumSplitRowSize => do
    let (splits, sums) ← scatterLoop type data head rowSize nrows devices sumNe sumSplitRowSize
    return (none :: splits, sums)
  | (some split, some ne) :: devices, sumNe, sumSplitRowSize =>
    let splitRowSize := type.rowSize ne
    if split.type = type then do
      let aux := copyRows splitRowSize nrows (List.replicate (splitRowSize * nrows) 0) 0
        splitRowSize
        data sumSplitRowSize rowSize
      let split ← split.set? aux (head * splitRowSize)
      let (splits, sums) ← scatterLoop type data head rowSize nrows devices (sumNe + ne)
        (sumSplitRowSize + splitRowSize)
      return (some split :: splits, sums)
    else none
  | _, _, _ => none

/-- The end of `read_kv_cache_data_split`. -/
def scatter (type : GgmlType) (ne : ℕ) (devices : List (Option Tensor × Option ℕ))
    (data : List UInt8) (head rowSize nrows : ℕ) : Option (List (Option Tensor)) :=
  if rowSize = type.rowSize ne then do
    let (splits, sumNe, sumSplitRowSize) ← scatterLoop type data head rowSize nrows devices 0 0
    if sumNe = ne ∧ sumSplitRowSize = rowSize then some splits else none
  else none

/-! ## Pieces that fit -/

section Pieces

variable {type : GgmlType} {rows first head count off total sum : ℕ}
  {srcs dsts : List (Option Tensor)} {ws : List (Option ℕ)} {src dst : Tensor}
  {done rest : List (List UInt8)} {post : List UInt8}

/-- A piece of a split tensor with so many rows, and its width; or neither. -/
inductive Device (type : GgmlType) (rows : ℕ) : Option Tensor → Option ℕ → Prop
  | absent : Device type rows none none
  | present (split : Tensor) (ne : ℕ) : split.type = type → 0 < ne → type.blckSize ∣ ne →
      split.data.length = rows * type.rowSize ne → Device type rows (some split) (some ne)

/-- Two tensors that differ in nothing but the data. -/
structure Tensor.SameShape (a b : Tensor) : Prop where
  type : a.type = b.type
  ne0 : a.ne0 = b.ne0
  ne1 : a.ne1 = b.ne1
  length : a.data.length = b.data.length

/-- The bytes of the pieces of one row. -/
def rowBytes (type : GgmlType) (ws : List (Option ℕ)) : ℕ :=
  ((ws.filterMap id).map type.rowSize).sum

/-- The elements of the pieces of one row. -/
def totalNe (ws : List (Option ℕ)) : ℕ := (ws.filterMap id).sum

/-- Rows of a tensor. -/
def Tensor.slice (t : Tensor) (width first count : ℕ) : List UInt8 :=
  (t.data.drop (first * width)).take (count * width)

/-- The rows of the devices that have a piece. -/
def strips (type : GgmlType) (first count : ℕ) :
    List (Option Tensor) → List (Option ℕ) → List (List (List UInt8))
  | some split :: splits, some ne :: ws =>
    chunks (type.rowSize ne) count (split.slice (type.rowSize ne) first count) ::
      strips type first count splits ws
  | _ :: splits, _ :: ws => strips type first count splits ws
  | _, _ => []

theorem length_slice {width : ℕ} (hlength : src.data.length = rows * width)
    (hrange : first + count ≤ rows) : (src.slice width first count).length = count * width := by
  have hle : first * width + count * width ≤ rows * width := by
    rw [← add_mul]
    exact mul_le_mul_right width hrange
  rw [Tensor.slice, length_take, length_drop, hlength]
  omega

theorem get?_slice {width : ℕ} (hlength : src.data.length = rows * width)
    (hrange : first + count ≤ rows) :
    src.get? (first * width) (width * count) = some (src.slice width first count) := by
  have hle : first * width + width * count ≤ rows * width := by
    rw [mul_comm width, ← add_mul]
    exact mul_le_mul_right width hrange
  rw [Tensor.get?, if_pos (hlength ▸ hle), Tensor.slice, mul_comm width]

theorem length_of_mem_strips (hdevices : List.Forall₂ (Device type rows) srcs ws) :
    ∀ strip ∈ strips type first count srcs ws, strip.length = count := by
  induction hdevices with
  | nil => exact forall_mem_nil _
  | cons hdevice _ ih =>
    cases hdevice with
    | absent => exact ih
    | present split ne _ _ _ _ => exact forall_mem_cons.mpr ⟨length_chunks, ih⟩

theorem length_of_mem_joinRows_strips (hrange : first + count ≤ rows)
    (hdevices : List.Forall₂ (Device type rows) srcs ws) :
    ∀ r ∈ joinRows count (strips type first count srcs ws), r.length = rowBytes type ws := by
  induction hdevices with
  | nil => exact fun r hr => by rw [eq_of_mem_replicate hr]; rfl
  | cons hdevice _ ih =>
    cases hdevice with
    | absent => exact ih
    | present split ne _ _ _ hlength =>
      exact length_of_mem_zipWith_append (length_of_mem_chunks (length_slice hlength hrange)) ih

theorem rowBytes_none : rowBytes type (none :: ws) = rowBytes type ws := rfl

theorem rowBytes_some {ne : ℕ} :
    rowBytes type (some ne :: ws) = type.rowSize ne + rowBytes type ws := rfl

/-- One strip is written into rows. -/
theorem copyRows_strip {full width more : ℕ} {strip : List (List UInt8)}
    (hdone : done.length = count)
    (hoff : ∀ d ∈ done, d.length = off) (hrest : rest.length = count)
    (hmore : ∀ r ∈ rest, r.length = more) (hfull : full = off + more) (hwidth : width ≤ more)
    (hcount : strip.length = count) (hstrip : ∀ s ∈ strip, s.length = width) :
    copyRows width count ((List.zipWith (· ++ ·) done rest).flatten ++ post) off full
        strip.flatten 0 width =
      (List.zipWith (· ++ ·) (List.zipWith (· ++ ·) done strip)
        (rest.map (List.drop width))).flatten ++ post := by
  have hlength := length_zipWith_append hdone hrest
  have hrows := length_of_mem_zipWith_append hoff hmore
  rw [← hfull] at hrows
  have hcopy := @copyRows_flatten UInt8 [] post [] [] _ strip width off 0 full width hrows hstrip
    (hlength.trans hcount.symm) (by omega) (le_of_eq (zero_add width))
  rw [hlength, zipWith_overwrite hoff hstrip (hrest.trans hcount.symm)] at hcopy
  simpa using hcopy

/-- **Gathering**: the strips of the devices are put side by side. -/
theorem gatherLoop_eq {full : ℕ} (hrange : first + count ≤ rows)
    (hdevices : List.Forall₂ (Device type rows) srcs ws) (hfull : full = off + rowBytes type ws)
    (hdone : done.length = count) (hoff : ∀ d ∈ done, d.length = off) (hrest : rest.length = count)
    (hmore : ∀ r ∈ rest, r.length = rowBytes type ws) :
    gatherLoop type full first count (pairUp srcs ws)
        ((List.zipWith (· ++ ·) done rest).flatten ++ post) off total =
      some ((List.zipWith (· ++ ·) done (joinRows count (strips type first count srcs ws))).flatten
        ++ post, total + rowBytes type ws * count) := by
  induction hdevices generalizing done rest off total with
  | nil =>
    have hempty : rest = replicate count [] :=
      eq_replicate_iff.mpr ⟨hrest, fun r hr => eq_nil_of_length_eq_zero (hmore r hr)⟩
    rw [hempty]
    exact congrArg (fun n => some (_, total + n)) (Nat.zero_mul count).symm
  | cons hdevice _ ih =>
    cases hdevice with
    | absent => exact ih hfull hdone hoff hrest hmore
    | present split ne htype _ _ hlength =>
      rw [rowBytes_some] at hfull hmore ⊢
      have hslice := length_slice hlength hrange
      have hstrip := length_of_mem_chunks hslice
      have hcopy := @copyRows_strip count off done rest post full _ _ _ hdone hoff hrest hmore
        hfull (Nat.le_add_right _ _) length_chunks hstrip
      rw [flatten_chunks hslice] at hcopy
      rw [pairUp, head?_cons, Option.join_some, tail_cons, gatherLoop, if_pos htype,
        get?_slice hlength hrange]
      show gatherLoop _ _ _ _ _ (copyRows _ _ _ _ _ _ _ _) _ _ = _
      rw [hcopy, ih]
      · rw [strips, joinRows, zipWith_append_assoc, Nat.add_mul, Nat.add_assoc]
      · omega
      · exact length_zipWith_append hdone length_chunks
      · exact length_of_mem_zipWith_append hoff hstrip
      · rw [length_map, hrest]
      · intro r hr
        obtain ⟨t, ht, rfl⟩ := mem_map.mp hr
        rw [length_drop, hmore t ht, Nat.add_sub_cancel_left]

theorem totalNe_some {ne : ℕ} : totalNe (some ne :: ws) = ne + totalNe ws := rfl

/-- Rows without data of their own have a size for each element. -/
theorem rowBytes_eq (hmeta : type.rowMetaSize = 0)
    (hdevices : List.Forall₂ (Device type rows) srcs ws) :
    rowBytes type ws = type.rowSize (totalNe ws) := by
  induction hdevices with
  | nil =>
    rw [GgmlType.rowSize, hmeta]
    exact (Nat.zero_div _).symm.trans (Nat.zero_add _).symm
  | cons hdevice _ ih =>
    cases hdevice with
    | absent => exact ih
    | present split ne _ _ hblck _ =>
      rw [rowBytes_some, totalNe_some, ih, GgmlType.rowSize, GgmlType.rowSize, GgmlType.rowSize,
        hmeta, Nat.mul_add, Nat.add_div_of_dvd_right (Dvd.dvd.mul_left hblck _)]
      omega

/-- What `get_tensor_data_split` writes. -/
theorem gather_eq {ne : ℕ} {ptr : List UInt8} (hrange : first + count ≤ rows)
    (hdevices : List.Forall₂ (Device type rows) srcs ws)
    (hbytes : rowBytes type ws = type.rowSize ne)
    (hpos : type.rowSize ne ≠ 0) (hroom : count * type.rowSize ne ≤ ptr.length) :
    gather type ne (pairUp srcs ws) ptr (first * type.rowSize ne) (count * type.rowSize ne) =
      some ((joinRows count (strips type first count srcs ws)).flatten ++
        ptr.drop (count * type.rowSize ne)) := by
  have hpos' := Nat.pos_of_ne_zero hpos
  have htake : (ptr.take (count * type.rowSize ne)).length = count * type.rowSize ne :=
    length_take_of_le hroom
  have hloop := @gatherLoop_eq type rows first count 0 0 srcs ws (replicate count [])
    (chunks (type.rowSize ne) count (ptr.take (count * type.rowSize ne)))
    (ptr.drop (count * type.rowSize ne)) (type.rowSize ne) hrange hdevices
    (by rw [Nat.zero_add, hbytes]) length_replicate
    (fun d hd => by rw [eq_of_mem_replicate hd]; rfl) length_chunks
    (by rw [hbytes]; exact length_of_mem_chunks htake)
  rw [replicate_nil_zipWith_append length_chunks, flatten_chunks htake, take_append_drop,
    replicate_nil_zipWith_append (length_joinRows (length_of_mem_strips hdevices)), hbytes,
    Nat.zero_add, Nat.mul_comm (type.rowSize ne) count] at hloop
  rw [gather, if_pos ⟨hpos, Nat.mul_mod_left _ _, Nat.mul_mod_left _ _⟩,
    Nat.mul_div_cancel _ hpos', Nat.mul_div_cancel _ hpos', hloop]
  show (if count * type.rowSize ne = count * type.rowSize ne then _ else _) = _
  rw [if_pos rfl]

/-- The tensor with some of its rows taken from another one. -/
def Tensor.copyRows (rows first head count : ℕ) (src dst : Tensor) : Tensor :=
  let width := dst.data.length / rows
  { dst with data := overwrite dst.data (head * width) (src.slice width first count) }

/-- The same on a device. -/
def copyDevice (rows first head count : ℕ) : Option Tensor → Option Tensor → Option Tensor
  | some src, some dst => some (src.copyRows rows first head count dst)
  | _, dst => dst

theorem set?_slice {width : ℕ} (hrows : 0 < rows) (hsrc : src.data.length = rows * width)
    (hdst : dst.data.length = rows * width) (hrange : first + count ≤ rows)
    (hhead : head + count ≤ rows) :
    dst.set? (src.slice width first count) (head * width) =
      some (src.copyRows rows first head count dst) := by
  have hle : head * width + count * width ≤ rows * width := by
    rw [← Nat.add_mul]
    exact Nat.mul_le_mul_right width hhead
  rw [Tensor.set?, if_pos (by rw [length_slice hsrc hrange, hdst]; exact hle), Tensor.copyRows,
    hdst,
    Nat.mul_div_cancel_left width hrows]

/-- One strip is taken out of rows. -/
theorem copyRows_extract {full width more : ℕ} {strip : List (List UInt8)}
    (hdone : done.length = count)
    (hoff : ∀ d ∈ done, d.length = off) (hcount : strip.length = count)
    (hstrip : ∀ s ∈ strip, s.length = width) (hrest : rest.length = count)
    (hmore : ∀ r ∈ rest, r.length = more) (hfull : full = off + (width + more)) :
    copyRows width count (List.replicate (width * count) 0) 0 width
        (List.zipWith (· ++ ·) done (List.zipWith (· ++ ·) strip rest)).flatten off full =
      strip.flatten := by
  have hrows := length_of_mem_zipWith_append hoff (length_of_mem_zipWith_append hstrip hmore)
  rw [← hfull] at hrows
  have hlength := length_zipWith_append hdone (length_zipWith_append hcount hrest)
  have hzeros : ∀ d ∈ replicate count (replicate width (0 : UInt8)), d.length = width :=
    fun d hd => by rw [eq_of_mem_replicate hd, length_replicate]
  have hcopy := @copyRows_flatten UInt8 [] [] [] [] _ _ width 0 off width full hzeros hrows
    (length_replicate.trans hlength.symm) (le_of_eq (zero_add width)) (by omega)
  rw [zipWith_extract hzeros (length_replicate.trans hcount.symm) hoff
    (hdone.trans hcount.symm)
    hstrip (hrest.trans hcount.symm)] at hcopy
  simpa [mul_comm] using hcopy

/-- **Scattering**: every device gets its strip of the rows. -/
theorem scatterLoop_eq {full : ℕ} (hrows : 0 < rows) (hrange : first + count ≤ rows)
    (hhead : head + count ≤ rows) (hdevices : List.Forall₂ (Device type rows) srcs ws)
    (hshape : List.Forall₂ (Option.Rel Tensor.SameShape) srcs dsts)
    (hfull : full = off + rowBytes type ws) (hdone : done.length = count)
    (hoff : ∀ d ∈ done, d.length = off) :
    scatterLoop type
        (List.zipWith (· ++ ·) done (joinRows count (strips type first count srcs ws))).flatten head
        full count (pairUp dsts ws) sum off =
      some (List.zipWith (copyDevice rows first head count) srcs dsts, sum + totalNe ws,
        off + rowBytes type ws) := by
  induction hdevices generalizing done off sum dsts with
  | nil =>
    cases hshape
    rfl
  | cons hdevice hdevices ih =>
    cases hdevice with
    | absent =>
      cases hshape with
      | cons hpiece hshape =>
        cases hpiece
        rw [pairUp, head?_cons, Option.join_some, tail_cons, scatterLoop, strips,
          ih hshape hfull hdone hoff]
        · rfl
        · nofun
    | present split ne htype _ _ hlength =>
      cases hshape with
      | cons hpiece hshape =>
        cases hpiece with
        | some hsame =>
          rename_i dsts dst
          rw [rowBytes_some] at hfull ⊢
          have hslice := length_slice hlength hrange
          have hstrip := length_of_mem_chunks hslice
          have hextract := copyRows_extract hdone hoff length_chunks hstrip
            (length_joinRows (length_of_mem_strips hdevices))
            (length_of_mem_joinRows_strips hrange hdevices) hfull
          have htail := @ih (off + type.rowSize ne) (sum + ne) dsts
            (zipWith (· ++ ·) done (chunks (type.rowSize ne) count _)) hshape (by omega)
            (length_zipWith_append hdone length_chunks)
            (length_of_mem_zipWith_append hoff hstrip)
          rw [zipWith_append_assoc] at htail
          rw [flatten_chunks hslice] at hextract
          rw [pairUp, head?_cons, Option.join_some, tail_cons, scatterLoop,
            if_pos (hsame.type.symm.trans htype), strips, joinRows, hextract]
          dsimp only
          rw [set?_slice hrows hlength (hsame.length.symm.trans hlength) hrange hhead]
          show (do let (splits, sums) ← scatterLoop _ _ _ _ _ _ _ _; pure _) = _
          rw [htail, totalNe_some, add_assoc, add_assoc]
          rfl

/-- What `read_kv_cache_data_split` does with gathered rows. -/
theorem scatter_eq {ne : ℕ} (hrows : 0 < rows) (hrange : first + count ≤ rows)
    (hhead : head + count ≤ rows) (hdevices : List.Forall₂ (Device type rows) srcs ws)
    (hshape : List.Forall₂ (Option.Rel Tensor.SameShape) srcs dsts) (hsum : totalNe ws = ne)
    (hbytes : rowBytes type ws = type.rowSize ne) :
    scatter type ne (pairUp dsts ws) (joinRows count (strips type first count srcs ws)).flatten head
        (type.rowSize ne) count =
      some (List.zipWith (copyDevice rows first head count) srcs dsts) := by
  have hloop := @scatterLoop_eq type rows first head count 0 0 srcs dsts ws
    (replicate count []) (type.rowSize ne) hrows hrange hhead hdevices hshape
    (by rw [zero_add, hbytes]) length_replicate
    (fun d hd => by rw [eq_of_mem_replicate hd]; rfl)
  rw [replicate_nil_zipWith_append (length_joinRows (length_of_mem_strips hdevices)),
    zero_add, zero_add, hbytes, hsum] at hloop
  rw [scatter, if_pos rfl, hloop]
  show (if ne = ne ∧ type.rowSize ne = type.rowSize ne then _ else _) = _
  rw [if_pos ⟨rfl, rfl⟩]

end Pieces

end ExpertPin.Kv.Saving
