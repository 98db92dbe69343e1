import ExpertPin.Kv.SplitData
import Mathlib.Data.List.Forall2

/-!
# Saving and restoring rows of the cache

A state is written into a buffer, into a file, or only counted, and rows of the cache go through
`write_tensor_data` of each of the three writers.  Read again, they are set in a tensor that is
split in the same way.
-/

namespace ExpertPin.Kv.Saving

open Strided
open Nat

/-- What the writers need of `llama_model` and of the parameters of its context. -/
structure Model where
  isMla : Bool
  mlaAttn : ℕ
  layers : List Layer
  recurrentLayerArr : ℕ → Bool

/-- `llama_data_write_dummy` -/
structure DataWriteDummy where
  sizeWritten : ℕ

/-- `llama_data_write_buffer`, where `buf_size` is the length of the memory from `ptr` on. -/
structure DataWriteBuffer where
  written : List UInt8
  ptr : List UInt8
  sizeWritten : ℕ

/-- `llama_data_write_file` -/
structure DataWriteFile where
  file : List UInt8
  tempBuffer : List UInt8
  sizeWritten : ℕ

/-- The first device that has a copy. -/
def firstCopy (extra : List (Option Tensor)) : Option Tensor := extra.findSome? id

/-- The copy of a replicated cache, if there is one. -/
def getCopy (ptr : List UInt8) (tensor : CacheTensor) (offset size : ℕ) : Option (List UInt8) := do
  let extra ← tensor.extra
  match firstCopy extra with
  | some split =>
    let bytes ← split.get? offset size
    return overwrite ptr 0 bytes
  | none => return ptr

/-- `vector::resize` -/
def resize (buffer : List UInt8) (size : ℕ) : List UInt8 :=
  buffer.take size ++ List.replicate (size - buffer.length) 0

/-- Every copy of a replicated cache is set. -/
def setCopies (type : GgmlType) (data : List UInt8) (offset : ℕ) :
    List (Option Tensor) → Option (List (Option Tensor))
  | [] => some []
  | none :: splits => do
    let splits ← setCopies type data offset splits
    return none :: splits
  | some split :: splits =>
    if split.type = type then do
      let split ← split.set? data offset
      let splits ← setCopies type data offset splits
      return some split :: splits
    else none

namespace Model

variable (m : Model)

/-- `llama_data_write_buffer::get_tensor_data_split` -/
def bufferTensorDataSplit (ptr : List UInt8) (tensor : CacheTensor) (offset size il : ℕ) :
    Option (List UInt8) :=
  if 0 < tensor.type.rowMetaSize then none
  else do
    let layer ← m.layers[il]?
    if m.isMla then getCopy ptr tensor offset size
    else if m.recurrentLayerArr il then getStateDataSplit ptr tensor offset size
    else
      let kv ← getKvCacheSplitTensor tensor layer
      getTensorDataSplit ptr tensor kv offset size

/-- `llama_data_write_file::get_tensor_data_split` -/
def fileTensorDataSplit (tempBuffer : List UInt8) (tensor : CacheTensor) (offset size il : ℕ) :
    Option (List UInt8) := do
  let layer ← m.layers[il]?
  if m.isMla then getCopy tempBuffer tensor offset size
  else
    let kv ← getKvCacheSplitTensor tensor layer
    getTensorDataSplit (resize tempBuffer size) tensor kv offset size

/-- The memory from `ptr` on with the data of a tensor. -/
def bufferTensorData (ptr : List UInt8) (tensor : CacheTensor) (offset size il : ℕ) :
    Option (List UInt8) :=
  if tensor.extra.isSome then m.bufferTensorDataSplit ptr tensor offset size il
  else (tensor.get? offset size).map (overwrite ptr 0)

/-- `write_tensor_data` of the buffer. -/
def bufferWriteTensorData (w : DataWriteBuffer) (tensor : CacheTensor) (offset size il : ℕ) :
    Option DataWriteBuffer :=
  if w.ptr.length < size then none
  else (m.bufferTensorData w.ptr tensor offset size il).map fun ptr =>
    ⟨w.written ++ ptr.take size, ptr.drop size, w.sizeWritten + size⟩

/-- `temp_buffer` with the data of a tensor. -/
def fileTensorData (tempBuffer : List UInt8) (tensor : CacheTensor) (offset size il : ℕ) :
    Option (List UInt8) :=
  if tensor.extra.isSome then m.fileTensorDataSplit tempBuffer tensor offset size il
  else (tensor.get? offset size).map (overwrite tempBuffer 0)

/-- `write_tensor_data` of the file. -/
def fileWriteTensorData (w : DataWriteFile) (tensor : CacheTensor) (offset size il : ℕ) :
    Option DataWriteFile :=
  (m.fileTensorData (resize w.tempBuffer size) tensor offset size il).map fun tempBuffer =>
    ⟨w.file ++ tempBuffer, tempBuffer, w.sizeWritten + tempBuffer.length⟩

/-- `read_kv_cache_data_split` -/
def readKvCacheDataSplit (tensor : CacheTensor) (data : List UInt8) (head rowSize nrows il : ℕ) :
    Option CacheTensor :=
  if 0 < tensor.type.rowMetaSize then none
  else do
    let layer ← m.layers[il]?
    let extra ← tensor.extra
    if m.isMla then
      if m.mlaAttn = 3 then
        let splits ← setCopies tensor.type (data.take (nrows * rowSize)) (head * rowSize) extra
        return { tensor with extra := some splits }
      else none
    else if m.recurrentLayerArr il then
      let splits ← scatter tensor.type tensor.ne0
        (pairUp extra (extra.map (Option.map Tensor.ne0))) data head rowSize nrows
      return { tensor with extra := some splits }
    else
      let kv ← getKvCacheSplitTensor tensor layer
      let kvExtra ← kv.extra
      let splits ← scatter tensor.type kv.ne1 (pairUp extra kvExtra) data head rowSize nrows
      return { tensor with extra := some splits }

/-- How `read_kv_cache_data` sets rows that it has read. -/
def setRows (tensor : CacheTensor) (data : List UInt8) (head rowSize nrows il : ℕ) :
    Option CacheTensor :=
  if tensor.extra.isSome then m.readKvCacheDataSplit tensor data head rowSize nrows il
  else (tensor.set? (data.take (nrows * rowSize)) (head * rowSize)).map fun t =>
    { tensor with toTensor := t }

end Model

/-- `write_tensor_data` of the dummy. -/
def DataWriteDummy.writeTensorData (w : DataWriteDummy) (size : ℕ) : DataWriteDummy :=
  ⟨w.sizeWritten + size⟩

end ExpertPin.Kv.Saving

/-!
## What is saved is restored

Rows of a cache tensor are saved alike by all writers, and restored on every device, unless the
cache is split and the state of a recurrent layer, which the file writer takes for keys or values
(`savedAndRestored_iff`).
-/

namespace ExpertPin.Kv.Saving

open Strided
open List
open Option

/-- What is in a tensor of the cache. -/
inductive CacheKind
  | key
  | value
  | state
deriving DecidableEq

/-! ## Caches as they are allocated -/

/-- The weight that `llama_kv_cache_init` splits keys or values like. -/
def splitLike (kind : CacheKind) (l : Layer) : Option Weight := do
  let k ← l.wk
  let v := l.wv.getD k
  match kind with
  | .key => some (if l.attnKNorm = some k.ne1 then v else k)
  | .value => some v
  | .state => none

/-- Keys or values that are split like a weight. -/
structure SplitAttention (kind : CacheKind) (layer : Layer) (rowNe rows : ℕ) (t : CacheTensor)
    (splits : List (Option Tensor)) (kv : Weight) (ws : List (Option ℕ)) : Prop where
  like : splitLike kind layer = some kv
  extra : kv.extra = some ws
  ne1 : kv.ne1 = rowNe
  total : totalNe ws = rowNe
  devices : List.Forall₂ (Device t.type rows) splits ws
  /-- Values are one long row. -/
  shape : kind = .key ↔ 1 < t.ne1

/-- A state that is split. -/
structure SplitState (rowNe rows : ℕ) (t : CacheTensor) (splits : List (Option Tensor)) : Prop where
  ne0 : t.ne0 = rowNe
  total : totalNe (splits.map (Option.map Tensor.ne0)) = rowNe
  devices : List.Forall₂ (Device t.type rows) splits (splits.map (Option.map Tensor.ne0))

/-- A cache that some of the devices have a copy of. -/
structure Replicated (type : GgmlType) (rowNe rows : ℕ) (splits : List (Option Tensor))
    (data : List UInt8) : Prop where
  length : data.length = rows * type.rowSize rowNe
  exists_copy : ∃ split, some split ∈ splits
  copies : ∀ split, some split ∈ splits → split.type = type ∧ split.data = data

/-- A tensor of the cache as it is allocated: with so many rows of so many elements, on one device,
split, or replicated. -/
structure Allocated (m : Model) (kind : CacheKind) (il rowNe rows : ℕ) (t : CacheTensor) :
    Prop where
  rows_pos : 0 < rows
  blckSize_pos : 0 < t.type.blckSize
  typeSize_pos : 0 < t.type.typeSize
  row_pos : 0 < rowNe
  blck_dvd : t.type.blckSize ∣ rowNe
  whole : t.extra = none → t.data.length = rows * t.type.rowSize rowNe
  recurrent : t.extra.isSome → (m.recurrentLayerArr il = true ↔ kind = .state)
  layer : ∃ layer, m.layers[il]? = some layer ∧ ∀ splits, t.extra = some splits →
    if kind = .state then SplitState rowNe rows t splits ∧
      -- outside of MLA a recurrent layer has neither of the weights
      (m.isMla = false → layer.wk = none ∧ layer.wv = none)
    else if m.isMla then ∃ data, Replicated t.type rowNe rows splits data
    else ∃ kv ws, SplitAttention kind layer rowNe rows t splits kv ws

/-! ## What is asked for -/

/-- Two tensors of the cache that differ in nothing but the data. -/
structure CacheTensor.SameShape (a b : CacheTensor) : Prop where
  shape : a.toTensor.SameShape b.toTensor
  extra : Option.Rel (List.Forall₂ (Option.Rel Tensor.SameShape)) a.extra b.extra

/-- The tensor with some of its rows taken from another one, on every device. -/
def CacheTensor.copyRows (rows first head count : ℕ) (src dst : CacheTensor) : CacheTensor :=
  match src.extra, dst.extra with
  | some srcs, some dsts =>
    { dst with extra := some (List.zipWith (copyDevice rows first head count) srcs dsts) }
  | _, _ => { dst with toTensor := src.toTensor.copyRows rows first head count dst.toTensor }

/-- The writers write the same bytes for some rows, and these are restored in any tensor that is
split in the same way. -/
structure RowsSaved (m : Model) (il rowNe rows : ℕ) (t : CacheTensor) (first count : ℕ)
    (bytes : List UInt8) : Prop where
  dummy : ∀ w : DataWriteDummy,
    (w.writeTensorData (count * t.type.rowSize rowNe)).sizeWritten = w.sizeWritten + bytes.length
  buffer : ∀ w : DataWriteBuffer, count * t.type.rowSize rowNe ≤ w.ptr.length →
    m.bufferWriteTensorData w t (first * t.type.rowSize rowNe) (count * t.type.rowSize rowNe) il =
      some ⟨w.written ++ bytes, w.ptr.drop (count * t.type.rowSize rowNe),
        w.sizeWritten + bytes.length⟩
  file : ∀ w : DataWriteFile,
    m.fileWriteTensorData w t (first * t.type.rowSize rowNe) (count * t.type.rowSize rowNe) il =
      some ⟨w.file ++ bytes, bytes, w.sizeWritten + bytes.length⟩
  restored : ∀ (target : CacheTensor) (head : ℕ), t.SameShape target → head + count ≤ rows →
    m.setRows target bytes head (t.type.rowSize rowNe) count il =
      some (t.copyRows rows first head count target)

/-- All rows are saved alike, and restored. -/
def SavedAndRestored (m : Model) (il rowNe rows : ℕ) (t : CacheTensor) : Prop :=
  ∀ first count, first + count ≤ rows → ∃ bytes, RowsSaved m il rowNe rows t first count bytes

/-- Where this is so. -/
def Saveable (m : Model) (kind : CacheKind) (t : CacheTensor) : Prop :=
  ∀ splits, t.extra = some splits → t.type.rowMetaSize = 0 ∧
    if m.isMla then m.mlaAttn = 3 ∧ (kind = .state → ∃ split, splits.filterMap id = [split])
    else kind ≠ .state

/-! ## The cases -/

section Cases

variable {m : Model} {kind : CacheKind} {il rowNe rows first count head : ℕ}
  {t target : CacheTensor}
  {type : GgmlType} {splits srcs dsts : List (Option Tensor)} {ws : List (Option ℕ)} {kv : Weight}
  {layer : Layer} {bytes data ptr : List UInt8}

theorem rowSize_pos (hblck : 0 < type.blckSize) (htype : 0 < type.typeSize) (hrow : 0 < rowNe)
    (hdvd : type.blckSize ∣ rowNe) : 0 < type.rowSize rowNe := by
  obtain ⟨n, rfl⟩ := hdvd
  have hn : 0 < n := Nat.pos_of_mul_pos_left hrow
  rw [GgmlType.rowSize, Nat.mul_left_comm, Nat.mul_div_cancel_left _ hblck]
  exact Nat.add_pos_right _ (Nat.mul_pos htype hn)

/-- The saved tensor is split like the weight that the writers choose. -/
theorem getKvCacheSplitTensor_eq (h : SplitAttention kind layer rowNe rows t splits kv ws) :
    getKvCacheSplitTensor t layer = some kv := by
  obtain ⟨hlike, -, -, -, -, hshape⟩ := h
  rw [splitLike] at hlike
  obtain ⟨k, hk, hlike⟩ := bind_eq_some_iff.mp hlike
  rw [getKvCacheSplitTensor, hk]
  cases hv : layer.wv with
  | none =>
    rw [hv] at hlike
    cases kind with
    | key => simpa using hlike
    | value => exact hlike
    | state => cases hlike
  | some v =>
    rw [hv] at hlike
    cases kind with
    | key =>
      have hne := hshape.mp rfl
      cases hnorm : layer.attnKNorm with
      | none =>
        rw [hnorm] at hlike
        simpa [hne] using hlike
      | some ne =>
        rw [hnorm] at hlike
        by_cases hwhole : ne = k.ne1
        · simpa [hne, hwhole] using hlike
        · simpa [hne, hwhole] using hlike
    | value =>
      have hne : ¬1 < t.ne1 := fun h => CacheKind.noConfusion (hshape.mpr h)
      cases layer.attnKNorm with
      | none => simpa [hne] using hlike
      | some ne => simpa [hne] using hlike
    | state => cases hlike

/-- It is enough to know what the writers put in memory. -/
theorem rowsSaved (hlength : bytes.length = count * t.type.rowSize rowNe)
    (hbuffer : ∀ ptr : List UInt8, bytes.length ≤ ptr.length →
      m.bufferTensorData ptr t (first * t.type.rowSize rowNe) bytes.length il =
        some (bytes ++ ptr.drop bytes.length))
    (hfile : ∀ ptr : List UInt8, ptr.length = bytes.length →
      m.fileTensorData ptr t (first * t.type.rowSize rowNe) bytes.length il = some bytes)
    (hrestored : ∀ (target : CacheTensor) (head : ℕ), t.SameShape target → head + count ≤ rows →
      m.setRows target bytes head (t.type.rowSize rowNe) count il =
        some (t.copyRows rows first head count target)) :
    RowsSaved m il rowNe rows t first count bytes := by
  constructor
  · intro w
    rw [hlength]
    rfl
  · intro w hroom
    rw [← hlength] at hroom ⊢
    rw [Model.bufferWriteTensorData, if_neg (not_lt.mpr hroom), hbuffer w.ptr hroom,
      map_some, take_left, drop_left]
  · intro w
    have hresize : (resize w.tempBuffer bytes.length).length = bytes.length := by
      rw [resize, length_append, length_take, length_replicate]
      omega
    rw [← hlength, Model.fileWriteTensorData, hfile _ hresize]
    rfl
  · exact hrestored

/-- A tensor that is not split. -/
theorem rowsSaved_whole (hrows : 0 < rows) (hwhole : t.extra = none)
    (hlength : t.data.length = rows * t.type.rowSize rowNe) (hrange : first + count ≤ rows) :
    RowsSaved m il rowNe rows t first count (t.slice (t.type.rowSize rowNe) first count) := by
  have hslice := length_slice hlength hrange
  have hget := get?_slice hlength hrange
  rw [mul_comm (t.type.rowSize rowNe), ← hslice] at hget
  refine rowsSaved hslice (fun ptr _ => ?_) (fun ptr hptr => ?_) fun target head hshape hhead => ?_
  · rw [Model.bufferTensorData, hwhole, hget]
    show some (overwrite _ _ _) = _
    rw [overwrite, take_zero, nil_append, zero_add]
  · rw [Model.fileTensorData, hwhole, hget]
    exact congrArg some (overwrite_zero hptr.symm)
  · have hnone : target.extra = none := by
      have h := hshape.extra
      rw [hwhole] at h
      cases hextra : target.extra with
      | none => rfl
      | some dsts =>
        rw [hextra] at h
        cases h
    have hset := set?_slice hrows hlength (hshape.shape.length.symm.trans hlength) hrange hhead
    rw [Model.setRows, hnone, take_of_length_le (le_of_eq hslice)]
    show (target.set? _ _).map _ = _
    rw [hset, CacheTensor.copyRows, hwhole, hnone]
    rfl

theorem SameShape.extra_some (h : t.SameShape target) (hextra : t.extra = some srcs) :
    ∃ dsts, target.extra = some dsts ∧ List.Forall₂ (Option.Rel Tensor.SameShape) srcs dsts := by
  have h := h.extra
  rw [hextra] at h
  cases hdsts : target.extra with
  | none =>
    rw [hdsts] at h
    cases h
  | some dsts =>
    rw [hdsts] at h
    cases h with
    | some h => exact ⟨dsts, rfl, h⟩

/-- The row of a split tensor is its pieces, side by side. -/
theorem rowsSaved_split (hrows : 0 < rows) (hextra : t.extra = some srcs)
    (hpos : t.type.rowSize rowNe ≠ 0) (hmeta : t.type.rowMetaSize = 0)
    (hdevices : List.Forall₂ (Device t.type rows) srcs ws) (htotal : totalNe ws = rowNe)
    (hrange : first + count ≤ rows)
    (hbuffer : ∀ ptr offset size, m.bufferTensorDataSplit ptr t offset size il =
      gather t.type rowNe (pairUp srcs ws) ptr offset size)
    (hfile : ∀ ptr offset size, ptr.length = size → m.fileTensorDataSplit ptr t offset size il =
      gather t.type rowNe (pairUp srcs ws) ptr offset size)
    (hread : ∀ target dsts data head rowSize nrows, t.SameShape target → target.extra = some dsts →
      m.readKvCacheDataSplit target data head rowSize nrows il =
        (scatter t.type rowNe (pairUp dsts ws) data head rowSize nrows).map fun splits =>
          { target with extra := some splits }) :
    RowsSaved m il rowNe rows t first count
      (joinRows count (strips t.type first count srcs ws)).flatten := by
  have hbytes : rowBytes t.type ws = t.type.rowSize rowNe := by
    rw [rowBytes_eq hmeta hdevices, htotal]
  have hlength : (joinRows count (strips t.type first count srcs ws)).flatten.length =
      count * t.type.rowSize rowNe := by
    rw [length_flatten_rows (length_of_mem_joinRows_strips hrange hdevices), hbytes,
      length_joinRows (length_of_mem_strips hdevices)]
  have hsome : t.extra.isSome = true := by rw [hextra]; rfl
  refine rowsSaved hlength (fun ptr hroom => ?_) (fun ptr hptr => ?_)
    fun target head hshape hhead => ?_
  · rw [Model.bufferTensorData, if_pos hsome, hbuffer, hlength]
    exact gather_eq hrange hdevices hbytes hpos (hlength ▸ hroom)
  · rw [Model.fileTensorData, if_pos hsome, hfile _ _ _ hptr, hlength,
      gather_eq hrange hdevices hbytes hpos (le_of_eq (hptr.trans hlength).symm),
      drop_of_length_le (le_of_eq (hptr.trans hlength)), append_nil]
  · obtain ⟨dsts, hdsts, hpieces⟩ := SameShape.extra_some hshape hextra
    rw [Model.setRows, if_pos (by rw [hdsts]; rfl), hread target dsts _ _ _ _ hshape hdsts,
      scatter_eq hrows hrange hhead hdevices hpieces htotal hbytes, CacheTensor.copyRows, hextra,
      hdsts]
    rfl

theorem firstCopy_of_replicated (h : Replicated type rowNe rows srcs data) :
    ∃ split, firstCopy srcs = some split ∧ split.type = type ∧ split.data = data := by
  obtain ⟨split, hsplit⟩ := h.exists_copy
  cases hfirst : firstCopy srcs with
  | none =>
    rw [firstCopy, findSome?_eq_none_iff] at hfirst
    exact absurd (hfirst _ hsplit) (some_ne_none split)
  | some first =>
    obtain ⟨piece, hmem, heq⟩ := exists_of_findSome?_eq_some hfirst
    obtain rfl : piece = some first := heq
    exact ⟨first, rfl, h.copies first hmem⟩

/-- Every copy gets the rows. -/
theorem setCopies_eq {width : ℕ} {src : Tensor} (hrows : 0 < rows)
    (hlength : src.data.length = rows * width) (hrange : first + count ≤ rows)
    (hhead : head + count ≤ rows)
    (hcopies : ∀ split, some split ∈ srcs → split.type = type ∧ split.data = src.data)
    (hshape : List.Forall₂ (Option.Rel Tensor.SameShape) srcs dsts) :
    setCopies type (src.slice width first count) (head * width) dsts =
      some (List.zipWith (copyDevice rows first head count) srcs dsts) := by
  induction hshape with
  | nil => rfl
  | cons hpiece _ ih =>
    have htail := ih fun split hmem => hcopies split (mem_cons_of_mem _ hmem)
    cases hpiece with
    | none =>
      rw [setCopies, htail]
      rfl
    | some hsame =>
      rename_i copy dst
      obtain ⟨htype, hdata⟩ := hcopies copy mem_cons_self
      have hdst : dst.data.length = rows * width := by rw [← hsame.length, hdata, hlength]
      rw [setCopies, if_pos (hsame.type.symm.trans htype),
        set?_slice hrows hlength hdst hrange hhead, htail]
      have hsrc : src.copyRows rows first head count dst =
          copy.copyRows rows first head count dst := by
        rw [Tensor.copyRows, Tensor.copyRows, Tensor.slice, Tensor.slice, hdata]
      rw [hsrc]
      rfl

variable {split : Tensor}

theorem getCopy_eq {splits : List (Option Tensor)}
    (hextra : t.extra = some splits) (hfirst : firstCopy splits = some split) (ptr : List UInt8)
    (offset size : ℕ) :
    getCopy ptr t offset size = (split.get? offset size).map (overwrite ptr 0) := by
  rw [getCopy, hextra]
  simp only [Option.bind_eq_bind, Option.bind_some, hfirst, Option.pure_def, Option.map_eq_bind]
  rfl

/-- The rows of a replicated cache are those of any copy. -/
theorem rowsSaved_replicated (hrows : 0 < rows) (hextra : t.extra = some srcs)
    (hmeta : t.type.rowMetaSize = 0) (hmla : m.isMla = true) (hattn : m.mlaAttn = 3)
    (hlayer : m.layers[il]? = some layer) (hcopies : Replicated t.type rowNe rows srcs data)
    (hrange : first + count ≤ rows) : ∃ bytes, RowsSaved m il rowNe rows t first count bytes := by
  obtain ⟨split, hfirst, -, hdata⟩ := firstCopy_of_replicated hcopies
  have hlength : split.data.length = rows * t.type.rowSize rowNe := by rw [hdata, hcopies.length]
  have hslice := length_slice hlength hrange
  have hget := get?_slice hlength hrange
  rw [mul_comm (t.type.rowSize rowNe), ← hslice] at hget
  have hsome : t.extra.isSome = true := by rw [hextra]; rfl
  have hcopy : ∀ ptr : List UInt8, getCopy ptr t (first * t.type.rowSize rowNe)
      (split.slice (t.type.rowSize rowNe) first count).length =
        some (overwrite ptr 0 (split.slice (t.type.rowSize rowNe) first count)) := by
    intro ptr
    rw [getCopy_eq hextra hfirst, hget]
    rfl
  refine ⟨_, rowsSaved hslice (fun ptr _ => ?_) (fun ptr hptr => ?_) fun target head hshape hhead =>
    ?_⟩
  · rw [Model.bufferTensorData, if_pos hsome, Model.bufferTensorDataSplit,
      if_neg (not_lt.mpr (le_of_eq hmeta)), hlayer, hmla]
    refine (hcopy ptr).trans (congrArg some ?_)
    rw [overwrite, take_zero, nil_append, zero_add]
  · rw [Model.fileTensorData, if_pos hsome, Model.fileTensorDataSplit, hlayer, hmla]
    exact (hcopy ptr).trans (congrArg some (overwrite_zero hptr.symm))
  · obtain ⟨dsts, hdsts, hpieces⟩ := SameShape.extra_some hshape hextra
    rw [Model.setRows, if_pos (by rw [hdsts]; rfl), Model.readKvCacheDataSplit,
      if_neg (by rw [← hshape.shape.type, hmeta]; exact lt_irrefl 0), hlayer, hdsts, hmla,
      take_of_length_le (le_of_eq hslice)]
    show (if m.mlaAttn = 3 then _ else _) = _
    rw [if_pos hattn, ← hshape.shape.type, setCopies_eq hrows hlength hrange hhead
      (fun piece hmem => by rw [hdata]; exact hcopies.copies piece hmem) hpieces,
      CacheTensor.copyRows, hextra, hdsts]
    rfl

/-- The pieces of a state. -/
theorem SplitState.piece (h : SplitState rowNe rows t splits)
    (hmem : some split ∈ splits) : split.type = t.type ∧ 0 < split.ne0 ∧
      t.type.blckSize ∣ split.ne0 ∧ split.data.length = rows * t.type.rowSize split.ne0 := by
  have hdevice := forall₂_same.mp (forall₂_map_right_iff.mp h.devices) _ hmem
  cases hdevice with
  | present _ _ htype hpos hdvd hlength => exact ⟨htype, hpos, hdvd, hlength⟩

theorem totalNe_map : totalNe (splits.map (Option.map Tensor.ne0)) =
    ((splits.filterMap id).map Tensor.ne0).sum := by
  induction splits with
  | nil => rfl
  | cons split splits ih =>
    cases split with
    | none => exact ih
    | some split => exact congrArg (split.ne0 + ·) ih

theorem mem_of_mem_present (h : split ∈ splits.filterMap id) :
    some split ∈ splits := by
  obtain ⟨piece, hmem, heq⟩ := mem_filterMap.mp h
  obtain rfl : piece = some split := heq
  exact hmem

/-- A state on one device is a copy. -/
theorem SplitState.replicated (h : SplitState rowNe rows t splits)
    (hone : splits.filterMap id = [split]) : Replicated t.type rowNe rows splits split.data := by
  have hmem : some split ∈ splits := mem_of_mem_present (hone ▸ mem_singleton_self split)
  have htotal := h.total
  rw [totalNe_map, hone, map_singleton, sum_singleton] at htotal
  refine ⟨htotal ▸ (h.piece hmem).2.2.2, ⟨split, hmem⟩, fun piece hpiece => ?_⟩
  have hpresent : piece ∈ splits.filterMap id := mem_filterMap.mpr ⟨_, hpiece, rfl⟩
  rw [hone, mem_singleton] at hpresent
  subst hpresent
  exact ⟨(h.piece hmem).1, rfl⟩

theorem rowSize_lt {a b : ℕ} (hblck : 0 < type.blckSize) (htype : 0 < type.typeSize)
    (ha : type.blckSize ∣ a) (hb : type.blckSize ∣ b) (hlt : a < b) :
    type.rowSize a < type.rowSize b := by
  obtain ⟨a, rfl⟩ := ha
  obtain ⟨b, rfl⟩ := hb
  have hlt := Nat.lt_of_mul_lt_mul_left hlt
  rw [GgmlType.rowSize, GgmlType.rowSize, Nat.mul_left_comm, Nat.mul_div_cancel_left _ hblck,
    Nat.mul_left_comm, Nat.mul_div_cancel_left _ hblck]
  exact Nat.add_lt_add_left (Nat.mul_lt_mul_of_pos_left hlt htype) _

/-- The first piece of a state on several devices is not as wide as a row. -/
theorem SplitState.first_lt (h : SplitState rowNe rows t splits) (hrow : 0 < rowNe)
    (hone : ¬∃ split, splits.filterMap id = [split]) :
    ∃ split, firstCopy splits = some split ∧ some split ∈ splits ∧ split.ne0 < rowNe := by
  have htotal := h.total
  rw [totalNe_map] at htotal
  have hfirst : (splits.filterMap id).head? = firstCopy splits := head?_filterMap
  cases hpresent : splits.filterMap id with
  | nil =>
    rw [hpresent] at htotal
    exact absurd htotal (ne_of_lt hrow)
  | cons split others =>
    cases others with
    | nil => exact absurd ⟨split, hpresent⟩ hone
    | cons next others =>
      have hnext : some next ∈ splits := mem_of_mem_present (hpresent ▸ by simp)
      have hpos := (h.piece hnext).2.1
      rw [hpresent] at htotal hfirst
      simp only [map_cons, sum_cons] at htotal
      exact ⟨split, hfirst.symm, mem_of_mem_present (hpresent ▸ mem_cons_self), by omega⟩

theorem Tensor.SameShape.refl (a : Tensor) : a.SameShape a := ⟨rfl, rfl, rfl, rfl⟩

theorem CacheTensor.SameShape.refl (a : CacheTensor) : a.SameShape a := by
  refine ⟨.refl _, ?_⟩
  cases a.extra with
  | none => exact .none
  | some splits =>
    refine .some (forall₂_same.mpr fun split _ => ?_)
    cases split with
    | none => exact .none
    | some split => exact .some (.refl split)

theorem resize_self {size : ℕ} (h : ptr.length = size) : resize ptr size = ptr := by
  rw [resize, take_of_length_le (Nat.le_of_eq h), h, Nat.sub_self, replicate_zero,
    append_nil]

/-- What the caches that are split are saved by. -/
theorem saved_of_saveable (h : Allocated m kind il rowNe rows t) (hsave : Saveable m kind t)
    (hrange : first + count ≤ rows) : ∃ bytes, RowsSaved m il rowNe rows t first count bytes := by
  cases hextra : t.extra with
  | none => exact ⟨_, rowsSaved_whole h.rows_pos hextra (h.whole hextra) hrange⟩
  | some srcs =>
    obtain ⟨hmeta, hcases⟩ := hsave srcs hextra
    obtain ⟨layer, hlayer, hlike⟩ := h.layer
    have hlike := hlike srcs hextra
    have hrecurrent := h.recurrent (by rw [hextra]; rfl)
    cases hmla : m.isMla with
    | true =>
      rw [if_pos hmla] at hcases hlike
      obtain ⟨hattn, hone⟩ := hcases
      by_cases hkind : kind = .state
      · rw [if_pos hkind] at hlike
        obtain ⟨split, hsplit⟩ := hone hkind
        exact rowsSaved_replicated h.rows_pos hextra hmeta hmla hattn hlayer
          (hlike.1.replicated hsplit) hrange
      · rw [if_neg hkind] at hlike
        obtain ⟨data, hcopies⟩ := hlike
        exact rowsSaved_replicated h.rows_pos hextra hmeta hmla hattn hlayer hcopies hrange
    | false =>
      have hmla' : ¬m.isMla = true := ne_true_of_eq_false hmla
      rw [if_neg hmla'] at hcases hlike
      rw [if_neg hcases] at hlike
      obtain ⟨kv, ws, hsplit⟩ := hlike
      have hrec : m.recurrentLayerArr il = false :=
        eq_false_of_ne_true fun htrue => hcases (hrecurrent.mp htrue)
      have hkv := getKvCacheSplitTensor_eq hsplit
      have hpos := rowSize_pos h.blckSize_pos h.typeSize_pos h.row_pos h.blck_dvd
      refine ⟨_, rowsSaved_split h.rows_pos hextra (ne_of_gt hpos) hmeta hsplit.devices
        hsplit.total hrange (fun ptr offset size => ?_) (fun ptr offset size hptr => ?_)
        fun target dsts data head rowSize nrows hshape hdsts => ?_⟩
      · rw [Model.bufferTensorDataSplit, if_neg (not_lt.mpr (le_of_eq hmeta)), hlayer,
          hmla, hrec, ← hsplit.ne1]
        show (getKvCacheSplitTensor t layer).bind _ = _
        rw [hkv]
        show getTensorDataSplit ptr t kv offset size = _
        rw [getTensorDataSplit, hextra, hsplit.extra]
        rfl
      · rw [Model.fileTensorDataSplit, hlayer, hmla, ← hsplit.ne1]
        show (getKvCacheSplitTensor t layer).bind _ = _
        rw [hkv]
        show getTensorDataSplit (resize ptr size) t kv offset size = _
        rw [getTensorDataSplit, hextra, hsplit.extra, resize_self hptr]
        rfl
      · have hchoice : getKvCacheSplitTensor target layer = some kv := by
          rw [← hkv, getKvCacheSplitTensor, ← hshape.shape.ne1]
          rfl
        have hmeta' : ¬0 < target.type.rowMetaSize := by
          rw [← hshape.shape.type, hmeta]
          exact lt_irrefl 0
        rw [Model.readKvCacheDataSplit, if_neg hmeta', hlayer, hdsts, hmla, hrec, ← hsplit.ne1,
          ← hshape.shape.type]
        show (getKvCacheSplitTensor target layer).bind _ = _
        rw [hchoice]
        show (kv.extra.bind _ : Option CacheTensor) = _
        rw [hsplit.extra]
        exact map_eq_bind.symm

/-- **Saved rows**: the writers agree on the rows of a cache and these are restored, exactly where
the cache is not split, or is split in a way that all of them know. -/
theorem savedAndRestored_iff (h : Allocated m kind il rowNe rows t) :
    SavedAndRestored m il rowNe rows t ↔ Saveable m kind t := by
  refine ⟨fun hsaved splits hextra => ?_, fun hsave first count => saved_of_saveable h hsave⟩
  obtain ⟨layer, hlayer, hlike⟩ := h.layer
  have hlike := hlike splits hextra
  have hsome : t.extra.isSome = true := by rw [hextra]; rfl
  obtain ⟨none_, hnone⟩ := hsaved 0 0 (Nat.zero_le rows)
  have hmeta : t.type.rowMetaSize = 0 := by
    by_contra hpos
    have hroom : 0 * t.type.rowSize rowNe ≤ (DataWriteBuffer.mk [] [] 0).ptr.length :=
      Nat.le_of_eq (Nat.zero_mul _)
    have hbuffer := hnone.buffer _ hroom
    rw [Model.bufferWriteTensorData, if_neg (Nat.not_lt.mpr hroom), Model.bufferTensorData,
      if_pos hsome, Model.bufferTensorDataSplit, if_pos (Nat.pos_of_ne_zero hpos)] at hbuffer
    cases hbuffer
  refine ⟨hmeta, ?_⟩
  cases hmla : m.isMla with
  | true =>
    rw [if_pos rfl]
    constructor
    · by_contra hattn
      have hrestored := hnone.restored t 0 (.refl t) (Nat.zero_le rows)
      rw [Model.setRows, if_pos hsome, Model.readKvCacheDataSplit,
        if_neg (Nat.not_lt.mpr (Nat.le_of_eq hmeta)), hlayer, hextra, hmla] at hrestored
      change (if m.mlaAttn = 3 then _ else none) = _ at hrestored
      rw [if_neg hattn] at hrestored
      cases hrestored
    · intro hkind
      by_contra hone
      rw [if_pos hkind] at hlike
      obtain ⟨split, hfirst, hmem, hlt⟩ := hlike.1.first_lt h.row_pos hone
      obtain ⟨-, -, hdvd, hlength⟩ := hlike.1.piece hmem
      have hshort := Nat.mul_lt_mul_of_pos_left
        (rowSize_lt h.blckSize_pos h.typeSize_pos hdvd h.blck_dvd hlt) h.rows_pos
      -- all rows at once are more than the first device has
      obtain ⟨all, hall⟩ := hsaved 0 rows (Nat.le_of_eq (Nat.zero_add rows))
      have hfile := hall.file ⟨[], [], 0⟩
      rw [Model.fileWriteTensorData, Model.fileTensorData, if_pos hsome, Model.fileTensorDataSplit,
        hlayer, hmla] at hfile
      change (getCopy _ t _ _).map _ = _ at hfile
      have hcopy : ∀ ptr : List UInt8,
          getCopy ptr t (0 * t.type.rowSize rowNe) (rows * t.type.rowSize rowNe) = none := by
        intro ptr
        rw [getCopy_eq hextra hfirst, Tensor.get?, if_neg (by omega)]
        rfl
      rw [hcopy] at hfile
      cases hfile
  | false =>
    rw [if_neg Bool.false_ne_true]
    intro hkind
    rw [if_pos hkind] at hlike
    obtain ⟨hwk, hwv⟩ := hlike.2 hmla
    have hnull : getKvCacheSplitTensor t layer = none := by
      rw [getKvCacheSplitTensor, hwv]
      exact hwk
    have hfile := hnone.file ⟨[], [], 0⟩
    rw [Model.fileWriteTensorData, Model.fileTensorData, if_pos hsome, Model.fileTensorDataSplit,
      hlayer, hmla] at hfile
    change ((getKvCacheSplitTensor t layer).bind _).map _ = _ at hfile
    rw [hnull] at hfile
    cases hfile

end Cases

/-- Bytes without blocks. -/
def byteType : GgmlType := ⟨1, 1, 0⟩

/-- Keys of three bytes on the first and the last of three devices. -/
def splitKeys : CacheTensor where
  type := byteType
  ne0 := 3
  ne1 := 2
  data := []
  extra := some [some ⟨byteType, 1, 2, [10, 20]⟩, none, some ⟨byteType, 2, 2, [11, 12, 21, 22]⟩]

/-- A layer with weights for them. -/
def splitLayer : Layer :=
  ⟨some ⟨3, some [some 1, none, some 2]⟩, some ⟨3, some [some 1, none, some 2]⟩, none⟩

/-- Their rows are saved and restored. -/
theorem savedAndRestored_splitKeys :
    SavedAndRestored ⟨false, 0, [splitLayer], fun _ => false⟩ 0 3 2 splitKeys := by
  have hdevices : List.Forall₂ (Device byteType 2)
      [some ⟨byteType, 1, 2, [10, 20]⟩, none, some ⟨byteType, 2, 2, [11, 12, 21, 22]⟩]
      [some 1, none, some 2] :=
    .cons (.present _ 1 rfl (by decide) (by decide) rfl)
      (.cons .absent (.cons (.present _ 2 rfl (by decide) (by decide) rfl) .nil))
  refine (@savedAndRestored_iff _ .key 0 3 2 _ ⟨by decide, by decide, by decide, by decide,
    by decide,
    fun h => ?_, fun _ => by decide, splitLayer, rfl, fun splits h => ?_⟩).mpr fun splits _ => ?_
  · cases h
  · obtain rfl := some.inj h
    exact ⟨_, _, rfl, rfl, rfl, rfl, hdevices, by decide⟩
  · exact ⟨rfl, show CacheKind.key ≠ .state by decide⟩

/-- A state of three bytes on two devices. -/
def splitStates : CacheTensor where
  type := byteType
  ne0 := 3
  ne1 := 1
  data := []
  extra := some [some ⟨byteType, 1, 1, [10]⟩, some ⟨byteType, 2, 1, [11, 12]⟩]

theorem allocated_splitStates :
    Allocated ⟨false, 0, [⟨none, none, none⟩], fun _ => true⟩ .state 0 3 1 splitStates := by
  have hdevices : List.Forall₂ (Device byteType 1)
      [some ⟨byteType, 1, 1, [10]⟩, some ⟨byteType, 2, 1, [11, 12]⟩] [some 1, some 2] :=
    .cons (.present _ 1 rfl (by decide) (by decide) rfl)
      (.cons (.present _ 2 rfl (by decide) (by decide) rfl) .nil)
  refine ⟨by decide, by decide, by decide, by decide, by decide, fun h => ?_, fun _ => by decide,
    _, rfl, fun splits h => ?_⟩
  · cases h
  · obtain rfl := some.inj h
    exact ⟨⟨rfl, rfl, hdevices⟩, fun _ => ⟨rfl, rfl⟩⟩

/-- The state of a recurrent layer on two devices is not written into a file. -/
theorem not_savedAndRestored : ¬∀ (m : Model) (kind : CacheKind) (il rowNe rows : ℕ)
    (t : CacheTensor), Allocated m kind il rowNe rows t → SavedAndRestored m il rowNe rows t := by
  intro h
  obtain ⟨bytes, hbytes⟩ := h _ _ _ _ _ _ allocated_splitStates 0 1 (le_refl 1)
  have hfile := hbytes.file ⟨[], [], 0⟩
  cases hfile

end ExpertPin.Kv.Saving
