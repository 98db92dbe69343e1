import ExpertPin.Lib.Rounding
import Mathlib.Data.List.Basic

/-!
# GGUF contexts

The key-value pairs and the tensors of a file that is being put together, as the `gguf_*` functions
of `ggml/src/ggml.c` do.  A C string ends at its first zero byte.  An operation that aborts has no
result, and sizes are unbounded here.
-/

namespace ExpertPin.Gguf

abbrev Bytes := List UInt8

/-- The bytes of a C string. -/
def cstr (s : Bytes) : Bytes := s.takeWhile (· ≠ 0)

/-- `GGML_PAD` to a power of two -/
def ggmlPad (x n : ℕ) : ℕ := Rounding.roundUp x n

/-! ## Values -/

/-- The types of `gguf_type` but for strings and arrays. -/
inductive ScalarType
  | uint8 | int8 | uint16 | int16 | uint32 | int32 | float32 | bool | uint64 | int64 | float64
deriving DecidableEq, Repr

/-- `GGUF_TYPE_SIZE` -/
def ScalarType.size : ScalarType → ℕ
  | uint8 | int8 | bool => 1
  | uint16 | int16 => 2
  | uint32 | int32 | float32 => 4
  | uint64 | int64 | float64 => 8

/-- The bits of a number. -/
abbrev ScalarType.Bits (t : ScalarType) := BitVec (8 * t.size)

/-- `gguf_value`.  An array of arrays has no elements, since their size is 0. -/
inductive Value
  | scalar (t : ScalarType) (val : t.Bits)
  | str (s : Bytes)
  | arr (t : ScalarType) (data : List t.Bits)
  | arrStr (data : List Bytes)
  | arrArr (n : ℕ)

structure Kv where
  key : Bytes
  value : Value

/-! ## Contexts -/

/-- `gguf_tensor_info`; `size` is the length of `data`. -/
structure TensorInfo where
  name : Bytes
  nDims : ℕ
  ne : List ℕ
  type : ℕ
  offset : ℕ
  data : Bytes := []
deriving DecidableEq, Repr

def TensorInfo.size (info : TensorInfo) : ℕ := info.data.length

/-- `gguf_context`; the counts of the header are the lengths of the lists. -/
structure Context where
  version : ℕ
  kv : List Kv
  infos : List TensorInfo
  alignment : ℕ
  offset : ℕ
  size : ℕ

/-- `GGUF_DEFAULT_ALIGNMENT` -/
def defaultAlignment : ℕ := 32

/-- `GGUF_VERSION` -/
def ggufVersion : ℕ := 3

/-- `gguf_init_empty` -/
def initEmpty : Context :=
  { version := ggufVersion, kv := [], infos := [], alignment := defaultAlignment, offset := 0
    size := 0 }

/-! ## Key-value pairs -/

/-- `gguf_find_key` -/
def findKey (kv : List Kv) (key : Bytes) : Option ℕ :=
  kv.findIdx? fun p => cstr key = cstr p.key

/-- Set the value of a key, which `gguf_get_or_add_key` finds or adds. -/
def Context.set (ctx : Context) (key : Bytes) (value : Value) : Context :=
  match findKey ctx.kv key with
  | some idx => { ctx with kv := ctx.kv.modify idx fun p => { p with value } }
  | none => { ctx with kv := ctx.kv ++ [{ key := cstr key, value }] }

/-- `gguf_remove_key` -/
def removeKey (ctx : Context) (key : Bytes) : Context :=
  match findKey ctx.kv key with
  | some idx => { ctx with kv := ctx.kv.eraseIdx idx }
  | none => ctx

section Setters

variable (ctx : Context) (key : Bytes)

def setValU8 (val : BitVec 8) : Context := ctx.set key (.scalar .uint8 val)

def setValI8 (val : BitVec 8) : Context := ctx.set key (.scalar .int8 val)

def setValU16 (val : BitVec 16) : Context := ctx.set key (.scalar .uint16 val)

def setValI16 (val : BitVec 16) : Context := ctx.set key (.scalar .int16 val)

def setValU32 (val : BitVec 32) : Context := ctx.set key (.scalar .uint32 val)

def setValI32 (val : BitVec 32) : Context := ctx.set key (.scalar .int32 val)

def setValF32 (val : BitVec 32) : Context := ctx.set key (.scalar .float32 val)

def setValU64 (val : BitVec 64) : Context := ctx.set key (.scalar .uint64 val)

def setValI64 (val : BitVec 64) : Context := ctx.set key (.scalar .int64 val)

def setValF64 (val : BitVec 64) : Context := ctx.set key (.scalar .float64 val)

def setValBool (val : BitVec 8) : Context := ctx.set key (.scalar .bool val)

def setValStr (val : Bytes) : Context := ctx.set key (.str (cstr val))

/-- `gguf_set_arr_data` of a type that has a size -/
def setArrData (t : ScalarType) (data : List t.Bits) : Context := ctx.set key (.arr t data)

/-- `gguf_set_arr_data` of the type of arrays, whose elements have no size -/
def setArrArr (n : ℕ) : Context := ctx.set key (.arrArr n)

def setArrStr (data : List Bytes) : Context := ctx.set key (.arrStr (data.map cstr))

end Setters

/-- A pair of another context. -/
def copyKv (ctx : Context) (p : Kv) : Option Context :=
  match p.value with
  | .scalar .uint8 val => some (setValU8 ctx p.key val)
  | .scalar .int8 val => some (setValI8 ctx p.key val)
  | .scalar .uint16 val => some (setValU16 ctx p.key val)
  | .scalar .int16 val => some (setValI16 ctx p.key val)
  | .scalar .uint32 val => some (setValU32 ctx p.key val)
  | .scalar .int32 val => some (setValI32 ctx p.key val)
  | .scalar .float32 val => some (setValF32 ctx p.key val)
  | .scalar .uint64 val => some (setValU64 ctx p.key val)
  | .scalar .int64 val => some (setValI64 ctx p.key val)
  | .scalar .float64 val => some (setValF64 ctx p.key val)
  | .scalar .bool val => some (setValBool ctx p.key val)
  | .str val => some (setValStr ctx p.key val)
  | .arrStr data => some (setArrStr ctx p.key data)
  | .arrArr _ => none
  | .arr t data => some (setArrData ctx p.key t data)

/-- `gguf_set_kv` -/
def setKv (ctx : Context) (src : List Kv) : Option Context := src.foldlM copyKv ctx

/-! ## Tensors -/

/-- What is taken from a `ggml_tensor`: four dimensions, and the bytes of its data. -/
structure Tensor where
  name : Bytes
  ne : List ℕ
  type : ℕ
  data : Bytes

/-- `ggml_n_dims`: up to the last dimension that is greater than 1, and at least one. -/
def nDims (ne : List ℕ) : ℕ :=
  if 1 < ne.getD 3 1 then 4 else if 1 < ne.getD 2 1 then 3 else if 1 < ne.getD 1 1 then 2 else 1

/-- `gguf_find_tensor` -/
def findTensor (infos : List TensorInfo) (name : Bytes) : Option ℕ :=
  infos.findIdx? fun info => cstr name = cstr info.name

/-- The dimensions of an info: 1 where no dimension is set. -/
def padDims (dims : List ℕ) : List ℕ := dims ++ List.replicate (4 - dims.length) 1

/-- The offset after a tensor. -/
def TensorInfo.next (alignment : ℕ) (info : TensorInfo) : ℕ :=
  info.offset + ggmlPad info.size alignment

/-- `gguf_add_tensor` -/
def addTensor (ctx : Context) (tensor : Tensor) : Option Context :=
  match findTensor ctx.infos tensor.name with
  | some _ => none
  | none =>
    let info : TensorInfo :=
      { name := cstr tensor.name
        nDims := nDims tensor.ne
        ne := padDims (tensor.ne.take (nDims tensor.ne))
        type := tensor.type
        offset := (ctx.infos.getLast?.map (TensorInfo.next ctx.alignment)).getD 0
        data := tensor.data }
    some { ctx with infos := ctx.infos ++ [info] }

/-- `gguf_set_tensor_type` -/
def setTensorType (ctx : Context) (name : Bytes) (type : ℕ) : Option Context :=
  (findTensor ctx.infos name).map fun idx =>
    { ctx with infos := ctx.infos.modify idx fun info => { info with type } }

/-- The loop that updates the offsets, from the offset after the tensor before. -/
def updateOffsets (alignment : ℕ) : ℕ → List TensorInfo → List TensorInfo
  | _, [] => []
  | offset, info :: infos =>
    let info := { info with offset }
    info :: updateOffsets alignment (info.next alignment) infos

/-- `gguf_set_tensor_data` -/
def setTensorData (ctx : Context) (name data : Bytes) : Option Context := do
  let idx ← findTensor ctx.infos name
  let info ← ctx.infos[idx]?
  let info := { info with data }
  some { ctx with infos := ctx.infos.take idx ++
    info :: updateOffsets ctx.alignment (info.next ctx.alignment) (ctx.infos.drop (idx + 1)) }

/-! ## Runs -/

/-- The contexts that sequences of calls make of an empty one. -/
inductive Built : Context → Prop
  | initEmpty : Built initEmpty
  | setVal {ctx : Context} (key : Bytes) (t : ScalarType) (val : t.Bits) :
      Built ctx → Built (ctx.set key (.scalar t val))
  | setValStr {ctx : Context} (key val : Bytes) : Built ctx → Built (setValStr ctx key val)
  | setArrData {ctx : Context} (key : Bytes) (t : ScalarType) (data : List t.Bits) :
      Built ctx → Built (setArrData ctx key t data)
  | setArrArr {ctx : Context} (key : Bytes) (n : ℕ) : Built ctx → Built (setArrArr ctx key n)
  | setArrStr {ctx : Context} (key : Bytes) (data : List Bytes) :
      Built ctx → Built (setArrStr ctx key data)
  | setKv {ctx ctx' : Context} (src : List Kv) :
      Built ctx → setKv ctx src = some ctx' → Built ctx'
  | removeKey {ctx : Context} (key : Bytes) : Built ctx → Built (removeKey ctx key)
  | addTensor {ctx ctx' : Context} (tensor : Tensor) :
      Built ctx → addTensor ctx tensor = some ctx' → Built ctx'
  | setTensorType {ctx ctx' : Context} (name : Bytes) (type : ℕ) :
      Built ctx → setTensorType ctx name type = some ctx' → Built ctx'
  | setTensorData {ctx ctx' : Context} (name data : Bytes) :
      Built ctx → setTensorData ctx name data = some ctx' → Built ctx'

end ExpertPin.Gguf
