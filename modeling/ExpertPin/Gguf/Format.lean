import ExpertPin.Gguf.Context
import ExpertPin.Lib.Records
import ExpertPin.Lib.Fuel
import Mathlib.Data.List.Nodup
import Mathlib.Data.List.TakeWhile

/-!
# GGUF files

What `gguf_write_to_buf` writes, and how `gguf_init_from_file` reads it when no tensors are created
(`params.ctx` is null).  Numbers are in the order of a little-endian machine.  No file is an
assertion or an abort, and no context a failure to read or an abort.
-/

namespace ExpertPin.Gguf

open Records (Reader bytesOf)
open Records

/-! ## Codes of types -/

/-- The number of a scalar type in `gguf_type` -/
def ScalarType.code : ScalarType → ℕ
  | uint8 => 0
  | int8 => 1
  | uint16 => 2
  | int16 => 3
  | uint32 => 4
  | int32 => 5
  | float32 => 6
  | bool => 7
  | uint64 => 10
  | int64 => 11
  | float64 => 12

/-- `GGUF_TYPE_STRING` -/
def strCode : ℕ := 8

/-- `GGUF_TYPE_ARRAY` -/
def arrCode : ℕ := 9

def ScalarType.ofCode : ℕ → Option ScalarType
  | 0 => some uint8
  | 1 => some int8
  | 2 => some uint16
  | 3 => some int16
  | 4 => some uint32
  | 5 => some int32
  | 6 => some float32
  | 7 => some bool
  | 10 => some uint64
  | 11 => some int64
  | 12 => some float64
  | _ => none

/-! ## Writing -/

/-- `GGUF_MAGIC` -/
def ggufMagic : Bytes := [71, 71, 85, 70]

/-- `gguf_bwrite_str` -/
def bwriteStr (s : Bytes) : Bytes := bytesOf 8 s.length ++ s

/-- The type and the value of a pair. -/
def writeValue : Value → Option Bytes
  | .scalar t val => some (bytesOf 4 t.code ++ bytesOf t.size val.toNat)
  | .str s => some (bytesOf 4 strCode ++ bwriteStr s)
  | .arr t data => some (bytesOf 4 arrCode ++ (bytesOf 4 t.code ++ (bytesOf 8 data.length ++
      data.flatMap fun val => bytesOf t.size val.toNat)))
  | .arrStr data => some (bytesOf 4 arrCode ++ (bytesOf 4 strCode ++ (bytesOf 8 data.length ++
      data.flatMap bwriteStr)))
  | .arrArr _ => none

def writeKv (p : Kv) : Option Bytes :=
  (writeValue p.value).map fun value => bwriteStr p.key ++ value

def writeInfo (info : TensorInfo) : Bytes :=
  bwriteStr info.name ++ (bytesOf 4 info.nDims ++ ((info.ne.take info.nDims).flatMap (bytesOf 8) ++
    (bytesOf 4 info.type ++ bytesOf 8 info.offset)))

/-- Zeros up to the padded size. -/
def padding (size alignment : ℕ) : Bytes := List.replicate (ggmlPad size alignment - size) 0

/-- The header, the pairs and the infos of the tensors. -/
def writeHead (ctx : Context) : Option Bytes :=
  (ctx.kv.mapM writeKv).map fun pairs =>
    ggufMagic ++ (bytesOf 4 ctx.version ++ (bytesOf 8 ctx.infos.length ++
      (bytesOf 8 ctx.kv.length ++ (pairs.flatten ++ ctx.infos.flatMap writeInfo))))

/-- The data of the tensors, each of which must be where its info says. -/
def writeData (alignment : ℕ) : ℕ → List TensorInfo → Option Bytes
  | _, [] => some []
  | offset, info :: infos =>
    if offset = info.offset then
      (writeData alignment (offset + ggmlPad info.size alignment) infos).map fun rest =>
        info.data ++ (padding info.size alignment ++ rest)
    else none

/-- `gguf_write_to_buf` -/
def writeToBuf (ctx : Context) (onlyMeta : Bool) : Option Bytes := do
  let head ← writeHead ctx
  let metaData := head ++ padding head.length ctx.alignment
  if onlyMeta then some metaData
  else (writeData ctx.alignment 0 ctx.infos).map fun data => metaData ++ data

/-- `gguf_write_to_file` -/
def writeToFile (ctx : Context) : Option Bytes := writeToBuf ctx false

/-- `gguf_get_meta_size` -/
def getMetaSize (ctx : Context) : Option ℕ := (writeToBuf ctx true).map List.length

/-! ## Reading -/

/-- `SIZE_MAX` -/
def sizeMax : ℕ := 2 ^ 64 - 1

/-- `INT64_MAX` -/
def int64Max : ℕ := 2 ^ 63 - 1

/-- `sizeof(struct gguf_tensor_info)` -/
def tensorInfoSize : ℕ := 88

/-- `sizeof(struct gguf_kv)` -/
def kvSize : ℕ := 48

/-- `sizeof(struct gguf_str)` -/
def strSize : ℕ := 16

/-- `ggml_tensor_overhead` -/
def tensorOverhead : ℕ := 416

/-- `GGML_TYPE_COUNT` -/
def typeCount : ℕ := 400

def check (p : Prop) [Decidable p] : Reader Unit := if p then pure () else failure

/-- `gguf_fread_str` -/
def freadStr : Reader Bytes := do
  let n ← nat 8
  check (n ≠ sizeMax)
  take n

/-- An array after the code of its type. -/
def readArr : Reader Value := do
  let code ← nat 4
  let n ← nat 8
  match ScalarType.ofCode code with
  | some t => do
      check (n < sizeMax / t.size)
      let data ← list (fun _ => word t.size) 0 n
      return .arr t data
  | none => do
      check (code = strCode ∧ n < sizeMax / strSize)
      let data ← list (fun _ => freadStr) 0 n
      return .arrStr data

/-- A value after the code of its type. -/
def readValue (code : ℕ) : Reader Value :=
  match ScalarType.ofCode code with
  | some t => do
      let val ← word t.size
      return .scalar t val
  | none =>
    if code = strCode then do
      let s ← freadStr
      return .str s
    else if code = arrCode then readArr
    else failure

def readKv : Reader Kv := do
  let key ← freadStr
  let code ← nat 4
  let value ← readValue code
  return { key, value }

/-- `gguf_tensor_info_sanitize` -/
def sanitized (info : TensorInfo) : Prop :=
  let ne (i : ℕ) := info.ne.getD i 1
  info.nDims ≤ 4 ∧ info.type < typeCount ∧ (∀ d ∈ info.ne.take info.nDims, 0 < d) ∧
    ne 0 < int64Max / ne 1 ∧ ne 0 * ne 1 < int64Max / ne 2 ∧
    ne 0 * ne 1 * ne 2 < int64Max / ne 3

instance (info : TensorInfo) : Decidable (sanitized info) := inferInstanceAs (Decidable (_ ∧ _))

def readInfo : Reader TensorInfo := do
  let name ← freadStr
  let nDims ← nat 4
  check (nDims ≤ 4)
  let dims ← list (fun _ => nat 8) 0 nDims
  let type ← nat 4
  let offset ← nat 8
  let info : TensorInfo := { name, nDims, ne := padDims dims, type, offset }
  check (sanitized info)
  return info

/-- The pairs and the infos of the tensors, of which no two have one name. -/
def readHead : Reader (ℕ × List Kv × List TensorInfo) := do
  let magic ← take 4
  check (magic = ggufMagic)
  let version ← nat 4
  let nTensors ← nat 8
  let nKv ← nat 8
  check (version ≠ 1 ∧ nTensors < sizeMax / 2 / tensorInfoSize ∧
    nTensors < sizeMax / 2 / tensorOverhead ∧ nKv < sizeMax / 2 / kvSize)
  let kv ← list (fun _ => readKv) 0 nKv
  let infos ← list (fun _ => readInfo) 0 nTensors
  check (infos.map fun info => cstr info.name).Nodup
  return (version, kv, infos)

/-- "general.alignment" -/
def alignmentKey : Bytes :=
  [103, 101, 110, 101, 114, 97, 108, 46, 97, 108, 105, 103, 110, 109, 101, 110, 116]

/-- `gguf_get_val_u32` -/
def getValU32 (kv : List Kv) (keyId : ℕ) : Option ℕ :=
  match (kv[keyId]?).map Kv.value with
  | some (.scalar .uint32 val) => some val.toNat
  | _ => none

/-- The alignment that the pairs give. -/
def alignmentOf (kv : List Kv) : Option ℕ :=
  match findKey kv alignmentKey with
  | some idx => getValU32 kv idx
  | none => some defaultAlignment

/-- The next offset that is a multiple. -/
def alignOffset (offset alignment : ℕ) : ℕ :=
  if offset % alignment ≠ 0 then offset + (alignment - offset % alignment) else offset

/-- What `ggml` knows about a type: the elements and the bytes of a block, and of a row's head. -/
structure TypeTraits where
  blckSize : ℕ
  typeSize : ℕ
  rowMetaSize : ℕ

/-- `ggml_row_size` -/
def rowSize (traits : TypeTraits) (ne : ℕ) : ℕ :=
  traits.rowMetaSize + traits.typeSize * ne / traits.blckSize

/-- The number of elements. -/
def TensorInfo.elements (info : TensorInfo) : ℕ :=
  info.ne.getD 0 1 * info.ne.getD 1 1 * info.ne.getD 2 1 * info.ne.getD 3 1

/-- The elements are whole blocks. -/
def wholeBlocks (traits : ℕ → TypeTraits) (info : TensorInfo) : Prop :=
  (traits info.type).blckSize ≠ 0 ∧ info.elements % (traits info.type).blckSize = 0

instance (traits : ℕ → TypeTraits) (info : TensorInfo) : Decidable (wholeBlocks traits info) :=
  inferInstanceAs (Decidable (_ ∧ _))

/-- `gguf_init_from_file` -/
def initFromFile (traits : ℕ → TypeTraits) (file : Bytes) : Option Context := do
  let ((version, kv, infos), rest) ← readHead file
  let alignment ← alignmentOf kv
  -- by an alignment of 0 nothing can be divided
  if alignment = 0 then none
  else if ∀ info ∈ infos, wholeBlocks traits info then
    let sizes := infos.map fun info =>
      ggmlPad (rowSize (traits info.type) info.elements) alignment
    some { version, kv, infos, alignment
           offset := alignOffset (file.length - rest.length) alignment
           size := sizes.sum }
  else none

end ExpertPin.Gguf

/-!
## The layout of a context

Whatever is called, the tensors have different names and lie one after another, each padded to the
default alignment (`Built.wellFormed`).
-/

namespace ExpertPin.Gguf

open List

/-! ## Tensors one after another -/

/-- The tensors lie one after another from an offset on. -/
def LaidOut (alignment : ℕ) : ℕ → List TensorInfo → Prop
  | _, [] => True
  | offset, info :: infos =>
    info.offset = offset ∧ LaidOut alignment (offset + ggmlPad info.size alignment) infos

/-- The offset after some tensors. -/
def endOffset (alignment : ℕ) (offset : ℕ) (infos : List TensorInfo) : ℕ :=
  infos.foldl (fun offset info => offset + ggmlPad info.size alignment) offset

variable {alignment offset : ℕ} {infos more : List TensorInfo} {ctx ctx' : Context}

theorem laidOut_append : LaidOut alignment offset (infos ++ more) ↔ LaidOut alignment offset infos ∧
        LaidOut alignment (endOffset alignment offset infos) more := by
  induction infos generalizing offset with
  | nil => exact (and_iff_right trivial).symm
  | cons info infos ih => rw [cons_append, LaidOut, ih, LaidOut, and_assoc]; rfl

theorem laidOut_updateOffsets :
    LaidOut alignment offset (updateOffsets alignment offset infos) := by
  induction infos generalizing offset with
  | nil => trivial
  | cons info infos ih => exact ⟨rfl, ih⟩

/-- A new tensor goes to the end. -/
theorem next_getLast (h : LaidOut alignment 0 infos) :
    (infos.getLast?.map (TensorInfo.next alignment)).getD 0 = endOffset alignment 0 infos := by
  rcases eq_nil_or_concat infos with rfl | ⟨before, info, rfl⟩
  · rfl
  · rw [concat_eq_append] at h ⊢
    obtain ⟨_, hinfo, _⟩ := laidOut_append.mp h
    rw [getLast?_append_cons, endOffset, foldl_append]
    exact congrArg (· + ggmlPad info.size alignment) hinfo

theorem laidOut_modify {f : TensorInfo → TensorInfo}
    (hf : ∀ info, (f info).offset = info.offset ∧ (f info).size = info.size) {idx : ℕ}
    (h : LaidOut alignment offset infos) : LaidOut alignment offset (infos.modify idx f) := by
  induction infos generalizing offset idx with
  | nil => rwa [modify_nil]
  | cons info infos ih =>
    cases idx with
    | zero =>
      rw [modify_zero_cons, LaidOut, (hf info).1, (hf info).2]
      exact h
    | succ idx => exact ⟨h.1, ih h.2⟩

/-! ## What does not move -/

theorem map_updateOffsets {α : Type} {f : TensorInfo → α}
    (hf : ∀ (info : TensorInfo) offset, f { info with offset } = f info) :
    (updateOffsets alignment offset infos).map f = infos.map f := by
  induction infos generalizing offset with
  | nil => rfl
  | cons info infos ih => rw [updateOffsets, map_cons, map_cons, ih, hf]

theorem map_modify {α : Type} {f : TensorInfo → α} {g : TensorInfo → TensorInfo}
    (hg : ∀ info, f (g info) = f info) (idx : ℕ) : (infos.modify idx g).map f = infos.map f := by
  induction infos generalizing idx with
  | nil => rw [modify_nil]
  | cons info infos ih =>
    cases idx with
    | zero => rw [modify_zero_cons, map_cons, map_cons, hg]
    | succ idx => rw [modify_succ_cons, map_cons, map_cons, ih]

/-! ## Well-formed contexts -/

/-- The dimensions that are written, and 1 for the others. -/
def Dimensioned (shape : ℕ × List ℕ) : Prop :=
  (shape.2.take shape.1).length = shape.1 ∧ shape.2 = padDims (shape.2.take shape.1)

/-- What holds of a context after any calls. -/
structure WellFormed (ctx : Context) : Prop where
  version : ctx.version = ggufVersion
  alignment : ctx.alignment = defaultAlignment
  names : (ctx.infos.map fun info => cstr info.name).Nodup
  dimensioned : ∀ shape ∈ ctx.infos.map fun info => (info.nDims, info.ne), Dimensioned shape
  laidOut : LaidOut defaultAlignment 0 ctx.infos

/-- Only the pairs have changed. -/
def SameTensors (ctx ctx' : Context) : Prop :=
  ctx'.version = ctx.version ∧ ctx'.alignment = ctx.alignment ∧ ctx'.infos = ctx.infos

theorem WellFormed.sameTensors (h : WellFormed ctx) (hsame : SameTensors ctx ctx') :
    WellFormed ctx' := by
  obtain ⟨hversion, halignment, hinfos⟩ := hsame
  exact ⟨hversion ▸ h.version, halignment ▸ h.alignment, hinfos ▸ h.names,
    hinfos ▸ h.dimensioned, hinfos ▸ h.laidOut⟩

theorem sameTensors_set (key : Bytes) (value : Value) : SameTensors ctx (ctx.set key value) := by
  rw [Context.set]
  split
  · exact ⟨rfl, rfl, rfl⟩
  · exact ⟨rfl, rfl, rfl⟩

theorem sameTensors_removeKey (key : Bytes) : SameTensors ctx (removeKey ctx key) := by
  rw [removeKey]
  split
  · exact ⟨rfl, rfl, rfl⟩
  · exact ⟨rfl, rfl, rfl⟩

/-- A pair is copied with the function for its type. -/
theorem copyKv_cases {p : Kv} (h : copyKv ctx p = some ctx') :
    ∃ value, ctx' = ctx.set p.key value := by
  rw [copyKv] at h
  split at h <;> cases h <;> exact ⟨_, rfl⟩

theorem WellFormed.setKv {src : List Kv} (h : WellFormed ctx)
    (hset : Gguf.setKv ctx src = some ctx') : WellFormed ctx' := by
  refine foldlM_invariant (fun ctx p ctx' h hcopy => ?_) hset h
  obtain ⟨value, rfl⟩ := copyKv_cases hcopy
  exact h.sameTensors (sameTensors_set _ _)

theorem cstr_cstr (s : Bytes) : cstr (cstr s) = cstr s := takeWhile_idem

theorem nDims_le (ne : List ℕ) : nDims ne ≤ 4 := by
  rw [nDims]
  split
  · exact Nat.le_refl 4
  · split
    · decide
    · split <;> decide

/-- Whatever the shape of a tensor, the dimensions beyond those that count are 1. -/
theorem dimensioned_nDims (ne : List ℕ) : Dimensioned (nDims ne, padDims (ne.take (nDims ne))) := by
  have hle := nDims_le ne
  have hlen : (ne.take (nDims ne)).length ≤ nDims ne := length_take_le _ _
  generalize nDims ne = n at hle hlen ⊢
  generalize ne.take n = dims at hlen ⊢
  have hdims : (padDims dims).length = 4 := by
    rw [padDims, length_append, length_replicate]
    omega
  refine ⟨length_take_of_le (hdims ▸ hle), ?_⟩
  -- the missing dimensions up to `n` are 1 as well
  have htake : (padDims dims).take n = dims ++ replicate (n - dims.length) 1 := by
    rw [padDims, take_append, take_of_length_le hlen, take_replicate,
      Nat.min_eq_left (Nat.sub_le_sub_right hle _)]
  dsimp only
  rw [htake, padDims, padDims, append_assoc, replicate_append_replicate,
    length_append, length_replicate]
  congr 2
  omega

theorem WellFormed.addTensor {tensor : Tensor} (h : WellFormed ctx)
    (hadd : Gguf.addTensor ctx tensor = some ctx') : WellFormed ctx' := by
  rw [Gguf.addTensor] at hadd
  split at hadd
  case h_1 => cases hadd
  case h_2 hnew =>
    cases hadd
    refine ⟨h.version, h.alignment, ?_, ?_, laidOut_append.mpr ⟨h.laidOut, ?_, trivial⟩⟩
    · rw [map_append, nodup_append]
      refine ⟨h.names, nodup_singleton _, ?_⟩
      rintro name hname _ hlast rfl
      obtain ⟨info, hinfo, hsame⟩ := mem_map.mp hname
      have hdiffer := findIdx?_eq_none_iff.mp hnew info hinfo
      rw [mem_singleton.mp hlast] at hsame
      dsimp only at hsame
      rw [cstr_cstr] at hsame
      exact of_decide_eq_false hdiffer hsame.symm
    · rw [map_append, map_singleton, forall_mem_append]
      refine ⟨h.dimensioned, forall_mem_singleton.mpr ?_⟩
      exact dimensioned_nDims tensor.ne
    · rw [h.alignment]
      exact next_getLast h.laidOut

theorem WellFormed.setTensorType {name : Bytes} {type : ℕ} (h : WellFormed ctx)
    (hset : Gguf.setTensorType ctx name type = some ctx') : WellFormed ctx' := by
  obtain ⟨idx, _, rfl⟩ := Option.map_eq_some_iff.mp hset
  have hmap {α : Type} (f : TensorInfo → α) (hf : ∀ info type, f { info with type } = f info) :
      (ctx.infos.modify idx fun info => { info with type }).map f = ctx.infos.map f :=
    map_modify (fun info => hf info type) idx
  refine ⟨h.version, h.alignment, ?_, ?_, ?_⟩
  · rw [hmap _ fun _ _ => rfl]
    exact h.names
  · rw [hmap _ fun _ _ => rfl]
    exact h.dimensioned
  · exact @laidOut_modify _ _ _ (fun info => { info with type }) (fun _ => ⟨rfl, rfl⟩) idx h.laidOut

theorem WellFormed.setTensorData {name data : Bytes} (h : WellFormed ctx)
    (hset : Gguf.setTensorData ctx name data = some ctx') : WellFormed ctx' := by
  obtain ⟨idx, _, hset⟩ := Option.bind_eq_some_iff.mp hset
  obtain ⟨info, hinfo, hset⟩ := Option.bind_eq_some_iff.mp hset
  cases hset
  obtain ⟨hlt, hget⟩ := List.getElem?_eq_some_iff.mp hinfo
  have hsplit : ctx.infos = ctx.infos.take idx ++ info :: ctx.infos.drop (idx + 1) := by
    rw [← hget, ← List.drop_eq_getElem_cons hlt, List.take_append_drop]
  have hlaid := h.laidOut
  rw [hsplit, laidOut_append] at hlaid
  have hmap {α : Type} (f : TensorInfo → α)
      (hf : ∀ (info : TensorInfo) offset data, f { info with offset, data } = f info) :
      (ctx.infos.take idx ++ { info with data } :: updateOffsets ctx.alignment
        (TensorInfo.next ctx.alignment { info with data }) (ctx.infos.drop (idx + 1))).map f =
          ctx.infos.map f := by
    conv_rhs => rw [hsplit]
    rw [List.map_append, List.map_cons, List.map_append, List.map_cons,
      map_updateOffsets fun info offset => hf info offset info.data]
    congr 2
    exact hf info info.offset data
  refine ⟨h.version, h.alignment, ?_, ?_, laidOut_append.mpr ⟨hlaid.1, hlaid.2.1, ?_⟩⟩
  · rw [hmap _ fun _ _ _ => rfl]
    exact h.names
  · rw [hmap _ fun _ _ _ => rfl]
    exact h.dimensioned
  · have hoffset : TensorInfo.next ctx.alignment { info with data } =
        endOffset defaultAlignment 0 (ctx.infos.take idx) +
          ggmlPad data.length defaultAlignment := by
      rw [TensorInfo.next, hlaid.2.1, h.alignment]
      rfl
    rw [hoffset, h.alignment]
    exact laidOut_updateOffsets

/-- Whatever is called, the tensors are well formed. -/
theorem Built.wellFormed (h : Built ctx) : WellFormed ctx := by
  induction h with
  | initEmpty => exact ⟨rfl, rfl, nodup_nil, fun _ h => absurd h not_mem_nil, trivial⟩
  | setVal _ _ _ _ ih | setValStr _ _ _ ih | setArrData _ _ _ _ ih | setArrArr _ _ _ ih
  | setArrStr _ _ _ ih => exact ih.sameTensors (sameTensors_set _ _)
  | setKv src _ hset ih => exact ih.setKv hset
  | removeKey key _ ih => exact ih.sameTensors (sameTensors_removeKey key)
  | addTensor tensor _ hadd ih => exact ih.addTensor hadd
  | setTensorType name type _ hset ih => exact ih.setTensorType hset
  | setTensorData name data _ hset ih => exact ih.setTensorData hset

end ExpertPin.Gguf
