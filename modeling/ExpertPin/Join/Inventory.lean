import ExpertPin.Lib.JsonText
import Mathlib.Algebra.GroupWithZero.Nat

/-!
# The inventory of a model's expert tensors

`load_inventory` and `validate_headers` of `scripts/join-expert-trace.py`: every expert tensor of
an inventory is found in the header of the shard that it names, with the offset and the span that
the neighbouring offsets and the end of the file give it.  What makes a file's header, and the
prefix of the file that holds it, is an input, and so are the shards in the model's directory.
-/

namespace ExpertPin.Join

abbrev Text := List Char

def u64Max : ℕ := 2 ^ 64 - 1

/-- `uint` of a number. -/
def inRange (minimum value : ℕ) : Bool := minimum ≤ value ∧ value ≤ u64Max

/-- `uint`. -/
def uint (minimum : ℕ) : Json → Option ℕ
  | .int i => if 0 ≤ i ∧ inRange minimum i.toNat then some i.toNat else none
  | _ => none

def expertName (name : Text) : Bool :=
  "blk.".toList.isPrefixOf name && name.tails.any ("_exps.".toList.isPrefixOf ·)

/-- `LAYOUTS`: the elements and the bytes of a block. -/
def layouts : ℕ → Option (ℕ × ℕ)
  | 20 => some (32, 18)
  | 21 => some (256, 110)
  | 22 => some (256, 82)
  | _ => none

def expertStride (dims : List ℕ) (quant : ℕ) : Option ℕ :=
  match dims with
  | [ne0, ne1, ne2] =>
    if inRange 1 ne0 ∧ inRange 1 ne1 ∧ inRange 1 ne2 ∧ inRange 0 quant then
      (layouts quant).bind fun (block, size) =>
        let stride := ne0 / block * size * ne1
        if ne0 % block = 0 ∧ inRange 1 stride ∧ inRange 1 (stride * ne2) then some stride
        else none
    else none
  | _ => none

/-! ## The inventory -/

/-- A tensor of the inventory; the last two are filled in from its shard. -/
structure Tensor where
  dims : List ℕ
  ggmlType : ℕ
  shard : Text
  relativeOffset : ℕ
  storageSpanBytes : ℕ
  stride : ℕ
  dataStart : Option ℕ := none
  fileSize : Option ℕ := none
deriving DecidableEq, Repr

/-- The number of experts, `dims[2]`. -/
def Tensor.experts (t : Tensor) : ℕ := t.dims.getD 2 0

abbrev ByName := List (Text × Tensor)

/-- A file name, not a path. -/
def isShardName (shard : Text) : Bool :=
  '/' ∉ shard ∧ ".gguf".toList.isSuffixOf shard

/-- One tensor of the inventory, with its name. -/
def loadTensor (tensor : Json) : Option (Text × Tensor) := do
  let name ← (← tensor.get? "name".toList).str?
  let shard ← (← tensor.get? "shard".toList).str?
  let relativeOffset ← uint 0 (← tensor.get? "relative_offset".toList)
  let storageSpanBytes ← uint 1 (← tensor.get? "storage_span_bytes".toList)
  let dims ← (← (← tensor.get? "dims".toList).array?).mapM (uint 1)
  let ggmlType ← uint 0 (← tensor.get? "ggml_type".toList)
  let stride ← expertStride dims ggmlType
  if expertName name ∧ isShardName shard ∧ stride * dims.getD 2 0 ≤ storageSpanBytes then
    some (name, { dims, ggmlType, shard, relativeOffset, storageSpanBytes, stride })
  else none

/-- The loop over the tensors of the inventory. -/
def addTensor (byName : ByName) (tensor : Json) : Option ByName := do
  let (name, entry) ← loadTensor tensor
  if (byName.lookup name).isSome then none else some (byName ++ [(name, entry)])

/-- A total is as given, if it is given. -/
def totalMatches (inventory : Json) (key : Text) (minimum actual : ℕ) : Bool :=
  match inventory.get? key with
  | none => true
  | some total => uint minimum total = some actual

/-- The counts of the types are as given, if they are given. -/
def typeCountsMatch (inventory : Json) (byName : ByName) : Bool :=
  let typeName (p : Text × Tensor) : Text := Nat.toDigits 10 p.2.ggmlType
  match inventory.get? "type_counts".toList with
  | none => true
  | some (.object counts) =>
    counts.all (fun (key, count) =>
      (uint 1 count).any fun n => n = byName.countP (typeName · = key)) &&
    byName.all fun p => (counts.lookup (typeName p)).isSome
  | some _ => false

/-- `load_inventory` of a document: the model's directory, and its tensors by name. -/
def loadInventory (inventory : Json) : Option (Text × ByName) := do
  let kind ← inventory.get? "kind".toList
  let model ← (← inventory.get? "model_dir".toList).str?
  let tensors ← (← inventory.get? "tensors".toList).array?
  let byName ← tensors.foldlM addTensor []
  let spans := (byName.map fun p => p.2.storageSpanBytes).sum
  if (inventory.uniqueKeys ∧ kind.str? = some "local_gguf_header_inventory".toList ∧
      model ≠ [] ∧ tensors ≠ []) ∧
      totalMatches inventory "expert_tensors".toList 0 tensors.length ∧
      totalMatches inventory "expert_storage_span_bytes".toList 0 spans ∧
      typeCountsMatch inventory byName then
    some (model, byName)
  else none

/-! ## Shards -/

structure HeaderTensor where
  name : Text
  dims : List ℕ
  ggmlType : ℕ
  offset : ℕ
deriving DecidableEq, Repr

/-- A file: its size, the length of its header, and what the header reader returns. -/
structure Shard where
  name : Text
  fileSize : ℕ
  prefixLength : ℕ
  alignment : Option Json
  start : ℕ
  tensors : List HeaderTensor

/-- The shards of a directory, whose names differ. -/
structure Directory where
  shards : List Shard
  nodup : (shards.map Shard.name).Nodup

/-- The tensors in the order of their offsets. -/
def Shard.normalized (s : Shard) : List HeaderTensor :=
  s.tensors.mergeSort fun a b => a.offset ≤ b.offset

/-- Each tensor with the offset of the next, the last with the end of the data. -/
def spansUntil (last : ℕ) : List HeaderTensor → List (HeaderTensor × ℕ)
  | [] => []
  | [t] => [(t, last)]
  | t :: next :: tensors => (t, next.offset) :: spansUntil last (next :: tensors)

/-- The storage spans of a shard, relative to the start of its data. -/
def Shard.spans (s : Shard) : List (HeaderTensor × ℕ) :=
  spansUntil (s.fileSize - s.start) s.normalized

/-- What `validate_headers` has seen. -/
structure Seen where
  byName : ByName
  names : List Text := []
  experts : List Text := []
deriving DecidableEq

/-- The checks of one tensor of a header. -/
def checkTensor (s : Shard) (alignment : ℕ) (names : List Text) (t : HeaderTensor) :
    Option (List Text) :=
  if (t.name ≠ [] ∧ t.name ∉ names) ∧
      (1 ≤ t.dims.length ∧ t.dims.length ≤ 4 ∧ t.dims.all (inRange 1)) ∧
      (inRange 0 t.ggmlType ∧ inRange 0 t.offset) ∧
      t.offset % alignment = 0 ∧ t.offset < s.fileSize - s.start then
    some (t.name :: names)
  else none

/-- A tensor of the inventory is found. -/
def fill (s : Shard) (name : Text) (byName : ByName) : ByName :=
  byName.map fun p =>
    if p.1 = name then
      (p.1, { p.2 with dataStart := some s.start, fileSize := some s.fileSize })
    else p

/-- A tensor of a header, with the end of its span, is compared with the inventory. -/
def visit (s : Shard) (seen : Seen) (p : HeaderTensor × ℕ) : Option Seen :=
  let (t, stop) := p
  if ¬t.offset < stop then none
  else if ¬expertName t.name then some seen
  else do
    let expected ← seen.byName.lookup t.name
    let stride ← expertStride t.dims t.ggmlType
    if (expected.shard = s.name ∧ expected.dims = t.dims ∧ expected.ggmlType = t.ggmlType ∧
        expected.relativeOffset = t.offset ∧ expected.storageSpanBytes = stop - t.offset) ∧
        stride * t.dims.getD 2 0 ≤ stop - t.offset then
      some { seen with byName := fill s t.name seen.byName, experts := t.name :: seen.experts }
    else none

def visitShard (seen : Seen) (s : Shard) : Option Seen := do
  let alignment ← uint 1 (s.alignment.getD (.int 32))
  let names ← s.tensors.foldlM (checkTensor s alignment) seen.names
  if (alignment &&& (alignment - 1)) = 0 ∧ inRange 0 s.start ∧
      s.start = (s.prefixLength + alignment - 1) / alignment * alignment ∧
      s.start ≤ s.fileSize ∧ s.tensors ≠ [] then
    s.spans.foldlM (visit s) { seen with names }
  else none

/-- `validate_headers`: the tensors by name, each filled in from its shard. -/
def validateHeaders (inventory : Json) (directory : Directory) (byName : ByName) :
    Option ByName := do
  let seen ← directory.shards.foldlM visitShard { byName }
  if directory.shards ≠ [] ∧ totalMatches inventory "shards".toList 1 directory.shards.length ∧
      byName.all (fun p => p.1 ∈ seen.experts) then
    some seen.byName
  else none

end ExpertPin.Join
