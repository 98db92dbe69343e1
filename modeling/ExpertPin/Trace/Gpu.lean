import ExpertPin.Ggml.Types
import ExpertPin.Trace.Writer

/-!
# The routing trace of a GPU

`ggml_moe_gpu_trace` records which experts the operations of a request select.  The ids
are in device memory, so each operation costs a readback, and the number of operations,
the bytes that are read back and the records all have a budget.  An operation that can
not be recorded is rejected, and none is recorded after it.

A call of `record` shows what it asked of the reader and which rows it wrote.
-/

namespace ExpertPin.Trace

open Ggml (TypeTraits rowSize typeI32 typeCount)

def maxIdsBytes : UInt64 := 64 * 1024

def maxTotalIdsBytes : UInt64 := 64 * 1024 * 1024

def maxEntries : UInt64 := 100000

/-! ## Tensors -/

/-- The fields of a tensor that the trace reads. -/
structure Tensor where
  ne : Fin 4 → Int64
  nb : Fin 4 → UInt64
  type : Int32
  name : List UInt8
  /-- The address of the data is not zero. -/
  hasData : Bool

namespace Tensor

/-- The dimensions from some dimension on are contiguous, `next` being the next stride. -/
def contiguousFrom (next : UInt64) : List (Int64 × UInt64) → Bool
  | [] => true
  | (ne, nb) :: dims =>
    if ne = 1 then contiguousFrom next dims
    else if nb ≠ next then false
    else contiguousFrom (next * ne.toUInt64) dims

/-- `ggml_is_contiguous`. -/
def isContiguous (traits : Int32 → TypeTraits) (t : Tensor) : Bool :=
  if t.ne 0 ≠ (traits t.type).blckSize ∧ t.nb 0 ≠ (traits t.type).typeSize then false
  else contiguousFrom (rowSize (traits t.type) (t.ne 0))
    [(t.ne 1, t.nb 1), (t.ne 2, t.nb 2), (t.ne 3, t.nb 3)]

/-- `valid_weight` of a tensor that is there. -/
def validWeight (traits : Int32 → TypeTraits) (w : Tensor) : Bool :=
  0 < w.ne 0 ∧ 0 < w.ne 1 ∧ 0 < w.ne 2 ∧ w.ne 3 = 1 ∧ 0 ≤ w.type ∧ w.type < typeCount ∧
    w.isContiguous traits ∧ 0 < w.nb 2 ∧ (w.ne 2).toUInt64 ≤ (-1) / w.nb 2

end Tensor

/-! ## The reader -/

/-- A reader of ids fills a buffer, or fails. -/
def IdsReader : Type := (n : ℕ) → Option (Vector Int32 n)

/-- What is asked of it: `rows` rows of `row` bytes that are `stride` bytes apart. -/
structure IdsRequest where
  row : UInt64
  rows : UInt64
  stride : UInt64
deriving DecidableEq, Repr

def IdsRequest.bytes (request : IdsRequest) : UInt64 := request.row * request.rows

/-- `std::unique`. -/
def unique : List Int32 → List Int32
  | [] => []
  | [id] => [id]
  | id :: next :: ids => if id = next then unique (next :: ids) else id :: unique (next :: ids)

/-- The ids of a selection in order and each once. -/
def distinct (ids : List Int32) : List Int32 := unique (ids.mergeSort fun id id' => id ≤ id')

/-! ## Rows -/

/-- A row that is written, and its bytes. -/
structure Row where
  access : Access
  line : List UInt8
deriving DecidableEq, Repr

namespace Writer

/-- The next record is written. -/
def accepts (w : Writer) : Bool :=
  ¬w.finished ∧ ¬(w.requestOnly ∧ w.scope.phase = 0) ∧ w.written < w.limit ∧ ¬w.error

/-- Some records, and the rows of those that are written. -/
def recordAll (w : Writer) : List Access → Writer × List Row
  | [] => (w, [])
  | a :: as =>
    let p := (w.record a).recordAll as
    (p.1, if w.accepts then ⟨a, w.line a⟩ :: p.2 else p.2)

end Writer

/-! ## The trace -/

structure GpuTrace where
  csv : Writer
  budget : UInt64
  entries : UInt64
  entry : UInt64 := 0
  epoch : UInt64 := 0
  active : Bool := false
  stopped : Bool := false
deriving Repr

/-- What a call of `record` shows. -/
structure GpuObservation where
  /-- A valid scope is active. -/
  active : Bool := false
  /-- The operation is counted. -/
  admitted : Bool := false
  request : Option IdsRequest := none
  rejected : Bool := false
  rows : List Row := []

namespace GpuTrace

def new (records readBudget entries : UInt64) : GpuTrace where
  csv := Writer.new records true
  budget := min readBudget maxTotalIdsBytes
  entries := min entries maxEntries

def setScope (t : GpuTrace) (scope : Scope) : GpuTrace :=
  let active : Bool :=
    1 ≤ scope.phase ∧ scope.phase ≤ 3 ∧ 0 ≤ scope.requestId ∧ 0 ≤ scope.seqId
  let scope := if active then scope else { scope with phase := 0 }
  { t with
    active := active
    csv := t.csv.setScope scope
    epoch := if active then t.epoch + 1 else t.epoch }

def reject (t : GpuTrace) (o : GpuObservation) : GpuTrace × GpuObservation :=
  ({ t with csv := t.csv.incomplete, stopped := true }, { o with rejected := true })

/-- The layout of `ids` is one that the trace reads. -/
def validIds (ids : Tensor) : Bool :=
  ids.hasData ∧ ids.type = typeI32 ∧ 0 < ids.ne 0 ∧ 0 < ids.ne 1 ∧ ids.ne 2 = 1 ∧ ids.ne 3 = 1 ∧
    ids.nb 0 = 4 ∧ (ids.ne 0).toUInt64 ≤ maxIdsBytes / 4

/-- The rows of `ids` and their addresses stay within the bounds. -/
def boundedIds (ids : Tensor) : Bool :=
  let row := (ids.ne 0).toUInt64 * 4
  (ids.ne 1).toUInt64 ≤ maxIdsBytes / row ∧ row ≤ ids.nb 1 ∧
    ¬(1 < (ids.ne 1).toUInt64 ∧ (-1 - row) / (ids.ne 1 - 1).toUInt64 < ids.nb 1)

/-- An id that is neither pruned nor an expert of each weight. -/
def invalidId (weights : List Tensor) (id : Int32) : Bool :=
  id < -1 ∨ (0 ≤ id ∧ ∃ w ∈ weights, w.ne 2 ≤ id.toInt64)

/-- The record of an expert that is selected. -/
def access (epoch : UInt64) (ids w : Tensor) (entry : UInt64) (id : Int32) : Access where
  entry := entry
  epoch := epoch
  rows := ids.ne 1
  name := w.name
  type := w.type
  expert := id.toUInt32
  stride := w.nb 2
  offset := id.toUInt32.toUInt64 * w.nb 2
  bytes := w.nb 2
  hit := false
  bypass := true

/-- The records of the weights in turn, which get an entry each. -/
def writeWeights (t : GpuTrace) (ids : Tensor) (selected : List Int32) :
    List Tensor → GpuTrace × List Row
  | [] => (t, [])
  | w :: ws =>
    let as := (selected.filter fun id => 0 ≤ id).map (access t.epoch ids w t.entry)
    let p := t.csv.recordAll as
    let q := writeWeights { t with csv := p.1, entry := t.entry + 1 } ids selected ws
    (q.1, p.2 ++ q.2)

/-- The request for the ids of a tensor. -/
def request (ids : Tensor) : IdsRequest := ⟨(ids.ne 0).toUInt64 * 4, (ids.ne 1).toUInt64, ids.nb 1⟩

/-- Reading back the ids of an operation, and recording them. -/
def readIds (t : GpuTrace) (weights : List Tensor) (ids : Tensor) (reader : Option IdsReader) :
    GpuTrace × GpuObservation :=
  match reader with
  | none => t.reject { active := true, admitted := true }
  | some read =>
    match read ((request ids).bytes / 4).toNat with
    | none => t.reject { active := true, admitted := true, request := some (request ids) }
    | some buffer =>
      let o : GpuObservation :=
        { active := true, admitted := true, request := some (request ids) }
      if buffer.toList.any (invalidId weights) then t.reject o
      else
        let q := t.writeWeights ids (distinct buffer.toList) weights
        (q.1, { o with rows := q.2 })

def record (traits : Int32 → TypeTraits) (t : GpuTrace) (w₀ w₁ ids : Option Tensor)
    (reader : Option IdsReader) : GpuTrace × GpuObservation :=
  if ¬t.active then (t, {})
  else if t.stopped ∨ t.csv.remaining = 0 then t.reject { active := true }
  else if t.entries = 0 then t.reject { active := true }
  else
    let t := { t with entries := t.entries - 1 }
    let refuse := t.reject { active := true, admitted := true }
    match ids, w₀ with
    | some ids, some w₀ =>
      let weights := w₀ :: w₁.toList
      let bytes := (ids.ne 0).toUInt64 * 4 * (ids.ne 1).toUInt64
      if ¬validIds ids then refuse
      else if ¬boundedIds ids then refuse
      else if t.budget < bytes ∨ ¬weights.all (Tensor.validWeight traits) then refuse
      else { t with budget := t.budget - bytes }.readIds weights ids reader
    | _, _ => refuse

end GpuTrace

/-! ## Runs -/

inductive GpuCall where
  | setScope (scope : Scope)
  | record (w₀ w₁ ids : Option Tensor) (reader : Option IdsReader)

namespace GpuTrace

def call (traits : Int32 → TypeTraits) (t : GpuTrace) : GpuCall → GpuTrace × GpuObservation
  | .setScope scope => (t.setScope scope, {})
  | .record w₀ w₁ ids reader => t.record traits w₀ w₁ ids reader

/-- A run, and what its calls show. -/
def run (traits : Int32 → TypeTraits) (t : GpuTrace) :
    List GpuCall → GpuTrace × List (GpuCall × GpuObservation)
  | [] => (t, [])
  | call :: calls =>
    let p := t.call traits call
    let q := p.1.run traits calls
    (q.1, (call, p.2) :: q.2)

def finish (t : GpuTrace) : GpuTrace := { t with csv := t.csv.finish }

end GpuTrace

end ExpertPin.Trace
