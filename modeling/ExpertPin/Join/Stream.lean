import ExpertPin.Join.Inventory
import ExpertPin.Trace.Writer

/-!
# Joining a trace with an inventory

`stream_join` of `scripts/join-expert-trace.py`: each record of a trace is checked against the
tensor that it names and is given that tensor's shard and the offset of its bytes in the file.
The rows are those handed to the CSV writer.
-/

namespace ExpertPin.Join

/-! ## Numbers -/

/-- `UINT`: a decimal number without leading zeros. -/
def isUint (text : Text) : Bool :=
  text = ['0'] ∨ text ≠ [] ∧ text.head? ≠ some '0' ∧ text.all Char.isDigit

def decimal (text : Text) : ℕ := Nat.ofDigitChars 10 text 0

/-- `csv_uint`. -/
def csvUint (minimum : ℕ) (value : Text) : Option ℕ :=
  if value.length ≤ 20 ∧ isUint value ∧ inRange minimum (decimal value) then some (decimal value)
  else none

/-! ## Records -/

/-- The field of a record in one of the base columns. -/
def field (record : List Text) (column : String) : Text :=
  record.getD (Trace.baseColumns.idxOf column.toList) []

/-- The least number that is accepted in a column. -/
def minimumOf (column : Text) : ℕ :=
  if column ∈ ["ids_rows", "stride", "bytes"].map String.toList then 1 else 0

/-- The numbers of a record, all of which are checked. -/
def numbersValid (record : List Text) : Bool :=
  (Trace.baseColumns.zip record).all fun p =>
    p.1 = "tensor".toList ∨ (csvUint (minimumOf p.1) p.2).isSome

def number (record : List Text) (column : String) : ℕ := decimal (field record column)

/-- A row of the output: the record with its shard and the offset in that file. -/
structure Row where
  record : List Text
  shard : Text
  absoluteOffset : ℕ
deriving DecidableEq, Repr

namespace Row

variable (row : Row)

def tensor : Text := field row.record "tensor"

def expert : ℕ := number row.record "expert"

def bytes : ℕ := number row.record "bytes"

/-- The fields that are written. -/
def fields : List Text := row.record ++ [row.shard, Nat.toDigits 10 row.absoluteOffset]

end Row

/-- A record with the number `written`. -/
def joinRecord (byName : ByName) (columns written : ℕ) (record : List Text) : Option Row := do
  let number := number record
  let tensor ← byName.lookup (field record "tensor")
  let dataStart ← tensor.dataStart
  let fileSize ← tensor.fileSize
  let stop := number "relative_offset" + number "bytes"
  let absoluteOffset := dataStart + tensor.relativeOffset + number "relative_offset"
  if (record.length = columns ∧ numbersValid record ∧ number "seq" = written) ∧
      (number "shadow_hit" ≤ 1 ∧ number "shadow_bypass" ≤ 1 ∧
        ¬(number "shadow_hit" ≠ 0 ∧ number "shadow_bypass" ≠ 0)) ∧
      (number "ggml_type" = tensor.ggmlType ∧ number "expert" < tensor.experts ∧
        number "stride" = tensor.stride) ∧
      (number "relative_offset" = number "expert" * tensor.stride ∧
        number "bytes" = tensor.stride) ∧
      (stop ≤ tensor.stride * tensor.experts ∧ stop ≤ tensor.storageSpanBytes) ∧
      inRange 0 absoluteOffset ∧ absoluteOffset + number "bytes" ≤ fileSize then
    some { record, shard := tensor.shard, absoluteOffset }
  else none

/-- The records from the number `written` on. -/
def joinRecords (byName : ByName) (columns : ℕ) : ℕ → List (List Text) → Option (List Row)
  | _, [] => some []
  | written, record :: records => do
      let row ← joinRecord byName columns written record
      let rows ← joinRecords byName columns (written + 1) records
      some (row :: rows)

/-! ## The footer -/

/-- The last physical line of a text. -/
def lastLine (text : Text) : Text :=
  if _h : text = [] then []
  else
    let rest := text.drop (Csv.takeLine text).length
    if rest = [] then Csv.takeLine text else lastLine rest
termination_by text.length
decreasing_by
  rw [List.length_drop]
  exact Nat.sub_lt (List.length_pos_iff.mpr _h) (List.length_pos_iff.mpr (Csv.takeLine_ne_nil _h))

/-- A counter of the footer after its name, and what follows it. -/
def takeCounter (name text : Text) : Option (Text × Text) :=
  if name.isPrefixOf text then
    let rest := text.drop name.length
    some (rest.takeWhile Char.isDigit, rest.dropWhile Char.isDigit)
  else none

/-- `FOOTER`: the counters of records, drops and errors. -/
def footerCounters (text : Text) : Option (ℕ × ℕ × ℕ) := do
  let (written, text) ← takeCounter "# end written=".toList text
  let (dropped, text) ← takeCounter " dropped=".toList text
  let (error, text) ← takeCounter " error=".toList text
  let written ← csvUint 0 written
  let dropped ← csvUint 0 dropped
  let error ← csvUint 0 error
  if text = [] then some (written, dropped, error) else none

/-! ## The join -/

/-- What is written: the columns, the rows and the line of the footer. -/
structure Output where
  columns : List Text
  rows : List Row
  footer : Text
deriving DecidableEq, Repr

/-- `stream_join`. -/
def streamJoin (byName : ByName) (trace : Text) : Option Output := do
  let split ← Trace.split trace
  let rows ← joinRecords byName split.columns.length 0 split.records
  let footer := split.footer.headD []
  let (count, dropped, error) ← footerCounters footer
  let last := lastLine trace
  if (last = footer ++ ['\n'] ∨ last = footer ++ ['\r', '\n']) ∧ split.rest = [] ∧
      count = split.records.length ∧ dropped = 0 ∧ error = 0 then
    some {
      columns := split.columns ++ ["shard", "absolute_offset"].map String.toList
      rows
      footer }
  else none

end ExpertPin.Join
