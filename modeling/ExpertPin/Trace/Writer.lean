import ExpertPin.Lib.Utf8
import ExpertPin.Lib.Csv

/-!
# The writer of an expert trace

`ggml_moe_trace` writes a header, one CSV record for each expert that an operation
selects, and a footer that says how many records there are and how many were left
out.  With `request_only` the records carry the scope that is set, and outside of a
request there are none.

The file is the bytes that are written to it.  Here no operation on it fails.
-/

namespace ExpertPin.Trace

def maxRecords : UInt64 := 100000

/-- Which request the records belong to. -/
structure Scope where
  requestId : Int64 := -1
  seqId : Int32 := -1
  phase : Int32 := 0
  posMin : Int32 := -1
  posMax : Int32 := -1
deriving DecidableEq, Repr

/-- The arguments of `record`. -/
structure Access where
  entry : UInt64
  epoch : UInt64
  rows : Int64
  /-- The bytes of the tensor's name, which ends before the first zero. -/
  name : List UInt8
  type : Int32
  expert : UInt32
  stride : UInt64
  offset : UInt64
  bytes : UInt64
  hit : Bool
  bypass : Bool
deriving DecidableEq, Repr

structure Writer where
  limit : UInt64
  requestOnly : Bool
  written : UInt64 := 0
  dropped : UInt64 := 0
  error : Bool := false
  finished : Bool := false
  scope : Scope := {}
  file : List UInt8
deriving DecidableEq, Repr

/-! ## Formats -/

/-- `%llu`, `%zu` and `%u`. -/
def unsigned (n : ℕ) : List Char := Nat.toDigits 10 n

/-- `%lld` and `%d`. -/
def signed (i : ℤ) : List Char :=
  if i < 0 then '-' :: unsigned i.natAbs else unsigned i.natAbs

def commas (values : List (List Char)) : List Char := List.intercalate [','] values

def Scope.phaseName (scope : Scope) : List Char :=
  if scope.phase = 1 then "prefill".toList
  else if scope.phase = 2 then "decode".toList
  else "mixed".toList

def header (requestOnly : Bool) : List Char :=
  "seq,weight_entry,epoch,ids_rows,tensor,ggml_type,expert,stride,relative_offset,bytes,".toList ++
    "shadow_hit,shadow_bypass".toList ++
    (if requestOnly then ",context,request_id,seq_id,phase,pos_min,pos_max".toList else []) ++
    ['\n']

def footer (written dropped : ℕ) (error : Bool) : List Char :=
  "# end written=".toList ++ unsigned written ++ " dropped=".toList ++ unsigned dropped ++
    " error=".toList ++ unsigned error.toNat

/-! ## Operations -/

namespace Writer

def new (limit : UInt64) (requestOnly : Bool) : Writer where
  limit := min limit maxRecords
  requestOnly := requestOnly
  file := Utf8.encode (header requestOnly)

def setScope (w : Writer) (scope : Scope) : Writer := { w with scope }

/-- The bytes of a record.  The name is in quotes, and a quote in it is written twice. -/
def line (w : Writer) (a : Access) : List UInt8 :=
  Utf8.encode (commas [unsigned w.written.toNat, unsigned a.entry.toNat,
      unsigned a.epoch.toNat, signed a.rows.toInt] ++ [',', '"']) ++
    Utf8.double (UInt8.ofNat '"'.toNat) (a.name.takeWhile (· ≠ 0)) ++
    Utf8.encode (['"', ','] ++ commas [signed a.type.toInt, unsigned a.expert.toNat,
      unsigned a.stride.toNat, unsigned a.offset.toNat, unsigned a.bytes.toNat,
      unsigned a.hit.toNat, unsigned a.bypass.toNat]) ++
    (if w.requestOnly then
      Utf8.encode (",target,".toList ++ commas [signed w.scope.requestId.toInt,
        signed w.scope.seqId.toInt, w.scope.phaseName, signed w.scope.posMin.toInt,
        signed w.scope.posMax.toInt])
    else []) ++
    Utf8.encode ['\n']

def remaining (w : Writer) : UInt64 := if w.error ∨ w.finished then 0 else w.limit - w.written

/-- An operation is left out that should have been recorded. -/
def incomplete (w : Writer) : Writer :=
  if w.finished then w else { w with dropped := w.dropped + 1, error := true }

def record (w : Writer) (a : Access) : Writer :=
  if w.finished ∨ (w.requestOnly ∧ w.scope.phase = 0) then w
  else if w.limit ≤ w.written ∨ w.error then { w with dropped := w.dropped + 1 }
  else { w with file := w.file ++ w.line a, written := w.written + 1 }

def finish (w : Writer) : Writer :=
  if w.finished then w
  else { w with
    finished := true
    file := w.file ++
      Utf8.encode (footer w.written.toNat w.dropped.toNat w.error ++ ['\n']) }

/-- The writer takes records now. -/
structure Ready (w : Writer) : Prop where
  finished : w.finished = false
  error : w.error = false
  phase : ¬(w.requestOnly ∧ w.scope.phase = 0)
  within : w.written ≤ w.limit

variable {w : Writer}

theorem Ready.not_skipped (h : w.Ready) : ¬(w.finished ∨ (w.requestOnly ∧ w.scope.phase = 0)) := by
  rintro (hfinished | hphase)
  · exact absurd (h.finished.symm.trans hfinished) Bool.false_ne_true
  · exact h.phase hphase

/-- A record that there is room for. -/
theorem Ready.record_eq (h : w.Ready) (hroom : w.written < w.limit) (a : Access) :
    w.record a = { w with file := w.file ++ w.line a, written := w.written + 1 } := by
  have hfit : ¬(w.limit ≤ w.written ∨ w.error) := by
    rintro (hle | herror)
    · exact absurd hroom (UInt64.not_lt.mpr hle)
    · exact absurd (h.error.symm.trans herror) Bool.false_ne_true
  rw [record, if_neg h.not_skipped, if_neg hfit]

theorem Ready.record_eq_of_full (h : w.Ready) (hfull : ¬w.written < w.limit) (a : Access) :
    w.record a = { w with dropped := w.dropped + 1 } := by
  rw [record, if_neg h.not_skipped, if_pos (.inl (UInt64.not_lt.mp hfull))]

theorem toNat_add_one {m n : UInt64} (h : m < n) : (m + 1).toNat = m.toNat + 1 := by
  rw [UInt64.toNat_add]
  exact Nat.mod_eq_of_lt (Nat.lt_of_le_of_lt (Nat.succ_le_of_lt h) n.toNat_lt)

end Writer

/-! ## Runs -/

inductive Call where
  | setScope (scope : Scope)
  | record (a : Access)
deriving DecidableEq, Repr

namespace Writer

def call (w : Writer) : Call → Writer
  | .setScope scope => w.setScope scope
  | .record a => w.record a

def run (w : Writer) (calls : List Call) : Writer := calls.foldl call w

end Writer

/-- A record that a trace is asked to hold, with the scope at the time. -/
structure Record where
  scope : Scope
  access : Access
deriving DecidableEq, Repr

/-- The records of some calls: with `requestOnly` those of a request. -/
def admitted (requestOnly : Bool) (scope : Scope) : List Call → List Record
  | [] => []
  | .setScope scope' :: calls => admitted requestOnly scope' calls
  | .record a :: calls =>
    if requestOnly ∧ scope.phase = 0 then admitted requestOnly scope calls
    else ⟨scope, a⟩ :: admitted requestOnly scope calls

/-- The file of a trace after `calls` and `finish`. -/
def written (limit : UInt64) (requestOnly : Bool) (calls : List Call) : List UInt8 :=
  ((Writer.new limit requestOnly).run calls).finish.file

end ExpertPin.Trace

/-!
## The reader of an expert trace

How `stream_join` takes a trace apart: the header is one of two, and the records
end before the first row that looks like a footer.  `BoundedLines` limits the
characters of a record, and a trace without a footer is rejected.
-/

namespace ExpertPin.Trace

def baseColumns : List (List Char) :=
  ["seq", "weight_entry", "epoch", "ids_rows", "tensor", "ggml_type", "expert", "stride",
    "relative_offset", "bytes", "shadow_hit", "shadow_bypass"].map String.toList

def tagColumns : List (List Char) :=
  ["context", "request_id", "seq_id", "phase", "pos_min", "pos_max"].map String.toList

def maxRecordChars : ℕ := 64 * 1024

def isFooter : List (List Char) → Bool
  | [field] => "# end".toList.isPrefixOf field
  | _ => false

/-- The rows of a trace, and the text after its footer. -/
structure Split where
  columns : List (List Char)
  records : List (List (List Char))
  footer : List (List Char)
  rest : List Char
deriving DecidableEq, Repr

def split (text : List Char) : Option Split :=
  match Csv.nextRow maxRecordChars {} 0 text with
  | .row columns text =>
    if columns = baseColumns ∨ columns = baseColumns ++ tagColumns then
      (Csv.rowsUntil maxRecordChars isFooter text).map fun p =>
        { columns := columns, records := p.1, footer := p.2.1, rest := p.2.2 }
    else none
  | _ => none

end ExpertPin.Trace
