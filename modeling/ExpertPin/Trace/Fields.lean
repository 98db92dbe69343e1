import ExpertPin.Trace.Writer
import Mathlib.Data.List.TakeWhile
import Mathlib.Algebra.Order.BigOperators.Group.List
import Mathlib.Tactic.Linarith

/-!
# The text of an expert trace

The bytes that the writer puts down are the encodings of CSV rows: a header, rows whose
one quoted field is the name of the tensor, and a footer.
-/

namespace ExpertPin.Trace

open List

/-! ## Numbers and words -/

/-- The characters of a plain field. -/
def Plain (cs : List Char) : Prop := cs ≠ [] ∧ ∀ c ∈ cs, c ≠ ',' ∧ c ≠ '"' ∧ c ≠ '\n' ∧ c ≠ '\r'

-- by the list, not by all characters there are
instance (cs : List Char) : Decidable (Plain cs) :=
  @instDecidableAnd _ _ inferInstance
    (List.decidableBAll (fun c => c ≠ ',' ∧ c ≠ '"' ∧ c ≠ '\n' ∧ c ≠ '\r') cs)

theorem Plain.append {cs ds : List Char} (hcs : Plain cs) (hds : Plain ds) : Plain (cs ++ ds) := by
  refine ⟨append_ne_nil_of_left_ne_nil hcs.1 ds, fun c hc => ?_⟩
  rcases mem_append.mp hc with h | h
  · exact hcs.2 c h
  · exact hds.2 c h

theorem plain_unsigned (n : ℕ) : Plain (unsigned n) := by
  refine ⟨Nat.toDigits_ne_nil, fun c hc => ?_⟩
  have hdigit : c.isDigit = true := Nat.isDigit_of_mem_toDigits (by decide) (by decide) hc
  refine ⟨?_, ?_, ?_, ?_⟩ <;>
    · rintro rfl
      exact absurd hdigit (by decide)

theorem plain_signed (i : ℤ) : Plain (signed i) := by
  unfold signed
  split
  · exact Plain.append (show Plain ['-'] by decide) (plain_unsigned i.natAbs)
  · exact plain_unsigned i.natAbs

theorem plain_phaseName (scope : Scope) : Plain scope.phaseName := by
  unfold Scope.phaseName
  split
  · decide
  · split
    · decide
    · decide

theorem length_unsigned_le {n : ℕ} (h : n < 2 ^ 64) : (unsigned n).length ≤ 20 :=
  (Nat.length_toDigits_le_iff (by decide) (by decide)).mpr (Nat.lt_trans h (by decide))

/-! ## Records -/

namespace Access

/-- The name as a C string of valid UTF-8. -/
def NameValid (a : Access) : Prop := 0 ∉ a.name ∧ ∃ text, a.name = Utf8.encode text

/-- The name as a text, if it is one. -/
def nameText (a : Access) : List Char := (Utf8.decode a.name).getD []

theorem NameValid.eq_encode {a : Access} (h : a.NameValid) : a.name = Utf8.encode a.nameText := by
  obtain ⟨-, text, htext⟩ := h
  rw [nameText, htext, Utf8.decode_encode]
  rfl

theorem NameValid.takeWhile {a : Access} (h : a.NameValid) : a.name.takeWhile (· ≠ 0) = a.name := by
  refine takeWhile_eq_self_iff.mpr fun b hb => decide_eq_true ?_
  rintro rfl
  exact h.1 hb

end Access

theorem escape_eq (cs : List Char) : Csv.escape cs = Utf8.double '"' cs := by
  unfold Csv.escape Utf8.double
  congr 1
  funext c
  by_cases hc : c = '"'
  · rw [if_pos hc, if_pos hc, hc]
  · rw [if_neg hc, if_neg hc]

namespace Record

/-- What a record says, column by column. -/
def values (requestOnly : Bool) (r : Record) (seq : ℕ) : List (List Char) :=
  [unsigned seq, unsigned r.access.entry.toNat, unsigned r.access.epoch.toNat,
    signed r.access.rows.toInt, r.access.nameText, signed r.access.type.toInt,
    unsigned r.access.expert.toNat, unsigned r.access.stride.toNat,
    unsigned r.access.offset.toNat, unsigned r.access.bytes.toNat,
    unsigned r.access.hit.toNat, unsigned r.access.bypass.toNat] ++
    if requestOnly then
      ["target".toList, signed r.scope.requestId.toInt, signed r.scope.seqId.toInt,
        r.scope.phaseName, signed r.scope.posMin.toInt, signed r.scope.posMax.toInt]
    else []

/-- The same as fields, the name in quotes. -/
def fields (requestOnly : Bool) (r : Record) (seq : ℕ) : List Csv.Field :=
  [.plain (unsigned seq), .plain (unsigned r.access.entry.toNat),
    .plain (unsigned r.access.epoch.toNat), .plain (signed r.access.rows.toInt),
    .quoted r.access.nameText, .plain (signed r.access.type.toInt),
    .plain (unsigned r.access.expert.toNat), .plain (unsigned r.access.stride.toNat),
    .plain (unsigned r.access.offset.toNat), .plain (unsigned r.access.bytes.toNat),
    .plain (unsigned r.access.hit.toNat), .plain (unsigned r.access.bypass.toNat)] ++
    if requestOnly then
      [.plain "target".toList, .plain (signed r.scope.requestId.toInt),
        .plain (signed r.scope.seqId.toInt), .plain r.scope.phaseName,
        .plain (signed r.scope.posMin.toInt), .plain (signed r.scope.posMax.toInt)]
    else []

/-- The text of a record, with the end of its line. -/
def text (requestOnly : Bool) (r : Record) (seq : ℕ) : List Char :=
  Csv.renderRow (r.fields requestOnly seq)

variable (requestOnly : Bool) (r : Record) (seq : ℕ)

theorem fields_ne_nil : r.fields requestOnly seq ≠ [] :=
  append_ne_nil_of_left_ne_nil (cons_ne_nil _ _) _

theorem content_fields : (r.fields requestOnly seq).map Csv.Field.content =
    r.values requestOnly seq := by
  cases requestOnly with
  | false => rfl
  | true => rfl

theorem valid_fields : ∀ field ∈ r.fields requestOnly seq, field.Valid := by
  have hu (n : ℕ) : (Csv.Field.plain (unsigned n)).Valid := plain_unsigned n
  have hs (i : ℤ) : (Csv.Field.plain (signed i)).Valid := plain_signed i
  have hq (cs : List Char) : (Csv.Field.quoted cs).Valid := trivial
  have hp : (Csv.Field.plain r.scope.phaseName).Valid := plain_phaseName r.scope
  have hw : (Csv.Field.plain "target".toList).Valid := by
    show Plain _
    decide
  unfold fields
  simp only [forall_mem_append, forall_mem_cons]
  refine ⟨⟨hu _, hu _, hu _, hs _, hq _, hs _, hu _, hu _, hu _, hu _, hu _, hu _, ?_⟩, ?_⟩
  · exact forall_mem_nil _
  · cases requestOnly with
    | false => exact forall_mem_nil _
    | true =>
      simp only [if_true, forall_mem_cons]
      exact ⟨hw, hs _, hs _, hp, hs _, hs _, forall_mem_nil _⟩

theorem fields_readable (h : (r.text requestOnly seq).length ≤ maxRecordChars) :
    Csv.Readable maxRecordChars (r.fields requestOnly seq) where
  ne_nil := r.fields_ne_nil requestOnly seq
  valid := r.valid_fields requestOnly seq
  length_le := h

/-- A record has several fields, and so it is no footer. -/
theorem isFooter_values : isFooter (r.values requestOnly seq) = false := rfl

/-- The writer puts down the text of a record. -/
theorem line_eq (w : Writer) (a : Access) (h : a.NameValid) :
    w.line a = Utf8.encode (text w.requestOnly ⟨w.scope, a⟩ w.written.toNat) := by
  have hname : Utf8.double (UInt8.ofNat '"'.toNat) (a.name.takeWhile (· ≠ 0)) =
      Utf8.encode (Csv.escape a.nameText) := by
    rw [h.takeWhile]
    conv_lhs => rw [h.eq_encode]
    rw [Utf8.double_encode (q := '"') (by decide), escape_eq]
  rw [Writer.line, hname]
  cases hreq : w.requestOnly with
  | false =>
    rw [if_neg Bool.false_ne_true, append_nil, ← Utf8.encode_append, ← Utf8.encode_append,
      ← Utf8.encode_append]
    simp [text, fields, Csv.renderRow, Csv.Field.render, commas, intercalate]
  | true =>
    rw [if_pos rfl, ← Utf8.encode_append, ← Utf8.encode_append, ← Utf8.encode_append,
      ← Utf8.encode_append]
    simp [text, fields, Csv.renderRow, Csv.Field.render, commas, intercalate]

/-- A record whose name has no line ends is one line. -/
theorem takeLine_text (h : ∀ c ∈ r.access.nameText, c ≠ '\n' ∧ c ≠ '\r') (rest : List Char) :
    Csv.takeLine (r.text requestOnly seq ++ rest) = r.text requestOnly seq := by
  refine Csv.takeLine_renderRow (r.fields_ne_nil requestOnly seq) (fun field hfield c hc => ?_) rest
  have hvalid := r.valid_fields requestOnly seq field hfield
  cases field with
  | plain cs =>
    obtain ⟨-, -, hends⟩ := hvalid.2 c hc
    exact hends
  | quoted cs =>
    have hcs : cs = r.access.nameText := by
      cases requestOnly with
      | false => simpa [fields] using hfield
      | true => simpa [fields] using hfield
    subst hcs
    rcases Csv.eq_or_mem_of_mem_render_quoted hc with rfl | hmem
    · decide
    · exact h c hmem

/-! ### Lengths -/

theorem length_nameText_lt : r.access.nameText.length < (r.text requestOnly seq).length := by
  have hmem : (Csv.Field.quoted r.access.nameText).render.length + 1 ∈
      (r.fields requestOnly seq).map fun field => field.render.length + 1 := by
    refine mem_map.mpr ⟨.quoted r.access.nameText, mem_append_left _ ?_, rfl⟩
    simp
  have hrender : r.access.nameText.length <
      (Csv.Field.quoted r.access.nameText).render.length + 1 := by
    have hdouble := Utf8.length_le_length_double '"' r.access.nameText
    rw [Csv.Field.render, escape_eq]
    simp only [cons_append, length_cons, length_append]
    omega
  rw [text, Csv.length_renderRow (r.fields_ne_nil requestOnly seq)]
  exact Nat.lt_of_lt_of_le hrender (single_le_sum (fun n _ => Nat.zero_le n) _ hmem)

end Record

/-! ## Header and footer -/

def columns (requestOnly : Bool) : List (List Char) :=
  if requestOnly then baseColumns ++ tagColumns else baseColumns

theorem header_eq (requestOnly : Bool) :
    header requestOnly = Csv.renderRow ((columns requestOnly).map Csv.Field.plain) := by
  cases requestOnly with
  | false => decide +kernel
  | true => decide +kernel

theorem header_readable (requestOnly : Bool) :
    Csv.Readable maxRecordChars ((columns requestOnly).map Csv.Field.plain) where
  ne_nil := by
    cases requestOnly with
    | false => decide
    | true => decide
  valid := by
    have hplain : ∀ column ∈ baseColumns ++ tagColumns, Plain column := by decide
    intro field hfield
    obtain ⟨column, hcolumn, rfl⟩ := mem_map.mp hfield
    cases requestOnly with
    | false => exact hplain column (mem_append_left _ hcolumn)
    | true => exact hplain column hcolumn
  length_le := by
    rw [← header_eq]
    cases requestOnly with
    | false => decide +kernel
    | true => decide +kernel

theorem plain_footer (written dropped : ℕ) (error : Bool) :
    Plain (footer written dropped error) := by
  have hwritten : Plain "# end written=".toList := by decide
  have hdropped : Plain " dropped=".toList := by decide
  have herror : Plain " error=".toList := by decide
  exact ((((hwritten.append (plain_unsigned _)).append hdropped).append
    (plain_unsigned _)).append herror).append (plain_unsigned _)

theorem footer_readable {written dropped : ℕ} (hwritten : written < 2 ^ 64)
    (hdropped : dropped < 2 ^ 64) (error : Bool) :
    Csv.Readable maxRecordChars [.plain (footer written dropped error)] where
  ne_nil := cons_ne_nil _ _
  valid := by
    rw [forall_mem_singleton]
    exact plain_footer written dropped error
  length_le := by
    have hw := length_unsigned_le hwritten
    have hd := length_unsigned_le hdropped
    have he : (unsigned error.toNat).length ≤ 20 := length_unsigned_le (by cases error <;> decide)
    have hlen : (Csv.renderRow [.plain (footer written dropped error)]).length =
        (footer written dropped error).length + 1 := by
      simp [Csv.renderRow, Csv.Field.render]
    have hwords : "# end written=".toList.length = 14 ∧ " dropped=".toList.length = 9 ∧
        " error=".toList.length = 7 := by decide
    rw [hlen]
    unfold footer
    simp only [length_append, hwords]
    exact Nat.le_trans (m := 95) (by omega) (by decide)

theorem isFooter_footer (written dropped : ℕ) (error : Bool) :
    isFooter [footer written dropped error] = true := by
  have hword : "# end written=".toList = "# end".toList ++ " written=".toList := by decide
  rw [isFooter, isPrefixOf_iff_prefix]
  unfold footer
  simp only [hword, append_assoc]
  exact prefix_append _ _

end ExpertPin.Trace

/-!
## Reading a trace back

What the writer makes of a sequence of calls is taken apart by the reader into the
records that the calls admit.  The step is `appended_record`: a record that there is
room for is appended to the file as a row with the next sequence number.
-/

namespace ExpertPin.Trace

open List

/-! ## Rows -/

/-- The rows of some records, numbered from `seq` on. -/
def rows (requestOnly : Bool) (seq : ℕ) (records : List Record) : List (List Csv.Field) :=
  (records.zipIdx seq).map fun p => p.1.fields requestOnly p.2

/-- What these rows say. -/
def values (requestOnly : Bool) (seq : ℕ) (records : List Record) : List (List (List Char)) :=
  (records.zipIdx seq).map fun p => p.1.values requestOnly p.2

variable {requestOnly : Bool} {seq : ℕ} {records : List Record}

theorem rows_append (records' : List Record) : rows requestOnly seq (records ++ records') =
      rows requestOnly seq records ++ rows requestOnly (seq + records.length) records' := by
  rw [rows, zipIdx_append, map_append, ← rows, ← rows]

theorem content_rows : (rows requestOnly seq records).map (List.map Csv.Field.content) =
      values requestOnly seq records := by
  rw [rows, values, map_map]
  refine map_congr_left fun p _ => ?_
  exact p.1.content_fields requestOnly p.2

/-! ## The writer -/

/-- The writer `w'` has appended some records to the file of `w`. -/
structure Appended (w w' : Writer) (records : List Record) : Prop where
  limit : w'.limit = w.limit
  requestOnly : w'.requestOnly = w.requestOnly
  finished : w'.finished = w.finished
  error : w'.error = w.error
  dropped : w'.dropped = w.dropped
  written : w'.written.toNat = w.written.toNat + records.length
  file : w'.file = w.file ++
    Utf8.encode ((rows w.requestOnly w.written.toNat records).flatMap Csv.renderRow)

theorem Appended.trans {w w' w'' : Writer} {records' : List Record} (h : Appended w w' records)
    (h' : Appended w' w'' records') : Appended w w'' (records ++ records') where
  limit := h'.limit.trans h.limit
  requestOnly := h'.requestOnly.trans h.requestOnly
  finished := h'.finished.trans h.finished
  error := h'.error.trans h.error
  dropped := h'.dropped.trans h.dropped
  written := by rw [h'.written, h.written, length_append, Nat.add_assoc]
  file := by
    rw [h'.file, h.file, h.requestOnly, h.written, rows_append, flatMap_append,
      Utf8.encode_append, append_assoc]

theorem appended_setScope (w : Writer) (scope : Scope) : Appended w (w.setScope scope) [] where
  limit := rfl
  requestOnly := rfl
  finished := rfl
  error := rfl
  dropped := rfl
  written := rfl
  file := (append_nil _).symm

@[simp] theorem Writer.record_scope (w : Writer) (a : Access) : (w.record a).scope = w.scope := by
  unfold Writer.record
  split
  · rfl
  · split
    · rfl
    · rfl

/-- Outside of a request nothing is recorded. -/
theorem record_of_phase {w : Writer} (h : w.requestOnly ∧ w.scope.phase = 0) (a : Access) :
    w.record a = w := if_pos (.inr h)

/-- A record that there is room for is appended. -/
theorem appended_record {w : Writer} {a : Access} (h : w.Ready) (hroom : w.written < w.limit)
    (hname : a.NameValid) : Appended w (w.record a) [⟨w.scope, a⟩] := by
  rw [h.record_eq hroom a]
  constructor
  case written => exact Writer.toNat_add_one hroom
  case file =>
    rw [Record.line_eq w a hname]
    simp [rows, Record.text]
  all_goals rfl

theorem appended_run {w : Writer} (calls : List Call) (hfinished : w.finished = false)
    (herror : w.error = false)
    (hroom : w.written.toNat + (admitted w.requestOnly w.scope calls).length ≤ w.limit.toNat)
    (hname : ∀ r ∈ admitted w.requestOnly w.scope calls, r.access.NameValid) :
    Appended w (w.run calls) (admitted w.requestOnly w.scope calls) := by
  induction calls generalizing w with
  | nil => exact appended_setScope w w.scope
  | cons call calls ih =>
    cases call with
    | setScope scope =>
      exact (appended_setScope w scope).trans (ih hfinished herror hroom hname)
    | record a =>
      have hrun : w.run (.record a :: calls) = (w.record a).run calls := rfl
      have ih' := ih (w := w.record a)
      rw [w.record_scope a] at ih'
      by_cases hphase : w.requestOnly ∧ w.scope.phase = 0
      · have hadmitted : admitted w.requestOnly w.scope (.record a :: calls) =
            admitted w.requestOnly w.scope calls := if_pos hphase
        rw [hadmitted] at hroom hname ⊢
        rw [hrun, record_of_phase hphase]
        exact ih hfinished herror hroom hname
      · have hadmitted : admitted w.requestOnly w.scope (.record a :: calls) =
            ⟨w.scope, a⟩ :: admitted w.requestOnly w.scope calls := if_neg hphase
        rw [hadmitted] at hroom hname ⊢
        rw [length_cons] at hroom
        obtain ⟨hvalid, hname'⟩ := forall_mem_cons.mp hname
        have hlt : w.written < w.limit := UInt64.lt_iff_toNat_lt.mpr (by omega)
        have hready : w.Ready :=
          ⟨hfinished, herror, hphase, UInt64.le_iff_toNat_le.mpr (Nat.le_of_lt hlt)⟩
        have hstep := appended_record hready hlt hvalid
        rw [hstep.requestOnly, hstep.written, hstep.limit, length_singleton] at ih'
        exact hstep.trans (ih' (hstep.finished.trans hfinished) (hstep.error.trans herror)
          (by omega) hname')

/-- The file of a trace that has room for its records. -/
theorem written_eq {limit : UInt64} {calls : List Call}
    (hcount : (admitted requestOnly {} calls).length ≤ (min limit maxRecords).toNat)
    (hname : ∀ r ∈ admitted requestOnly {} calls, r.access.NameValid) :
    written limit requestOnly calls = Utf8.encode (header requestOnly ++
        ((rows requestOnly 0 (admitted requestOnly {} calls)).flatMap Csv.renderRow ++
          (footer (admitted requestOnly {} calls).length 0 false ++ ['\n']))) := by
  have hroom : (Writer.new limit requestOnly).written.toNat +
      (admitted requestOnly {} calls).length ≤ (Writer.new limit requestOnly).limit.toNat := by
    rw [Nat.add_comm]
    exact hcount
  have hrun := appended_run (w := Writer.new limit requestOnly) calls rfl rfl hroom hname
  have hwritten : ((Writer.new limit requestOnly).run calls).written.toNat =
      (admitted requestOnly {} calls).length := hrun.written.trans (Nat.zero_add _)
  have hfinished : ¬((Writer.new limit requestOnly).run calls).finished = true := by
    rw [hrun.finished]
    exact Bool.false_ne_true
  rw [written, Writer.finish, if_neg hfinished, hwritten, hrun.dropped, hrun.error, hrun.file]
  simp only [Utf8.encode_append, append_assoc]
  rfl

/-! ## The reader -/

/-- What follows the header is rows. -/
theorem split_header (requestOnly : Bool) (text : List Char) : split (header requestOnly ++ text) =
      (Csv.rowsUntil maxRecordChars isFooter text).map fun p =>
        { columns := columns requestOnly, records := p.1, footer := p.2.1, rest := p.2.2 } := by
  have hheader := header_readable requestOnly
  have hcolumns : columns requestOnly = baseColumns ∨
      columns requestOnly = baseColumns ++ tagColumns := by
    cases requestOnly with
    | false => exact .inl rfl
    | true => exact .inr rfl
  have hcontent : ((columns requestOnly).map Csv.Field.plain).map Csv.Field.content =
      columns requestOnly := by
    rw [map_map]
    exact map_id _
  rw [split, header_eq, Csv.nextRow_render hheader.ne_nil hheader.valid hheader.length_le, hcontent]
  exact if_pos hcolumns

theorem renderRow_footer (n : ℕ) :
    Csv.renderRow [.plain (footer n 0 false)] = footer n 0 false ++ ['\n'] :=
  Csv.renderRow_singleton _

theorem rows_readable (hfit : ∀ p ∈ records.zipIdx seq,
    (p.1.text requestOnly p.2).length ≤ maxRecordChars) :
    ∀ row ∈ rows requestOnly seq records, Csv.Readable maxRecordChars row := by
  intro row hrow
  obtain ⟨p, hp, rfl⟩ := mem_map.mp hrow
  exact p.1.fields_readable requestOnly p.2 (hfit p hp)

theorem isFooter_rows : ∀ row ∈ rows requestOnly seq records,
    isFooter (row.map Csv.Field.content) = false := by
  intro row hrow
  obtain ⟨p, hp, rfl⟩ := mem_map.mp hrow
  rw [p.1.content_fields requestOnly p.2]
  exact p.1.isFooter_values requestOnly p.2

/-- A trace is read back as it was written. -/
theorem split_written (limit : UInt64) (requestOnly : Bool) (calls : List Call)
    (hcount : (admitted requestOnly {} calls).length ≤ (min limit maxRecords).toNat)
    (hname : ∀ r ∈ admitted requestOnly {} calls, r.access.NameValid)
    (hfit : ∀ p ∈ (admitted requestOnly {} calls).zipIdx,
      (p.1.text requestOnly p.2).length ≤ maxRecordChars) :
    (Utf8.decode (written limit requestOnly calls)).bind split = some
      { columns := columns requestOnly
        records := values requestOnly 0 (admitted requestOnly {} calls)
        footer := [footer (admitted requestOnly {} calls).length 0 false]
        rest := [] } := by
  have hlast : Csv.Readable maxRecordChars
      [.plain (footer (admitted requestOnly {} calls).length 0 false)] :=
    footer_readable (Nat.lt_of_le_of_lt hcount (UInt64.toNat_lt _)) (by decide) false
  have hrows := Csv.rowsUntil_render (rows_readable hfit) hlast isFooter_rows
    (isFooter_footer _ 0 false) []
  rw [append_nil, content_rows] at hrows
  rw [written_eq hcount hname, Utf8.decode_encode, Option.bind_some, split_header,
    ← renderRow_footer, hrows]
  rfl

/-- Names with a comma, a quote and both characters of a line end. -/
def quotedCalls : List Call :=
  let access : Access :=
    { entry := 7, epoch := 1, rows := -2, name := Utf8.encode "a\",\r\nb".toList, type := 20
      expert := 3, stride := 64, offset := 192, bytes := 64, hit := true, bypass := false }
  [.record access, .setScope ⟨5, 2, 1, 0, 9⟩, .record access, .setScope ⟨5, 2, 3, 10, 10⟩,
    .record access]

theorem split_written_quotedCalls : (Utf8.decode (written 2 true quotedCalls)).bind split = some
      { columns := columns true
        records := [
          ["0", "7", "1", "-2", "a\",\r\nb", "20", "3", "64", "192", "64", "1", "0",
            "target", "5", "2", "prefill", "0", "9"].map String.toList,
          ["1", "7", "1", "-2", "a\",\r\nb", "20", "3", "64", "192", "64", "1", "0",
            "target", "5", "2", "mixed", "10", "10"].map String.toList]
        footer := ["# end written=2 dropped=0 error=0".toList]
        rest := [] } := by
  have hname : ∀ r ∈ admitted true {} quotedCalls, r.access.NameValid := by
    have hnames : ∀ r ∈ admitted true {} quotedCalls,
        r.access.name = Utf8.encode "a\",\r\nb".toList := by decide +kernel
    intro r hr
    refine ⟨?_, _, hnames r hr⟩
    rw [hnames r hr]
    decide +kernel
  rw [split_written 2 true quotedCalls (by decide +kernel) hname (by decide +kernel)]
  decide +kernel

/-! ## Records that are too long -/

/-- A trace whose first record is one line of too many characters is rejected. -/
theorem split_written_eq_none {limit : UInt64} {calls : List Call} {r : Record}
    (hcount : (admitted requestOnly {} calls).length ≤ (min limit maxRecords).toNat)
    (hname : ∀ r ∈ admitted requestOnly {} calls, r.access.NameValid)
    (hfirst : admitted requestOnly {} calls = r :: records)
    (hline : ∀ c ∈ r.access.nameText, c ≠ '\n' ∧ c ≠ '\r')
    (hlong : maxRecordChars < (r.text requestOnly 0).length) :
    (Utf8.decode (written limit requestOnly calls)).bind split = none := by
  have hrows : rows requestOnly 0 (r :: records) =
      r.fields requestOnly 0 :: rows requestOnly 1 records := rfl
  rw [written_eq hcount hname, Utf8.decode_encode, Option.bind_some, split_header, hfirst, hrows,
    flatMap_cons, append_assoc, ← Record.text, Csv.rowsUntil_of_error]
  · rfl
  · apply Csv.nextRow_eq_error
    rwa [r.takeLine_text requestOnly 0 hline]

/-- A record of the tensor whose name is `n` times the letter `a`. -/
def longAccess (n : ℕ) : Access where
  entry := 0
  epoch := 0
  rows := 1
  name := Utf8.encode (List.replicate n 'a')
  type := 20
  expert := 0
  stride := 64
  offset := 0
  bytes := 64
  hit := false
  bypass := false

theorem nameValid_longAccess (n : ℕ) : (longAccess n).NameValid := by
  refine ⟨fun hzero => ?_, _, rfl⟩
  obtain ⟨c, hc, hbyte⟩ := mem_flatMap.mp hzero
  rw [eq_of_mem_replicate hc] at hbyte
  exact absurd hbyte (by decide)

theorem nameText_longAccess (n : ℕ) : (longAccess n).nameText = List.replicate n 'a' := by
  rw [Access.nameText]
  show (Utf8.decode (Utf8.encode (replicate n 'a'))).getD [] = _
  rw [Utf8.decode_encode]
  rfl

theorem split_written_longAccess {n : ℕ} (h : maxRecordChars ≤ n) :
    (Utf8.decode (written 1 false [.record (longAccess n)])).bind split = none := by
  have hname := nameValid_longAccess n
  have hline : ∀ c ∈ (longAccess n).nameText, c ≠ '\n' ∧ c ≠ '\r' := by
    rw [nameText_longAccess]
    intro c hc
    rw [eq_of_mem_replicate hc]
    decide
  have hadmitted : admitted false {} [.record (longAccess n)] = [⟨{}, longAccess n⟩] := rfl
  refine split_written_eq_none (r := ⟨{}, longAccess n⟩) ?_ ?_ hadmitted hline ?_
  · rw [hadmitted]
    exact show 1 ≤ (min (1 : UInt64) maxRecords).toNat by decide
  · rw [hadmitted, forall_mem_singleton]
    exact hname
  · have hlen := Record.length_nameText_lt false ⟨{}, longAccess n⟩ 0
    rw [nameText_longAccess, length_replicate] at hlen
    exact Nat.lt_of_le_of_lt h hlen

/-- The reader rejects what the writer makes of a name of 65536 characters. -/
theorem split_written_longName :
    (admitted false {} [.record (longAccess 65536)]).length ≤ (min 1 maxRecords).toNat ∧
      (longAccess 65536).NameValid ∧
      (Utf8.decode (written 1 false [.record (longAccess 65536)])).bind split = none :=
  ⟨by decide, nameValid_longAccess _, split_written_longAccess (Nat.le_refl _)⟩

end ExpertPin.Trace
