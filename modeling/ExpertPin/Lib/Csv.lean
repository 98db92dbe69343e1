import Mathlib.Data.List.Basic
import Mathlib.Algebra.GroupWithZero.Nat

/-!
# Reading comma-separated values

The strict reader of Python's `csv` module with the default dialect, as the state
machine that it is, over an iterator of physical lines with a budget of characters
for each record.  A line ends after `\n`, `\r` or `\r\n`, as it does in a text file
that is opened with untranslated universal newlines, so a quoted field may span
lines.  The reader's limit on the length of a field is not modelled: it is meant for
budgets below it.

`nextRow_render`, `rowsUntil_render`: what is rendered, with each field plain or quoted,
is read back.  `rowsUntil_append`: a text that ends with a complete line is read in the same
way when another one follows it.
-/

namespace ExpertPin.Csv

open List

/-! ## Lines -/

/-- The first physical line of a text. -/
def takeLine : List Char → List Char
  | [] => []
  | '\n' :: _ => ['\n']
  | '\r' :: '\n' :: _ => ['\r', '\n']
  | '\r' :: _ => ['\r']
  | c :: text => c :: takeLine text

/-- At most `limit` characters of it. -/
def readline (limit : ℕ) (text : List Char) : List Char := (takeLine text).take limit

/-! ## The state machine -/

inductive State where
  | startRecord
  | startField
  | inField
  | inQuotedField
  | quoteInQuotedField
  | eatCrnl
deriving DecidableEq, Repr

structure Reader where
  state : State := .startRecord
  field : List Char := []
  fields : List (List Char) := []
deriving DecidableEq, Repr

namespace Reader

def saveField (r : Reader) : Reader := { r with field := [], fields := r.fields ++ [r.field] }

def addChar (r : Reader) (c : Char) : Reader := { r with field := r.field ++ [c] }

def goto (r : Reader) (state : State) : Reader := { r with state }

/-- The state at the start of a field. -/
def startField (r : Reader) (c : Char) : Reader :=
  if c = '\n' ∨ c = '\r' then r.saveField.goto .eatCrnl
  else if c = '"' then r.goto .inQuotedField
  else if c = ',' then r.saveField.goto .startField
  else (r.addChar c).goto .inField

/-- A character of a line, unless it is illegal. -/
def process (r : Reader) (c : Char) : Option Reader :=
  match r.state with
  | .startRecord => some (if c = '\n' ∨ c = '\r' then r.goto .eatCrnl else r.startField c)
  | .startField => some (r.startField c)
  | .inField =>
    some (if c = '\n' ∨ c = '\r' then r.saveField.goto .eatCrnl
      else if c = ',' then r.saveField.goto .startField
      else r.addChar c)
  | .inQuotedField => some (if c = '"' then r.goto .quoteInQuotedField else r.addChar c)
  | .quoteInQuotedField =>
    if c = '"' then some ((r.addChar c).goto .inQuotedField)
    else if c = ',' then some (r.saveField.goto .startField)
    else if c = '\n' ∨ c = '\r' then some (r.saveField.goto .eatCrnl)
    else none
  | .eatCrnl => if c = '\n' ∨ c = '\r' then some r else none

/-- The end of a line, which the machine is told after its characters. -/
def endLine (r : Reader) : Reader :=
  match r.state with
  | .startRecord => r
  | .inQuotedField => r
  | .eatCrnl => r.goto .startRecord
  | _ => r.saveField.goto .startRecord

def feed (r : Reader) (line : List Char) : Option Reader :=
  (line.foldlM process r).map endLine

end Reader

/-! ## Rows -/

inductive Result where
  /-- A row, and the text that is left. -/
  | row (fields : List (List Char)) (rest : List Char)
  /-- The text ends before a row begins. -/
  | stop
  /-- An exception. -/
  | error
deriving DecidableEq, Repr

theorem takeLine_ne_nil {text : List Char} (h : text ≠ []) : takeLine text ≠ [] := by
  unfold takeLine
  split
  · exact absurd rfl h
  all_goals simp

theorem length_drop_lt {text : List Char} (h : text ≠ []) (limit : ℕ) :
    (text.drop (readline (limit + 1) text).length).length < text.length := by
  have hline : 0 < (takeLine text).length := length_pos_iff.mpr (takeLine_ne_nil h)
  have htext : 0 < text.length := length_pos_iff.mpr h
  rw [length_drop, readline, length_take]
  omega

/-- The next row, by the reader `r` and with `used` characters of the budget `cap`
used. -/
def nextRow (cap : ℕ) (r : Reader) (used : ℕ) (text : List Char) : Result :=
  if _h : text = [] then
    if r.field ≠ [] ∨ r.state = .inQuotedField then .error else .stop
  else
    let line := readline (cap + 1) text
    if used + line.length > cap then .error
    else
      match r.feed line with
      | none => .error
      | some r =>
        if r.state = .startRecord then .row r.fields (text.drop line.length)
        else nextRow cap r (used + line.length) (text.drop line.length)
termination_by text.length
decreasing_by exact length_drop_lt _h cap

variable {fields : List (List Char)}

theorem length_lt_of_nextRow {cap used : ℕ} {r : Reader} {text rest : List Char}
    (h : nextRow cap r used text = .row fields rest) :
    rest.length < text.length := by
  fun_induction nextRow cap r used text with
  | case5 r used text hne line hlen r' hfeed hstate =>
    obtain ⟨rfl, rfl⟩ := Result.row.inj h
    exact length_drop_lt hne cap
  | case6 r used text hne line hlen r' hfeed hstate ih =>
    exact Nat.lt_trans (ih h) (length_drop_lt hne cap)
  | _ => exact absurd h (by simp)

/-- The rows of a text up to the first one that is last: those before it, that row, and
what is left then. -/
def rowsUntil (cap : ℕ) (isLast : List (List Char) → Bool) (text : List Char) :
    Option (List (List (List Char)) × List (List Char) × List Char) :=
  match _h : nextRow cap {} 0 text with
  | .row fields rest =>
    if isLast fields then some ([], fields, rest)
    else (rowsUntil cap isLast rest).map fun p => (fields :: p.1, p.2)
  | _ => none
termination_by text.length
decreasing_by exact length_lt_of_nextRow _h

variable {isLast : List (List Char) → Bool}

theorem rowsUntil_of_row {cap : ℕ} {text rest : List Char}
    (h : nextRow cap {} 0 text = .row fields rest) :
    rowsUntil cap isLast text = if isLast fields then some ([], fields, rest)
      else (rowsUntil cap isLast rest).map fun p => (fields :: p.1, p.2) := by
  rw [rowsUntil]
  split
  · next fields' rest' h' =>
      obtain ⟨rfl, rfl⟩ := Result.row.inj (h'.symm.trans h)
      rfl
  · next hnot => exact absurd h (hnot _ _)

theorem rowsUntil_of_error {cap : ℕ} {text : List Char}
    (h : nextRow cap {} 0 text = .error) : rowsUntil cap isLast text = none := by
  rw [rowsUntil]
  split
  · next fields rest h' => exact absurd (h.symm.trans h') (by simp)
  · rfl

/-! ## Reading on within a line -/

/-- Reading on in the middle of a line, `used` counting the characters before. -/
def continueLine (cap : ℕ) (r : Reader) (used : ℕ) (text : List Char) : Result :=
  if used + (takeLine text).length > cap then .error
  else
    match r.feed (takeLine text) with
    | none => .error
    | some r =>
      if r.state = .startRecord then .row r.fields (text.drop (takeLine text).length)
      else nextRow cap r (used + (takeLine text).length) (text.drop (takeLine text).length)

theorem nextRow_eq_continueLine {cap used : ℕ} {r : Reader} {text : List Char} (h : text ≠ []) :
    nextRow cap r used text = continueLine cap r used text := by
  rw [nextRow, dif_neg h, continueLine]
  by_cases hlen : (takeLine text).length ≤ cap + 1
  · rw [readline, take_of_length_le hlen]
  · have hline : (readline (cap + 1) text).length = cap + 1 := by
      rw [readline, length_take]
      omega
    rw [if_pos (by omega), if_pos (by omega)]

variable {cap used : ℕ} {r r' : Reader} {text : List Char}

variable {c : Char}

theorem takeLine_cons (hn : c ≠ '\n') (hr : c ≠ '\r') (text : List Char) :
    takeLine (c :: text) = c :: takeLine text := by
  rw [takeLine]
  all_goals simp_all

theorem Reader.feed_cons (h : r.process c = some r') (line : List Char) :
    r.feed (c :: line) = r'.feed line := by
  rw [feed, foldlM_cons, h]
  rfl

/-- One character of a line further on. -/
theorem continueLine_cons (hn : c ≠ '\n') (hr : c ≠ '\r') (h : r.process c = some r') :
    continueLine cap r used (c :: text) = continueLine cap r' (used + 1) text := by
  have hlen : used + (takeLine (c :: text)).length = used + 1 + (takeLine text).length := by
    rw [takeLine_cons hn hr, length_cons, Nat.add_right_comm, Nat.add_assoc]
  have hdrop : (c :: text).drop (takeLine (c :: text)).length =
      text.drop (takeLine text).length := by
    rw [takeLine_cons hn hr, length_cons, drop_succ_cons]
  rw [continueLine, continueLine, hlen, hdrop, takeLine_cons hn hr, Reader.feed_cons h]

/-- The rest of a line at once. -/
theorem continueLine_line {line : List Char} (hline : takeLine (line ++ text) = line)
    (hused : used + line.length ≤ cap) (hfeed : r.feed line = some r') :
    continueLine cap r used (line ++ text) = if r'.state = .startRecord then .row r'.fields text
      else nextRow cap r' (used + line.length) text := by
  rw [continueLine, hline, if_neg (Nat.not_lt.mpr hused), hfeed, drop_left]

/-! ## Quoted fields -/

/-- Every quote twice. -/
def escape (cs : List Char) : List Char := cs.flatMap fun c => if c = '"' then ['"', '"'] else [c]

/-- In a quoted field a line may end anywhere. -/
theorem continueLine_newline (hr : r.state = .inQuotedField) (hused : used + 1 ≤ cap)
    (htext : text ≠ []) :
    continueLine cap r used ('\n' :: text) = continueLine cap (r.addChar '\n') (used + 1) text := by
  have hfeed : r.feed ['\n'] = some (r.addChar '\n') := by
    simp [Reader.feed, Reader.process, Reader.endLine, Reader.addChar, hr]
  have hline : takeLine (['\n'] ++ text) = ['\n'] := by rw [singleton_append, takeLine]
  have hstate : (r.addChar '\n').state ≠ .startRecord := by simp [Reader.addChar, hr]
  have hread := continueLine_line hline hused hfeed
  rw [if_neg hstate] at hread
  exact hread.trans (nextRow_eq_continueLine htext)

theorem continueLine_return (hr : r.state = .inQuotedField) (hused : used + 1 ≤ cap)
    (htext : text ≠ [])
    (hnext : ∀ rest, text = '\n' :: rest → used + 2 ≤ cap ∧ rest ≠ []) :
    continueLine cap r used ('\r' :: text) = continueLine cap (r.addChar '\r') (used + 1) text := by
  by_cases hcrlf : ∃ rest, text = '\n' :: rest
  · -- `\r\n` is one line end, and the two characters are read together
    obtain ⟨rest, rfl⟩ := hcrlf
    obtain ⟨hused', hrest⟩ := hnext rest rfl
    have hfeed : r.feed ['\r', '\n'] = some ((r.addChar '\r').addChar '\n') := by
      simp [Reader.feed, Reader.process, Reader.endLine, Reader.addChar, hr]
    have hline : takeLine (['\r', '\n'] ++ rest) = ['\r', '\n'] := by
      rw [cons_append, singleton_append, takeLine]
    have hstate : ((r.addChar '\r').addChar '\n').state ≠ .startRecord := by
      simp [Reader.addChar, hr]
    have hread := continueLine_line hline hused' hfeed
    rw [if_neg hstate] at hread
    rw [continueLine_newline (r := r.addChar '\r') hr hused' hrest]
    exact hread.trans (nextRow_eq_continueLine hrest)
  · have hfeed : r.feed ['\r'] = some (r.addChar '\r') := by
      simp [Reader.feed, Reader.process, Reader.endLine, Reader.addChar, hr]
    have hline : takeLine (['\r'] ++ text) = ['\r'] := by
      rw [singleton_append, takeLine]
      exact fun rest h => hcrlf ⟨rest, h⟩
    have hstate : (r.addChar '\r').state ≠ .startRecord := by simp [Reader.addChar, hr]
    have hread := continueLine_line hline hused hfeed
    rw [if_neg hstate] at hread
    exact hread.trans (nextRow_eq_continueLine htext)

/-- The content of a quoted field, up to a quote that ends it. -/
theorem continueLine_escape (cs : List Char) (hr : r.state = .inQuotedField)
    (hused : used + (escape cs).length ≤ cap) (text : List Char) :
    continueLine cap r used (escape cs ++ '"' :: text) =
      continueLine cap { r with field := r.field ++ cs } (used + (escape cs).length)
        ('"' :: text) := by
  induction cs generalizing r used with
  | nil => simp [escape]
  | cons c cs ih =>
    have hadd : { r.addChar c with field := (r.addChar c).field ++ cs } =
        { r with field := r.field ++ c :: cs } := by
      simp [Reader.addChar]
    have hstate : (r.addChar c).state = .inQuotedField := hr
    have htail : escape cs ++ '"' :: text ≠ [] := append_ne_nil_of_right_ne_nil _ (by simp)
    by_cases hq : c = '"'
    · subst hq
      have hescape : escape ('"' :: cs) = '"' :: '"' :: escape cs := rfl
      have hclose : r.process '"' = some (r.goto .quoteInQuotedField) := by
        simp [Reader.process, hr]
      have hopen : (r.goto .quoteInQuotedField).process '"' = some (r.addChar '"') := by
        simp [Reader.process, Reader.goto, Reader.addChar, ← hr]
      rw [hescape, length_cons, length_cons] at hused ⊢
      rw [cons_append, cons_append, continueLine_cons (by decide) (by decide) hclose,
        continueLine_cons (by decide) (by decide) hopen, ih hstate (by omega), hadd]
      congr 1
      omega
    · have hescape : escape (c :: cs) = c :: escape cs := by simp [escape, hq]
      have hprocess : r.process c = some (r.addChar c) := by simp [Reader.process, hr, hq]
      have hstep : continueLine cap r used (c :: (escape cs ++ '"' :: text)) =
          continueLine cap (r.addChar c) (used + 1) (escape cs ++ '"' :: text) := by
        rw [hescape, length_cons] at hused
        by_cases hn : c = '\n'
        · subst hn
          exact continueLine_newline hr (by omega) htail
        · by_cases hret : c = '\r'
          · subst hret
            refine continueLine_return hr (by omega) htail fun rest hrest => ?_
            cases cs with
            | nil => simp [escape] at hrest
            | cons d ds =>
              have hd : d ≠ '"' := by
                rintro rfl
                simp [escape] at hrest
              have hds : escape (d :: ds) = d :: escape ds := by simp [escape, hd]
              rw [hds] at hrest hused
              obtain ⟨rfl, rfl⟩ := cons_eq_cons.mp hrest
              rw [length_cons] at hused
              exact ⟨by omega, append_ne_nil_of_right_ne_nil _ (by simp)⟩
          · exact continueLine_cons hn hret hprocess
      rw [hescape, length_cons] at hused ⊢
      rw [cons_append, hstep, ih hstate (by omega), hadd]
      congr 1
      omega

/-! ## Rows of plain and quoted fields -/

/-- A field as it is written. -/
inductive Field where
  | plain (cs : List Char)
  | quoted (cs : List Char)

namespace Field

def content : Field → List Char
  | .plain cs => cs
  | .quoted cs => cs

def render : Field → List Char
  | .plain cs => cs
  | .quoted cs => '"' :: escape cs ++ ['"']

/-- A plain field is not empty and has no character that means anything. -/
def Valid : Field → Prop
  | .plain cs => cs ≠ [] ∧ ∀ c ∈ cs, c ≠ ',' ∧ c ≠ '"' ∧ c ≠ '\n' ∧ c ≠ '\r'
  | .quoted _ => True

end Field

/-- The fields of a row, and the end of its last line. -/
def renderRow (fields : List Field) : List Char :=
  List.intercalate [','] (fields.map Field.render) ++ ['\n']

theorem renderRow_singleton (field : Field) : renderRow [field] = field.render ++ ['\n'] := by
  simp [renderRow]

theorem renderRow_cons_cons (field next : Field) (fields : List Field) :
    renderRow (field :: next :: fields) = field.render ++ ',' :: renderRow (next :: fields) := by
  simp [renderRow, intercalate]

theorem length_renderRow {fields : List Field} (h : fields ≠ []) :
    (renderRow fields).length = (fields.map fun field => field.render.length + 1).sum := by
  induction fields with
  | nil => exact absurd rfl h
  | cons field fields ih =>
    cases fields with
    | nil => simp [renderRow_singleton]
    | cons next fields =>
      rw [renderRow_cons_cons, length_append, length_cons,
        ih (cons_ne_nil _ _), map_cons (l := next :: fields), sum_cons]
      omega

/-- The reader stands where a field begins. -/
def Reader.AtField (r : Reader) : Prop :=
  (r.state = .startRecord ∨ r.state = .startField) ∧ r.field = []

/-- The reader stands where a field may end. -/
def Reader.Complete (r : Reader) : Prop := r.state = .inField ∨ r.state = .quoteInQuotedField

theorem Reader.AtField.process (hr : r.AtField) (hn : c ≠ '\n') (hret : c ≠ '\r') :
    r.process c = some (r.startField c) := by
  rcases hr.1 with h | h
  · simp [Reader.process, h, hn, hret]
  · simp [Reader.process, h]

variable {cs : List Char}

/-- The rest of a plain field. -/
theorem continueLine_inField (hr : r.state = .inField)
    (h : ∀ c ∈ cs, c ≠ ',' ∧ c ≠ '"' ∧ c ≠ '\n' ∧ c ≠ '\r') (text : List Char) :
    continueLine cap r used (cs ++ text) =
      continueLine cap { r with field := r.field ++ cs } (used + cs.length) text := by
  induction cs generalizing r used with
  | nil => simp
  | cons c cs ih =>
    obtain ⟨hcomma, -, hn, hret⟩ := h c mem_cons_self
    have hprocess : r.process c = some (r.addChar c) := by
      simp [Reader.process, hr, hcomma, hn, hret]
    have hstate : (r.addChar c).state = .inField := hr
    rw [cons_append, continueLine_cons hn hret hprocess,
      ih hstate fun d hd => h d (mem_cons_of_mem c hd), length_cons]
    simp [Reader.addChar, Nat.add_assoc, Nat.add_comm 1]

theorem continueLine_plain (hr : r.AtField) (h : (Field.plain cs).Valid)
    (text : List Char) :
    continueLine cap r used (cs ++ text) =
      continueLine cap ⟨.inField, cs, r.fields⟩ (used + cs.length) text := by
  obtain ⟨hne, hplain⟩ := h
  cases cs with
  | nil => exact absurd rfl hne
  | cons c cs =>
    obtain ⟨hcomma, hquote, hn, hret⟩ := hplain c mem_cons_self
    have hprocess : r.process c = some ⟨.inField, [c], r.fields⟩ := by
      rw [hr.process hn hret]
      simp [Reader.startField, Reader.addChar, Reader.goto, hcomma, hquote, hn, hret, hr.2]
    rw [cons_append, continueLine_cons hn hret hprocess,
      continueLine_inField rfl fun d hd => hplain d (mem_cons_of_mem c hd), length_cons]
    simp [Nat.add_assoc, Nat.add_comm 1]

theorem continueLine_quoted (hr : r.AtField)
    (hused : used + (Field.quoted cs).render.length ≤ cap) (text : List Char) :
    continueLine cap r used ((Field.quoted cs).render ++ text) =
      continueLine cap ⟨.quoteInQuotedField, cs, r.fields⟩
        (used + (Field.quoted cs).render.length) text := by
  have hrender : (Field.quoted cs).render ++ text = '"' :: (escape cs ++ '"' :: text) := by
    simp [Field.render]
  have hlen : (Field.quoted cs).render.length = 1 + (escape cs).length + 1 := by
    simp [Field.render, Nat.add_comm 1]
  rw [hlen] at hused ⊢
  have hopen : r.process '"' = some ⟨.inQuotedField, [], r.fields⟩ := by
    rw [hr.process (by decide) (by decide)]
    simp [Reader.startField, Reader.goto, hr.2]
  have hclose : Reader.process ⟨.inQuotedField, cs, r.fields⟩ '"' =
      some ⟨.quoteInQuotedField, cs, r.fields⟩ := by
    simp [Reader.process, Reader.goto]
  rw [hrender, continueLine_cons (by decide) (by decide) hopen,
    continueLine_escape cs (r := ⟨.inQuotedField, [], r.fields⟩) rfl (by omega) text,
    nil_append, continueLine_cons (by decide) (by decide) hclose]
  congr 1
  omega

theorem continueLine_field {field : Field} (hr : r.AtField) (h : field.Valid)
    (hused : used + field.render.length ≤ cap) (text : List Char) :
    ∃ r' : Reader, r'.Complete ∧ r'.field = field.content ∧ r'.fields = r.fields ∧
      continueLine cap r used (field.render ++ text) =
        continueLine cap r' (used + field.render.length) text := by
  cases field with
  | plain cs =>
    exact ⟨⟨.inField, cs, r.fields⟩, .inl rfl, rfl, rfl, continueLine_plain hr h text⟩
  | quoted cs =>
    exact ⟨⟨.quoteInQuotedField, cs, r.fields⟩, .inr rfl, rfl, rfl,
      continueLine_quoted hr hused text⟩

/-- A comma ends a field, and the next one begins. -/
theorem Reader.Complete.comma (hr : r.Complete) : continueLine cap r used (',' :: text) =
      continueLine cap ⟨.startField, [], r.fields ++ [r.field]⟩ (used + 1) text := by
  refine continueLine_cons (by decide) (by decide) ?_
  rcases hr with h | h
  · simp [process, h, saveField, goto]
  · simp [process, h, saveField, goto]

/-- The end of a line ends a field and the row. -/
theorem Reader.Complete.newline (hr : r.Complete) (hused : used + 1 ≤ cap) :
    continueLine cap r used ('\n' :: text) = .row (r.fields ++ [r.field]) text := by
  have hline : takeLine (['\n'] ++ text) = ['\n'] := by rw [singleton_append, takeLine]
  have hfeed : r.feed ['\n'] = some ⟨.startRecord, [], r.fields ++ [r.field]⟩ := by
    rcases hr with h | h
    · simp [feed, process, h, endLine, saveField, goto]
    · simp [feed, process, h, endLine, saveField, goto]
  exact (continueLine_line hline hused hfeed).trans (if_pos rfl)

theorem continueLine_fields {fields : List Field} (hne : fields ≠ []) (hr : r.AtField)
    (h : ∀ field ∈ fields, field.Valid) (hused : used + (renderRow fields).length ≤ cap)
    (rest : List Char) :
    continueLine cap r used (renderRow fields ++ rest) =
      .row (r.fields ++ fields.map Field.content) rest := by
  induction fields generalizing r used with
  | nil => exact absurd rfl hne
  | cons field fields ih =>
    have hfield := h field mem_cons_self
    cases fields with
    | nil =>
      have hrender : renderRow [field] ++ rest = field.render ++ '\n' :: rest := by
        rw [renderRow_singleton, append_assoc, singleton_append]
      rw [renderRow_singleton, length_append, length_singleton] at hused
      have hfit : used + field.render.length ≤ cap := by omega
      obtain ⟨r', hcomplete, hcontent, hfields, hread⟩ :=
        continueLine_field hr hfield hfit ('\n' :: rest)
      rw [hrender, hread, hcomplete.newline (by omega), hfields, hcontent]
      rfl
    | cons next fields =>
      have hrender : renderRow (field :: next :: fields) ++ rest =
          field.render ++ ',' :: (renderRow (next :: fields) ++ rest) := by
        rw [renderRow_cons_cons, append_assoc, cons_append]
      rw [renderRow_cons_cons, length_append, length_cons] at hused
      have hfit : used + field.render.length ≤ cap := by omega
      obtain ⟨r', hcomplete, hcontent, hfields, hread⟩ :=
        continueLine_field hr hfield hfit (',' :: (renderRow (next :: fields) ++ rest))
      rw [hrender, hread, hcomplete.comma, hfields, hcontent,
        ih (by simp) ⟨.inr rfl, rfl⟩ (fun f hf => h f (mem_cons_of_mem _ hf)) (by omega)]
      simp

/-- A row that fits into the budget is read as it was written. -/
theorem nextRow_render {fields : List Field} (hne : fields ≠ [])
    (h : ∀ field ∈ fields, field.Valid) (hlen : (renderRow fields).length ≤ cap)
    (rest : List Char) :
    nextRow cap {} 0 (renderRow fields ++ rest) = .row (fields.map Field.content) rest := by
  have htext : renderRow fields ++ rest ≠ [] := by simp [renderRow]
  rw [nextRow_eq_continueLine htext,
    continueLine_fields hne ⟨.inl rfl, rfl⟩ h (by simpa using hlen)]
  rfl

/-- What `nextRow` reads back: a row of at least one field that fits into the budget. -/
structure Readable (cap : ℕ) (fields : List Field) : Prop where
  ne_nil : fields ≠ []
  valid : ∀ field ∈ fields, field.Valid
  length_le : (renderRow fields).length ≤ cap

/-- Rows are read back one after the other. -/
theorem rowsUntil_render {rows : List (List Field)}
    {last : List Field} (hrows : ∀ row ∈ rows, Readable cap row) (hlast : Readable cap last)
    (hnot : ∀ row ∈ rows, isLast (row.map Field.content) = false)
    (his : isLast (last.map Field.content) = true) (rest : List Char) :
    rowsUntil cap isLast (rows.flatMap renderRow ++ (renderRow last ++ rest)) =
      some (rows.map (List.map Field.content), last.map Field.content, rest) := by
  induction rows with
  | nil =>
    have hread := nextRow_render hlast.ne_nil hlast.valid hlast.length_le rest
    rw [flatMap_nil, nil_append, rowsUntil_of_row hread, if_pos his]
    rfl
  | cons row rows ih =>
    have hrow := hrows row mem_cons_self
    have hread := nextRow_render hrow.ne_nil hrow.valid hrow.length_le
      (rows.flatMap renderRow ++ (renderRow last ++ rest))
    have hne : ¬isLast (row.map Field.content) = true := by
      rw [hnot row mem_cons_self]
      exact Bool.false_ne_true
    rw [flatMap_cons, append_assoc, rowsUntil_of_row hread, if_neg hne,
      ih (fun r hr => hrows r (mem_cons_of_mem row hr))
        fun r hr => hnot r (mem_cons_of_mem row hr)]
    rfl

/-! ## A text with another one behind it -/

/-- The last line of a text is complete. -/
def EndsLine (text : List Char) : Prop := ['\n'] <:+ text

variable {rest : List Char}

theorem EndsLine.of_suffix (h : EndsLine text) (hrest : rest <:+ text)
    (hne : rest ≠ []) : EndsLine rest :=
  suffix_of_suffix_length_le h hrest (length_pos_iff.mpr hne)

theorem EndsLine.of_cons (h : EndsLine (c :: text)) (hc : c ≠ '\n') :
    EndsLine text := by
  refine h.of_suffix (suffix_cons c text) ?_
  rintro rfl
  exact hc (cons_eq_cons.mp (h.eq_of_length rfl)).1.symm

/-- A complete line is not longer for what comes behind it. -/
theorem EndsLine.takeLine_append (h : EndsLine text) (more : List Char) :
    takeLine (text ++ more) = takeLine text := by
  induction text using takeLine.induct with
  | case1 => exact absurd h.length_le (Nat.not_succ_le_zero 0)
  | case2 text => rfl
  | case3 text => rfl
  | case4 text hnot =>
    -- something follows the return that is no line feed
    have htext := h.of_cons (by decide)
    have hmore : ∀ rest, text ++ more ≠ '\n' :: rest := by
      cases text with
      | nil => exact absurd htext.length_le (Nat.not_succ_le_zero 0)
      | cons c text =>
        intro rest heq
        obtain ⟨rfl, -⟩ := cons_eq_cons.mp heq
        exact hnot text rfl
    rw [cons_append, takeLine, takeLine]
    · exact hnot
    · exact hmore
  | case5 c text hn hcrlf hr ih =>
    rw [cons_append, takeLine_cons hn hr, takeLine_cons hn hr, ih (h.of_cons hn)]

theorem takeLine_isPrefix (text : List Char) : takeLine text <+: text := by
  induction text using takeLine.induct with
  | case1 => exact prefix_refl _
  | case2 text => exact ⟨text, rfl⟩
  | case3 text => exact ⟨text, rfl⟩
  | case4 text hnot =>
    rw [takeLine]
    · exact ⟨text, rfl⟩
    · exact hnot
  | case5 c text hn hcrlf hr ih =>
    rw [takeLine_cons hn hr]
    exact cons_prefix_cons.mpr ⟨rfl, ih⟩

theorem nextRow_nil_ne_row :
    nextRow cap r used [] ≠ .row fields rest := by
  rw [nextRow, dif_pos rfl]
  split
  · exact Result.noConfusion
  · exact Result.noConfusion

theorem rowsUntil_nil : rowsUntil cap isLast [] = none := by
  rw [rowsUntil]
  split
  · next hread => exact absurd hread nextRow_nil_ne_row
  · rfl

/-- A row that was read is read again, whatever comes behind the text. -/
theorem nextRow_append (htext : EndsLine text)
    (h : nextRow cap r used text = .row fields rest) (more : List Char) :
    nextRow cap r used (text ++ more) = .row fields (rest ++ more) ∧ rest <:+ text := by
  induction hn : text.length using Nat.strongRecOn generalizing text r used with
  | ind n ih =>
    have hne : text ≠ [] := by
      rintro rfl
      exact nextRow_nil_ne_row h
    have hdrop : (text ++ more).drop (takeLine text).length =
        text.drop (takeLine text).length ++ more :=
      drop_append_of_le_length (takeLine_isPrefix text).length_le
    have hsuffix : text.drop (takeLine text).length <:+ text := drop_suffix _ _
    rw [nextRow_eq_continueLine hne, continueLine] at h
    rw [nextRow_eq_continueLine (append_ne_nil_of_left_ne_nil hne more), continueLine,
      htext.takeLine_append, hdrop]
    split at h
    case isTrue => exact Result.noConfusion h
    case isFalse hlen =>
      rw [if_neg hlen]
      split at h
      case h_1 => exact Result.noConfusion h
      case h_2 r' hfeed =>
        split at h
        case isTrue hstate =>
          obtain ⟨rfl, rfl⟩ := Result.row.inj h
          exact ⟨if_pos hstate, hsuffix⟩
        case isFalse hstate =>
          -- the row goes on in the next line
          have hnext : text.drop (takeLine text).length ≠ [] := by
            intro hnil
            rw [hnil] at h
            exact nextRow_nil_ne_row h
          have hlt : (text.drop (takeLine text).length).length < n := by
            rw [length_drop, hn]
            exact Nat.sub_lt (hn ▸ length_pos_iff.mpr hne)
              (length_pos_iff.mpr (takeLine_ne_nil hne))
          obtain ⟨hread, hrest⟩ := ih _ hlt (htext.of_suffix hsuffix hnext) h rfl
          exact ⟨(if_neg hstate).trans hread, hrest.trans hsuffix⟩

/-- So are the rows up to the last one. -/
theorem rowsUntil_append {rows : List (List (List Char))}
    {last : List (List Char)} (htext : EndsLine text)
    (h : rowsUntil cap isLast text = some (rows, last, rest)) (more : List Char) :
    rowsUntil cap isLast (text ++ more) = some (rows, last, rest ++ more) := by
  fun_induction rowsUntil cap isLast text generalizing rows with
  | case1 text fields rest' hread hlast =>
    cases h
    rw [rowsUntil_of_row (nextRow_append htext hread more).1, if_pos hlast]
  | case2 text fields rest' hread hlast ih =>
    obtain ⟨⟨rows', last', rest''⟩, hrows, heq⟩ := Option.map_eq_some_iff.mp h
    cases heq
    obtain ⟨hread', hsuffix⟩ := nextRow_append htext hread more
    have hne : rest' ≠ [] := by
      rintro rfl
      exact Option.some_ne_none _ (hrows.symm.trans rowsUntil_nil)
    rw [rowsUntil_of_row hread', if_neg hlast, ih (htext.of_suffix hsuffix hne) hrows]
    rfl
  | case3 => cases h

/-! ## Rows that exceed the budget -/

theorem takeLine_append {line : List Char} (h : ∀ c ∈ line, c ≠ '\n' ∧ c ≠ '\r')
    (text : List Char) : takeLine (line ++ text) = line ++ takeLine text := by
  induction line with
  | nil => rfl
  | cons c line ih =>
    obtain ⟨hn, hr⟩ := h c mem_cons_self
    rw [cons_append, takeLine_cons hn hr, ih fun d hd => h d (mem_cons_of_mem c hd)]
    rfl

theorem eq_or_mem_of_mem_render_quoted
    (h : c ∈ (Field.quoted cs).render) : c = '"' ∨ c ∈ cs := by
  have hcases : c = '"' ∨ c ∈ escape cs := by
    simpa [Field.render, or_comm, or_assoc] using h
  rcases hcases with hq | hc
  · exact .inl hq
  · obtain ⟨d, hd, hcd⟩ := mem_flatMap.mp hc
    split at hcd
    · exact .inl (by simpa using hcd)
    · exact .inr (mem_singleton.mp hcd ▸ hd)

/-- A row of fields without line ends is one line. -/
theorem takeLine_renderRow {fields : List Field} (hne : fields ≠ [])
    (h : ∀ field ∈ fields, ∀ c ∈ field.render, c ≠ '\n' ∧ c ≠ '\r') (rest : List Char) :
    takeLine (renderRow fields ++ rest) = renderRow fields := by
  induction fields with
  | nil => exact absurd rfl hne
  | cons field fields ih =>
    have hfield := h field mem_cons_self
    cases fields with
    | nil =>
      rw [renderRow_singleton, append_assoc, takeLine_append hfield,
        singleton_append, takeLine]
    | cons next fields =>
      have hrest := ih (cons_ne_nil _ _) fun f hf => h f (mem_cons_of_mem field hf)
      rw [renderRow_cons_cons, append_assoc, takeLine_append hfield, cons_append,
        takeLine_cons (by decide) (by decide), hrest]

/-- A text whose first line exceeds the budget is rejected. -/
theorem nextRow_eq_error (h : cap < (takeLine text).length) : nextRow cap {} 0 text = .error := by
  have htext : text ≠ [] := by
    rintro rfl
    simp [takeLine] at h
  rw [nextRow_eq_continueLine htext, continueLine, Nat.zero_add, if_pos h]

end ExpertPin.Csv
