import ExpertPin.Lib.ParsingExpressions
import ExpertPin.Lib.Utf8
import ExpertPin.Peg.Parser

/-!
# What parsers stand for

The parsers are documented by parsing expressions, and an arena is a grammar of them over a
text.  A character is one of the text, read by the decoding of the language and not by the
parser's own; the two are the same on the bytes of a text (`parseUtf8Codepoint_encode`).
-/

namespace ExpertPin.Peg

open ParsingExpressions
open Utf8
open List
open Option
open Nat

/-! ## Terminals -/

section Terminals

variable (text : Text)

def charAt (pos : ℕ) : Option Char := firstChar (text.drop pos)

/-- A character of a class. -/
def charIn (p : ℕ → Bool) (pos : ℕ) : Option ℕ :=
  (charAt text pos).bind fun c => if p c.toNat then some (pos + c.utf8Size) else none

def byteIn (p : UInt8 → Bool) (pos : ℕ) : Option ℕ :=
  text[pos]?.bind fun c => if p c then some (pos + 1) else none

def literalAt (literal : Text) (pos : ℕ) : Option ℕ :=
  if literal <+: text.drop pos then some (pos + literal.length) else none

end Terminals

/-! ## The expressions of parsers -/

/-- The bound of a repetition. -/
def bound (maxCount : ℤ) : Option ℕ := if maxCount = -1 then none else some maxCount.toNat

section Exprs

variable (text : Text)

/-- An escape in a string: a backslash, and a character that it escapes or four digits. -/
def escapeExpr (delimiter : UInt8) : Expr ℕ :=
  .seq (.terminal (byteIn text (· == 92))) (.choice (.terminal (byteIn text (isEscape delimiter)))
      (.seq (.terminal (byteIn text (· == 117))) (times (.terminal (byteIn text isHexDigit)) 4)))

/-- Escapes and characters that are not the delimiter, and then the delimiter. -/
def stringExpr (delimiter : UInt8) : Expr ℕ :=
  .seq (.star (.seq (.not (.terminal (byteIn text (· == delimiter))))
      (.choice (escapeExpr text delimiter) (.terminal (charIn text (· != 92))))))
    (.and (.terminal (byteIn text (· == delimiter))))

/-- `(!delim .)*` -/
def untilExpr (delimiters : List Text) : Expr ℕ :=
  .star (.seq (.not (choices (delimiters.map fun d => .terminal (literalAt text d))))
    (.terminal (charIn text fun _ => true)))

/-- The expression that a parser is documented by. -/
def Node.expr (A : Arena) : Node → Option (Expr ℕ)
  | .epsilon => some .empty
  | .start => some (.terminal fun pos => if pos = 0 then some pos else none)
  | .end_ => some (.terminal fun pos => if text.length ≤ pos then some pos else none)
  | .literal word => some (.terminal (literalAt text word))
  | .sequence children => some (seqs (children.map .call))
  | .choice children => some (choices (children.map .call))
  | .repetition child minCount maxCount =>
    some (repeated (.call child) minCount.toNat (bound maxCount))
  | .and child => some (.and (.call child))
  | .not child => some (.not (.call child))
  | .any => some (.terminal (charIn text fun _ => true))
  | .space => some (.star (.terminal (byteIn text fun c => c == 32 || c == 9 || c == 10)))
  | .chars ranges negated minCount maxCount =>
    some (repeated (.terminal (charIn text (matchesClass ranges negated))) minCount.toNat
      (bound maxCount))
  | .string delimiter => some (stringExpr text delimiter)
  | .untilOneOf delimiters => some (untilExpr text delimiters)
  | .schema child _ => some (.call child)
  | .rule _ child => some (.call child)
  | .ref name => (A.rules name).map .call
  | .atomic child => some (.call child)
  | .tag child _ => some (.call child)
  | .gbnf child => some (.call child)

/-- The grammar of an arena over a text. -/
def Arena.grammar (A : Arena) (id : ℕ) : Option (Expr ℕ) := (A.get id).bind (Node.expr text A)

end Exprs

/-- The parsers that have an expression: those that are there, and not for a rule that is not. -/
def Arena.Defines (A : Arena) (id : ℕ) : Prop :=
  ∃ node, A.get id = some node ∧ ∀ name, node = .ref name → (A.rules name).isSome

/-- What parsers refer to has an expression. -/
structure Arena.Closed (A : Arena) : Prop where
  children {id c : ℕ} {node : Node} (hid : A.get id = some node) (hc : c ∈ node.children) :
    A.Defines c
  rules {name : Text} {id : ℕ} (h : A.rules name = some id) : A.Defines id

/-- No rule of an arena is left-recursive. -/
def Arena.NotLeftRecursive (A : Arena) : Prop :=
  ∀ text, ParsingExpressions.NotLeftRecursive (A.grammar text)

section Grammar

variable {A : Arena} {text : Text} {id : ℕ} {node : Node} {e : Expr ℕ}

theorem isSome_grammar_iff : (A.grammar text id).isSome ↔ A.Defines id := by
  rw [Arena.grammar]
  cases hget : A.get id with
  | none =>
    refine iff_of_false nofun ?_
    rintro ⟨node, hnode, -⟩
    rw [hget] at hnode
    cases hnode
  | some node =>
    have hdefines : A.Defines id ↔ ∀ name, node = .ref name → (A.rules name).isSome := by
      constructor
      · rintro ⟨node', hnode', hrules⟩
        rw [hget, some.injEq] at hnode'
        exact hnode' ▸ hrules
      · exact fun hrules => ⟨node, hget, hrules⟩
    rw [hdefines, bind_some]
    cases node with
    | ref name =>
      rw [Node.expr, isSome_map]
      exact ⟨fun h name' heq => by cases heq; exact h, fun h => h name rfl⟩
    | _ => exact iff_of_true rfl nofun

theorem finite_grammar (A : Arena) (text : Text) : {id | (A.grammar text id).isSome}.Finite := by
  refine (Set.finite_lt_nat A.size).subset fun id hid => ?_
  obtain ⟨node, hnode, -⟩ := isSome_grammar_iff.mp hid
  exact (List.getElem?_eq_some_iff.mp hnode).1

theorem Arena.NotLeftRecursive.wellFounded (h : A.NotLeftRecursive) (text : Text) :
    WellFounded fun j i => LeftCalls (A.grammar text) i j :=
  (h text).wellFounded (finite_grammar A text)

theorem closed_grammar (h : A.Closed) (hid : A.grammar text id = some e) :
    e.Closed (A.grammar text) := by
  obtain ⟨node, hget, hnode⟩ := bind_eq_some_iff.mp hid
  have hchild : ∀ c ∈ node.children, (Expr.call c).Closed (A.grammar text) :=
    fun c hc => isSome_grammar_iff.mpr (h.children hget hc)
  have hcalls : ∀ e ∈ node.children.map Expr.call, e.Closed (A.grammar text) := by
    intro e he
    obtain ⟨c, hc, rfl⟩ := mem_map.mp he
    exact hchild c hc
  cases node with
  | ref name =>
    obtain ⟨id, hrule, rfl⟩ := map_eq_some_iff.mp hnode
    exact isSome_grammar_iff.mpr (h.rules hrule)
  | sequence children =>
    cases hnode
    exact closed_seqs hcalls
  | choice children =>
    cases hnode
    exact closed_choices hcalls
  | repetition child minCount maxCount =>
    cases hnode
    exact closed_repeated (hchild child mem_cons_self) _ _
  | chars ranges negated minCount maxCount =>
    cases hnode
    exact closed_repeated (a := .terminal _) trivial _ _
  | string delimiter =>
    cases hnode
    exact ⟨⟨trivial, ⟨trivial, trivial, trivial, closed_times (a := .terminal _) trivial 4⟩,
      trivial⟩, trivial⟩
  | untilOneOf delimiters =>
    cases hnode
    refine ⟨closed_choices fun e he => ?_, trivial⟩
    obtain ⟨d, -, rfl⟩ := mem_map.mp he
    trivial
  | and child | not child | schema child name | rule name child | atomic child | tag child t
  | gbnf child =>
    cases hnode
    exact hchild child mem_cons_self
  | epsilon | start | end_ | literal _ | any | space =>
    cases hnode
    trivial

end Grammar

/-! ## What they consume -/

section Fits

variable {text : Text} {pos stop : ℕ}

theorem charAt_eq_some_iff {c : Char} :
    charAt text pos = some c ↔ String.utf8EncodeChar c <+: text.drop pos :=
  firstChar_eq_some_iff

theorem charIn_eq_some_iff {p : ℕ → Bool} : charIn text p pos = some stop ↔
    ∃ c, charAt text pos = some c ∧ p c.toNat ∧ stop = pos + c.utf8Size := by
  rw [charIn, bind_eq_some_iff]
  refine exists_congr fun c => and_congr Iff.rfl ?_
  split
  case isTrue h => rw [some.injEq, eq_comm, and_iff_right h]
  case isFalse h => exact iff_of_false nofun fun hand => h hand.1

theorem byteIn_eq_some_iff {p : UInt8 → Bool} : byteIn text p pos = some stop ↔
    ∃ c, text[pos]? = some c ∧ p c ∧ stop = pos + 1 := by
  rw [byteIn, bind_eq_some_iff]
  refine exists_congr fun c => and_congr Iff.rfl ?_
  split
  case isTrue h => rw [some.injEq, eq_comm, and_iff_right h]
  case isFalse h => exact iff_of_false nofun fun hand => h hand.1

theorem le_length_of_prefix_drop {l : Text} (h : l <+: text.drop pos) (hl : l ≠ []) :
    pos + l.length ≤ text.length := by
  have hle := h.length_le
  rw [length_drop] at hle
  have hpos := length_pos_iff.mpr hl
  omega

theorem fits_charIn (p : ℕ → Bool) : (Expr.terminal (charIn text p) : Expr ℕ).Fits text.length := by
  intro pos stop h
  obtain ⟨c, hc, -, rfl⟩ := charIn_eq_some_iff.mp h
  have hle := le_length_of_prefix_drop (charAt_eq_some_iff.mp hc) fun hnil => by
    have hlength := congrArg length hnil
    rw [String.length_utf8EncodeChar] at hlength
    exact absurd c.utf8Size_pos (not_lt.mpr (le_of_eq hlength))
  rw [String.length_utf8EncodeChar] at hle
  exact ⟨le_add_right _ _, le_trans hle (le_max_right _ _)⟩

theorem fits_byteIn (p : UInt8 → Bool) :
    (Expr.terminal (byteIn text p) : Expr ℕ).Fits text.length := by
  intro pos stop h
  obtain ⟨c, hc, -, rfl⟩ := byteIn_eq_some_iff.mp h
  have hlt := (List.getElem?_eq_some_iff.mp hc).1
  exact ⟨le_succ pos, le_trans hlt (le_max_right _ _)⟩

theorem fits_literalAt (literal : Text) :
    (Expr.terminal (literalAt text literal) : Expr ℕ).Fits text.length := by
  intro pos stop h
  rw [literalAt, ite_none_right_eq_some, some.injEq] at h
  obtain ⟨hword, rfl⟩ := h
  refine ⟨le_add_right _ _, ?_⟩
  cases literal with
  | nil => exact le_max_left _ _
  | cons c literal =>
    exact le_trans (le_length_of_prefix_drop hword (cons_ne_nil c literal))
      (le_max_right _ _)

theorem fits_here (n : ℕ) (p : ℕ → Bool) :
    (Expr.terminal fun pos => if p pos then some pos else none : Expr ℕ).Fits n := by
  intro pos stop h
  rw [ite_none_right_eq_some, some.injEq] at h
  obtain ⟨-, rfl⟩ := h
  exact ⟨le_refl pos, le_max_left pos _⟩

/-- The expressions of parsers go on, up to the end of the text at most. -/
theorem fits_grammar {A : Arena} {id : ℕ} {e : Expr ℕ} (h : A.grammar text id = some e) :
    e.Fits text.length := by
  obtain ⟨node, -, hnode⟩ := bind_eq_some_iff.mp h
  have hcalls : ∀ children : List ℕ, ∀ e ∈ children.map Expr.call, e.Fits text.length := by
    intro children e he
    obtain ⟨c, -, rfl⟩ := mem_map.mp he
    trivial
  cases node with
  | ref name =>
    obtain ⟨id, -, rfl⟩ := map_eq_some_iff.mp hnode
    trivial
  | start =>
    cases hnode
    simpa using fits_here text.length fun pos => decide (pos = 0)
  | end_ =>
    cases hnode
    simpa using fits_here text.length fun pos => decide (text.length ≤ pos)
  | literal literal =>
    cases hnode
    exact fits_literalAt literal
  | sequence children =>
    cases hnode
    exact fits_seqs (hcalls children)
  | choice children =>
    cases hnode
    exact fits_choices (hcalls children)
  | repetition child minCount maxCount =>
    cases hnode
    exact fits_repeated (a := .call child) trivial _ _
  | any =>
    cases hnode
    exact fits_charIn _
  | space =>
    cases hnode
    exact fits_byteIn _
  | chars ranges negated minCount maxCount =>
    cases hnode
    exact fits_repeated (fits_charIn _) _ _
  | string delimiter =>
    cases hnode
    exact ⟨⟨fits_byteIn _, ⟨fits_byteIn _, fits_byteIn _, fits_byteIn _,
      fits_times (fits_byteIn _) 4⟩, fits_charIn _⟩, fits_byteIn _⟩
  | untilOneOf delimiters =>
    cases hnode
    refine ⟨fits_choices fun e he => ?_, fits_charIn _⟩
    obtain ⟨d, -, rfl⟩ := mem_map.mp he
    exact fits_literalAt d
  | epsilon | and _ | not _ | schema _ _ | rule _ _ | atomic _ | tag _ _ | gbnf _ =>
    cases hnode
    trivial

end Fits

/-! ## Characters -/

section Characters

theorem join_two {a b : ℕ} (hb : b < 64) : a <<< 6 ||| b = a * 64 + b := by
  rw [← shiftLeft_add_eq_or_of_lt hb, shiftLeft_eq]

theorem join_three {a b c : ℕ} (hb : b < 64) (hc : c < 64) :
    a <<< 12 ||| b <<< 6 ||| c = (a * 64 + b) * 64 + c := by
  rw [show a <<< 12 = a <<< 6 <<< 6 from shiftLeft_add a 6 6, ← shiftLeft_or_distrib,
    join_two hb, join_two hc]

theorem join_four {a b c d : ℕ} (hb : b < 64) (hc : c < 64) (hd : d < 64) :
    a <<< 18 ||| b <<< 12 ||| c <<< 6 ||| d = ((a * 64 + b) * 64 + c) * 64 + d := by
  rw [show a <<< 18 = a <<< 12 <<< 6 from shiftLeft_add a 12 6,
    show b <<< 12 = b <<< 6 <<< 6 from shiftLeft_add b 6 6, ← shiftLeft_or_distrib,
    ← shiftLeft_or_distrib, join_three hb hc, join_two hd]

theorem continuation_byte {x : ℕ} (h : x < 64) :
    isContinuation (UInt8.ofNat (x + 0x80)) = true ∧ bits (UInt8.ofNat (x + 0x80)) 0x3F = x := by
  have hall : ∀ x : Fin 64, isContinuation (UInt8.ofNat (x + 0x80)) = true ∧
      bits (UInt8.ofNat (x + 0x80)) 0x3F = x := by decide +kernel
  exact hall ⟨x, h⟩

theorem lead_byte_two {x : ℕ} (h : x < 32) : UInt8.ofNat (x + 0xC0) &&& 0x80 ≠ 0 ∧
    UInt8.ofNat (x + 0xC0) &&& 0x40 ≠ 0 ∧ UInt8.ofNat (x + 0xC0) &&& 0x20 = 0 ∧
    bits (UInt8.ofNat (x + 0xC0)) 0x1F = x := by
  have hall : ∀ x : Fin 32, UInt8.ofNat (x + 0xC0) &&& 0x80 ≠ 0 ∧
      UInt8.ofNat (x + 0xC0) &&& 0x40 ≠ 0 ∧ UInt8.ofNat (x + 0xC0) &&& 0x20 = 0 ∧
      bits (UInt8.ofNat (x + 0xC0)) 0x1F = x := by decide +kernel
  exact hall ⟨x, h⟩

theorem lead_byte_three {x : ℕ} (h : x < 16) : UInt8.ofNat (x + 0xE0) &&& 0x80 ≠ 0 ∧
    UInt8.ofNat (x + 0xE0) &&& 0x40 ≠ 0 ∧ UInt8.ofNat (x + 0xE0) &&& 0x20 ≠ 0 ∧
    UInt8.ofNat (x + 0xE0) &&& 0x10 = 0 ∧ bits (UInt8.ofNat (x + 0xE0)) 0x0F = x := by
  have hall : ∀ x : Fin 16, UInt8.ofNat (x + 0xE0) &&& 0x80 ≠ 0 ∧
      UInt8.ofNat (x + 0xE0) &&& 0x40 ≠ 0 ∧ UInt8.ofNat (x + 0xE0) &&& 0x20 ≠ 0 ∧
      UInt8.ofNat (x + 0xE0) &&& 0x10 = 0 ∧ bits (UInt8.ofNat (x + 0xE0)) 0x0F = x := by
    decide +kernel
  exact hall ⟨x, h⟩

theorem lead_byte_four {x : ℕ} (h : x < 8) : UInt8.ofNat (x + 0xF0) &&& 0x80 ≠ 0 ∧
    UInt8.ofNat (x + 0xF0) &&& 0x40 ≠ 0 ∧ UInt8.ofNat (x + 0xF0) &&& 0x20 ≠ 0 ∧
    UInt8.ofNat (x + 0xF0) &&& 0x10 ≠ 0 ∧ UInt8.ofNat (x + 0xF0) &&& 0x08 = 0 ∧
    bits (UInt8.ofNat (x + 0xF0)) 0x07 = x := by
  have hall : ∀ x : Fin 8, UInt8.ofNat (x + 0xF0) &&& 0x80 ≠ 0 ∧
      UInt8.ofNat (x + 0xF0) &&& 0x40 ≠ 0 ∧ UInt8.ofNat (x + 0xF0) &&& 0x20 ≠ 0 ∧
      UInt8.ofNat (x + 0xF0) &&& 0x10 ≠ 0 ∧ UInt8.ofNat (x + 0xF0) &&& 0x08 = 0 ∧
      bits (UInt8.ofNat (x + 0xF0)) 0x07 = x := by decide +kernel
  exact hall ⟨x, h⟩

theorem low_byte {x : ℕ} (h : x < 128) :
    UInt8.ofNat x &&& 0x80 = 0 ∧ (UInt8.ofNat x).toNat = x := by
  have hall : ∀ x : Fin 128, UInt8.ofNat x &&& 0x80 = 0 ∧ (UInt8.ofNat x).toNat = x := by
    decide +kernel
  exact hall ⟨x, h⟩

theorem not_lead_byte {b : UInt8} (h : IsContinuation b) :
    b &&& 0x80 ≠ 0 ∧ b &&& 0x40 = 0 := by
  have hall : ∀ x : Fin 256, UInt8.ofFin x &&& 0xC0 = 0x80 →
      UInt8.ofFin x &&& 0x80 ≠ 0 ∧ UInt8.ofFin x &&& 0x40 = 0 := by decide +kernel
  exact hall b.toFin h

/-- The parser reads a character as it is encoded. -/
theorem parseUtf8Codepoint_encodeCode {input rest : Text} {pos code : ℕ} (hlt : code < 0x110000)
    (h : input.drop pos = encodeCode code ++ rest) :
    parseUtf8Codepoint input pos = .success code (encodeCode code).length := by
  rw [parseUtf8Codepoint, h]
  generalize hchar : encodeCode code = bytes
  unfold encodeCode at hchar
  split at hchar
  case isTrue h₁ =>
    subst hchar
    obtain ⟨hhigh, hvalue⟩ := low_byte (lt_succ_of_le h₁)
    simp only [cons_append, nil_append, hhigh, hvalue, if_true, length_cons,
      length_nil]
  case isFalse h₁ =>
    split at hchar
    case isTrue h₂ =>
      subst hchar
      obtain ⟨h80, h40, h20, hlead⟩ := lead_byte_two (x := code / 64 % 32) (by omega)
      obtain ⟨hcont, hbits⟩ := continuation_byte (x := code % 64) (by omega)
      simp only [cons_append, nil_append, h80, h40, h20, hcont, hlead, hbits, if_false,
        if_true, Bool.not_true, Bool.false_eq_true, length_cons, length_nil]
      rw [join_two (by omega)]
      congr 1
      omega
    case isFalse h₂ =>
      split at hchar
      case isTrue h₃ =>
        subst hchar
        obtain ⟨h80, h40, h20, h10, hlead⟩ := lead_byte_three (x := code / 4096 % 16) (by omega)
        obtain ⟨hcont₁, hbits₁⟩ := continuation_byte (x := code / 64 % 64) (by omega)
        obtain ⟨hcont₂, hbits₂⟩ := continuation_byte (x := code % 64) (by omega)
        simp only [cons_append, nil_append, h80, h40, h20, h10, hcont₁, hcont₂, hlead,
          hbits₁, hbits₂, if_false, if_true, Bool.not_true, Bool.false_eq_true, Bool.or_false,
          length_cons, length_nil]
        rw [join_three (by omega) (by omega)]
        congr 1
        omega
      case isFalse h₃ =>
        subst hchar
        obtain ⟨h80, h40, h20, h10, h08, hlead⟩ :=
          lead_byte_four (x := code / 262144 % 8) (by omega)
        obtain ⟨hcont₁, hbits₁⟩ := continuation_byte (x := code / 4096 % 64) (by omega)
        obtain ⟨hcont₂, hbits₂⟩ := continuation_byte (x := code / 64 % 64) (by omega)
        obtain ⟨hcont₃, hbits₃⟩ := continuation_byte (x := code % 64) (by omega)
        simp only [cons_append, nil_append, h80, h40, h20, h10, h08, hcont₁, hcont₂,
          hcont₃, hlead, hbits₁, hbits₂, hbits₃, if_false, if_true, Bool.not_true,
          Bool.false_eq_true, Bool.or_false, length_cons, length_nil]
        rw [join_four (by omega) (by omega) (by omega)]
        congr 1
        omega

theorem parseUtf8Codepoint_of_drop {input rest : Text} {pos : ℕ} {c : Char}
    (h : input.drop pos = String.utf8EncodeChar c ++ rest) :
    parseUtf8Codepoint input pos = .success c.toNat c.utf8Size := by
  rw [← String.length_utf8EncodeChar]
  exact parseUtf8Codepoint_encodeCode (toNat_val_lt c) h

/-- What the parser reads in the bytes of a text. -/
theorem parseUtf8Codepoint_encode (text : List Char) (pos : ℕ) :
    parseUtf8Codepoint (encode text) pos = match charAt (encode text) pos with
      | some c => .success c.toNat c.utf8Size
      | none => if (encode text).length ≤ pos then .incomplete else .invalid := by
  rcases drop_encode text pos with ⟨text', hdrop⟩ | ⟨b, rest, hdrop, hb⟩
  · cases text' with
    | nil =>
      have hend : (encode text).length ≤ pos := drop_eq_nil_iff.mp hdrop
      rw [charAt, hdrop, encode_nil, firstChar_nil, parseUtf8Codepoint, hdrop]
      simp [hend]
    | cons c text' =>
      rw [encode_cons] at hdrop
      rw [charAt, hdrop, firstChar_append]
      exact parseUtf8Codepoint_of_drop hdrop
  · have hin : ¬(encode text).length ≤ pos := by
      intro hle
      rw [drop_of_length_le hle] at hdrop
      cases hdrop
    obtain ⟨hhigh, hsecond⟩ := not_lead_byte hb
    rw [charAt, hdrop, firstChar_of_isContinuation hb, parseUtf8Codepoint, hdrop]
    simp [hhigh, hsecond, hin]

/-- The parser reads a character where there is one, and nothing elsewhere. -/
theorem parseUtf8Codepoint_cases (text : List Char) (pos : ℕ) :
    (∃ c, charAt (encode text) pos = some c ∧
      parseUtf8Codepoint (encode text) pos = .success c.toNat c.utf8Size) ∨
    charAt (encode text) pos = none ∧
      (parseUtf8Codepoint (encode text) pos = .incomplete ∨
        parseUtf8Codepoint (encode text) pos = .invalid) := by
  rw [parseUtf8Codepoint_encode]
  cases hchar : charAt (encode text) pos with
  | some c => exact .inl ⟨c, rfl, rfl⟩
  | none =>
    refine .inr ⟨rfl, ?_⟩
    dsimp only
    split
    · exact .inl rfl
    · exact .inr rfl

theorem charIn_of_charAt {text : Text} {pos : ℕ} {p : ℕ → Bool} {c : Char}
    (h : charAt text pos = some c) :
    charIn text p pos = if p c.toNat then some (pos + c.utf8Size) else none := by
  rw [charIn, h]
  rfl

theorem charIn_eq_none {text : Text} {pos : ℕ} {p : ℕ → Bool} (h : charAt text pos = none) :
    charIn text p pos = none := by
  rw [charIn, h]
  rfl

/-- A byte below 128 is a character of its own. -/
theorem toNat_of_charAt {text : List Char} {pos : ℕ} {c : Char} {b : UInt8}
    (hget : (encode text)[pos]? = some b) (hb : b &&& 0x80 = 0)
    (hchar : charAt (encode text) pos = some c) : c.toNat = b.toNat := by
  obtain ⟨hlt, rfl⟩ := List.getElem?_eq_some_iff.mp hget
  have hparse := parseUtf8Codepoint_encode text pos
  rw [hchar, parseUtf8Codepoint, List.drop_eq_getElem_cons hlt] at hparse
  dsimp only at hparse
  rw [if_pos hb, Utf8Result.success.injEq] at hparse
  exact hparse.1.symm

end Characters

end ExpertPin.Peg
