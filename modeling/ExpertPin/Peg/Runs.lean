import ExpertPin.Peg.Semantics

/-!
# Runs of the parser

A parser goes on from where it is executed, up to the end of the input at most, and where it has
matched nothing its expression is one that may.  So the calls of a parser go down, on in the input
or to what its expression may try first, and without left recursion each parse returns, in both
modes (`exists_parse`).  Where the mode is not lenient the end of the input is the end of the text,
and each parse has failed or matched (`not_waits_parse`).
-/

namespace ExpertPin.Peg

open Recursion ParsingExpressions
open List
open Nat

/-- What has been matched ends at or behind the position, and if it is nothing then the parser may
match nothing. -/
def Result.Spans (n pos : ℕ) (nullable : Prop) : Result → Prop
  | .success stop _ => pos ≤ stop ∧ stop ≤ max pos n ∧ (stop = pos → nullable)
  | _ => True

namespace Result.Spans

variable {n pos stop : ℕ} {nullable nullable' : Prop} {r : Result}

theorem mono (h : r.Spans n pos nullable) (hnullable : nullable → nullable') :
    r.Spans n pos nullable' := by
  cases r with
  | fail stop => trivial
  | success stop nodes => exact ⟨h.1, h.2.1, fun hstop => hnullable (h.2.2 hstop)⟩
  | needMoreInput stop nodes => trivial

theorem here (h : nullable) (nodes : List Ast) : (success pos nodes).Spans n pos nullable :=
  ⟨le_refl pos, le_max_left pos n, fun _ => h⟩

/-- From a position that is further on. -/
theorem of_le (hlt : pos < stop) (hle : stop ≤ max pos n) (h : r.Spans n stop nullable) :
    r.Spans n pos nullable' := by
  cases r with
  | fail stop' => trivial
  | success stop' nodes =>
    obtain ⟨hstop, hmax, -⟩ := h
    refine ⟨by omega, by omega, fun heq => absurd heq (by omega)⟩
  | needMoreInput stop' nodes => trivial

end Result.Spans

def Result.Waits (r : Result) : Prop := ∃ stop nodes, r = .needMoreInput stop nodes

/-- A result goes on from the position, and waits in the lenient mode only. -/
def Result.Proceeds (ctx : Context) (pos : ℕ) (nullable : Prop) (r : Result) : Prop :=
  r.Spans ctx.input.length pos nullable ∧ (r.Waits → ctx.lenient = true)

namespace Result.Proceeds

variable {ctx : Context} {pos stop : ℕ} {nullable nullable' : Prop} {r : Result} {nodes : List Ast}

theorem fail : (Result.fail stop).Proceeds ctx pos nullable := ⟨trivial, nofun⟩

theorem success (h : (success stop nodes).Spans ctx.input.length pos nullable) :
    (Result.success stop nodes).Proceeds ctx pos nullable := ⟨h, nofun⟩

theorem here (h : nullable) (nodes : List Ast) :
    (Result.success pos nodes).Proceeds ctx pos nullable := success (.here h nodes)

theorem waiting (h : ctx.lenient = true) :
    (needMoreInput stop nodes).Proceeds ctx pos nullable := ⟨trivial, fun _ => h⟩

theorem lenient (h : (needMoreInput stop nodes).Proceeds ctx pos nullable) : ctx.lenient = true :=
  h.2 ⟨stop, nodes, rfl⟩

theorem mono (h : r.Proceeds ctx pos nullable) (hnullable : nullable → nullable') :
    r.Proceeds ctx pos nullable' := ⟨h.1.mono hnullable, h.2⟩

theorem of_le (hlt : pos < stop) (hle : stop ≤ max pos ctx.input.length)
    (h : r.Proceeds ctx stop nullable) : r.Proceeds ctx pos nullable' :=
  ⟨.of_le hlt hle h.1, h.2⟩

theorem wrap (h : r.Proceeds ctx pos nullable) (rule tag : Text) (start : ℕ) :
    (r.wrap rule tag start).Proceeds ctx pos nullable := by
  cases r with
  | fail stop => exact fail
  | success stop nodes => exact success h.1
  | needMoreInput stop nodes => exact waiting h.lenient

theorem clear (h : r.Proceeds ctx pos nullable) : r.clear.Proceeds ctx pos nullable := by
  cases r with
  | fail stop => exact fail
  | success stop nodes => exact h
  | needMoreInput stop nodes => exact waiting h.lenient

theorem not_waits {s : Text} (h : r.Proceeds ⟨s, false⟩ pos nullable) : ¬r.Waits :=
  fun hwaits => Bool.false_ne_true (h.2 hwaits)

end Result.Proceeds

/-! ## Parsers without children -/

section Leaves

variable {ctx : Context} {startPos pos : ℕ} {nullable : Prop}

theorem proceeds_ended (failStop stop : ℕ) :
    (ctx.ended failStop stop).Proceeds ctx pos nullable := by
  unfold Context.ended
  split
  case isTrue h => exact .waiting h
  case isFalse => exact .fail

/-- A character is inside of the input. -/
theorem parseUtf8Codepoint_bounds {input : Text} {codepoint n : ℕ}
    (h : parseUtf8Codepoint input pos = .success codepoint n) :
    0 < n ∧ pos + n ≤ input.length := by
  have hdrop : ∀ bytes rest : Text, input.drop pos = bytes ++ rest → bytes ≠ [] →
      0 < bytes.length ∧ pos + bytes.length ≤ input.length := fun bytes rest heq hne =>
    ⟨length_pos_iff.mpr hne, le_length_of_prefix_drop ⟨rest, heq.symm⟩ hne⟩
  unfold parseUtf8Codepoint at h
  split at h
  case h_1 => cases h
  case h_2 b₀ rest heq =>
    split at h
    · cases h
      exact hdrop [b₀] rest heq (cons_ne_nil _ _)
    · split at h
      · cases h
      · split at h
        · split at h
          case h_1 b₁ rest =>
            split at h
            · cases h
            · cases h
              exact hdrop [b₀, b₁] rest heq (cons_ne_nil _ _)
          case h_2 => cases h
        · split at h
          · split at h
            case h_1 b₁ b₂ rest =>
              split at h
              · cases h
              · cases h
                exact hdrop [b₀, b₁, b₂] rest heq (cons_ne_nil _ _)
            case h_2 => cases h
          · split at h
            · split at h
              case h_1 b₁ b₂ b₃ rest =>
                split at h
                · cases h
                · cases h
                  exact hdrop [b₀, b₁, b₂, b₃] rest heq (cons_ne_nil _ _)
              case h_2 => cases h
            · cases h

theorem proceeds_literalFrom (literal : Text) :
    (literalFrom ctx startPos literal pos).Proceeds ctx pos (literal = []) := by
  induction literal generalizing pos with
  | nil => exact .here rfl []
  | cons c literal ih =>
    unfold literalFrom
    split
    case h_1 => exact proceeds_ended _ _
    case h_2 d hd =>
      split
      · exact .fail
      · have hlt := (List.getElem?_eq_some_iff.mp hd).1
        exact ih.of_le (lt_succ_self pos) (le_trans hlt (le_max_right _ _))

theorem proceeds_anyAt : (anyAt ctx pos).Proceeds ctx pos nullable := by
  unfold anyAt
  split
  case h_1 => exact proceeds_ended _ _
  case h_2 => exact .fail
  case h_3 codepoint n h =>
    obtain ⟨hpos, hle⟩ := parseUtf8Codepoint_bounds h
    exact .success ⟨le_add_right _ _, le_trans hle (le_max_right _ _),
      fun heq => absurd heq (by omega)⟩

theorem proceeds_spaceFrom (h : nullable) : (spaceFrom ctx pos).Proceeds ctx pos nullable := by
  have hle := List.IsPrefix.length_le <| takeWhile_prefix isSpace (l := ctx.input.drop pos)
  rw [length_drop] at hle
  exact .success ⟨le_add_right _ _, by omega, fun _ => h⟩

section Chars

variable {ranges : List CharRange} {negated : Bool} {minCount maxCount : ℤ}

theorem proceeds_charsDone (matchCount : ℕ) :
    (charsDone ctx minCount pos matchCount).Proceeds ctx pos (minCount ≤ matchCount) := by
  unfold charsDone
  split
  case isTrue h =>
    split
    · exact proceeds_ended _ _
    · exact .fail
  case isFalse h => exact .here (Int.not_lt.mp h) []

theorem proceeds_charsFrom (steps matchCount : ℕ) :
    (charsFrom ctx startPos ranges negated minCount maxCount steps pos matchCount).Proceeds ctx pos
      (minCount ≤ matchCount) := by
  induction steps generalizing pos matchCount with
  | zero => exact proceeds_charsDone matchCount
  | succ steps ih =>
    unfold charsFrom
    split
    · split
      case h_1 =>
        split
        case isTrue h => exact .here h []
        case isFalse h => exact proceeds_ended _ _
      case h_2 =>
        split
        case isTrue h => exact .here h []
        case isFalse h => exact .fail
      case h_3 codepoint n h =>
        split
        · obtain ⟨hpos, hle⟩ := parseUtf8Codepoint_bounds h
          exact (ih (matchCount + 1)).of_le (Nat.lt_add_of_pos_right hpos)
            (Nat.le_trans hle (Nat.le_max_right _ _))
        · exact proceeds_charsDone matchCount
    · exact proceeds_charsDone matchCount

end Chars

theorem proceeds_unicodeEscape (digits : ℕ) :
    (unicodeEscape ctx startPos digits pos).Proceeds ctx pos True := by
  induction digits generalizing pos with
  | zero => exact .here trivial []
  | succ digits ih =>
    unfold unicodeEscape
    split
    case h_1 => exact proceeds_ended _ _
    case h_2 c hc =>
      split
      · have hlt := (List.getElem?_eq_some_iff.mp hc).1
        exact ih.of_le (lt_succ_self pos) (le_trans hlt (le_max_right _ _))
      · exact .fail

theorem proceeds_escapeSequence (delimiter : UInt8) :
    (escapeSequence ctx startPos delimiter pos).Proceeds ctx pos False := by
  unfold escapeSequence
  split
  case h_1 => exact proceeds_ended _ _
  case h_2 c hc =>
    have hlt := (List.getElem?_eq_some_iff.mp hc).1
    split
    · exact .success ⟨le_add_right _ _, le_trans hlt (le_max_right _ _),
        fun heq => absurd heq (by omega)⟩
    · split
      · exact (proceeds_unicodeEscape 4).of_le (by omega) (le_trans hlt (le_max_right _ _))
      · exact .fail

theorem proceeds_stringFrom (delimiter : UInt8) (steps : ℕ) :
    (stringFrom ctx startPos delimiter steps pos).Proceeds ctx pos True := by
  induction steps generalizing pos with
  | zero => exact proceeds_ended _ _
  | succ steps ih =>
    unfold stringFrom
    split
    case h_1 => exact proceeds_ended _ _
    case h_2 c hc =>
      split
      · exact .here trivial []
      · split
        · have hescape : (escapeSequence ctx startPos delimiter pos).Proceeds ctx pos
              False := proceeds_escapeSequence delimiter
          split
          case h_1 stop nodes heq =>
            rw [heq] at hescape
            obtain ⟨⟨hle, hmax, hne⟩, -⟩ := hescape
            exact ih.of_le (Nat.lt_of_le_of_ne hle fun h => hne h.symm) hmax
          case h_2 => exact hescape.mono False.elim
        · split
          case h_1 => exact proceeds_ended _ _
          case h_2 => exact .fail
          case h_3 codepoint n h =>
            obtain ⟨hpos, hle⟩ := parseUtf8Codepoint_bounds h
            exact ih.of_le (Nat.lt_add_of_pos_right hpos) (Nat.le_trans hle (Nat.le_max_right _ _))

/-- The positions up to which no delimiter is seen. -/
inductive Scans (matcher : WordTrie) (bytes : Text) : ℕ → ℕ → Prop
  | refl (pos : ℕ) : Scans matcher bytes pos pos
  | step {pos q codepoint n : ℕ} (hparse : parseUtf8Codepoint bytes pos = .success codepoint n)
      (hmatch : matcher.checkAt bytes pos = .noMatch) (h : Scans matcher bytes (pos + n) q) :
      Scans matcher bytes pos q

theorem proceeds_untilDone : (untilDone ctx pos).Proceeds ctx pos True := by
  unfold untilDone
  split
  case isTrue h => exact .waiting (Bool.and_elim_right h)
  case isFalse => exact .here trivial []

theorem proceeds_untilFrom (matcher : WordTrie) (steps : ℕ) :
    (untilFrom ctx startPos matcher steps pos).Proceeds ctx pos True := by
  induction steps generalizing pos with
  | zero => exact proceeds_untilDone
  | succ steps ih =>
    unfold untilFrom
    split
    · split
      case h_1 => exact proceeds_ended _ _
      case h_2 => exact .fail
      case h_3 codepoint n h =>
        split
        case h_1 => exact .here trivial []
        case h_2 => exact .here trivial []
        case h_3 =>
          obtain ⟨hpos, hle⟩ := parseUtf8Codepoint_bounds h
          exact ih.of_le (Nat.lt_add_of_pos_right hpos) (Nat.le_trans hle (Nat.le_max_right _ _))
    · exact proceeds_untilDone

end Leaves

/-! ## Parsers with children -/

section Loops

variable {G : ℕ → Option (Expr ℕ)} {n pos q c child : ℕ} {children : List ℕ} {nodes : List Ast}
variable {r : Result} {R : ℕ × ℕ → Result → Prop} {ctx : Context} {minCount maxCount : ℤ}

/-- A parser that is called further on, or where the one that calls it may try it first. -/
def Ahead (n pos q : ℕ) (leftmost : Prop) : Prop := pos ≤ q ∧ q ≤ max pos n ∧ (q = pos → leftmost)

theorem Ahead.here {leftmost : Prop} (h : leftmost) : Ahead n pos pos leftmost :=
  ⟨le_refl pos, le_max_left pos n, fun _ => h⟩

section Spans

variable (hR : ∀ c q a, R (c, q) a → a.Proceeds ctx q (Nullable G (.call c)))
include hR

theorem proceeds_sequenceFrom (h : (sequenceFrom children pos nodes).Gives R r) :
    r.Proceeds ctx pos (Nullable G (seqs (children.map .call))) := by
  induction children generalizing pos nodes with
  | nil =>
    obtain rfl := h
    exact .here .empty nodes
  | cons c children ih =>
    obtain ⟨a, ha, hnext⟩ := h
    have hproceeds := hR c pos a ha
    cases a with
    | fail stop =>
      obtain rfl := hnext
      exact .fail
    | needMoreInput stop more =>
      obtain rfl := hnext
      exact .waiting hproceeds.lenient
    | success stop more =>
      obtain ⟨⟨hle, hmax, hnullable⟩, -⟩ := hproceeds
      rcases eq_or_lt_of_le hle with rfl | hlt
      · exact (ih hnext).mono (.seq (hnullable rfl))
      · exact (ih hnext).of_le hlt hmax

theorem ahead_sequenceFrom (h : (sequenceFrom children pos nodes).Asks R (c, q)) :
    c ∈ children ∧ Ahead ctx.input.length pos q (Leftmost G (seqs (children.map .call)) c) := by
  induction children generalizing pos nodes with
  | nil => exact absurd h id
  | cons child children ih =>
    rcases h with heq | ⟨a, ha, hnext⟩
    · obtain ⟨rfl, rfl⟩ := Prod.mk.injEq .. ▸ heq
      exact ⟨mem_cons_self, .here (.inl rfl)⟩
    · have hproceeds := hR child pos a ha
      cases a with
      | fail stop => exact absurd hnext id
      | needMoreInput stop more => exact absurd hnext id
      | success stop more =>
        obtain ⟨⟨hle, hmax, hnullable⟩, -⟩ := hproceeds
        obtain ⟨hmem, hle', hmax', hleft⟩ := ih hnext
        refine ⟨mem_cons_of_mem child hmem, by omega, by omega, ?_⟩
        rintro rfl
        obtain rfl : stop = q := le_antisymm hle' hle
        exact .inr ⟨hnullable rfl, hleft rfl⟩

theorem proceeds_choiceFrom (h : (choiceFrom pos children).Gives R r) :
    r.Proceeds ctx pos (Nullable G (choices (children.map .call))) := by
  induction children with
  | nil =>
    obtain rfl := h
    exact .fail
  | cons c children ih =>
    obtain ⟨a, ha, hnext⟩ := h
    have hproceeds := hR c pos a ha
    cases a with
    | fail stop => exact (ih hnext).mono .choiceRight
    | needMoreInput stop more =>
      obtain rfl := hnext
      exact .waiting hproceeds.lenient
    | success stop more =>
      obtain rfl := hnext
      exact hproceeds.mono .choiceLeft

omit hR in
theorem ahead_choiceFrom (h : (choiceFrom pos children).Asks R (c, q)) :
    c ∈ children ∧ Ahead n pos q (Leftmost G (choices (children.map .call)) c) := by
  induction children with
  | nil => exact absurd h id
  | cons child children ih =>
    rcases h with heq | ⟨a, ha, hnext⟩
    · obtain ⟨rfl, rfl⟩ := Prod.mk.injEq .. ▸ heq
      exact ⟨List.mem_cons_self, .here (.inl rfl)⟩
    · cases a with
      | fail stop =>
        obtain ⟨hmem, hle, hmax, hleft⟩ := ih hnext
        exact ⟨List.mem_cons_of_mem child hmem, hle, hmax, fun heq => .inr (hleft heq)⟩
      | needMoreInput stop more => exact absurd hnext id
      | success stop more => exact absurd hnext id

omit hR in
theorem proceeds_repetitionDone (matchCount : ℕ) :
    (repetitionDone ctx minCount pos matchCount nodes).Proceeds ctx pos
      (minCount ≤ matchCount) := by
  unfold repetitionDone
  split
  · split
    case isTrue h => exact .waiting h.2
    case isFalse => exact .fail
  case isFalse h => exact .here (by omega) nodes

theorem proceeds_repetitionFrom {steps matchCount : ℕ}
    (h : (repetitionFrom ctx child minCount maxCount steps pos matchCount nodes).Gives R r) :
    r.Proceeds ctx pos (minCount ≤ matchCount) := by
  induction steps generalizing pos matchCount nodes with
  | zero =>
    obtain rfl := h
    exact proceeds_repetitionDone matchCount
  | succ steps ih =>
    unfold repetitionFrom at h
    split at h
    · obtain ⟨a, ha, hnext⟩ := h
      have hproceeds := hR child pos a ha
      cases a with
      | fail stop =>
        obtain rfl := hnext
        exact proceeds_repetitionDone matchCount
      | needMoreInput stop more =>
        obtain rfl := hnext
        exact .waiting hproceeds.lenient
      | success stop more =>
        dsimp only at hnext
        split at hnext
        · obtain rfl := hnext
          exact proceeds_repetitionDone matchCount
        case isFalse hne =>
          obtain ⟨⟨hle, hmax, -⟩, -⟩ := hproceeds
          exact (ih hnext).of_le (lt_of_le_of_ne hle (Ne.symm hne)) hmax
    · obtain rfl := h
      exact proceeds_repetitionDone matchCount

theorem ahead_repetitionFrom {steps matchCount : ℕ}
    (h : (repetitionFrom ctx child minCount maxCount steps pos matchCount nodes).Asks R (c, q)) :
    c = child ∧ Ahead ctx.input.length pos q (mayRepeat maxCount matchCount) := by
  induction steps generalizing pos matchCount nodes with
  | zero => exact absurd h id
  | succ steps ih =>
    unfold repetitionFrom at h
    split at h
    case isTrue hrepeat =>
      rcases h with heq | ⟨a, ha, hnext⟩
      · obtain ⟨rfl, rfl⟩ := Prod.mk.injEq .. ▸ heq
        exact ⟨rfl, .here hrepeat.1⟩
      · have hproceeds := hR child pos a ha
        cases a with
        | fail stop => exact absurd hnext id
        | needMoreInput stop more => exact absurd hnext id
        | success stop more =>
          dsimp only at hnext
          split at hnext
          · exact absurd hnext id
          case isFalse hne =>
            obtain ⟨⟨hle, hmax, -⟩, -⟩ := hproceeds
            obtain ⟨rfl, hle', hmax', -⟩ := ih hnext
            refine ⟨rfl, by omega, by omega, fun heq => absurd heq (by omega)⟩
    · exact absurd h id

end Spans

theorem not_throws_sequenceFrom : ¬(sequenceFrom children pos nodes).Throws R := by
  induction children generalizing pos nodes with
  | nil => exact id
  | cons c children ih =>
    rintro ⟨a, -, hnext⟩
    cases a with
    | fail stop => exact hnext
    | needMoreInput stop more => exact hnext
    | success stop more => exact ih hnext

theorem not_throws_choiceFrom : ¬(choiceFrom pos children).Throws R := by
  induction children with
  | nil => exact id
  | cons c children ih =>
    rintro ⟨a, -, hnext⟩
    cases a with
    | fail stop => exact ih hnext
    | needMoreInput stop more => exact hnext
    | success stop more => exact hnext

theorem not_throws_repetitionFrom {steps matchCount : ℕ} :
    ¬(repetitionFrom ctx child minCount maxCount steps pos matchCount nodes).Throws R := by
  induction steps generalizing pos matchCount nodes with
  | zero => exact id
  | succ steps ih =>
    unfold repetitionFrom
    split
    · rintro ⟨a, -, hnext⟩
      cases a with
      | fail stop => exact hnext
      | needMoreInput stop more => exact hnext
      | success stop more =>
        dsimp only at hnext
        split at hnext
        · exact hnext
        · exact ih hnext
    · exact id

end Loops

/-! ## Each parse returns -/

section Parses

variable {A : Arena} {ctx : Context} {id pos : ℕ} {r : Result}

theorem mayRepeat_zero {maxCount : ℤ} (h : mayRepeat maxCount 0) : bound maxCount ≠ some 0 := by
  unfold bound
  split
  · nofun
  case isFalse hne =>
    intro heq
    rw [Option.some.injEq] at heq
    rcases h with h | h
    · exact hne h
    · omega

theorem nullable_repeated {G : ℕ → Option (Expr ℕ)} {a : Expr ℕ} {minCount maxCount : ℤ}
    (h : minCount ≤ (0 : ℕ)) : Nullable G (repeated a minCount.toNat (bound maxCount)) := by
  have hzero : minCount.toNat = 0 := Int.toNat_of_nonpos h
  rw [hzero]
  exact nullable_repeated_zero a _

/-- A parser has matched nothing only where its expression may. -/
theorem proceeds_parse (h : Evaluates (A.body ctx) (id, pos) r) :
    r.Proceeds ctx pos (Nullable (A.grammar ctx.input) (.call id)) := by
  refine Evaluates.induct (P := fun key r => r.Proceeds ctx key.2
    (Nullable (A.grammar ctx.input) (.call key.1))) ?_ h
  rintro ⟨id, pos⟩ r hgives
  dsimp only [Arena.body] at hgives ⊢
  cases hget : A.get id with
  | none =>
    rw [hget] at hgives
    exact False.elim hgives
  | some node =>
    rw [hget] at hgives
    have hcall : ∀ e, node.expr ctx.input A = some e → Nullable (A.grammar ctx.input) e →
        Nullable (A.grammar ctx.input) (.call id) :=
      fun e he hnullable => .call (by rw [Arena.grammar, hget]; exact he) hnullable
    have hR : ∀ c q a, (Calls (A.body ctx) (id, pos) (c, q) ∧ Evaluates (A.body ctx) (c, q) a ∧
        a.Proceeds ctx q (Nullable (A.grammar ctx.input) (.call c))) →
        a.Proceeds ctx q (Nullable (A.grammar ctx.input) (.call c)) :=
      fun c q a ha => ha.2.2
    cases node with
    | epsilon =>
      obtain rfl := hgives
      exact .here (hcall _ rfl .empty) []
    | start =>
      obtain rfl := hgives
      split
      · exact .here (hcall _ rfl (.terminal (p := 0) rfl)) []
      · exact .fail
    | end_ =>
      obtain rfl := hgives
      split
      case isTrue hend =>
        exact .here (hcall _ rfl (.terminal (p := pos) (if_pos hend))) []
      · exact .fail
    | literal word =>
      obtain rfl := hgives
      refine (proceeds_literalFrom word).mono ?_
      rintro rfl
      exact hcall _ rfl (.terminal (p := 0) rfl)
    | sequence children =>
      exact (proceeds_sequenceFrom (fun c q a => hR c q a) hgives).mono (hcall _ rfl)
    | choice children =>
      exact (proceeds_choiceFrom (fun c q a => hR c q a) hgives).mono (hcall _ rfl)
    | repetition child minCount maxCount =>
      exact (proceeds_repetitionFrom (fun c q a => hR c q a) hgives).mono fun hmin =>
        hcall _ rfl (nullable_repeated hmin)
    | and child =>
      obtain ⟨a, ha, rfl⟩ := hgives
      cases a with
      | fail stop => exact .fail
      | success stop nodes => exact .here (hcall _ rfl (.and _)) []
      | needMoreInput stop nodes => exact .waiting (hR _ _ _ ha).lenient
    | not child =>
      obtain ⟨a, ha, rfl⟩ := hgives
      cases a with
      | fail stop => exact .here (hcall _ rfl (.not _)) []
      | success stop nodes => exact .fail
      | needMoreInput stop nodes => exact .waiting (hR _ _ _ ha).lenient
    | any =>
      obtain rfl := hgives
      exact proceeds_anyAt
    | space =>
      obtain rfl := hgives
      exact proceeds_spaceFrom (hcall _ rfl (.star _))
    | chars ranges negated minCount maxCount =>
      obtain rfl := hgives
      exact (proceeds_charsFrom _ 0).mono fun hmin => hcall _ rfl (nullable_repeated hmin)
    | string delimiter =>
      obtain rfl := hgives
      exact (proceeds_stringFrom delimiter _).mono fun _ => hcall _ rfl (.seq (.star _) (.and _))
    | untilOneOf delimiters =>
      obtain rfl := hgives
      exact (proceeds_untilFrom _ _).mono fun _ => hcall _ rfl (.star _)
    | schema child _ | gbnf child =>
      obtain ⟨a, ha, rfl⟩ := hgives
      exact (hR _ _ _ ha).mono (hcall _ rfl)
    | rule _ child | tag child _ =>
      obtain ⟨a, ha, rfl⟩ := hgives
      exact ((hR _ _ _ ha).mono (hcall _ rfl)).wrap _ _ _
    | ref name =>
      cases hrule : A.rules name with
      | none =>
        simp only [Node.exec, hrule] at hgives
        exact False.elim hgives
      | some target =>
        simp only [Node.exec, hrule] at hgives
        obtain ⟨a, ha, rfl⟩ := hgives
        refine (hR _ _ _ ha).mono (hcall _ ?_)
        rw [Node.expr, hrule]
        rfl
    | atomic child =>
      obtain ⟨a, ha, rfl⟩ := hgives
      exact ((hR _ _ _ ha).mono (hcall _ rfl)).clear

theorem asks_single {R : ℕ × ℕ → Result → Prop} {child c q : ℕ} {f : Result → Result}
    (h : (Body.calls (child, pos) fun a => Body.returns (f a) : Action).Asks R (c, q)) :
    c = child ∧ q = pos := by
  rcases h with heq | ⟨a, -, hnext⟩
  · exact Prod.mk.injEq .. ▸ heq
  · exact False.elim hnext

/-- A parser calls others further on, or those that its expression may try first. -/
theorem ahead_of_calls {c q : ℕ} (h : Calls (A.body ctx) (id, pos) (c, q)) :
    (∃ node, A.get id = some node ∧
      (c ∈ node.children ∨ ∃ name, node = .ref name ∧ A.rules name = some c)) ∧
      Ahead ctx.input.length pos q (LeftCalls (A.grammar ctx.input) id c) := by
  unfold Calls Arena.body at h
  cases hget : A.get id with
  | none =>
    rw [hget] at h
    exact False.elim h
  | some node =>
    rw [hget] at h
    have hleft : ∀ e, node.expr ctx.input A = some e → Leftmost (A.grammar ctx.input) e c →
        LeftCalls (A.grammar ctx.input) id c :=
      fun e he hleft => ⟨e, by rw [Arena.grammar, hget]; exact he, hleft⟩
    have hsingle : ∀ child, c = child ∧ q = pos → child ∈ node.children →
        (node.expr ctx.input A = some (.call child) ∨
          node.expr ctx.input A = some (.and (.call child)) ∨
          node.expr ctx.input A = some (.not (.call child))) →
        (∃ node', some node = some node' ∧ (c ∈ node'.children ∨
          ∃ name, node' = .ref name ∧ A.rules name = some c)) ∧
        Ahead ctx.input.length pos q (LeftCalls (A.grammar ctx.input) id c) := by
      rintro child ⟨rfl, rfl⟩ hmem hexpr
      refine ⟨⟨node, rfl, .inl hmem⟩, .here ?_⟩
      rcases hexpr with he | he | he
      · exact hleft _ he rfl
      · exact hleft _ he rfl
      · exact hleft _ he rfl
    have hR : ∀ c q a, Evaluates (A.body ctx) (c, q) a →
        a.Proceeds ctx q (Nullable (A.grammar ctx.input) (.call c)) :=
      fun c q a ha => proceeds_parse ha
    cases node with
    | sequence children =>
      obtain ⟨hmem, hle, hmax, hstart⟩ := ahead_sequenceFrom hR h
      exact ⟨⟨_, rfl, .inl hmem⟩, hle, hmax, fun heq => hleft _ rfl (hstart heq)⟩
    | choice children =>
      obtain ⟨hmem, hle, hmax, hstart⟩ := ahead_choiceFrom (n := ctx.input.length)
        (G := A.grammar ctx.input) h
      exact ⟨⟨_, rfl, .inl hmem⟩, hle, hmax, fun heq => hleft _ rfl (hstart heq)⟩
    | repetition child minCount maxCount =>
      obtain ⟨rfl, hle, hmax, hstart⟩ := ahead_repetitionFrom hR h
      refine ⟨⟨_, rfl, .inl mem_cons_self⟩, hle, hmax, fun heq => hleft _ rfl ?_⟩
      exact leftmost_repeated (a := .call c) rfl _ (mayRepeat_zero (hstart heq))
    | ref name =>
      cases hrule : A.rules name with
      | none =>
        simp only [Node.exec, hrule] at h
        exact False.elim h
      | some target =>
        simp only [Node.exec, hrule] at h
        obtain ⟨rfl, rfl⟩ := asks_single h
        refine ⟨⟨_, rfl, .inr ⟨name, rfl, hrule⟩⟩, .here (hleft (.call c) ?_ rfl)⟩
        rw [Node.expr, hrule]
        rfl
    | and child =>
      exact hsingle child (asks_single h) mem_cons_self (.inr (.inl rfl))
    | not child =>
      exact hsingle child (asks_single h) mem_cons_self (.inr (.inr rfl))
    | schema child _ | rule _ child | atomic child | tag child _ | gbnf child =>
      exact hsingle child (asks_single h) mem_cons_self (.inl rfl)
    | epsilon | start | end_ | literal _ | any | space | chars _ _ _ _ | string _
    | untilOneOf _ => exact False.elim h

theorem not_throws_body (hid : A.Defines id) {R : ℕ × ℕ → Result → Prop} :
    ¬(A.body ctx (id, pos)).Throws R := by
  obtain ⟨node, hget, hrules⟩ := hid
  have hsingle : ∀ (child : ℕ) (f : Result → Result),
      ¬(Body.calls (child, pos) fun a => Body.returns (f a) : Action).Throws R := by
    rintro child f ⟨a, -, hnext⟩
    exact hnext
  simp only [Arena.body, hget]
  cases node with
  | sequence children => exact not_throws_sequenceFrom
  | choice children => exact not_throws_choiceFrom
  | repetition child minCount maxCount => exact not_throws_repetitionFrom
  | ref name =>
    obtain ⟨target, hrule⟩ := Option.isSome_iff_exists.mp (hrules name rfl)
    simp only [Node.exec, hrule]
    exact hsingle target _
  | and child | not child | schema child _ | rule _ child | atomic child | tag child _
  | gbnf child => exact hsingle child _
  | epsilon | start | end_ | literal _ | any | space | chars _ _ _ _ | string _
  | untilOneOf _ => exact fun h => h

theorem Arena.Closed.defines_of_calls (hclosed : A.Closed) {key key' : ℕ × ℕ}
    (h : Calls (A.body ctx) key key') : A.Defines key'.1 := by
  obtain ⟨⟨node, hget, hmem | ⟨name, rfl, hrule⟩⟩, -⟩ := ahead_of_calls h
  · exact hclosed.children hget hmem
  · exact hclosed.rules hrule

theorem Arena.Closed.defines_of_tries (hclosed : A.Closed) {key key' : ℕ × ℕ}
    (hkey : A.Defines key.1) (h : Tries (A.body ctx) key key') : A.Defines key'.1 := by
  cases h with
  | refl => exact hkey
  | tail _ hcalls => exact hclosed.defines_of_calls hcalls

/-- Without left recursion a parse returns. -/
theorem exists_parse (hclosed : A.Closed) (hrec : A.NotLeftRecursive) (ctx : Context)
    (hid : A.Defines id) (pos : ℕ) : ∃ r, Evaluates (A.body ctx) (id, pos) r := by
  let measure : ℕ × ℕ → ℕ × ℕ := fun key => (ctx.input.length - key.2, key.1)
  have hwf : WellFounded (InvImage
      (Prod.Lex (· < ·) fun j i => LeftCalls (A.grammar ctx.input) i j) measure) :=
    InvImage.wf measure (WellFounded.prod_lex wellFounded_lt (hrec.wellFounded ctx.input))
  refine exists_evaluates (S := fun key => A.Defines key.1) hwf ?_
    (fun key hkey => not_throws_body hkey) hid
  rintro ⟨id, pos⟩ ⟨c, q⟩ - hcalls
  obtain ⟨-, hle, hmax, hleft⟩ := ahead_of_calls hcalls
  constructor
  · exact hclosed.defines_of_calls hcalls
  · rcases eq_or_lt_of_le hle with rfl | hlt
    · exact Prod.Lex.right _ (hleft rfl)
    · exact Prod.Lex.left _ _ (by omega)

/-- The strict mode never waits for more of the text. -/
theorem not_waits_parse {s : Text} {key : ℕ × ℕ} (h : Evaluates (A.body ⟨s, false⟩) key r) :
    ¬r.Waits := (proceeds_parse h).not_waits

end Parses

end ExpertPin.Peg
