import ExpertPin.Peg.Building
import ExpertPin.Peg.Runs

/-!
# Parsing without the lenient mode

What a parser matches in the strict mode is compared with the expression by which it is
documented.  They are not the same where a repetition has to match the empty text to be often
enough, where a delimiter has only begun at the end of the text, and where there is whitespace
that the documentation does not name.

`Regular` says of one parser at one position that nothing of this happens.  It is the condition
for the parser to agree with its expression if the parsers that it calls do
(`agrees_iff_regular`), and so it holds in the course of a whole parse if and only if each of the
parses that it consists of is that of its expression (`strict_iff`).
-/

namespace ExpertPin.Peg

open Recursion ParsingExpressions
open Utf8 (encode)
open List
open Option
open Nat

/-- A result is the outcome of an expression. -/
def Result.Agrees (G : ℕ → Option (Expr ℕ)) (e : Expr ℕ) (pos : ℕ) : Result → Prop
  | .success stop _ => Parses G e pos (some stop)
  | .fail _ => Parses G e pos none
  | .needMoreInput _ _ => False

/-- The strict mode. -/
def strict (text : List Char) : Context := ⟨encode text, false⟩

section Leaves

variable {G : ℕ → Option (Expr ℕ)} {text : List Char} {startPos pos q : ℕ} {e e' : Expr ℕ}
variable {r : Result}

theorem agrees_congr (h : ∀ o, Parses G e pos o ↔ Parses G e' q o) :
    r.Agrees G e pos ↔ r.Agrees G e' q := by
  cases r with
  | fail stop => exact h none
  | success stop nodes => exact h (some stop)
  | needMoreInput stop nodes => exact Iff.rfl

/-- A repetition agrees if it does so behind an iteration. -/
theorem agrees_repeated_step {a : Expr ℕ} {least count : ℕ} {most : Option ℕ}
    (ha : Parses G a pos (some q)) (hne : q ≠ pos) (hmost : ∀ n, most = some n → count < n) :
    r.Agrees G (repeated a (least - count) (most.map (· - count))) pos ↔
      r.Agrees G (repeated a (least - (count + 1)) (most.map (· - (count + 1)))) q := by
  have hmap : most.map (· - (count + 1)) = (most.map (· - count)).map (· - 1) := by
    rw [Option.map_map]
    rfl
  have hzero : most.map (· - count) ≠ some 0 := by
    intro heq
    obtain ⟨n, hn, hzero⟩ := Option.map_eq_some_iff.mp heq
    have hlt := hmost n hn
    omega
  rw [hmap, sub_succ]
  exact agrees_congr fun o => parses_repeated_step ha hne hzero

/-- A repetition that may not go on. -/
theorem parses_repeated_bound {a : Expr ℕ} (htotal : ∀ p, ∃ o, Parses G a p o) (least pos : ℕ) :
    Parses G (repeated a least (some 0)) pos (if least = 0 then some pos else none) := by
  by_cases hleast : least = 0
  · rw [if_pos hleast, hleast]
    exact .repeated_zero pos
  · rw [if_neg hleast]
    exact .repeated_lt htotal (Nat.pos_of_ne_zero hleast) pos

/-! ## Parsers of characters -/

theorem agrees_literalFrom (literal : Text) :
    (literalFrom (strict text) startPos literal pos).Agrees G
      (.terminal (literalAt (encode text) literal)) pos := by
  suffices hresult : literalFrom (strict text) startPos literal pos =
      (literalAt (encode text) literal pos).elim (.fail startPos) (.success · []) by
    rw [hresult]
    cases heq : literalAt (encode text) literal pos with
    | none => exact parses_terminal.mpr heq.symm
    | some stop => exact parses_terminal.mpr heq.symm
  induction literal generalizing pos with
  | nil =>
    rw [literalAt, if_pos List.nil_prefix]
    rfl
  | cons c literal ih =>
    unfold literalFrom
    have hinput : (strict text).input = encode text := rfl
    rw [hinput]
    cases hget : (encode text)[pos]? with
    | none =>
      have hnil := List.drop_eq_nil_of_le (List.getElem?_eq_none_iff.mp hget)
      have hnot : ¬c :: literal <+: (encode text).drop pos := by
        rw [hnil, List.prefix_nil]
        exact List.cons_ne_nil c literal
      rw [literalAt, if_neg hnot]
      rfl
    | some d =>
      obtain ⟨hlt, rfl⟩ := List.getElem?_eq_some_iff.mp hget
      have hcons : c :: literal <+: (encode text).drop pos ↔
          (encode text)[pos] = c ∧ literal <+: (encode text).drop (pos + 1) := by
        rw [List.drop_eq_getElem_cons hlt, List.cons_prefix_cons, eq_comm]
      have hat : literalAt (encode text) (c :: literal) pos =
          if (encode text)[pos] = c then literalAt (encode text) literal (pos + 1)
          else none := by
        rw [literalAt, literalAt, List.length_cons, add_comm literal.length, ← add_assoc]
        by_cases hc : (encode text)[pos] = c
        · rw [if_pos hc]
          exact if_congr (hcons.trans (and_iff_right hc)) rfl rfl
        · rw [if_neg hc, if_neg fun hprefix => hc (hcons.mp hprefix).1]
      rw [hat]
      by_cases hc : (encode text)[pos] = c
      · rw [if_pos hc]
        simp only [ne_eq, hc, not_true, if_false]
        exact ih
      · rw [if_neg hc]
        simp only [ne_eq, hc, not_false_eq_true, if_true]
        rfl

theorem parses_charIn {c : Char} {p : ℕ → Bool} (hchar : charAt (encode text) pos = some c)
    (hp : p c.toNat) :
    Parses G (.terminal (charIn (encode text) p)) pos (some (pos + c.utf8Size)) := by
  rw [parses_terminal, charIn_of_charAt hchar, if_pos hp]

theorem parses_charIn_none {c : Char} {p : ℕ → Bool}
    (hchar : charAt (encode text) pos = some c)
    (hp : ¬p c.toNat) : Parses G (.terminal (charIn (encode text) p)) pos none := by
  rw [parses_terminal, charIn_of_charAt hchar, if_neg hp]

theorem parses_charIn_of_none {p : ℕ → Bool} (hchar : charAt (encode text) pos = none) :
    Parses G (.terminal (charIn (encode text) p)) pos none := by
  rw [parses_terminal, charIn_eq_none hchar]

theorem agrees_anyAt : (anyAt (strict text) pos).Agrees G
    (.terminal (charIn (encode text) fun _ => true)) pos := by
  unfold anyAt
  have hinput : (strict text).input = encode text := rfl
  rw [hinput]
  rcases parseUtf8Codepoint_cases text pos with ⟨c, hchar, hparse⟩ | ⟨hchar, hparse | hparse⟩
  · rw [hparse]
    exact parses_charIn hchar rfl
  · rw [hparse]
    exact parses_charIn_of_none hchar
  · rw [hparse]
    exact parses_charIn_of_none hchar

section Chars

variable {ranges : List CharRange} {negated : Bool} {minCount maxCount : ℤ}

/-- A run of characters that is over where the next one fails. -/
theorem agrees_charsDone {a : Expr ℕ} {most : Option ℕ} {matchCount : ℕ}
    (h : Parses G (repeated a (minCount.toNat - matchCount) most) pos
      (if minCount.toNat - matchCount = 0 then some pos else none)) :
    (charsDone (strict text) minCount pos matchCount).Agrees G
      (repeated a (minCount.toNat - matchCount) most) pos := by
  unfold charsDone
  by_cases hmin : (matchCount : ℤ) < minCount
  · rw [if_neg (by omega)] at h
    rw [if_pos hmin]
    split
    · exact h
    · exact h
  · rw [if_pos (by omega)] at h
    rw [if_neg hmin]
    exact h

theorem not_mayRepeat {matchCount : ℕ} (h : ¬mayRepeat maxCount matchCount)
    (hcount : ∀ n, bound maxCount = some n → matchCount ≤ n) :
    bound maxCount = some matchCount := by
  have hne : maxCount ≠ -1 := fun heq => h (.inl heq)
  have hge : ¬matchCount < maxCount := fun hlt => h (.inr hlt)
  have hbound : bound maxCount = some maxCount.toNat := if_neg hne
  have hle := hcount _ hbound
  rw [hbound]
  congr 1
  omega

theorem bound_of_mayRepeat {matchCount n : ℕ} (h : mayRepeat maxCount matchCount)
    (hn : bound maxCount = some n) : matchCount < n := by
  unfold bound at hn
  split at hn
  · cases hn
  case isFalse hne =>
    cases hn
    rcases h with h | h
    · exact absurd h hne
    · omega

theorem agrees_charsFrom {steps matchCount : ℕ} (hsteps : (encode text).length < steps + pos)
    (hcount : ∀ n, bound maxCount = some n → matchCount ≤ n) :
    (charsFrom (strict text) startPos ranges negated minCount maxCount steps pos matchCount).Agrees
      G
      (repeated (.terminal (charIn (encode text) (matchesClass ranges negated)))
        (minCount.toNat - matchCount) ((bound maxCount).map (· - matchCount))) pos := by
  have hinput : (strict text).input = encode text := rfl
  induction steps generalizing pos matchCount with
  | zero =>
    have hchar : charAt (encode text) pos = none := by
      rw [charAt, drop_of_length_le (by omega), Utf8.firstChar_nil]
    exact agrees_charsDone ((parses_charIn_of_none hchar).repeated_fail _ _)
  | succ steps ih =>
    unfold charsFrom
    rw [hinput]
    by_cases hrepeat : mayRepeat maxCount matchCount
    · rw [if_pos hrepeat]
      have hover : charAt (encode text) pos = none →
          (if minCount ≤ matchCount then Result.success pos [] else .fail startPos).Agrees G
            (repeated (.terminal (charIn (encode text) (matchesClass ranges negated)))
              (minCount.toNat - matchCount) ((bound maxCount).map (· - matchCount))) pos := by
        intro hchar
        have hfail := (parses_charIn_of_none (G := G) (p := matchesClass ranges negated)
          hchar).repeated_fail (minCount.toNat - matchCount) ((bound maxCount).map (· - matchCount))
        by_cases hmin : minCount ≤ matchCount
        · rw [if_pos (by omega)] at hfail
          rw [if_pos hmin]
          exact hfail
        · rw [if_neg (by omega)] at hfail
          rw [if_neg hmin]
          exact hfail
      rcases parseUtf8Codepoint_cases text pos with ⟨c, hchar, hparse⟩ | ⟨hchar, hparse | hparse⟩
      · rw [hparse]
        by_cases hclass : matchesClass ranges negated c.toNat
        · simp only [hclass, if_true]
          have hstep := parses_charIn (G := G) (p := matchesClass ranges negated) hchar hclass
          have hne : pos + c.utf8Size ≠ pos := by
            have hpos := c.utf8Size_pos
            omega
          have hlt : ∀ n, bound maxCount = some n → matchCount < n :=
            fun n hn => bound_of_mayRepeat hrepeat hn
          exact (agrees_repeated_step hstep hne hlt).mpr (ih (by omega) hlt)
        · simp only [hclass, if_false, Bool.false_eq_true]
          exact agrees_charsDone ((parses_charIn_none hchar hclass).repeated_fail _ _)
      · rw [hparse]
        exact hover hchar
      · rw [hparse]
        exact hover hchar
    · have hzero : (bound maxCount).map (· - matchCount) = some 0 := by
        rw [not_mayRepeat hrepeat hcount, map_some, Nat.sub_self]
      rw [if_neg hrepeat, hzero]
      exact agrees_charsDone (parses_repeated_bound (fun p => ⟨_, .terminal _ p⟩) _ pos)

end Chars

/-! ## Strings -/

theorem parses_byteIn {p : UInt8 → Bool} {c : UInt8} {bytes : Text} (hget : bytes[pos]? = some c) :
    Parses G (.terminal (byteIn bytes p)) pos (if p c then some (pos + 1) else none) := by
  rw [parses_terminal, byteIn, hget]
  rfl

theorem parses_byteIn_of_none {p : UInt8 → Bool} {bytes : Text} (hget : bytes[pos]? = none) :
    Parses G (.terminal (byteIn bytes p)) pos none := by
  rw [parses_terminal, byteIn, hget]
  rfl

theorem agrees_unicodeEscape (digits : ℕ) :
    (unicodeEscape (strict text) startPos digits pos).Agrees G
    (times (.terminal (byteIn (encode text) isHexDigit)) digits) pos := by
  induction digits generalizing pos with
  | zero => exact .empty pos
  | succ digits ih =>
    unfold unicodeEscape
    have hinput : (strict text).input = encode text := rfl
    rw [hinput]
    cases hget : (encode text)[pos]? with
    | none => exact .seqFail (parses_byteIn_of_none hget)
    | some c =>
      have hbyte := parses_byteIn (G := G) (p := isHexDigit) hget
      dsimp only
      split
      case isTrue hhex =>
        rw [if_pos hhex] at hbyte
        have hrest : (unicodeEscape (strict text) startPos digits (pos + 1)).Agrees G
            (times (.terminal (byteIn (encode text) isHexDigit)) digits) (pos + 1) := ih
        revert hrest
        cases unicodeEscape (strict text) startPos digits (pos + 1) with
        | fail stop => exact fun hrest => .seq hbyte hrest
        | success stop nodes => exact fun hrest => .seq hbyte hrest
        | needMoreInput stop nodes => exact fun hrest => hrest
      case isFalse hhex =>
        rw [if_neg hhex] at hbyte
        exact .seqFail hbyte

/-- An escape, where a backslash is. -/
theorem agrees_escapeSequence (delimiter : UInt8) (hget : (encode text)[pos]? = some 92) :
    (escapeSequence (strict text) startPos delimiter pos).Agrees G
      (escapeExpr (encode text) delimiter) pos := by
  have hbackslash : Parses G (.terminal (byteIn (encode text) (· == 92))) pos
      (some (pos + 1)) := parses_byteIn hget
  have hinput : (strict text).input = encode text := rfl
  unfold escapeSequence
  rw [hinput]
  cases hnext : (encode text)[pos + 1]? with
  | none =>
    exact .seq hbackslash (.choiceElse (parses_byteIn_of_none hnext)
      (.seqFail (parses_byteIn_of_none hnext)))
  | some c =>
    have hescape := parses_byteIn (G := G) (p := isEscape delimiter) hnext
    have hunicode := parses_byteIn (G := G) (p := (· == 117)) hnext
    dsimp only
    by_cases hc : isEscape delimiter c
    · rw [if_pos hc] at hescape ⊢
      exact .seq hbackslash (.choice hescape)
    · rw [if_neg hc] at hescape ⊢
      by_cases hu : c = 117
      · rw [if_pos hu]
        rw [if_pos (by simp [hu])] at hunicode
        have hdigits : (unicodeEscape (strict text) startPos 4 (pos + 2)).Agrees G
            (times (.terminal (byteIn (encode text) isHexDigit)) 4) (pos + 2) :=
          agrees_unicodeEscape 4
        revert hdigits
        cases unicodeEscape (strict text) startPos 4 (pos + 2) with
        | fail stop =>
          exact fun hdigits => .seq hbackslash (.choiceElse hescape (.seq hunicode hdigits))
        | success stop nodes =>
          exact fun hdigits => .seq hbackslash (.choiceElse hescape (.seq hunicode hdigits))
        | needMoreInput stop nodes => exact fun hdigits => hdigits
      · rw [if_neg hu]
        rw [if_neg (by simp [hu])] at hunicode
        exact .seq hbackslash (.choiceElse hescape (.seqFail hunicode))

/-- A string agrees if it does so behind an escape or a character. -/
theorem Result.Agrees.star_step {a b : Expr ℕ} (ha : Parses G a pos (some q)) (hne : q ≠ pos)
    (h : r.Agrees G (.seq (.star a) b) q) : r.Agrees G (.seq (.star a) b) pos := by
  refine (agrees_congr fun o => ?_).mpr h
  rw [parses_seq, parses_seq]
  exact or_congr (exists_congr fun q' => and_congr (parses_star_step ha hne) Iff.rfl)
    (and_congr (parses_star_step ha hne) Iff.rfl)

theorem agrees_stringFrom {delimiter : UInt8} {steps : ℕ}
    (hsteps : (encode text).length ≤ steps + pos) :
    (stringFrom (strict text) startPos delimiter steps pos).Agrees G
      (stringExpr (encode text) delimiter) pos := by
  have hinput : (strict text).input = encode text := rfl
  have hend : ∀ {pos : ℕ}, (encode text)[pos]? = none →
      Parses G (stringExpr (encode text) delimiter) pos none := by
    intro pos hget
    have hchar : charAt (encode text) pos = none := by
      rw [charAt, List.drop_of_length_le (List.getElem?_eq_none_iff.mp hget), Utf8.firstChar_nil]
    exact .seq (.starFail (.seq (.not (parses_byteIn_of_none hget))
      (.choiceElse (.seqFail (parses_byteIn_of_none hget)) (parses_charIn_of_none hchar))))
      (.andFail (parses_byteIn_of_none hget))
  induction steps generalizing pos with
  | zero => exact hend (List.getElem?_eq_none_iff.mpr (by omega))
  | succ steps ih =>
    unfold stringFrom
    rw [hinput]
    cases hget : (encode text)[pos]? with
    | none => exact hend hget
    | some c =>
      have hdelimiter := parses_byteIn (G := G) (p := (· == delimiter)) hget
      have hbackslash := parses_byteIn (G := G) (p := (· == 92)) hget
      dsimp only
      by_cases hc : c = delimiter
      · rw [if_pos hc]
        rw [if_pos (by simp [hc])] at hdelimiter
        exact .seq (.starFail (.seqFail (.notFail hdelimiter))) (.and hdelimiter)
      · rw [if_neg hc]
        rw [if_neg (by simp [hc])] at hdelimiter
        by_cases hb : c = 92
        · rw [if_pos hb]
          have hget' : (encode text)[pos]? = some 92 := hb ▸ hget
          have hescape : (escapeSequence (strict text) startPos delimiter pos).Agrees G
              (escapeExpr (encode text) delimiter) pos :=
            agrees_escapeSequence delimiter hget'
          have hspans : (escapeSequence (strict text) startPos delimiter pos).Spans
              (encode text).length pos False := (proceeds_escapeSequence delimiter).1
          cases hresult : escapeSequence (strict text) startPos delimiter pos with
          | success stop nodes =>
            rw [hresult] at hescape hspans
            have hne : stop ≠ pos := hspans.2.2
            refine Result.Agrees.star_step (.seq (.not hdelimiter) (.choice hescape)) hne ?_
            exact ih (by have := hspans.1; omega)
          | needMoreInput stop nodes =>
            rw [hresult] at hescape
            exact hescape
          | fail stop =>
            rw [hresult] at hescape
            have hplain : Parses G (.terminal (charIn (encode text) (· != 92))) pos none := by
              cases hchar : charAt (encode text) pos with
              | none => exact parses_charIn_of_none hchar
              | some d =>
                have hd : d.toNat = 92 := toNat_of_charAt hget' rfl hchar
                exact parses_charIn_none hchar (by simp [hd])
            exact .seq (.starFail (.seq (.not hdelimiter) (.choiceElse hescape hplain)))
              (.andFail hdelimiter)
        · rw [if_neg hb]
          rw [if_neg (by simp [hb])] at hbackslash
          rcases parseUtf8Codepoint_cases text pos with
            ⟨d, hchar, hparse⟩ | ⟨hchar, hparse | hparse⟩
          · rw [hparse]
            have hne : pos + d.utf8Size ≠ pos := by
              have hpos := d.utf8Size_pos
              omega
            have hplain : (d.toNat != 92) = true := by
              refine bne_iff_ne.mpr fun hd => hb ?_
              have hprefix := charAt_eq_some_iff.mp hchar
              obtain ⟨hlt, rfl⟩ := List.getElem?_eq_some_iff.mp hget
              rw [Utf8.utf8EncodeChar_of_lt (by omega), List.drop_eq_getElem_cons hlt,
                List.cons_prefix_cons, hd] at hprefix
              exact hprefix.1.symm
            refine Result.Agrees.star_step (.seq (.not hdelimiter) (.choiceElse
              (.seqFail hbackslash) (parses_charIn hchar hplain))) hne ?_
            exact ih (by omega)
          · rw [hparse]
            exact .seq (.starFail (.seq (.not hdelimiter) (.choiceElse
              (.seqFail hbackslash) (parses_charIn_of_none hchar)))) (.andFail hdelimiter)
          · rw [hparse]
            exact .seq (.starFail (.seq (.not hdelimiter) (.choiceElse
              (.seqFail hbackslash) (parses_charIn_of_none hchar)))) (.andFail hdelimiter)

/-! ## Whitespace -/

/-- The whitespace that is documented: spaces, tabs and newlines. -/
def isBlank (c : UInt8) : Bool := c == 32 || c == 9 || c == 10

theorem parses_star_byteIn (bytes : Text) (p : UInt8 → Bool) (pos : ℕ) :
    Parses G (.star (.terminal (byteIn bytes p))) pos
      (some (pos + ((bytes.drop pos).takeWhile p).length)) := by
  induction hrest : bytes.drop pos generalizing pos with
  | nil =>
    have hget := getElem?_eq_none_iff.mpr (drop_eq_nil_iff.mp hrest)
    exact .starFail (parses_byteIn_of_none hget)
  | cons c rest ih =>
    have hlt : pos < bytes.length := by
      apply Nat.lt_of_not_le
      intro hle
      rw [drop_of_length_le hle] at hrest
      cases hrest
    rw [drop_eq_getElem_cons hlt, cons.injEq] at hrest
    obtain ⟨hc, hrest⟩ := hrest
    have hbyte := parses_byteIn (G := G) (p := p) (getElem?_eq_getElem hlt)
    rw [hc] at hbyte
    by_cases hp : p c
    · rw [if_pos hp] at hbyte
      rw [takeWhile_cons_of_pos hp, length_cons, Nat.add_comm _ 1, ← Nat.add_assoc]
      exact .star hbyte (Nat.succ_ne_self pos) (ih (pos + 1) hrest)
    · rw [if_neg hp] at hbyte
      rw [takeWhile_cons_of_neg hp]
      exact .starFail hbyte

theorem takeWhile_eq_iff {α : Type} {p p' : α → Bool} (h : ∀ a, p a → p' a) (l : List α) :
    (l.takeWhile p).length = (l.takeWhile p').length ↔ ∀ a ∈ l.takeWhile p', p a := by
  induction l with
  | nil => exact iff_of_true rfl (forall_mem_nil _)
  | cons a l ih =>
    by_cases hp : p a
    · rw [takeWhile_cons_of_pos hp, takeWhile_cons_of_pos (h a hp), length_cons,
        length_cons, succ_inj, ih, forall_mem_cons, and_iff_right hp]
    · rw [takeWhile_cons_of_neg hp]
      by_cases hp' : p' a
      · rw [takeWhile_cons_of_pos hp', forall_mem_cons]
        exact iff_of_false (succ_ne_zero _).symm fun hand => hp hand.1
      · rw [takeWhile_cons_of_neg hp']
        exact iff_of_true rfl (forall_mem_nil _)

theorem agrees_spaceFrom_iff : (spaceFrom (strict text) pos).Agrees G
    (.star (.terminal (byteIn (encode text) isBlank))) pos ↔
      ∀ c ∈ ((encode text).drop pos).takeWhile isSpace, isBlank c := by
  have hblank : ∀ c, isBlank c → isSpace c := by
    intro c hc
    simp only [isBlank, Bool.or_eq_true, beq_iff_eq] at hc
    rcases hc with (rfl | rfl) | rfl <;> rfl
  have hstar := parses_star_byteIn (G := G) (encode text) isBlank pos
  rw [← takeWhile_eq_iff hblank]
  constructor
  · intro h
    have heq := some.inj (hstar.unique h)
    exact add_left_cancel heq
  · intro heq
    rw [heq] at hstar
    exact hstar

/-! ## Delimiters -/

section Until

variable {delimiters : List Text} {matcher : WordTrie}

/-- Where a scan comes to, there is a character, and a delimiter is seen just if it stands there. -/
def SeesDelimiters (matcher : WordTrie) (delimiters : List Text) (bytes : Text) (q : ℕ) : Prop :=
  q < bytes.length → (charAt bytes q).isSome ∧
    (matcher.checkAt bytes q ≠ .noMatch ↔ ∃ d ∈ delimiters, d <+: bytes.drop q)

theorem parses_delimiters (delimiters : List Text) (bytes : Text) (pos : ℕ) :
    (∃ d ∈ delimiters, d <+: bytes.drop pos) ∧
      (∃ q, Parses G (choices (delimiters.map fun d => .terminal (literalAt bytes d))) pos
        (some q)) ∨
    (¬∃ d ∈ delimiters, d <+: bytes.drop pos) ∧
      Parses G (choices (delimiters.map fun d => .terminal (literalAt bytes d))) pos none := by
  induction delimiters with
  | nil => exact .inr ⟨by simp, .fail pos⟩
  | cons d delimiters ih =>
    rw [map_cons, choices_cons]
    by_cases hd : d <+: bytes.drop pos
    · refine .inl ⟨⟨d, mem_cons_self, hd⟩, pos + d.length, .choice ?_⟩
      rw [parses_terminal, literalAt, if_pos hd]
    · have hfail : Parses G (.terminal (literalAt bytes d)) pos none := by
        rw [parses_terminal, literalAt, if_neg hd]
      rcases ih with ⟨⟨d', hmem, hd'⟩, q, hq⟩ | ⟨hnone, hq⟩
      · exact .inl ⟨⟨d', mem_cons_of_mem d hmem, hd'⟩, q, .choiceElse hfail hq⟩
      · refine .inr ⟨?_, .choiceElse hfail hq⟩
        rintro ⟨d', hmem, hd'⟩
        rcases mem_cons.mp hmem with rfl | hmem
        · exact hd hd'
        · exact hnone ⟨d', hmem, hd'⟩

/-- A scan is as documented if and only if it is at each position that it comes to. -/
theorem agrees_untilFrom_iff (hG : ∀ i e, G i = some e → e.Fits (encode text).length)
    {steps : ℕ} (hsteps : (encode text).length ≤ steps + pos) :
    (untilFrom (strict text) startPos matcher steps pos).Agrees G
        (untilExpr (encode text) delimiters) pos ↔
      ∀ q, Scans matcher (encode text) pos q →
        SeesDelimiters matcher delimiters (encode text) q := by
  have hinput : (strict text).input = encode text := rfl
  have hdone : ∀ {pos : ℕ}, (encode text).length ≤ pos →
      ((untilDone (strict text) pos).Agrees G (untilExpr (encode text) delimiters) pos ↔
        ∀ q, Scans matcher (encode text) pos q →
          SeesDelimiters matcher delimiters (encode text) q) := by
    intro pos hle
    have hchar : charAt (encode text) pos = none := by
      rw [charAt, drop_of_length_le hle, Utf8.firstChar_nil]
    have hdone : untilDone (strict text) pos = .success pos [] := by
      rw [untilDone, strict, Bool.and_false]
      rfl
    rw [hdone]
    refine iff_of_true (.starFail ?_) fun q hq => ?_
    · rcases parses_delimiters delimiters (encode text) pos with ⟨-, q, hq⟩ | ⟨-, hq⟩
      · exact .seqFail (.notFail hq)
      · exact .seq (.not hq) (parses_charIn_of_none hchar)
    · cases hq with
      | refl => exact fun hlt => absurd hlt (Nat.not_lt.mpr hle)
      | step hparse =>
        obtain ⟨hpos, hle'⟩ := parseUtf8Codepoint_bounds hparse
        omega
  induction steps generalizing pos with
  | zero => exact hdone (by omega)
  | succ steps ih =>
    unfold untilFrom
    rw [hinput]
    by_cases hlt : pos < (encode text).length
    · rw [if_pos hlt]
      -- the expression stops here if no iteration of it matches
      have hstop : ∀ {r : Result},
          Parses G (untilExpr (encode text) delimiters) pos (some pos) →
          r.Spans (encode text).length pos False →
          ¬r.Agrees G (untilExpr (encode text) delimiters) pos := by
        intro r hself hspans hagrees
        cases r with
        | fail stop => cases hself.unique hagrees
        | success stop nodes =>
          cases hself.unique hagrees
          exact hspans.2.2 rfl
        | needMoreInput stop nodes => exact hagrees
      rcases parseUtf8Codepoint_cases text pos with ⟨c, hchar, hparse⟩ | ⟨hchar, hparse⟩
      · rw [hparse]
        have hpos := c.utf8Size_pos
        have hne : pos + c.utf8Size ≠ pos := by omega
        rcases parses_delimiters delimiters (encode text) pos with
          ⟨hstands, q, hq⟩ | ⟨hstands, hq⟩
        · have hself : Parses G (untilExpr (encode text) delimiters) pos (some pos) :=
            .starFail (.seqFail (.notFail hq))
          cases hmatch : matcher.checkAt (encode text) pos with
          | noMatch =>
            have hspans : (untilFrom (strict text) startPos matcher steps
                (pos + c.utf8Size)).Spans (encode text).length (pos + c.utf8Size) True :=
              (proceeds_untilFrom matcher steps).1
            have hany : charIn (encode text) (fun _ => true) pos =
                some (pos + c.utf8Size) := charIn_eq_some_iff.mpr ⟨c, hchar, rfl, rfl⟩
            refine iff_of_false (hstop hself (hspans.of_le (Nat.lt_add_of_pos_right hpos) ?_)) ?_
            · exact (fits_charIn _ pos _ hany).2
            · exact fun hall => (hall pos (.refl pos) hlt).2.mpr hstands hmatch
          | partialMatch | completeMatch =>
            refine iff_of_true hself fun q hscan => ?_
            cases hscan with
            | refl =>
              refine fun _ => ⟨isSome_of_mem hchar, iff_of_true ?_ hstands⟩
              rw [hmatch]
              intro hmatch'
              cases hmatch'
            | step _ hno => cases hmatch.symm.trans hno
        · have hstep : Parses G (.seq (.not (choices (delimiters.map fun d =>
              .terminal (literalAt (encode text) d))))
              (.terminal (charIn (encode text) fun _ => true))) pos
              (some (pos + c.utf8Size)) := .seq (.not hq) (parses_charIn hchar rfl)
          cases hmatch : matcher.checkAt (encode text) pos with
          | noMatch =>
            have hcongr := agrees_congr (r := untilFrom (strict text) startPos matcher steps
              (pos + c.utf8Size)) fun o => parses_star_step (o := o) hstep hne
            refine hcongr.trans ((ih (by omega)).trans
              ⟨fun hall q hscan => ?_,
                fun hall q hscan => hall q (.step hparse hmatch hscan)⟩)
            cases hscan with
            | refl =>
              refine fun _ => ⟨isSome_of_mem hchar, iff_of_false ?_ hstands⟩
              rw [hmatch]
              exact not_not_intro rfl
            | step hparse' hno hscan =>
              cases hparse.symm.trans hparse'
              exact hall q hscan
          | partialMatch | completeMatch =>
            refine iff_of_false (fun hself => ?_) fun hall => ?_
            · have hrest := (parses_star_step hstep hne).mp hself
              have hbounds := hrest.bounds hG (e := .star _) ⟨fits_choices fun e he => by
                obtain ⟨d, -, rfl⟩ := mem_map.mp he
                exact fits_literalAt d, fits_charIn _⟩ pos rfl
              omega
            · refine hstands ((hall pos (.refl pos) hlt).2.mp ?_)
              rw [hmatch]
              intro hmatch'
              cases hmatch'
      · have hself : Parses G (untilExpr (encode text) delimiters) pos (some pos) := by
          rcases parses_delimiters delimiters (encode text) pos with ⟨-, q, hq⟩ | ⟨-, hq⟩
          · exact .starFail (.seqFail (.notFail hq))
          · exact .starFail (.seq (.not hq) (parses_charIn_of_none hchar))
        have hfail : (Result.fail startPos).Agrees G (untilExpr (encode text) delimiters) pos ↔
            ∀ q, Scans matcher (encode text) pos q →
              SeesDelimiters matcher delimiters (encode text) q := by
          refine iff_of_false (fun hnone => ?_) fun hall => ?_
          · cases hself.unique hnone
          · have hsome := (hall pos (.refl pos) hlt).1
            rw [hchar] at hsome
            cases hsome
        rcases hparse with hparse | hparse
        · rw [hparse]
          exact hfail
        · rw [hparse]
          exact hfail
    · rw [if_neg hlt]
      exact hdone (Nat.not_lt.mp hlt)

end Until

end Leaves

/-! ## Repetitions -/

section Repetition

variable {G : ℕ → Option (Expr ℕ)} {text : List Char} {pos q child matchCount : ℕ} {r : Result}
variable {minCount maxCount : ℤ} {nodes : List Ast} {a : Expr ℕ} {least : ℕ} {most : Option ℕ}

/-- From an iteration on, a repetition does not need one that matches nothing. -/
def FillsUp (G : ℕ → Option (Expr ℕ)) (a : Expr ℕ) (least : ℕ) (most : Option ℕ)
    (count pos : ℕ) : Prop :=
  ∀ k q, Iterates G a k pos q → count + k < least → (∀ n, most = some n → least ≤ n) →
    ¬Parses G a q (some q)

theorem FillsUp.of_fail (ha : Parses G a pos none) : FillsUp G a least most matchCount pos := by
  intro k q hk _ _ hself
  cases hk with
  | zero => cases ha.unique hself
  | succ ha' => cases ha.unique ha'

theorem FillsUp.of_le (h : least ≤ matchCount) : FillsUp G a least most matchCount pos :=
  fun k q _ hlt => absurd hlt (by omega)

/-- An iteration that consumes something leaves the others. -/
theorem fillsUp_step (ha : Parses G a pos (some q)) (hne : q ≠ pos) :
    FillsUp G a least most matchCount pos ↔ FillsUp G a least most (matchCount + 1) q := by
  constructor
  · intro h k q' hk hlt
    exact h (k + 1) q' (.succ ha hne hk) (by omega)
  · intro h k q' hk hlt hmost hself
    cases hk with
    | zero =>
      cases ha.unique hself
      exact hne rfl
    | @succ k _ q₁ _ ha' hne' hk =>
      cases ha.unique ha'
      exact h k q' hk (by omega) hmost hself

/-- Where an iteration fails or matches nothing a repetition is over. -/
theorem agrees_repetitionDone_iff {o : Option ℕ} (htotal : ∀ p, ∃ o, Parses G a p o)
    (ha : Parses G a pos o) (ho : o = none ∨ o = some pos) :
    (repetitionDone (strict text) minCount pos matchCount nodes).Agrees G
        (repeated a (minCount.toNat - matchCount) (most.map (· - matchCount))) pos ↔
      FillsUp G a minCount.toNat most matchCount pos := by
  unfold repetitionDone
  by_cases hmin : matchCount < minCount.toNat
  · have hfew : 0 < minCount ∧ (matchCount : ℤ) < minCount := by omega
    rw [if_pos hfew, if_neg fun hlenient => Bool.false_ne_true hlenient.2]
    rcases ho with rfl | rfl
    · have hfail := ha.repeated_fail (minCount.toNat - matchCount) (most.map (· - matchCount))
      rw [if_neg (by omega)] at hfail
      exact iff_of_true hfail (.of_fail ha)
    · by_cases hmost : ∀ n, most = some n → minCount.toNat ≤ n
      · have hself : Parses G (repeated a (minCount.toNat - matchCount) (most.map (· - matchCount)))
            pos (some pos) := by
          refine ha.repeated_self fun n hn => ?_
          obtain ⟨n', hn', rfl⟩ := map_eq_some_iff.mp hn
          exact Nat.sub_le_sub_right (hmost n' hn') matchCount
        refine iff_of_false (fun hnone => ?_) fun hall => hall 0 pos (.zero pos) hmin hmost ha
        cases hself.unique hnone
      · refine iff_of_true ?_ fun k q _ _ hmost' => absurd hmost' hmost
        obtain ⟨n, hn⟩ := not_forall.mp hmost
        obtain ⟨rfl, hlt⟩ := Classical.not_imp.mp hn
        have hfew : n - matchCount < minCount.toNat - matchCount := by omega
        exact .repeated_lt htotal hfew pos
  · rw [if_neg (by omega)]
    refine iff_of_true ?_ (.of_le (Nat.not_lt.mp hmin))
    have hzero : minCount.toNat - matchCount = 0 := by omega
    rw [hzero]
    rcases ho with rfl | rfl
    · exact ha.repeated_fail 0 (most.map (· - matchCount))
    · exact ha.repeated_self fun n _ => Nat.zero_le n

theorem agrees_repetitionFrom_iff {R : ℕ × ℕ → Result → Prop}
    (hR : ∀ c q a, R (c, q) a → a.Agrees G (.call c) q)
    (htotal : ∀ p, ∃ o, Parses G (.call child) p o)
    (hbounds : ∀ p q, Parses G (.call child) p (some q) →
      p ≤ q ∧ q ≤ max p (encode text).length)
    {steps : ℕ} (hsteps : (encode text).length ≤ steps + pos)
    (hcount : ∀ n, bound maxCount = some n → matchCount ≤ n)
    (h : (repetitionFrom (strict text) child minCount maxCount steps pos matchCount nodes).Gives
      R r) :
    r.Agrees G (repeated (.call child) (minCount.toNat - matchCount)
        ((bound maxCount).map (· - matchCount))) pos ↔
      FillsUp G (.call child) minCount.toNat (bound maxCount) matchCount pos := by
  have hinput : (strict text).input = encode text := rfl
  have hend : ∀ {pos matchCount : ℕ} {nodes : List Ast}, (encode text).length ≤ pos →
      ((repetitionDone (strict text) minCount pos matchCount nodes).Agrees G
        (repeated (.call child) (minCount.toNat - matchCount)
          ((bound maxCount).map (· - matchCount))) pos ↔
        FillsUp G (.call child) minCount.toNat (bound maxCount) matchCount pos) := by
    intro pos matchCount nodes hle
    obtain ⟨o, ho⟩ := htotal pos
    refine agrees_repetitionDone_iff htotal ho ?_
    cases o with
    | none => exact .inl rfl
    | some q =>
      have hq := hbounds pos q ho
      exact .inr (congrArg some (by omega))
  induction steps generalizing pos matchCount nodes with
  | zero =>
    obtain rfl := h
    exact hend (by omega)
  | succ steps ih =>
    unfold repetitionFrom at h
    rw [hinput] at h
    by_cases hrepeat : mayRepeat maxCount matchCount
    · by_cases hlt : pos < (encode text).length
      · rw [if_pos ⟨hrepeat, hlt⟩] at h
        obtain ⟨a, ha, hnext⟩ := h
        have hagrees := hR child pos a ha
        cases a with
        | fail stop =>
          obtain rfl := hnext
          exact agrees_repetitionDone_iff htotal hagrees (.inl rfl)
        | needMoreInput stop more => exact False.elim hagrees
        | success stop more =>
          dsimp only at hnext
          by_cases hstop : stop = pos
          · rw [if_pos hstop] at hnext
            obtain rfl := hnext
            exact agrees_repetitionDone_iff htotal hagrees (.inr (congrArg some hstop))
          · rw [if_neg hstop] at hnext
            have hbound : ∀ n, bound maxCount = some n → matchCount < n :=
              fun n hn => bound_of_mayRepeat hrepeat hn
            have hstep := hbounds pos stop hagrees
            exact (agrees_repeated_step hagrees hstop hbound).trans
              ((ih (by omega) hbound hnext).trans (fillsUp_step hagrees hstop).symm)
      · rw [if_neg fun hand => hlt hand.2] at h
        obtain rfl := h
        exact hend (Nat.not_lt.mp hlt)
    · rw [if_neg fun hand => hrepeat hand.1] at h
      obtain rfl := h
      have hn := not_mayRepeat hrepeat hcount
      refine iff_of_true ?_ fun k q _ hlt hmost => absurd (hmost matchCount hn) (by omega)
      have hzero : (bound maxCount).map (· - matchCount) = some 0 := by
        rw [hn, map_some, Nat.sub_self]
      have hover := parses_repeated_bound htotal (minCount.toNat - matchCount) pos
      rw [hzero]
      unfold repetitionDone
      by_cases hmin : matchCount < minCount.toNat
      · have hfew : 0 < minCount ∧ (matchCount : ℤ) < minCount := by omega
        rw [if_neg (by omega)] at hover
        rw [if_pos hfew, if_neg fun hlenient => Bool.false_ne_true hlenient.2]
        exact hover
      · rw [if_pos (by omega)] at hover
        rw [if_neg (by omega)]
        exact hover

end Repetition

/-! ## Parsers with children -/

section Loops

variable {G : ℕ → Option (Expr ℕ)} {pos : ℕ} {children : List ℕ} {nodes : List Ast} {r : Result}
variable {R : ℕ × ℕ → Result → Prop} (hR : ∀ c q a, R (c, q) a → a.Agrees G (.call c) q)
include hR

theorem agrees_sequenceFrom (h : (sequenceFrom children pos nodes).Gives R r) :
    r.Agrees G (seqs (children.map .call)) pos := by
  induction children generalizing pos nodes with
  | nil =>
    obtain rfl := h
    exact .empty pos
  | cons c children ih =>
    obtain ⟨a, ha, hnext⟩ := h
    have hagrees := hR c pos a ha
    cases a with
    | fail stop =>
      obtain rfl := hnext
      exact .seqFail hagrees
    | needMoreInput stop more => exact False.elim hagrees
    | success stop more =>
      have hrest := ih hnext
      cases r with
      | fail stop' => exact .seq hagrees hrest
      | success stop' nodes' => exact .seq hagrees hrest
      | needMoreInput stop' nodes' => exact hrest

theorem agrees_choiceFrom (h : (choiceFrom pos children).Gives R r) :
    r.Agrees G (choices (children.map .call)) pos := by
  induction children with
  | nil =>
    obtain rfl := h
    exact .fail pos
  | cons c children ih =>
    obtain ⟨a, ha, hnext⟩ := h
    have hagrees := hR c pos a ha
    cases a with
    | fail stop =>
      have hrest := ih hnext
      cases r with
      | fail stop' => exact .choiceElse hagrees hrest
      | success stop' nodes' => exact .choiceElse hagrees hrest
      | needMoreInput stop' nodes' => exact hrest
    | needMoreInput stop more => exact False.elim hagrees
    | success stop more =>
      obtain rfl := hnext
      exact .choice hagrees

end Loops

/-- A parser does at a position what is documented, if those that it calls do. -/
def Node.Regular (A : Arena) (text : Text) (pos : ℕ) : Node → Prop
  | .repetition child minCount maxCount =>
    FillsUp (A.grammar text) (.call child) minCount.toNat (bound maxCount) 0 pos
  | .space => ∀ c ∈ (text.drop pos).takeWhile isSpace, isBlank c
  | .untilOneOf delimiters => ∀ q, Scans (.ofWords delimiters) text pos q →
      SeesDelimiters (.ofWords delimiters) delimiters text q
  | _ => True

section Nodes

variable {W A : Arena} {text : List Char} {id pos : ℕ} {node : Node} {r : Result}
variable {key key' : ℕ × ℕ}

theorem agrees_wrap {G : ℕ → Option (Expr ℕ)} {e : Expr ℕ} {rule tag : Text} {start : ℕ} :
    (r.wrap rule tag start).Agrees G e pos ↔ r.Agrees G e pos := by
  cases r with
  | fail stop => exact Iff.rfl
  | success stop nodes => exact Iff.rfl
  | needMoreInput stop nodes => exact Iff.rfl

theorem agrees_clear {G : ℕ → Option (Expr ℕ)} {e : Expr ℕ} :
    r.clear.Agrees G e pos ↔ r.Agrees G e pos := by
  cases r with
  | fail stop => exact Iff.rfl
  | success stop nodes => exact Iff.rfl
  | needMoreInput stop nodes => exact Iff.rfl

theorem map_sub_zero (most : Option ℕ) : most.map (· - 0) = most := by
  cases most with
  | none => rfl
  | some n => rfl

/-- What a parser returns agrees with its expression just if it does what is documented. -/
theorem agrees_iff_regular (hclosed : A.Closed)
    (htotal : ∀ id, A.Defines id → ∀ p, ∃ o, Parses (A.grammar (encode text)) (.call id) p o)
    (hget : A.get id = some node) {R : ℕ × ℕ → Result → Prop}
    (hR : ∀ c q a, R (c, q) a → a.Agrees (A.grammar (encode text)) (.call c) q)
    (hgives : (node.exec A (strict text) pos).Gives R r) :
    r.Agrees (A.grammar (encode text)) (.call id) pos ↔
      node.Regular A (encode text) pos := by
  have hinput : (strict text).input = encode text := rfl
  have hcall : ∀ e, node.expr (encode text) A = some e →
      (r.Agrees (A.grammar (encode text)) (.call id) pos ↔
        r.Agrees (A.grammar (encode text)) e pos) := by
    intro e he
    refine agrees_congr fun o => parses_call ?_
    rw [Arena.grammar, hget]
    exact he
  cases node with
  | epsilon =>
    obtain rfl := hgives
    exact (hcall _ rfl).trans (iff_of_true (.empty pos) trivial)
  | start | end_ =>
    obtain rfl := hgives
    refine (hcall _ rfl).trans (iff_of_true ?_ trivial)
    split
    case isTrue h => exact parses_terminal.mpr (if_pos h).symm
    case isFalse h => exact parses_terminal.mpr (if_neg h).symm
  | literal word =>
    obtain rfl := hgives
    exact (hcall _ rfl).trans (iff_of_true (agrees_literalFrom word) trivial)
  | sequence children =>
    exact (hcall _ rfl).trans (iff_of_true (agrees_sequenceFrom hR hgives) trivial)
  | choice children =>
    exact (hcall _ rfl).trans (iff_of_true (agrees_choiceFrom hR hgives) trivial)
  | repetition child minCount maxCount =>
    have hdefines := hclosed.children hget mem_cons_self
    have hbounds : ∀ p q, Parses (A.grammar (encode text)) (.call child) p (some q) →
        p ≤ q ∧ q ≤ max p (encode text).length :=
      fun p q hq => hq.bounds (fun _ _ => fits_grammar) trivial q rfl
    have hiff := agrees_repetitionFrom_iff hR (htotal child hdefines) hbounds
      (by rw [hinput]; omega) (fun n _ => zero_le n) hgives
    rw [map_sub_zero] at hiff
    exact (hcall _ rfl).trans hiff
  | and child =>
    obtain ⟨a, ha, rfl⟩ := hgives
    have hagrees := hR _ _ _ ha
    refine (hcall _ rfl).trans (iff_of_true ?_ trivial)
    cases a with
    | fail stop => exact .andFail hagrees
    | success stop nodes => exact .and hagrees
    | needMoreInput stop nodes => exact hagrees
  | not child =>
    obtain ⟨a, ha, rfl⟩ := hgives
    have hagrees := hR _ _ _ ha
    refine (hcall _ rfl).trans (iff_of_true ?_ trivial)
    cases a with
    | fail stop => exact .not hagrees
    | success stop nodes => exact .notFail hagrees
    | needMoreInput stop nodes => exact hagrees
  | any =>
    obtain rfl := hgives
    exact (hcall _ rfl).trans (iff_of_true agrees_anyAt trivial)
  | space =>
    obtain rfl := hgives
    exact (hcall _ rfl).trans agrees_spaceFrom_iff
  | chars ranges negated minCount maxCount =>
    obtain rfl := hgives
    refine (hcall _ rfl).trans (iff_of_true ?_ trivial)
    have hagrees : (charsFrom (strict text) pos ranges negated minCount maxCount
        ((strict text).input.length + 1 - pos) pos 0).Agrees (A.grammar (encode text))
        (repeated (.terminal (charIn (encode text) (matchesClass ranges negated)))
          (minCount.toNat - 0) ((bound maxCount).map (· - 0))) pos :=
      agrees_charsFrom (by rw [hinput]; omega) fun n _ => zero_le n
    rwa [map_sub_zero] at hagrees
  | string delimiter =>
    obtain rfl := hgives
    exact (hcall _ rfl).trans (iff_of_true (agrees_stringFrom (by rw [hinput]; omega)) trivial)
  | untilOneOf delimiters =>
    obtain rfl := hgives
    exact (hcall _ rfl).trans
      (agrees_untilFrom_iff (fun _ _ => fits_grammar) (by rw [hinput]; omega))
  | schema child _ | gbnf child =>
    obtain ⟨a, ha, rfl⟩ := hgives
    exact (hcall _ rfl).trans (iff_of_true (hR _ _ _ ha) trivial)
  | rule _ child | tag child _ =>
    obtain ⟨a, ha, rfl⟩ := hgives
    exact (hcall _ rfl).trans (iff_of_true (agrees_wrap.mpr (hR _ _ _ ha)) trivial)
  | ref name =>
    cases hrule : A.rules name with
    | none =>
      simp only [Node.exec, hrule] at hgives
      exact False.elim hgives
    | some target =>
      simp only [Node.exec, hrule] at hgives
      obtain ⟨a, ha, rfl⟩ := hgives
      refine (hcall (.call target) ?_).trans (iff_of_true (hR _ _ _ ha) trivial)
      rw [Node.expr, hrule]
      rfl
  | atomic child =>
    obtain ⟨a, ha, rfl⟩ := hgives
    exact (hcall _ rfl).trans (iff_of_true (agrees_clear.mpr (hR _ _ _ ha)) trivial)

end Nodes

/-! ## Whole parses -/

/-- The parser with an id does at a position what is documented, if those that it calls do. -/
def Regular (A : Arena) (text : List Char) (key : ℕ × ℕ) : Prop :=
  ∀ node, A.get key.1 = some node → node.Regular A (encode text) key.2

/-- A parse returns, and its result is the outcome of the expression that was written. -/
def ParsesAsWritten (W A : Arena) (text : List Char) (key : ℕ × ℕ) : Prop :=
  ∃ fuel r, A.parse (strict text) fuel key.1 key.2 = some r ∧
    (∀ stop, (∃ nodes, r = .success stop nodes) ↔
      Parses (W.grammar (encode text)) (.call key.1) key.2 (some stop)) ∧
    ((∃ stop, r = .fail stop) ↔ Parses (W.grammar (encode text)) (.call key.1) key.2 none) ∧
    ∀ stop nodes, r ≠ .needMoreInput stop nodes

section Parses

variable {W A : Arena} {text : List Char} {key : ℕ × ℕ} {r : Result}

theorem parsesAsWritten_iff (h : Builds W A) (hrec : A.NotLeftRecursive) (hkey : A.Defines key.1)
    (hreturns : Evaluates (A.body (strict text)) key r) :
    ParsesAsWritten W A text key ↔ r.Agrees (A.grammar (encode text)) (.call key.1) key.2 := by
  have hwritten : ∀ o, Parses (W.grammar (encode text)) (.call key.1) key.2 o ↔
      Parses (A.grammar (encode text)) (.call key.1) key.2 o :=
    fun o => h.parses_iff hrec hkey
  constructor
  · rintro ⟨fuel, r', hparse, hsuccess, hfail, hmore⟩
    obtain rfl := hreturns.unique ⟨fuel, hparse⟩
    cases r with
    | fail stop => exact (hwritten none).mp (hfail.mp ⟨stop, rfl⟩)
    | success stop nodes => exact (hwritten (some stop)).mp ((hsuccess stop).mp ⟨nodes, rfl⟩)
    | needMoreInput stop nodes => exact absurd rfl (hmore stop nodes)
  · intro hagrees
    obtain ⟨fuel, hparse⟩ := hreturns
    refine ⟨fuel, r, hparse, ?_⟩
    cases r with
    | fail stop =>
      have hnone := (hwritten none).mpr hagrees
      refine ⟨fun stop' => iff_of_false nofun fun hsome => ?_, iff_of_true ⟨stop, rfl⟩ hnone, nofun⟩
      cases hsome.unique hnone
    | success stop nodes =>
      have hsome := (hwritten (some stop)).mpr hagrees
      refine ⟨fun stop' => ⟨?_, fun hstop' => ?_⟩, iff_of_false nofun fun hnone => ?_, nofun⟩
      · rintro ⟨nodes', heq⟩
        cases heq
        exact hsome
      · cases hsome.unique hstop'
        exact ⟨nodes, rfl⟩
      · cases hsome.unique hnone
    | needMoreInput stop nodes => exact False.elim hagrees

/-- A parse agrees with its expression if nothing in it is not as documented. -/
theorem agrees_of_regular (h : Builds W A) (hrec : A.NotLeftRecursive) (hkey : A.Defines key.1)
    (hreturns : Evaluates (A.body (strict text)) key r)
    (hregular : ∀ key', Tries (A.body (strict text)) key key' → Regular A text key') :
    r.Agrees (A.grammar (encode text)) (.call key.1) key.2 := by
  refine Evaluates.induct (P := fun key r => A.Defines key.1 →
    (∀ key', Tries (A.body (strict text)) key key' → Regular A text key') →
      r.Agrees (A.grammar (encode text)) (.call key.1) key.2) ?_ hreturns hkey hregular
  rintro ⟨id, pos⟩ r hgives hdefines hregular
  obtain ⟨node, hget, -⟩ := hdefines
  have hbody : A.body (strict text) (id, pos) = node.exec A (strict text) pos := by
    simp only [Arena.body, hget]
  rw [hbody] at hgives
  have hR : ∀ c q a, (Calls (A.body (strict text)) (id, pos) (c, q) ∧
      Evaluates (A.body (strict text)) (c, q) a ∧ (A.Defines c →
        (∀ key', Tries (A.body (strict text)) (c, q) key' → Regular A text key') →
          a.Agrees (A.grammar (encode text)) (.call c) q)) →
      a.Agrees (A.grammar (encode text)) (.call c) q := by
    rintro c q a ⟨hcalls, -, hagrees⟩
    exact hagrees (h.closed.defines_of_calls hcalls) fun key' htries =>
      hregular key' (.head hcalls htries)
  exact (agrees_iff_regular h.closed (fun id hid => h.exists_parses hrec _ hid) hget
    (fun c q a => hR c q a) hgives).mpr (hregular (id, pos) .refl node hget)

/-- A parse returns and does not wait.  Each parse that it consists of is that of the expression
that was written if and only if nothing in it is not as documented. -/
theorem strict_iff (h : Builds W A) (hrec : A.NotLeftRecursive) {id : ℕ} (hid : A.Defines id)
    (text : List Char) (pos : ℕ) :
    (∃ fuel r, A.parse (strict text) fuel id pos = some r ∧ ¬r.Waits) ∧
      ((∀ key, Tries (A.body (strict text)) (id, pos) key → ParsesAsWritten W A text key) ↔
        ∀ key, Tries (A.body (strict text)) (id, pos) key → Regular A text key) := by
  refine ⟨?_, ?_⟩
  · obtain ⟨r, fuel, hparse⟩ := exists_parse h.closed hrec (strict text) hid pos
    exact ⟨fuel, r, hparse, not_waits_parse ⟨fuel, hparse⟩⟩
  have hdefines : ∀ key, Tries (A.body (strict text)) (id, pos) key → A.Defines key.1 :=
    fun key htries => h.closed.defines_of_tries hid htries
  constructor
  · intro hwritten key htries node hget
    obtain ⟨r, hreturns⟩ := exists_parse h.closed hrec (strict text) (hdefines key htries) key.2
    have hagrees := (parsesAsWritten_iff h hrec (hdefines key htries) hreturns).mp
      (hwritten key htries)
    have hbody : A.body (strict text) key = node.exec A (strict text) key.2 := by
      simp only [Arena.body, hget]
    have hgives := evaluates_iff.mp hreturns
    have hcalled : (A.body (strict text) key).Gives (fun key' a =>
        Calls (A.body (strict text)) key key' ∧ Evaluates (A.body (strict text)) key' a) r :=
      hgives.mono fun key' a hcalls ha => ⟨hcalls, ha⟩
    rw [hbody] at hcalled
    refine (agrees_iff_regular h.closed (fun id hid => h.exists_parses hrec _ hid) hget ?_
      hcalled).mp hagrees
    rintro c q a ⟨hcalls, ha⟩
    have htries' : Tries (A.body (strict text)) (id, pos) (c, q) := .tail htries hcalls
    exact (parsesAsWritten_iff h hrec (hdefines _ htries') ha).mp (hwritten _ htries')
  · intro hregular key htries
    obtain ⟨r, hreturns⟩ := exists_parse h.closed hrec (strict text) (hdefines key htries) key.2
    refine (parsesAsWritten_iff h hrec (hdefines key htries) hreturns).mpr ?_
    exact agrees_of_regular h hrec (hdefines key htries) hreturns fun key' htries' =>
      hregular key' (htries.trans htries')

end Parses

/-! ## A delimiter at the end of the text -/

/-- A parser of everything up to `<x>`. -/
def untilTag : Arena := (Arena.empty.addParser (.untilOneOf [[60, 120, 62]])).setRoot 0

theorem builds_untilTag : Builds untilTag untilTag :=
  ⟨untilTag, .setRoot (.add .empty trivial nofun) (lt_succ_self 0), rfl⟩

theorem defines_untilTag : untilTag.Defines 0 := ⟨_, rfl, nofun⟩

theorem grammar_untilTag {text : Text} {id : ℕ} {e : Expr ℕ}
    (h : untilTag.grammar text id = some e) : e = untilExpr text [[60, 120, 62]] := by
  cases id with
  | zero => exact (some.inj h).symm
  | succ id => cases h

theorem notLeftRecursive_untilTag : untilTag.NotLeftRecursive := by
  intro text id h
  have hnone : ∀ i j, ¬LeftCalls (untilTag.grammar text) i j := by
    rintro i j ⟨e, he, hleft⟩
    obtain rfl := grammar_untilTag he
    rcases hleft with (hfirst | hfail) | ⟨-, hlast⟩
    · exact hfirst
    · exact hfail
    · exact hlast
  cases h with
  | single hcalls => exact hnone _ _ hcalls
  | tail _ hcalls => exact hnone _ _ hcalls

theorem tries_untilTag {ctx : Context} {pos : ℕ} {key : ℕ × ℕ}
    (h : Tries (untilTag.body ctx) (0, pos) key) : key = (0, pos) := by
  induction h with
  | refl => rfl
  | tail _ hcalls ih =>
    subst ih
    exact False.elim hcalls

/-- What is before the delimiter is parsed as it is documented. -/
theorem strict_iff_delimiter : ParsesAsWritten untilTag untilTag ['a', '<', 'x', '>'] (0, 0) := by
  refine (strict_iff builds_untilTag notLeftRecursive_untilTag defines_untilTag
    ['a', '<', 'x', '>'] 0).2.mpr ?_ (0, 0) .refl
  intro key htries node hget
  obtain rfl := tries_untilTag htries
  cases hget
  have ha : charAt (encode ['a', '<', 'x', '>']) 0 = some 'a' :=
    charAt_eq_some_iff.mpr (by decide)
  have hbegin : charAt (encode ['a', '<', 'x', '>']) 1 = some '<' :=
    charAt_eq_some_iff.mpr (by decide)
  intro q hscan _
  cases hscan with
  | refl =>
    refine ⟨isSome_of_mem ha, iff_of_false (fun h => h rfl) ?_⟩
    decide
  | step hparse hmatch hscan =>
    cases hparse
    cases hscan with
    | refl =>
      refine ⟨isSome_of_mem hbegin, iff_of_true (fun h => ?_) ?_⟩
      · cases h
      · decide
    | step hparse hmatch hscan => cases hmatch

/-- A delimiter that has only begun where the text ends is left out. -/
theorem not_parsesAsWritten : ¬ParsesAsWritten untilTag untilTag ['a', '<'] (0, 0) := by
  rintro ⟨fuel, r, hparse, hsuccess, -, -⟩
  have hrun : untilTag.parse (strict ['a', '<']) 1 0 0 = some (.success 1 []) := rfl
  obtain rfl := Evaluates.unique ⟨fuel, hparse⟩ ⟨1, hrun⟩
  have hone := (hsuccess 1).mp ⟨[], rfl⟩
  have ha : charAt (encode ['a', '<']) 0 = some 'a' := charAt_eq_some_iff.mpr (by decide)
  have hbegin : charAt (encode ['a', '<']) 1 = some '<' := charAt_eq_some_iff.mpr (by decide)
  -- as documented, both of the characters are before a delimiter
  have hnone : ∀ pos, literalAt (encode ['a', '<']) [60, 120, 62] pos = none →
      Parses (untilTag.grammar (encode ['a', '<']))
        (choices [.terminal (literalAt (encode ['a', '<']) [60, 120, 62])]) pos none :=
    fun pos hpos => .choiceElse (parses_terminal.mpr hpos.symm) (.fail pos)
  have htwo : Parses (untilTag.grammar (encode ['a', '<'])) (.call 0) 0 (some 2) := by
    refine .call rfl (.star (.seq (.not (hnone 0 rfl)) (parses_charIn ha rfl)) nofun ?_)
    refine .star (.seq (.not (hnone 1 rfl)) (parses_charIn hbegin rfl)) nofun ?_
    exact .starFail (.seq (.not (hnone 2 rfl)) (parses_charIn_of_none rfl))
  cases hone.unique htwo

end ExpertPin.Peg
