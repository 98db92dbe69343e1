import ExpertPin.Peg.Matcher

/-!
# Where the until parser ends

The parser ends where the matcher sees a delimiter, be it that one stands there or that the text
ends inside of one, and whether more of the text can follow makes no difference.

`until_ends_iff`: when this is where the text up to the delimiter ends.
-/

namespace ExpertPin.Peg

open Utf8 (encode encode_append encode_cons)
open List

/-- How a text comes to be parsed: strictly, or by `common_chat_peg_parse`, which parses a response
that is finished as one of which more is to follow. -/
inductive Call
  | strict
  | chat (isPartial : Bool)

/-- The context of a call, for an input that begins with the generation prompt. -/
def Call.context (effectiveInput : Text) : Call → Context
  | .strict => ⟨effectiveInput, false⟩
  | .chat _ => ⟨effectiveInput, true⟩

/-- Nothing follows the text. -/
def Call.IsFinal : Call → Prop
  | .strict => True
  | .chat isPartial => isPartial = false

instance (call : Call) : Decidable call.IsFinal :=
  match call with
  | .strict => .isTrue trivial
  | .chat isPartial => inferInstanceAs (Decidable (isPartial = false))

/-- Where a parser has ended that has not failed. -/
def Result.endsAt : Result → Option ℕ
  | .fail _ => none
  | .success stop _ => some stop
  | .needMoreInput stop _ => some stop

/-! ## The end that is right -/

def Occurs (delimiters : List Text) (bytes : Text) (q : ℕ) : Prop :=
  ∃ d ∈ delimiters, d <+: bytes.drop q

/-- The rest is the beginning of a delimiter, and not all of it. -/
def Begins (delimiters : List Text) (bytes : Text) (q : ℕ) : Prop :=
  ∃ d ∈ delimiters, bytes.drop q <+: d ∧ bytes.drop q ≠ d

/-- The first position where a delimiter occurs, else the end of the text, or, if more can follow,
the first position from which the rest is the beginning of a delimiter. -/
def IsRightEnd (call : Call) (delimiters : List Text) (bytes : Text) (start e : ℕ) : Prop :=
  IsLeast {q | start ≤ q ∧ Occurs delimiters bytes q} e ∨
    (∀ q, start ≤ q → ¬Occurs delimiters bytes q) ∧ if call.IsFinal then e = bytes.length
      else IsLeast {q | start ≤ q ∧ q ≤ bytes.length ∧
        (Begins delimiters bytes q ∨ q = bytes.length)} e

/-! ## The end that the parser comes to -/

variable {ctx : Context} {pos steps : ℕ} {delimiters : List Text}

/-- The loop ends at the first character where a delimiter is seen. -/
theorem endsAt_untilFrom (startPos : ℕ) (delimiters : List Text) {rest : List Char}
    (h : ctx.input.drop pos = encode rest)
    (hsteps : (encode rest).length ≤ steps) (hpos : pos ≤ ctx.input.length) :
    ∃ a b, rest = a ++ b ∧ (untilFrom ctx startPos (.ofWords delimiters) steps pos).endsAt =
        some (pos + (encode a).length) ∧
      (∀ a' b', rest = a' ++ b' → a'.length < a.length → ¬Seen delimiters b') ∧
      (b = [] ∨ Seen delimiters b) := by
  have hdone : ∀ {pos : ℕ}, (untilDone ctx pos).endsAt = some pos := by
    intro pos
    rw [untilDone]
    split <;> rfl
  induction rest generalizing pos steps with
  | nil =>
    refine ⟨[], [], rfl, ?_, fun _ _ _ hlt => absurd hlt (Nat.not_lt_zero _), .inl rfl⟩
    have hend : ctx.input.length ≤ pos := drop_eq_nil_iff.mp h
    cases steps with
    | zero => exact hdone
    | succ steps =>
      rw [untilFrom, if_neg (Nat.not_lt.mpr hend)]
      exact hdone
  | cons c rest ih =>
    have hsize := c.utf8Size_pos
    have hlen := congrArg length h
    rw [length_drop, encode_cons, length_append,
      String.length_utf8EncodeChar] at hlen
    rw [encode_cons, length_append, String.length_utf8EncodeChar] at hsteps
    obtain ⟨steps, rfl⟩ := Nat.exists_eq_add_of_le' (Nat.lt_of_lt_of_le hsize
      ((Nat.le_add_right _ _).trans hsteps))
    have hseen : (WordTrie.ofWords delimiters).checkAt ctx.input pos ≠ .noMatch ↔
        Seen delimiters (c :: rest) := checkAt_ne_noMatch_iff h
    rw [untilFrom, if_pos (by omega), parseUtf8Codepoint_of_drop (encode_cons c rest ▸ h)]
    dsimp only
    by_cases hmatch : (WordTrie.ofWords delimiters).checkAt ctx.input pos = .noMatch
    · rw [hmatch]
      have hrest : (encode rest).length ≤ steps := by omega
      obtain ⟨a, b, rfl, hends, hnone, hlast⟩ := ih (drop_add_utf8Size h) hrest (by omega)
      refine ⟨c :: a, b, rfl, ?_, ?_, hlast⟩
      · rw [hends, encode_cons, length_append, String.length_utf8EncodeChar,
          Nat.add_assoc]
      · intro a' b' hab hlt
        cases a' with
        | nil =>
          rw [← nil_append b', ← hab]
          exact fun hs => hseen.mpr hs hmatch
        | cons d a' =>
          exact hnone a' b' (cons.inj hab).2 (Nat.lt_of_succ_lt_succ hlt)
    · refine ⟨[], c :: rest, rfl, ?_, fun _ _ _ hlt => absurd hlt (Nat.not_lt_zero _),
        .inr (hseen.mp hmatch)⟩
      cases hcheck : (WordTrie.ofWords delimiters).checkAt ctx.input pos with
      | noMatch => exact absurd hcheck hmatch
      | partialMatch => rfl
      | completeMatch => rfl

/-! ## When the ends are the same -/

/-- No delimiter is seen before the right end, and one is seen there unless the text ends. -/
def Undisturbed (call : Call) (delimiters : List Text) (before text : List Char) : Prop :=
  ∃ e, IsRightEnd call delimiters (encode (before ++ text)) (encode before).length e ∧
    (∀ a b, text = a ++ b → (encode (before ++ a)).length < e → ¬Seen delimiters b) ∧
    (e = (encode (before ++ text)).length ∨
      ∃ a b, text = a ++ b ∧ (encode (before ++ a)).length = e ∧ Seen delimiters b)

theorem length_encode_lt_iff {a b a' b' : List Char} (h : a ++ b = a' ++ b') :
    (encode a').length < (encode a).length ↔ a'.length < a.length := by
  rcases append_eq_append_iff.mp h with ⟨z, rfl, -⟩ | ⟨z, rfl, -⟩
  · refine iff_of_false ?_ ?_
    · rw [encode_append, length_append]
      omega
    · rw [length_append]
      omega
  · have hz := Utf8.length_le_length_encode z
    rw [encode_append, length_append, length_append]
    cases z with
    | nil => simp
    | cons c z =>
      rw [length_cons] at hz ⊢
      omega

/-- There is one position at which a delimiter is seen, or the text ends, and none is seen
before. -/
theorem stops_iff {before a b : List Char}
    (hnone : ∀ a' b', a ++ b = a' ++ b' → a'.length < a.length → ¬Seen delimiters b')
    (hlast : b = [] ∨ Seen delimiters b) (e : ℕ) :
    ((∀ a' b', a ++ b = a' ++ b' → (encode (before ++ a')).length < e → ¬Seen delimiters b') ∧
      (e = (encode (before ++ (a ++ b))).length ∨
        ∃ a' b', a ++ b = a' ++ b' ∧ (encode (before ++ a')).length = e ∧
          Seen delimiters b')) ↔
    e = (encode (before ++ a)).length := by
  have hlen : ∀ a : List Char, (encode (before ++ a)).length =
      (encode before).length + (encode a).length := fun a => by
    rw [encode_append, length_append]
  have hle : ∀ {a' b' : List Char}, a ++ b = a' ++ b' →
      (encode a').length ≤ (encode (a ++ b)).length := by
    intro a' b' hab
    rw [hab, encode_append, length_append]
    exact Nat.le_add_right _ _
  simp only [hlen]
  constructor
  · rintro ⟨hbefore, hat⟩
    have hmax : e ≤ (encode before).length + (encode (a ++ b)).length := by
      rcases hat with rfl | ⟨a', b', hab, rfl, -⟩
      · exact le_rfl
      · exact Nat.add_le_add_left (hle hab) _
    refine Nat.le_antisymm ?_ ?_
    · -- The end is not after the first delimiter that is seen.
      rcases hlast with rfl | hseen
      · rwa [append_nil] at hmax
      · exact Nat.le_of_not_lt fun hlt => hbefore a b rfl hlt hseen
    · rcases hat with rfl | ⟨a', b', hab, rfl, hseen⟩
      · exact Nat.add_le_add_left (hle rfl) _
      · refine Nat.le_of_not_lt fun hlt => hnone a' b' hab ?_ hseen
        exact (length_encode_lt_iff hab).mp (Nat.lt_of_add_lt_add_left hlt)
  · rintro rfl
    refine ⟨fun a' b' hab hlt => hnone a' b' hab ?_, ?_⟩
    · exact (length_encode_lt_iff hab).mp (Nat.lt_of_add_lt_add_left hlt)
    · rcases hlast with rfl | hseen
      · exact .inl (by rw [append_nil])
      · exact .inr ⟨a, b, rfl, rfl, hseen⟩

/-- A parser that is until some delimiters, called at a character of a text, ends where it should
just if no delimiter is seen before. -/
theorem until_ends_iff (A : Arena) (call : Call) (delimiters : List Text)
    (before text : List Char) :
    (∃ result e,
      Node.exec A (call.context (encode (before ++ text))) (encode before).length
        (.untilOneOf delimiters) = .returns result ∧ result.endsAt = some e ∧
      IsRightEnd call delimiters (encode (before ++ text)) (encode before).length e) ↔
    Undisturbed call delimiters before text := by
  have hinput : (call.context (encode (before ++ text))).input =
      encode (before ++ text) := by cases call <;> rfl
  have hlength : (call.context (encode (before ++ text))).input.length =
      (encode before).length + (encode text).length := by
    rw [hinput, encode_append, length_append]
  have hdrop : (call.context (encode (before ++ text))).input.drop
      (encode before).length = encode text := by
    rw [hinput, encode_append, drop_left]
  have hsteps : (encode text).length ≤
      (call.context (encode (before ++ text))).input.length - (encode before).length := by
    omega
  obtain ⟨a, b, rfl, hends, hnone, hlast⟩ := endsAt_untilFrom
    (encode before).length delimiters hdrop hsteps (by omega)
  rw [← length_append, ← encode_append] at hends
  rw [Undisturbed]
  simp only [stops_iff hnone hlast]
  constructor
  · rintro ⟨result, e, hexec, hstop, hright⟩
    cases hexec
    exact ⟨e, hright, Option.some.inj (hstop.symm.trans hends)⟩
  · rintro ⟨e, hright, rfl⟩
    exact ⟨_, _, rfl, hends, hright⟩

/-- The text `a<` ends with the beginning of `</t>`, which is left out. -/
theorem until_swallows : ¬∃ result e,
    Node.exec .empty (Call.strict.context (encode ("".toList ++ "a<".toList)))
      (encode "".toList).length (.untilOneOf [encode "</t>".toList]) =
        .returns result ∧ result.endsAt = some e ∧
    IsRightEnd .strict [encode "</t>".toList] (encode ("".toList ++ "a<".toList))
      (encode "".toList).length e := by
  rintro ⟨result, e, hexec, hends, hright⟩
  cases hexec
  have hcode : (untilFrom (Call.strict.context [97, 60]) 0 (.ofWords [[60, 47, 116, 62]]) 2
    0).endsAt = some 1 := rfl
  obtain rfl : 1 = e := Option.some.inj (hcode.symm.trans hends)
  rcases hright with ⟨⟨-, d, hd, hprefix⟩, -⟩ | ⟨-, he⟩
  · obtain rfl := mem_singleton.mp hd
    exact absurd hprefix (by decide)
  · rw [if_pos (show Call.strict.IsFinal from trivial)] at he
    exact absurd he (by decide)

end ExpertPin.Peg
