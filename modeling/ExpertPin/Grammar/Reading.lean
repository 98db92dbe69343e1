import ExpertPin.Grammar.Reader
import ExpertPin.Lib.Returns

/-!
# Reading what is written

What the reader makes of literals, classes, alternatives and groups in a text, if it gets to their
ends.  Each piece of a text is read on as much fuel as it takes (`Settles`).
-/

namespace ExpertPin.Gbnf

open Grammar
open List

/-! ## Reading characters -/

theorem decodeUtf8_encodeCode {code : ℕ} (hlt : code < 0x110000) (rest : Text) :
    ∃ lead tail, Utf8.encodeCode code = lead :: tail ∧
      decodeUtf8 lead (tail ++ rest) = (UInt32.ofNat code, rest) ∧
      (code < 128 → lead = UInt8.ofNat code) ∧ (128 ≤ code → 128 ≤ lead.toNat) := by
  have hbyte : ∀ n : ℕ, n < 256 → (UInt8.ofNat n).toNat = n := fun n hn => by
    rw [UInt8.toNat_ofNat', Nat.mod_eq_of_lt hn]
  unfold Utf8.encodeCode
  split
  case isTrue h =>
    refine ⟨_, _, rfl, ?_, fun _ => rfl, fun _ => by omega⟩
    rw [decodeUtf8, hbyte code (by omega), lookup, if_pos (by omega)]
    simp only [Nat.sub_self, take_zero, foldl_nil, drop_zero, nil_append]
    rw [Nat.mod_eq_of_lt (by omega)]
  case isFalse h =>
    split
    case isTrue h' =>
      have hlead := hbyte (code / 64 % 0x20 + 0xC0) (by omega)
      refine ⟨_, _, rfl, ?_, fun _ => by omega, fun _ => by omega⟩
      rw [decodeUtf8, hlead, lookup, if_neg (by omega), if_pos (by omega)]
      simp only [cons_append, nil_append, Nat.add_one_sub_one, take_succ_cons,
        take_zero, foldl_cons, foldl_nil, drop_succ_cons, drop_zero]
      rw [hbyte _ (by omega)]
      congr 2
      omega
    case isFalse h' =>
      split
      case isTrue h'' =>
        have hlead := hbyte (code / 4096 % 0x10 + 0xE0) (by omega)
        refine ⟨_, _, rfl, ?_, fun _ => by omega, fun _ => by omega⟩
        rw [decodeUtf8, hlead, lookup, if_neg (by omega), if_neg (by omega), if_pos (by omega)]
        simp only [cons_append, nil_append, Nat.add_one_sub_one, take_succ_cons,
          take_zero, foldl_cons, foldl_nil, drop_succ_cons, drop_zero]
        rw [hbyte _ (by omega), hbyte _ (by omega)]
        congr 2
        omega
      case isFalse h'' =>
        have hlead := hbyte (code / 262144 % 0x08 + 0xF0) (by omega)
        refine ⟨_, _, rfl, ?_, fun _ => by omega, fun _ => by omega⟩
        rw [decodeUtf8, hlead, lookup, if_neg (by omega), if_neg (by omega), if_neg (by omega)]
        simp only [cons_append, nil_append, Nat.add_one_sub_one, take_succ_cons,
          take_zero, foldl_cons, foldl_nil, drop_succ_cons, drop_zero]
        rw [hbyte _ (by omega), hbyte _ (by omega), hbyte _ (by omega)]
        congr 2
        omega

/-- A text that stands for a character in a literal or a class. -/
structure Spells (piece : Text) (value : UInt32) : Prop where
  ne_zero : ∀ b ∈ piece, b ≠ 0
  reads (rest : Text) : parseChar (piece ++ rest) = .ok (value, rest)

/-- It begins with some byte. -/
theorem Spells.exists_cons {piece : Text} {value : UInt32} (h : Spells piece value) :
    ∃ b tail, piece = b :: tail := by
  cases piece with
  | nil => exact nomatch h.reads []
  | cons b tail => exact ⟨b, tail, rfl⟩

theorem spells_encode {c : Char} (hslash : c ≠ '\\') (hzero : c ≠ '\x00') :
    Spells (String.utf8EncodeChar c) c.val where
  ne_zero := by
    intro b hb
    by_cases hlt : c.toNat < 128
    · rw [Utf8.utf8EncodeChar_of_lt hlt, mem_singleton] at hb
      rw [hb]
      intro h
      have hnat := congrArg UInt8.toNat h
      rw [UInt8.toNat_ofNat', Nat.mod_eq_of_lt (by omega)] at hnat
      exact hzero (Char.toNat_inj.mp hnat)
    · have hle := Utf8.le_of_mem_utf8EncodeChar (Nat.not_lt.mp hlt) hb
      rintro rfl
      exact absurd hle (by decide)
  reads rest := by
    obtain ⟨lead, tail, heq, hdecode, hlow, hhigh⟩ :=
      decodeUtf8_encodeCode (Utf8.toNat_val_lt c) rest
    have hlead : lead ≠ byte '\\' := by
      rintro rfl
      by_cases hlt : c.val.toNat < 128
      · have hnat := congrArg UInt8.toNat (hlow hlt)
        rw [UInt8.toNat_ofNat', Nat.mod_eq_of_lt (by omega)] at hnat
        exact hslash (Char.toNat_inj.mp hnat.symm)
      · exact absurd (hhigh (Nat.not_lt.mp hlt)) (by decide)
    have hencode : String.utf8EncodeChar c = lead :: tail := heq
    rw [hencode, cons_append, parseChar.eq_def]
    dsimp only
    rw [if_neg hlead, hdecode, UInt32.ofNat_toNat]

theorem spells_escape {d : Char} (h : d = '\\' ∨ d = '"' ∨ d = '[' ∨ d = ']') :
    Spells [byte '\\', byte d] d.val := by
  rcases h with rfl | rfl | rfl | rfl
  · exact ⟨forall_mem_ne'.mpr (by decide), fun _ => rfl⟩
  · exact ⟨forall_mem_ne'.mpr (by decide), fun _ => rfl⟩
  · exact ⟨forall_mem_ne'.mpr (by decide), fun _ => rfl⟩
  · exact ⟨forall_mem_ne'.mpr (by decide), fun _ => rfl⟩

theorem spells_control :
    Spells (bytes "\\t") 9 ∧ Spells (bytes "\\n") 10 ∧ Spells (bytes "\\r") 13 :=
  ⟨⟨forall_mem_ne'.mpr (by decide), fun _ => rfl⟩,
    ⟨forall_mem_ne'.mpr (by decide), fun _ => rfl⟩,
    ⟨forall_mem_ne'.mpr (by decide), fun _ => rfl⟩⟩

/-- The digit of a number below 16. -/
def hexByte (n : ℕ) : UInt8 := (bytes "0123456789ABCDEF").getD n 0

theorem hexDigit_hexByte {n : ℕ} (h : n < 16) : hexDigit (hexByte n) = some n ∧ hexByte n ≠ 0 := by
  have hall : ∀ n : Fin 16, hexDigit (hexByte n) = some n.val ∧ hexByte n ≠ 0 := by decide
  exact hall ⟨n, h⟩

theorem mapM_hexDigit {digits : List ℕ} (h : ∀ d ∈ digits, d < 16) :
    (digits.map hexByte).mapM hexDigit = some digits := by
  induction digits with
  | nil => rfl
  | cons d digits ih =>
    rw [forall_mem_cons] at h
    rw [map_cons, mapM_cons, (hexDigit_hexByte h.1).1, ih h.2]
    rfl

theorem parseHex_hexBytes {digits : List ℕ} (h : ∀ d ∈ digits, d < 16) (rest : Text) :
    parseHex (digits.map hexByte ++ rest) digits.length =
      .ok (UInt32.ofNat (digits.foldl (fun value d => 16 * value + d) 0), rest) := by
  have hlength : (digits.map hexByte).length = digits.length := length_map _
  rw [parseHex, ← hlength, take_left, drop_left, mapM_hexDigit h]
  dsimp only
  rw [hlength, if_pos rfl]

theorem spells_hex {c : Char} {digits : List ℕ} (h : ∀ d ∈ digits, d < 16)
    (hlength : c = 'x' ∧ digits.length = 2 ∨ c = 'u' ∧ digits.length = 4 ∨
      c = 'U' ∧ digits.length = 8) :
    Spells (byte '\\' :: byte c :: digits.map hexByte)
      (UInt32.ofNat (digits.foldl (fun value d => 16 * value + d) 0)) where
  ne_zero := by
    have hc : byte c ≠ 0 := by
      rcases hlength with ⟨rfl, -⟩ | ⟨rfl, -⟩ | ⟨rfl, -⟩ <;> decide
    refine forall_mem_cons.mpr ⟨by decide, forall_mem_cons.mpr ⟨hc, ?_⟩⟩
    exact forall_mem_map.mpr fun d hd => (hexDigit_hexByte (h d hd)).2
  reads rest := by
    have hparse := parseHex_hexBytes h rest
    rcases hlength with ⟨rfl, hlength⟩ | ⟨rfl, hlength⟩ | ⟨rfl, hlength⟩
    · rw [hlength] at hparse
      exact hparse
    · rw [hlength] at hparse
      exact hparse
    · rw [hlength] at hparse
      exact hparse

/-! ## The end of a text -/

theorem cString_append {as bs : Text} (h : ∀ b ∈ as, b ≠ 0) :
    cString (as ++ bs) = as ++ cString bs :=
  takeWhile_append_of_pos fun b hb => decide_eq_true (h b hb)

theorem cString_cons {b : UInt8} {bs : Text} (h : b ≠ 0) : cString (b :: bs) = b :: cString bs :=
  takeWhile_cons_of_pos (decide_eq_true h)

/-- Nothing is skipped. -/
theorem parseSpace_cons {b : UInt8} {src : Text} {nested : Bool}
    (h : b ≠ byte ' ' ∧ b ≠ byte '\t' ∧ b ≠ byte '#' ∧ b ≠ byte '\r' ∧ b ≠ byte '\n') :
    parseSpace (b :: src) nested = b :: src := by
  simp [parseSpace, skipSpace, h]

/-! ## Literals and classes -/

theorem parseLiteral_append {piece rest : Text} {value : UInt32} (h : Spells piece value)
    (hquote : piece.head? ≠ some (byte '"')) (fuel : ℕ) :
    parseLiteral (fuel + 1) (piece ++ rest) =
      parseLiteral fuel rest >>= fun r => .ok (value :: r.1, r.2) := by
  obtain ⟨b, tail, rfl⟩ := h.exists_cons
  have hb : b ≠ byte '"' := fun heq => hquote (congrArg some heq)
  have hreads := h.reads rest
  rw [cons_append] at hreads ⊢
  rw [parseLiteral, if_neg hb, hreads]
  rfl

theorem parseClass_append {piece rest : Text} {value : UInt32} (h : Spells piece value)
    (hbracket : piece.head? ≠ some (byte ']')) (hrange : rest.head? ≠ some (byte '-'))
    (fuel : ℕ) :
    parseClass (fuel + 1) (piece ++ rest) =
      parseClass fuel rest >>= fun r => .ok (.one value :: r.1, r.2) := by
  obtain ⟨b, tail, rfl⟩ := h.exists_cons
  have hb : b ≠ byte ']' := fun heq => hbracket (congrArg some heq)
  have hreads := h.reads rest
  rw [List.cons_append] at hreads ⊢
  rw [parseClass, if_neg hb, hreads]
  exact if_neg fun hand => hrange hand.1

section

variable {α : Type} {write : α → Text} {value : α → UInt32} {as : List α} {rest : Text}
  {p : α → Prop}

/-- A literal is read to its end, unless there is a zero in it. -/
theorem settles_parseLiteral
    (hspells : ∀ a ∈ as, p a → Spells (write a) (value a) ∧ (write a).head? ≠ some (byte '"'))
    (hzero : ∀ a ∈ as, ¬p a → write a = [0]) :
    Settles (fun fuel => parseLiteral fuel (cString (as.flatMap write ++ byte '"' :: rest)))
      (∀ a ∈ as, p a) (as.map value, cString rest) := by
  induction as with
  | nil => exact Settles.succ_ok (e := .outOfFuel) (forall_mem_nil p) rfl fun _ => rfl
  | cons a as ih =>
    rw [forall_mem_cons] at hspells hzero
    rw [flatMap_cons, append_assoc]
    by_cases ha : p a
    · obtain ⟨hspell, hquote⟩ := hspells.1 ha
      rw [cString_append hspell.ne_zero]
      have hrest := (ih hspells.2 hzero.2).map fun r => (value a :: r.1, r.2)
      refine (hrest.congr ?_).succ (e := .outOfFuel) rfl (parseLiteral_append hspell hquote)
      rw [forall_mem_cons, and_iff_right ha]
    · rw [hzero.1 ha]
      refine Settles.succ_error (e := .outOfFuel) ?_ rfl fun _ => rfl
      exact fun hall => ha (forall_mem_cons.mp hall).1

/-- A class of single characters is read to its end if each of them can be read. -/
theorem settles_parseClass (hspells : ∀ a ∈ as, p a → Spells (write a) (value a))
    (hhead : ∀ a ∈ as, ∃ b tail, write a = b :: tail ∧ b ≠ byte ']' ∧ b ≠ byte '-')
    (herror : ∀ a ∈ as, ¬p a → (∀ b ∈ write a, b ≠ 0) ∧
      ∀ rest, ∃ e, parseChar (write a ++ rest) = .error e) :
    Settles (fun fuel => parseClass fuel (cString (as.flatMap write ++ byte ']' :: rest)))
      (∀ a ∈ as, p a) (as.map fun a => .one (value a), cString rest) := by
  induction as with
  | nil => exact Settles.succ_ok (e := .outOfFuel) (List.forall_mem_nil p) rfl fun _ => rfl
  | cons a as ih =>
    rw [List.forall_mem_cons] at hspells hhead herror
    rw [List.flatMap_cons, List.append_assoc]
    obtain ⟨b, tail, hwrite, hbracket, -⟩ := hhead.1
    have hb : (write a).head? ≠ some (byte ']') := by
      rw [hwrite]
      exact fun h => hbracket (Option.some.inj h)
    by_cases ha : p a
    · have hspell := hspells.1 ha
      rw [cString_append hspell.ne_zero]
      have hrest := (ih hspells.2 hhead.2 herror.2).map fun r => (.one (value a) :: r.1, r.2)
      have hrange : (cString (as.flatMap write ++ byte ']' :: rest)).head? ≠ some (byte '-') := by
        cases as with
        | nil =>
          rw [List.flatMap_nil, List.nil_append, cString_cons (by decide)]
          exact fun h => absurd (Option.some.inj h) (by decide)
        | cons a' as =>
          obtain ⟨b', tail', hwrite', -, hminus⟩ := hhead.2 a' List.mem_cons_self
          rw [List.flatMap_cons, hwrite', List.cons_append, List.cons_append, cString,
            List.takeWhile_cons]
          split
          · exact fun h => hminus (Option.some.inj h)
          · exact nofun
      refine (hrest.congr ?_).succ (e := .outOfFuel) rfl (parseClass_append hspell hb hrange)
      rw [List.forall_mem_cons, and_iff_right ha]
    · obtain ⟨hne, hfails⟩ := herror.1 ha
      obtain ⟨e, he⟩ := hfails (cString (as.flatMap write ++ byte ']' :: rest))
      rw [cString_append hne]
      rw [hwrite, List.cons_append] at he ⊢
      have hsucc : ∀ fuel, parseClass (fuel + 1)
          (b :: (tail ++ cString (as.flatMap write ++ byte ']' :: rest))) = .error e := by
        intro fuel
        rw [parseClass, if_neg hbracket, he]
        rfl
      have hnot : ¬∀ a' ∈ a :: as, p a' := fun hall => ha (List.forall_mem_cons.mp hall).1
      exact Settles.succ_error (e := .outOfFuel) hnot rfl hsucc

end

/-! ## Sequences, alternatives and groups -/

section

variable {vocab : Option (Text → Option ℕ)} {ruleName : Text} {nested : Bool} {r : Reading}
  {src pos : Text} {p q : Prop} {a : Expr × Symbols × Text}

theorem settles_literal {values : List UInt32}
    (hliteral : Settles (parseLiteral · src) p (values, pos))
    (hrest : Settles (fun fuel => parseSequence vocab ruleName fuel nested
      (r.push (literalOf values) 1 r.ids) (parseSpace pos nested)) q a) :
    Settles (fun fuel => parseSequence vocab ruleName fuel nested r (byte '"' :: src)) (p ∧ q) a :=
  (hliteral.bind hrest).succ (e := .outOfFuel) rfl fun _ => rfl

theorem settles_negated {items : List CharItem} (hclass : Settles (parseClass · src) p (items, pos))
    (hrest : Settles (fun fuel => parseSequence vocab ruleName fuel nested
      (r.push (classOf true items) 1 r.ids) (parseSpace pos nested)) q a) :
    Settles (fun fuel => parseSequence vocab ruleName fuel nested r
      (byte '[' :: byte '^' :: src)) (p ∧ q) a :=
  (hclass.bind hrest).succ (e := .outOfFuel) rfl fun _ => rfl

theorem settles_group {e : Expr} {ids : Symbols}
    (hgroup : Settles (fun fuel => parseAlternates vocab ruleName fuel true
      (generateSymbolId ruleName r.ids) (parseSpace src true)) p (e, ids, byte ')' :: pos))
    (hrest : Settles (fun fuel => parseSequence vocab ruleName fuel nested
      (r.push (some e) (max 1 ((ids.length - r.ids.length) % 2 ^ 32)) ids)
      (parseSpace pos nested)) q a) :
    Settles (fun fuel => parseSequence vocab ruleName fuel nested r (byte '(' :: src)) (p ∧ q) a :=
  (hgroup.bind hrest).succ (e := .outOfFuel) rfl fun _ => rfl

/-- A sequence ends where a symbol does not begin. -/
theorem settles_end {c : UInt8} (h : c = byte '|' ∨ c = byte ')') :
    Settles (fun fuel => parseSequence vocab ruleName fuel nested r (c :: src)) True
      (r.whole, r.ids, c :: src) := by
  refine Settles.succ_ok (e := .outOfFuel) trivial rfl fun fuel => ?_
  rcases h with rfl | rfl
  · rfl
  · rfl

theorem settles_star {r' : Reading}
    (hstar : handleRepetitions ruleName r 0 none (parseSpace src nested) = .ok r')
    (hrest : Settles (fun fuel => parseSequence vocab ruleName fuel nested r'
      (parseSpace src nested)) q a) :
    Settles (fun fuel => parseSequence vocab ruleName fuel nested r (byte '*' :: src)) q a := by
  have hsucc : ∀ fuel, parseSequence vocab ruleName (fuel + 1) nested r (byte '*' :: src) =
      handleRepetitions ruleName r 0 none (parseSpace src nested) >>= fun r' =>
        parseSequence vocab ruleName fuel nested r' (parseSpace src nested) := fun _ => rfl
  refine hrest.succ (e := .outOfFuel) rfl fun fuel => ?_
  rw [hsucc, hstar]
  rfl

theorem handleRepetitions_star {e : Expr} (hlast : r.last = some e)
    (hrules : r.prevRules < maxRepetitionThreshold) :
    handleRepetitions ruleName r 0 none pos = .ok { r with
      last := some (.rep e 0 none)
      ids := generateSymbolId ruleName r.ids } := by
  have htotal : r.prevRules * totalRules 0 none = r.prevRules := Nat.mul_one _
  rw [handleRepetitions, hlast]
  dsimp only
  rw [htotal, if_neg (Nat.not_le.mpr hrules), Option.any_none, if_neg Bool.false_ne_true,
    if_neg (Option.some_ne_none 0).symm]
  rfl

theorem parseAlternates_succ {ids : Symbols} (fuel : ℕ) :
    parseAlternates vocab ruleName (fuel + 1) nested ids src =
      parseSequence vocab ruleName fuel nested ⟨.empty, none, 1, ids⟩ src >>= fun a =>
        if a.2.2.head? = some (byte '|') then
          parseAlternates vocab ruleName fuel nested a.2.1 (parseSpace a.2.2.tail true) >>= fun b =>
            .ok (.alt a.1 b.1, b.2)
        else .ok a := rfl

theorem settles_alternates_last {ids : Symbols}
    (hsequence : Settles (fun fuel => parseSequence vocab ruleName fuel nested
      ⟨.empty, none, 1, ids⟩
      src) p a) (hend : a.2.2.head? ≠ some (byte '|')) :
    Settles (fun fuel => parseAlternates vocab ruleName fuel nested ids src) p a := by
  refine ((hsequence.bind (q := True) (Settles.of_eq trivial fun _ => if_neg hend)).congr
    (by rw [and_true])).succ (e := .outOfFuel) rfl parseAlternates_succ

theorem settles_alternates_more {ids : Symbols} {b : Expr × Symbols × Text}
    (hsequence : Settles (fun fuel => parseSequence vocab ruleName fuel nested
      ⟨.empty, none, 1, ids⟩
      src) p a) (hend : a.2.2.head? = some (byte '|'))
    (hmore : Settles (fun fuel => parseAlternates vocab ruleName fuel nested a.2.1
      (parseSpace a.2.2.tail true)) q b) :
    Settles (fun fuel => parseAlternates vocab ruleName fuel nested ids src) (p ∧ q)
      (.alt a.1 b.1, b.2) := by
  refine (hsequence.bind ?_).succ (e := .outOfFuel) rfl parseAlternates_succ
  simp only [if_pos hend]
  exact hmore.map fun b => (Expr.alt a.1 b.1, b.2)

end

/-! ## Languages -/

section

variable {rules : Text → Language UInt32} {e f : Expr} {values w : List UInt32}

theorem Expr.mem_language_charOf {value : UInt32} :
    w ∈ (charOf value).language rules ↔ w = [value] := by
  constructor
  · rintro ⟨chr, rfl, hchr⟩
    simp [Matches, CharClass.has, CharItem.has] at hchr
    rw [hchr]
  · rintro rfl
    exact ⟨value, rfl, by simp [Matches, CharClass.has, CharItem.has]⟩

/-- A literal stands for itself. -/
theorem Expr.mem_language_literalOf (h : literalOf values = some e) :
    w ∈ e.language rules ↔ w = values := by
  have hfold : ∀ (vs u : List UInt32) (e : Expr), (∀ w, w ∈ e.language rules ↔ w = u) → ∀ w,
      w ∈ (vs.foldl (fun e value => .seq e (charOf value)) e).language rules ↔ w = u ++ vs := by
    intro vs
    induction vs with
    | nil =>
      intro u e he w
      rw [foldl_nil, he, append_nil]
    | cons v vs ih =>
      intro u e he w
      rw [foldl_cons, ih (u ++ [v]), append_assoc, singleton_append]
      intro w
      rw [Expr.language, Language.mem_mul]
      constructor
      · rintro ⟨x, hx, y, hy, rfl⟩
        rw [(he x).mp hx, mem_language_charOf.mp hy]
      · rintro rfl
        exact ⟨u, (he u).mpr rfl, [v], mem_language_charOf.mpr rfl, rfl⟩
  cases values with
  | nil => exact nomatch h
  | cons v vs =>
    rw [← Option.some.inj h]
    exact hfold vs [v] _ (fun w => mem_language_charOf) w

/-- A negated class of single characters stands for the others. -/
theorem Expr.mem_language_negated (h : classOf true (values.map .one) = some e) :
    w ∈ e.language rules ↔ ∃ chr, w = [chr] ∧ chr ∉ values := by
  cases values with
  | nil => exact nomatch h
  | cons v vs =>
    rw [← Option.some.inj h]
    refine exists_congr fun chr => and_congr_right fun _ => ?_
    have hmore : (vs.map CharItem.one).any (CharItem.has chr) = true ↔ chr ∈ vs := by
      simp [CharItem.has]
    have hfirst : CharItem.has chr (.one v) = true ↔ chr = v := by
      rw [CharItem.has, decide_eq_true_iff, eq_comm]
    rw [Matches, CharClass.has, mem_cons, ← hfirst, ← hmore, ← Bool.or_eq_true]
    simp

theorem Expr.mem_language_star :
    w ∈ (Expr.rep e 0 none).language rules ↔ w ∈ KStar.kstar (e.language rules) := by
  rw [Language.kstar_eq_iSup_pow, Language.mem_iSup]
  exact exists_congr fun k => ⟨fun h => h.2.2, fun h => ⟨Nat.zero_le k, nofun, h⟩⟩

end

end ExpertPin.Gbnf
