import ExpertPin.Lib.Decimal
import Mathlib.Computability.Language

/-!
# Expressions of a grammar

The expressions that `json-schema-to-grammar.cpp` writes for numbers: their text, and the texts
that they stand for.  A piece of text that it writes without `|` outside of parentheses is no
`alt`, so that the text reads back as the expression.
-/

namespace ExpertPin.Schema

open Decimal
open List

/-- An expression for numerals. -/
inductive Gbnf
  | literal (text : List Char)
  | charRange (lo hi : Char)
  | moreDigits (minDigits maxDigits : ℕ)
  | seq (e f : Gbnf)
  | alt (e f : Gbnf)
  | group (e : Gbnf)
deriving DecidableEq, Repr

namespace Gbnf

/-- The text of an expression, with nothing in it that would have to be escaped. -/
def render : Gbnf → String
  | literal text => "\"" ++ String.ofList text ++ "\""
  | charRange lo hi =>
    if lo = hi then "[" ++ lo.toString ++ "]" else "[" ++ lo.toString ++ "-" ++ hi.toString ++ "]"
  | moreDigits minDigits maxDigits =>
    if minDigits = maxDigits ∧ minDigits = 1 then "[0-9]"
    else "[0-9]\x7b" ++ toString minDigits ++
      (if maxDigits ≠ minDigits then "," ++ toString maxDigits else "") ++ "\x7d"
  | seq e f => e.render ++ " " ++ f.render
  | alt e f => e.render ++ " | " ++ f.render
  | group e => "(" ++ e.render ++ ")"

/-- The texts that an expression stands for. -/
def language : Gbnf → Language Char
  | literal text => {text}
  | charRange lo hi => {w | ∃ c, w = [c] ∧ lo ≤ c ∧ c ≤ hi}
  | moreDigits minDigits maxDigits =>
    {w | (∀ c ∈ w, '0' ≤ c ∧ c ≤ '9') ∧ minDigits ≤ w.length ∧ w.length ≤ maxDigits}
  | seq e f => e.language * f.language
  | alt e f => e.language + f.language
  | group e => e.language

/-- No bounds of a repetition are the wrong way round.  The grammar parser takes the difference of
the bounds in unsigned arithmetic, and makes as many rules. -/
def Valid : Gbnf → Prop
  | literal _ => True
  | charRange _ _ => True
  | moreDigits minDigits maxDigits => minDigits ≤ maxDigits
  | seq e f => e.Valid ∧ f.Valid
  | alt e f => e.Valid ∧ f.Valid
  | group e => e.Valid

/-- The expression can be parsed, and stands for the text. -/
def Accepts (e : Gbnf) (w : List Char) : Prop := e.Valid ∧ w ∈ e.language

end Gbnf

/-! ## Numerals -/

/-- The text of a numeral. -/
def digitsText (ds : List ℕ) : List Char := ds.map Nat.digitChar

/-- The texts of an expression are those of the numerals with a property. -/
def Spells (e : Gbnf) (D : List ℕ → Prop) : Prop :=
  ∀ w, w ∈ e.language ↔ ∃ ds, IsNumeral ds ∧ digitsText ds = w ∧ D ds

variable {e f : Gbnf} {D E : List ℕ → Prop} {ds es : List ℕ} {d a b m n : ℕ}

theorem digitChar_le_iff (ha : a < 10) (hb : b < 10) : a.digitChar ≤ b.digitChar ↔ a ≤ b := by
  have hall : ∀ a b : Fin 10, (a : ℕ).digitChar ≤ (b : ℕ).digitChar ↔ (a : ℕ) ≤ b := by decide
  exact hall ⟨a, ha⟩ ⟨b, hb⟩

/-- The characters between two digits. -/
theorem exists_digitChar {c : Char} (hb : b < 10) (hac : a.digitChar ≤ c) (ha : a < 10)
    (hcb : c ≤ b.digitChar) : ∃ d, c = d.digitChar ∧ a ≤ d ∧ d ≤ b := by
  have hlo : 48 + a ≤ c.toNat := Nat.toNat_digitChar_of_lt_ten ha ▸ hac
  have hhi : c.toNat ≤ 48 + b := Nat.toNat_digitChar_of_lt_ten hb ▸ hcb
  have hd : c.toNat - 48 < 10 := by omega
  refine ⟨c.toNat - 48, Char.toNat_inj.mp ?_, by omega, by omega⟩
  rw [Nat.toNat_digitChar_of_lt_ten hd]
  omega

theorem digitsText_inj (hd : IsNumeral ds) (he : IsNumeral es) :
    digitsText ds = digitsText es ↔ ds = es := by
  refine ⟨fun h => ?_, congrArg digitsText⟩
  induction ds generalizing es with
  | nil => exact (map_eq_nil_iff.mp h.symm).symm
  | cons d ds ih =>
    cases es with
    | nil => exact absurd h (cons_ne_nil _ _)
    | cons e es =>
      obtain ⟨hhead, htail⟩ := cons.inj h
      obtain ⟨hd, hds⟩ := isNumeral_cons.mp hd
      obtain ⟨he, hes⟩ := isNumeral_cons.mp he
      have hnat := congrArg Char.toNat hhead
      rw [Nat.toNat_digitChar_of_lt_ten hd, Nat.toNat_digitChar_of_lt_ten he] at hnat
      rw [Nat.add_left_cancel hnat, ih hds hes htail]

/-! ## The numerals of an expression -/

theorem Spells.congr (h : Spells e D) (hiff : ∀ ds, IsNumeral ds → (D ds ↔ E ds)) : Spells e E := by
  intro w
  rw [h w]
  refine exists_congr fun ds => and_congr_right fun hds => and_congr_right fun _ => hiff ds hds

/-- The numerals of an expression are what their texts tell. -/
theorem Spells.mem_iff (h : Spells e D) (hds : IsNumeral ds) :
    digitsText ds ∈ e.language ↔ D ds := by
  rw [h]
  constructor
  · rintro ⟨es, hes, heq, hD⟩
    exact (digitsText_inj hes hds).mp heq ▸ hD
  · exact fun hD => ⟨ds, hds, rfl, hD⟩

theorem spells_literal (hds : IsNumeral ds) :
    Spells (.literal (digitsText ds)) fun es => es = ds := by
  intro w
  constructor
  · rintro rfl
    exact ⟨ds, hds, rfl, rfl⟩
  · rintro ⟨es, -, rfl, rfl⟩
    rfl

/-- `digit_range` -/
def digitRange (a b : ℕ) : Gbnf := .charRange a.digitChar b.digitChar

theorem spells_digitRange (ha : a < 10) (hb : b < 10) :
    Spells (digitRange a b) fun ds => ∃ d, ds = [d] ∧ a ≤ d ∧ d ≤ b := by
  intro w
  constructor
  · rintro ⟨c, rfl, hac, hcb⟩
    obtain ⟨d, rfl, had, hdb⟩ := exists_digitChar hb hac ha hcb
    exact ⟨[d], forall_mem_singleton.mpr (hdb.trans_lt hb), rfl, d, rfl, had, hdb⟩
  · rintro ⟨ds, hds, rfl, d, rfl, had, hdb⟩
    have hd := forall_mem_singleton.mp hds
    exact ⟨_, rfl, (digitChar_le_iff ha hd).mpr had, (digitChar_le_iff hd hb).mpr hdb⟩

theorem spells_moreDigits : Spells (.moreDigits m n) fun ds => m ≤ ds.length ∧ ds.length ≤ n := by
  intro w
  constructor
  · rintro ⟨hall, hlength⟩
    have hexists : ∃ ds, IsNumeral ds ∧ digitsText ds = w := by
      clear hlength
      induction w with
      | nil => exact ⟨[], forall_mem_nil _, rfl⟩
      | cons c w ih =>
        obtain ⟨hc, hw⟩ := forall_mem_cons.mp hall
        obtain ⟨ds, hds, rfl⟩ := ih hw
        obtain ⟨d, rfl, -, hd⟩ := @exists_digitChar 0 9 c (by decide) hc.1 (by decide) hc.2
        exact ⟨d :: ds, isNumeral_cons.mpr ⟨Nat.lt_succ_of_le hd, hds⟩, rfl⟩
    obtain ⟨ds, hds, rfl⟩ := hexists
    rw [digitsText, length_map] at hlength
    exact ⟨ds, hds, rfl, hlength⟩
  · rintro ⟨ds, hds, rfl, hlength⟩
    refine ⟨fun c hc => ?_, by rwa [digitsText, length_map]⟩
    obtain ⟨d, hd, rfl⟩ := mem_map.mp hc
    have hlt := hds d hd
    exact ⟨(@digitChar_le_iff 0 d (by decide) hlt).mpr (Nat.zero_le d),
      (@digitChar_le_iff d 9 hlt (by decide)).mpr (Nat.le_of_lt_succ hlt)⟩

theorem Spells.seq (he : Spells e D) (hf : Spells f E) :
    Spells (.seq e f) fun ds => ∃ as bs, ds = as ++ bs ∧ D as ∧ E bs := by
  intro w
  rw [Gbnf.language, Language.mem_mul]
  constructor
  · rintro ⟨u, hu, v, hv, rfl⟩
    obtain ⟨as, has, rfl, hD⟩ := (he u).mp hu
    obtain ⟨bs, hbs, rfl, hE⟩ := (hf v).mp hv
    exact ⟨as ++ bs, isNumeral_append.mpr ⟨has, hbs⟩, map_append, as, bs, rfl, hD, hE⟩
  · rintro ⟨ds, hds, rfl, as, bs, rfl, hD, hE⟩
    obtain ⟨has, hbs⟩ := isNumeral_append.mp hds
    exact ⟨_, (he _).mpr ⟨as, has, rfl, hD⟩, _, (hf _).mpr ⟨bs, hbs, rfl, hE⟩, map_append.symm⟩

theorem Spells.alt (he : Spells e D) (hf : Spells f E) :
    Spells (.alt e f) fun ds => D ds ∨ E ds := by
  intro w
  rw [Gbnf.language, Language.mem_add, he, hf, ← exists_or]
  refine exists_congr fun ds => ?_
  rw [← and_or_left, ← and_or_left]

theorem Spells.group (he : Spells e D) : Spells (.group e) D := he

/-- There is a first digit, with a condition on it and on the others. -/
def ByDigit (P : ℕ → List ℕ → Prop) (ds : List ℕ) : Prop := ∃ d tail, ds = d :: tail ∧ P d tail

@[simp] theorem byDigit_cons {P : ℕ → List ℕ → Prop} : ByDigit P (d :: ds) ↔ P d ds := by
  constructor
  · rintro ⟨d', tail, heq, h⟩
    obtain ⟨rfl, rfl⟩ := cons.inj heq
    exact h
  · exact fun h => ⟨d, ds, rfl, h⟩

@[simp] theorem not_byDigit_nil {P : ℕ → List ℕ → Prop} : ¬ByDigit P [] :=
  fun ⟨_, _, h, _⟩ => cons_ne_nil _ _ h.symm

theorem byDigit_or {P Q : ℕ → List ℕ → Prop} :
    ByDigit P ds ∨ ByDigit Q ds ↔ ByDigit (fun d tail => P d tail ∨ Q d tail) ds := by
  cases ds with
  | nil => simp
  | cons d tail => simp

/-- A digit of a range, and then the digits of an expression. -/
theorem Spells.digit_seq (ha : a < 10) (hb : b < 10) (he : Spells e D) :
    Spells (.seq (digitRange a b) e) (ByDigit fun d tail => (a ≤ d ∧ d ≤ b) ∧ D tail) := by
  refine ((spells_digitRange ha hb).seq he).congr fun ds _ => ?_
  constructor
  · rintro ⟨as, bs, rfl, ⟨d, rfl, hd⟩, hD⟩
    exact ⟨d, bs, rfl, hd, hD⟩
  · rintro ⟨d, tail, rfl, hd, hD⟩
    exact ⟨[d], tail, rfl, ⟨d, rfl, hd⟩, hD⟩

/-! ## Expressions that can be parsed -/

/-- The expression can be parsed, and stands for the numerals with a property. -/
structure Writes (e : Gbnf) (D : List ℕ → Prop) : Prop where
  valid : e.Valid
  spells : Spells e D

theorem Writes.alt (he : Writes e D) (hf : Writes f E) : Writes (.alt e f) fun ds => D ds ∨ E ds :=
  ⟨⟨he.valid, hf.valid⟩, he.spells.alt hf.spells⟩

theorem Writes.group (he : Writes e D) : Writes (.group e) D := ⟨he.valid, he.spells⟩

theorem Writes.congr (he : Writes e D) (hiff : ∀ ds, IsNumeral ds → (D ds ↔ E ds)) : Writes e E :=
  ⟨he.valid, he.spells.congr hiff⟩

theorem Writes.digit_seq (ha : a < 10) (hb : b < 10) (he : Writes e D) :
    Writes (.seq (digitRange a b) e) (ByDigit fun d tail => (a ≤ d ∧ d ≤ b) ∧ D tail) :=
  ⟨⟨trivial, he.valid⟩, he.spells.digit_seq ha hb⟩

theorem Writes.alt_byDigit {P Q : ℕ → List ℕ → Prop} (he : Writes e (ByDigit P))
    (hf : Writes f (ByDigit Q)) :
    Writes (.alt e f) (ByDigit fun d tail => P d tail ∨ Q d tail) :=
  (he.alt hf).congr fun _ _ => byDigit_or

theorem writes_moreDigits (h : m ≤ n) :
    Writes (.moreDigits m n) fun ds => m ≤ ds.length ∧ ds.length ≤ n :=
  ⟨h, spells_moreDigits⟩

theorem writes_digitRange (ha : a < 10) (hb : b < 10) :
    Writes (digitRange a b) fun ds => ∃ d, ds = [d] ∧ a ≤ d ∧ d ≤ b :=
  ⟨trivial, spells_digitRange ha hb⟩

end ExpertPin.Schema
