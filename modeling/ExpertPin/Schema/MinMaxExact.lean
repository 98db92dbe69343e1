import ExpertPin.Schema.MinMaxLower

/-!
# Enforcing a bound

An expression enforces two bounds if it accepts only integers between them, without superfluous
zeros, and all of these that have at most 16 digits.  A lower bound alone, or an upper bound below
zero, is enforced for some digits and not for others (`lower_iff`, `upper_iff`).
-/

namespace ExpertPin.Schema

open Decimal
open List
open Option
open Nat

/-- The text of a number. -/
def numberText (n : ℕ) : List Char := digitsText (decimal n)

/-- The text of an integer. -/
def integerText (v : ℤ) : List Char :=
  if v < 0 then '-' :: numberText v.natAbs else numberText v.natAbs

/-- The text is the one of the integer, or it is `-0`. -/
def IsIntegerText (w : List Char) (v : ℤ) : Prop :=
  (∃ n : ℕ, w = numberText n ∧ v = n) ∨ ∃ n : ℕ, w = '-' :: numberText n ∧ v = -n

/-- The expression accepts only texts of integers between the bounds, and all of those with at
most 16 digits. -/
def Enforces (e : Gbnf) (lo hi : ℤ) : Prop :=
  (∀ w, e.Accepts w → ∃ v, IsIntegerText w v ∧ lo ≤ v ∧ v ≤ hi) ∧
    ∀ v, lo ≤ v → v ≤ hi → v.natAbs < 10 ^ 16 → e.Accepts (integerText v)

/-! ## Signs -/

/-- The texts of an expression are those of some numerals, and of some with a sign. -/
def Signed (e : Gbnf) (P N : List ℕ → Prop) : Prop :=
  ∀ w, w ∈ e.language ↔ (∃ ds, IsNumeral ds ∧ digitsText ds = w ∧ P ds) ∨
    ∃ ds, IsNumeral ds ∧ '-' :: digitsText ds = w ∧ N ds

variable {e f : Gbnf} {P N P' N' D : List ℕ → Prop} {ds es : List ℕ} {lo hi : ℤ} {n : ℕ}

theorem Spells.signed (h : Spells e D) : Signed e D fun _ => False := by
  intro w
  rw [h w]
  exact (or_iff_left fun ⟨_, _, _, hno⟩ => hno).symm

theorem Spells.minus (h : Spells e D) : Signed (.seq minus e) (fun _ => False) D := by
  intro w
  rw [Gbnf.language, Language.mem_mul]
  constructor
  · rintro ⟨_, rfl, u, hu, rfl⟩
    obtain ⟨ds, hds, rfl, hD⟩ := (h u).mp hu
    exact .inr ⟨ds, hds, rfl, hD⟩
  · rintro (⟨_, _, _, hno⟩ | ⟨ds, hds, rfl, hD⟩)
    · exact hno.elim
    · exact ⟨['-'], rfl, _, (h _).mpr ⟨ds, hds, rfl, hD⟩, rfl⟩

theorem Signed.alt (he : Signed e P N) (hf : Signed f P' N') :
    Signed (.alt e f) (fun ds => P ds ∨ P' ds) fun ds => N ds ∨ N' ds := by
  intro w
  rw [Gbnf.language, Language.mem_add, he, hf]
  have hor : ∀ {t : List ℕ → List Char} {A B : List ℕ → Prop},
      (∃ ds, IsNumeral ds ∧ t ds = w ∧ (A ds ∨ B ds)) ↔
        (∃ ds, IsNumeral ds ∧ t ds = w ∧ A ds) ∨ ∃ ds, IsNumeral ds ∧ t ds = w ∧ B ds := by
    intro t A B
    rw [← exists_or]
    refine exists_congr fun ds => ?_
    rw [← and_or_left, ← and_or_left]
  rw [hor, hor]
  exact or_or_or_comm

theorem minus_ne_digitsText : '-' :: digitsText ds ≠ digitsText es := by
  intro h
  cases es with
  | nil => exact cons_ne_nil _ _ h
  | cons e es => exact Nat.digitChar_ne '-' (by decide) (cons.inj h).1.symm

theorem Signed.mem_iff (h : Signed e P N) (hds : IsNumeral ds) :
    digitsText ds ∈ e.language ↔ P ds := by
  rw [h]
  constructor
  · rintro (⟨es, hes, heq, hP⟩ | ⟨es, _, heq, _⟩)
    · exact (digitsText_inj hes hds).mp heq ▸ hP
    · exact absurd heq minus_ne_digitsText
  · exact fun hP => .inl ⟨ds, hds, rfl, hP⟩

theorem Signed.minus_mem_iff (h : Signed e P N) (hds : IsNumeral ds) :
    '-' :: digitsText ds ∈ e.language ↔ N ds := by
  rw [h]
  constructor
  · rintro (⟨es, _, heq, _⟩ | ⟨es, hes, heq, hN⟩)
    · exact absurd heq.symm minus_ne_digitsText
    · exact (digitsText_inj hes hds).mp (cons.inj heq).2 ▸ hN
  · exact fun hN => .inr ⟨ds, hds, rfl, hN⟩

theorem isIntegerText_digitsText {v : ℤ} (hds : IsNumeral ds) :
    IsIntegerText (digitsText ds) v ↔ Plain ds ∧ v = value ds := by
  constructor
  · rintro (⟨n, heq, rfl⟩ | ⟨n, heq, _⟩)
    · obtain rfl := (digitsText_inj hds (isNumeral_decimal n)).mp heq
      exact ⟨plain_decimal n, by rw [value_decimal]⟩
    · exact absurd heq.symm minus_ne_digitsText
  · rintro ⟨hplain, rfl⟩
    exact .inl ⟨value ds, by rw [numberText, decimal_value hds hplain], rfl⟩

theorem isIntegerText_minus {v : ℤ} (hds : IsNumeral ds) :
    IsIntegerText ('-' :: digitsText ds) v ↔ Plain ds ∧ v = -(value ds : ℤ) := by
  constructor
  · rintro (⟨n, heq, _⟩ | ⟨n, heq, rfl⟩)
    · exact absurd heq minus_ne_digitsText
    · obtain rfl := (digitsText_inj hds (isNumeral_decimal n)).mp (cons.inj heq).2
      exact ⟨plain_decimal n, by rw [value_decimal]⟩
  · rintro ⟨hplain, rfl⟩
    exact .inr ⟨value ds, by rw [numberText, decimal_value hds hplain], rfl⟩

/-- What an expression enforces, by the numerals that it is for. -/
theorem Signed.enforces_iff (h : Signed e P N) : Enforces e lo hi ↔
    (e.Valid → (∀ ds, IsNumeral ds → P ds → Plain ds ∧ lo ≤ value ds ∧ value ds ≤ hi) ∧
      ∀ ds, IsNumeral ds → N ds → Plain ds ∧ lo ≤ -(value ds : ℤ) ∧ -(value ds : ℤ) ≤ hi) ∧
    (∀ n : ℕ, lo ≤ n → n ≤ hi → n < 10 ^ 16 → e.Valid ∧ P (decimal n)) ∧
    ∀ n : ℕ, 0 < n → lo ≤ -(n : ℤ) → -(n : ℤ) ≤ hi → n < 10 ^ 16 → e.Valid ∧ N (decimal n) := by
  rw [Enforces]
  refine and_congr ⟨fun hsound hvalid => ⟨fun ds hds hP => ?_, fun ds hds hN => ?_⟩, ?_⟩
    ⟨fun hall => ⟨fun n hlo hhi hn => ?_, fun n hpos hlo hhi hn => ?_⟩, ?_⟩
  · obtain ⟨v, hv, hlo, hhi⟩ := hsound _ ⟨hvalid, (h.mem_iff hds).mpr hP⟩
    obtain ⟨hplain, rfl⟩ := (isIntegerText_digitsText hds).mp hv
    exact ⟨hplain, hlo, hhi⟩
  · obtain ⟨v, hv, hlo, hhi⟩ := hsound _ ⟨hvalid, (h.minus_mem_iff hds).mpr hN⟩
    obtain ⟨hplain, rfl⟩ := (isIntegerText_minus hds).mp hv
    exact ⟨hplain, hlo, hhi⟩
  · rintro hsound w ⟨hvalid, hw⟩
    rcases (h w).mp hw with ⟨ds, hds, rfl, hP⟩ | ⟨ds, hds, rfl, hN⟩
    · obtain ⟨hplain, hlo, hhi⟩ := (hsound hvalid).1 ds hds hP
      exact ⟨_, (isIntegerText_digitsText hds).mpr ⟨hplain, rfl⟩, hlo, hhi⟩
    · obtain ⟨hplain, hlo, hhi⟩ := (hsound hvalid).2 ds hds hN
      exact ⟨_, (isIntegerText_minus hds).mpr ⟨hplain, rfl⟩, hlo, hhi⟩
  · have haccepts := hall n hlo hhi (by rwa [Int.natAbs_natCast])
    rw [integerText, if_neg (Int.not_lt.mpr (Int.natCast_nonneg n)), Int.natAbs_natCast] at haccepts
    exact ⟨haccepts.1, (h.mem_iff (isNumeral_decimal n)).mp haccepts.2⟩
  · have haccepts := hall (-n) hlo hhi (by rwa [Int.natAbs_neg, Int.natAbs_natCast])
    rw [integerText, if_pos (by omega), Int.natAbs_neg, Int.natAbs_natCast] at haccepts
    exact ⟨haccepts.1, (h.minus_mem_iff (isNumeral_decimal n)).mp haccepts.2⟩
  · rintro ⟨hpos, hneg⟩ v hlo hhi hv
    rw [integerText]
    by_cases hsign : v < 0
    · rw [if_pos hsign]
      obtain ⟨hvalid, hN⟩ := hneg v.natAbs (by omega) (by omega) (by omega) hv
      exact ⟨hvalid, (h.minus_mem_iff (isNumeral_decimal _)).mpr hN⟩
    · rw [if_neg hsign]
      obtain ⟨hvalid, hP⟩ := hpos v.natAbs (by omega) (by omega) hv
      exact ⟨hvalid, (h.mem_iff (isNumeral_decimal _)).mpr hP⟩

/-! ## Lower bounds -/

/-- The digits of a lower bound for which the expression is right: there are more than 16, which
no number that is asked for has; or between the first and the last one there is none below 2; or
there are 16, all but the last one of which are 1. -/
def WellDigited (s : List ℕ) : Prop :=
  17 ≤ s.length ∨ s.length ≤ 15 ∧ (∀ d ∈ s.tail.dropLast, 2 ≤ d) ∨
    s.length = 16 ∧ ∀ d ∈ s.dropLast, d = 1

/-- What has to be so of an expression for the numbers from `x` on. -/
structure LowerFits (x : ℕ) (e : Gbnf) : Prop where
  sound : e.Valid → ∀ ds, IsNumeral ds → digitsText ds ∈ e.language → Plain ds ∧ x ≤ value ds
  complete : ∀ n, x ≤ n → n < 10 ^ 16 → e.Valid ∧ digitsText (decimal n) ∈ e.language

variable {x k depth c start : ℕ} {rest : List ℕ} {topLevel : Bool}

/-- The numerals that are written for the numbers from `x` on. -/
theorem atLeast_decimal_iff (hx : 0 < x) (hds : IsNumeral ds) :
    1 ≤ ds.headD 0 ∧ AtLeast (decimal x) ds ↔ Plain ds ∧ x ≤ value ds := by
  rw [AtLeast, value_decimal]
  have hlength := value_lt hds
  constructor
  · rintro ⟨hhead, hat⟩
    have hplain : Plain ds := by
      cases ds with
      | nil => exact absurd hhead (by decide)
      | cons d tail => exact .inr ⟨d, tail, rfl, Nat.ne_of_gt hhead⟩
    refine ⟨hplain, hat.elim And.right fun hlt => ?_⟩
    by_contra hlt'
    have hmono := length_decimal_mono (Nat.le_of_not_le hlt')
    rw [decimal_value hds hplain] at hmono
    omega
  · rintro ⟨hplain, hle⟩
    have hmono := length_decimal_mono hle
    rw [decimal_value hds hplain] at hmono
    refine ⟨?_, ?_⟩
    · rcases hplain with rfl | ⟨d, tail, rfl, hd⟩
      · exact absurd hle (Nat.not_le.mpr hx)
      · exact Nat.pos_of_ne_zero hd
    · rcases Nat.lt_or_eq_of_le hmono with hlt | heq
      · exact .inr hlt
      · exact .inl ⟨heq.symm, hle⟩

/-- Fitting numerals are the fitting numbers. -/
theorem lowerFits_iff (hx : 0 < x) (hsmall : x < 10 ^ 16) (he : Spells e D) :
    LowerFits x e ↔ FitsExpr 1 (decimal x) 16 e := by
  constructor
  · intro h
    have hvalid : e.Valid := (h.complete (10 ^ 16 - 1) (by omega) (by decide)).1
    refine ⟨hvalid, D, he, fun ds hds hD => ?_, fun ds hds hhead hl hat => ?_⟩
    · rw [atLeast_decimal_iff hx hds]
      exact h.sound hvalid ds hds ((he.mem_iff hds).mpr hD)
    · obtain ⟨hplain, hle⟩ := (atLeast_decimal_iff hx hds).mp ⟨hhead, hat⟩
      have hlt : value ds < 10 ^ 16 :=
        (value_lt hds).trans_le (Nat.pow_le_pow_right (by decide) hl)
      have hmem := (h.complete (value ds) hle hlt).2
      rw [decimal_value hds hplain] at hmem
      exact (he.mem_iff hds).mp hmem
  · rintro ⟨hvalid, D', hD', hfits⟩
    refine ⟨fun _ ds hds hmem => ?_, fun n hle hlt => ⟨hvalid, ?_⟩⟩
    · rw [← atLeast_decimal_iff hx hds]
      exact hfits.sound ds hds ((hD'.mem_iff hds).mp hmem)
    · have hn := isNumeral_decimal n
      rw [hD'.mem_iff hn]
      obtain ⟨hhead, hat⟩ := (atLeast_decimal_iff hx hn).mpr
        ⟨plain_decimal n, by rwa [value_decimal]⟩
      exact hfits.complete _ hn hhead ((length_decimal_le_iff (by decide)).mpr hlt) hat

theorem wellDigited_cons_iff (hne : rest ≠ []) (hle : rest.length ≤ 15) :
    WellDigited (c :: rest) ↔ Plainly rest 15 ∧ (rest.length = 15 → c = 1) := by
  rw [WellDigited, Plainly, tail_cons, length_cons, dropLast_cons_of_ne_nil hne,
    forall_mem_cons]
  constructor
  · rintro (h | ⟨hl, hall⟩ | ⟨hl, hc, hall⟩)
    · omega
    · exact ⟨.inl ⟨by omega, hall⟩, by omega⟩
    · exact ⟨.inr ⟨by omega, hall⟩, fun _ => hc⟩
  · rintro ⟨⟨hl, hall⟩ | ⟨hl, hall⟩, hc⟩
    · exact .inr (.inl ⟨by omega, hall⟩)
    · exact .inr (.inr ⟨by omega, hc hl, hall⟩)

theorem decimal_of_le (hx : 0 < x) (hle : x ≤ 9) : decimal x = [x] := by
  have h := decimal_value (forall_mem_singleton.mpr (lt_succ_of_le hle))
    (.inr ⟨x, [], rfl, ne_of_gt hx⟩)
  rwa [value_singleton] at h

/-- A bound of more than 16 digits leaves no room for them. -/
theorem not_valid_firstDigit (hc : 0 < c) (hlong : 16 ≤ rest.length) :
    ¬(firstDigit start c (rest.length + 1) 15 e).Valid := by
  rw [valid_firstDigit]
  rintro ⟨-, hupper, hlower⟩
  omega

theorem lowerFits_of_long (hx : 10 ^ 16 ≤ x) (hvalid : ¬e.Valid) : LowerFits x e where
  sound h := absurd h hvalid
  complete _ hle hlt := absurd (hx.trans hle) (not_le.mpr hlt)

theorem exists_lowerFits_of_long (hx : 9 < x) (hdecimal : decimal x = c :: rest) (hc : 0 < c)
    (hlong : 16 ≤ rest.length) (hdepth : (decimal x).length ≤ depth + 1) :
    ∃ e, buildMinMaxInt (depth + 1) x int64Max 16 topLevel = some e ∧ LowerFits x e := by
  obtain ⟨e, he⟩ := @exists_build 16 x (depth + 1) topLevel hdepth fun _ => by omega
  have hbuild := he
  rw [build_firstDigit hx hdecimal] at he
  obtain ⟨inner, hinner, rfl⟩ := map_eq_some_iff.mp he
  refine ⟨_, hbuild, lowerFits_of_long ?_ (not_valid_firstDigit hc hlong)⟩
  have hpow := @le_value_of_plain c rest (Nat.ne_of_gt hc)
  rw [← hdecimal, value_decimal] at hpow
  exact (Nat.pow_le_pow_right (by decide) hlong).trans hpow

theorem lt_of_decimal_cons (hdecimal : decimal x = c :: rest) (hle : rest.length ≤ 15) :
    x < 10 ^ 16 := by
  have hlt := value_lt (isNumeral_decimal x)
  rw [value_decimal, hdecimal, length_cons] at hlt
  exact hlt.trans_le (Nat.pow_le_pow_right (by decide) (Nat.succ_le_succ hle))

/-- **Lower bounds**: for exactly these digits the expression is right. -/
theorem lower_iff (hx : 0 < x) (hdepth : (decimal x).length ≤ depth) :
    (∃ e, buildMinMaxInt depth x int64Max 16 true = some e ∧ LowerFits x e) ↔
      WellDigited (decimal x) := by
  obtain ⟨depth, rfl⟩ := exists_eq_succ_of_ne_zero
    (ne_of_gt ((length_decimal_pos x).trans_le hdepth))
  rcases lt_or_ge 9 x with hlt | hle
  · obtain ⟨c, rest, heq, hc, hle, hne, hrest⟩ := decimal_cons hlt
    by_cases hlong : 16 ≤ rest.length
    · refine iff_of_true (exists_lowerFits_of_long hlt heq hc hlong hdepth) ?_
      rw [heq]
      exact .inl (succ_le_succ hlong)
    · have hrestle : rest.length ≤ 15 := le_of_lt_succ (not_le.mp hlong)
      have hsmall := lt_of_decimal_cons heq hrestle
      rw [build_firstDigit hlt heq]
      rw [heq] at hdepth ⊢
      rw [wellDigited_cons_iff hne hrestle, ← fits_iff hrest hne hrestle
        (le_of_succ_le_succ hdepth)]
      have hiff : ∀ inner, buildMinMaxInt depth (value rest : ℕ) int64Max 15 false = some inner →
          (LowerFits x (firstDigit 1 c (rest.length + 1) 15 inner) ↔
            FitsExpr 0 rest 15 inner ∧ (rest.length = 15 → c = 1)) := by
        intro inner hinner
        obtain ⟨E, hE⟩ := exists_spells hinner
        have hspells : Spells (firstDigit 1 c (rest.length + 1) 15 inner) _ :=
          spells_firstDigit (by decide) hc hle hE
        rw [lowerFits_iff hx hsmall hspells, heq,
          fitsExpr_firstDigit_iff hE hrest hne hc hle hrestle (by decide)]
        simp
      constructor
      · rintro ⟨e, hbuild, hfits⟩
        obtain ⟨inner, hinner, rfl⟩ := map_eq_some_iff.mp hbuild
        obtain ⟨hinnerfits, hfull⟩ := (hiff inner hinner).mp hfits
        exact ⟨⟨inner, hinner, hinnerfits⟩, hfull⟩
      · rintro ⟨⟨inner, hinner, hinnerfits⟩, hfull⟩
        exact ⟨_, map_eq_some_iff.mpr ⟨inner, hinner, rfl⟩,
          (hiff inner hinner).mpr ⟨hinnerfits, hfull⟩⟩
  · have hdecimal := decimal_of_le hx hle
    refine iff_of_true ⟨_, build_oneDigit hx hle, ?_⟩ ?_
    · refine (lowerFits_iff hx (hle.trans_lt (by decide)) (spells_oneDigit hx hle)).mpr ?_
      rw [hdecimal]
      exact fitsExpr_oneDigit hx hle hx (by decide)
    · rw [hdecimal]
      exact .inr (.inl ⟨succ_le_succ (zero_le _), forall_mem_nil _⟩)

/-! ## Upper bounds below zero -/

/-- The digits without the sign of an upper bound below zero for which the expression is right: it
is built as the rest of a bound, which may begin with zeros unless it begins with 1. -/
def UpperDigited (s : List ℕ) : Prop :=
  17 ≤ s.length ∨ 2 ≤ s.length ∧ s.headD 0 = 1 ∧ WellDigited s

/-- Two zeros at the front. -/
theorem not_lowerFits_of_zeros {k : ℕ} (hvalid : e.Valid)
    (hmem : digitsText (0 :: List.replicate (k + 1) 0) ∈ e.language) : ¬LowerFits x e := by
  intro h
  have hnumeral : IsNumeral (0 :: replicate (k + 1) 0) :=
    isNumeral_cons.mpr ⟨by decide, isNumeral_replicate (by decide)⟩
  rcases (h.sound hvalid _ hnumeral hmem).1 with heq | ⟨d, tail, heq, hd⟩
  · exact absurd (cons.inj heq).2 (cons_ne_nil _ _)
  · exact hd (cons.inj heq).1.symm

/-- **Upper bounds below zero**: for exactly these digits the expression is right. -/
theorem upper_iff (hx : 0 < x) (hdepth : (decimal x).length ≤ depth) :
    (∃ e, buildMinMaxInt depth x int64Max 16 false = some e ∧ LowerFits x e) ↔
      UpperDigited (decimal x) := by
  have hlower := lower_iff hx hdepth
  obtain ⟨depth, rfl⟩ := exists_eq_succ_of_ne_zero
    (ne_of_gt ((length_decimal_pos x).trans_le hdepth))
  rcases lt_or_ge 9 x with hlt | hle
  · obtain ⟨c, rest, heq, hc, hle, hne, hrest⟩ := decimal_cons hlt
    have hrestpos := length_pos_iff.mpr hne
    by_cases hone : c = 1
    · -- in front of a 1 there is no smaller digit
      subst hone
      have hsame : buildMinMaxInt (depth + 1) x int64Max 16 false =
          buildMinMaxInt (depth + 1) x int64Max 16 true := by
        rw [build_firstDigit hlt heq, build_firstDigit hlt heq]
        rfl
      rw [hsame, hlower, heq]
      constructor
      · exact fun h => .inr ⟨succ_le_succ hrestpos, rfl, h⟩
      · exact fun h => h.elim .inl fun h => h.2.2
    · by_cases hlong : 16 ≤ rest.length
      · refine iff_of_true (exists_lowerFits_of_long hlt heq hc hlong hdepth) ?_
        rw [heq]
        exact .inl (succ_le_succ hlong)
      · have hrestle : rest.length ≤ 15 := le_of_lt_succ (not_le.mp hlong)
        refine iff_of_false ?_ ?_
        · rintro ⟨e, hbuild, hfits⟩
          have hvalid := (hfits.complete x (le_refl x) (lt_of_decimal_cons heq hrestle)).1
          rw [build_firstDigit hlt heq] at hbuild
          obtain ⟨inner, hinner, rfl⟩ := map_eq_some_iff.mp hbuild
          obtain ⟨E, hE⟩ := exists_spells hinner
          have hspells : Spells (firstDigit 0 c (rest.length + 1) 15 inner) (ByDigit _) :=
            spells_firstDigit (by decide) hc hle hE
          have hroom := (valid_firstDigit.mp hvalid).2.2 (by omega)
          have hnumeral : IsNumeral (0 :: replicate (rest.length + 1) 0) :=
            isNumeral_cons.mpr ⟨by decide, isNumeral_replicate (by decide)⟩
          refine not_lowerFits_of_zeros hvalid ((hspells.mem_iff hnumeral).mpr ?_) hfits
          rw [byDigit_cons, length_replicate]
          exact .inr (.inr ⟨⟨by omega, le_refl 0, hc⟩, le_refl _, hroom⟩)
        · rw [heq]
          rintro (h | ⟨-, hhead, -⟩)
          · exact hlong (le_of_succ_le_succ h)
          · exact hone hhead
  · refine iff_of_false ?_ ?_
    · rintro ⟨e, hbuild, hfits⟩
      rw [build_oneDigit hx hle] at hbuild
      obtain rfl := some.inj hbuild
      have hnumeral : IsNumeral (0 :: replicate (0 + 1) 0) :=
        isNumeral_cons.mpr ⟨by decide, isNumeral_replicate (by decide)⟩
      refine not_lowerFits_of_zeros (valid_oneDigit (by decide))
        (((spells_oneDigit hx hle).mem_iff hnumeral).mpr ?_) hfits
      rw [byDigit_cons]
      exact .inr ⟨⟨hx, le_refl 0, hx⟩, by decide, by decide⟩
    · rw [decimal_of_le hx hle]
      rintro (h | ⟨h, -⟩)
      · exact absurd h (by simp)
      · exact absurd h (by simp)

/-- A bound that the numerals of an expression for a lower bound stay below. -/
theorem value_lt_of_build (hx : 0 < x) (h : buildMinMaxInt depth x int64Max 16 topLevel = some e)
    (hvalid : e.Valid) (hds : IsNumeral ds) (hmem : digitsText ds ∈ e.language) :
    value ds < 10 ^ 17 := by
  have hshort : (decimal x).length ≤ 16 := by
    by_contra hlong
    have hlt : 9 < x := by
      by_contra hle
      rw [decimal_of_le hx (Nat.not_lt.mp hle)] at hlong
      exact hlong (Nat.succ_le_succ (Nat.zero_le _))
    obtain ⟨c, rest, heq, hc, -, -, -⟩ := decimal_cons hlt
    cases depth with
    | zero => cases h
    | succ depth =>
      rw [build_firstDigit hlt heq] at h
      obtain ⟨inner, -, rfl⟩ := map_eq_some_iff.mp h
      rw [heq, length_cons] at hlong
      exact not_valid_firstDigit hc (by omega) hvalid
  obtain ⟨D, hD⟩ := exists_spells h
  have hlength := length_le_of_build h (fun _ => Nat.ne_of_gt hx) hD hds ((hD.mem_iff hds).mp hmem)
  exact (value_lt hds).trans_le (Nat.pow_le_pow_right (by decide) (by omega))

/-- A lower bound alone that is not negative. -/
theorem enforces_from_iff (hx : 0 < x) (h : buildMinMaxInt depth x int64Max 16 topLevel = some e) :
    Enforces e x int64Max ↔ LowerFits x e := by
  obtain ⟨D, hD⟩ := exists_spells h
  rw [hD.signed.enforces_iff]
  constructor
  · rintro ⟨hsound, hpos, -⟩
    refine ⟨fun hvalid ds hds hmem => ?_, fun n hle hn => ?_⟩
    · obtain ⟨hplain, hlo, -⟩ := (hsound hvalid).1 ds hds ((hD.mem_iff hds).mp hmem)
      exact ⟨hplain, Int.ofNat_le.mp hlo⟩
    · have hmax : (n : ℤ) ≤ int64Max := by
        unfold int64Max
        omega
      obtain ⟨hvalid, hmem⟩ := hpos n (Int.ofNat_le.mpr hle) hmax hn
      exact ⟨hvalid, (hD.mem_iff (isNumeral_decimal n)).mpr hmem⟩
  · intro hfits
    refine ⟨fun hvalid => ⟨fun ds hds hmem => ?_, fun _ _ hno => hno.elim⟩, fun n hle _ hn => ?_,
      fun n hpos hle _ _ => ?_⟩
    · have htext := (hD.mem_iff hds).mpr hmem
      obtain ⟨hplain, hle⟩ := hfits.sound hvalid ds hds htext
      have hlt := value_lt_of_build hx h hvalid hds htext
      refine ⟨hplain, Int.ofNat_le.mpr hle, ?_⟩
      unfold int64Max
      omega
    · obtain ⟨hvalid, hmem⟩ := hfits.complete n (Int.ofNat_le.mp hle) hn
      exact ⟨hvalid, (hD.mem_iff (isNumeral_decimal n)).mp hmem⟩
    · omega

/-- An upper bound below zero, with no lower bound or one that no number of 17 digits reaches. -/
theorem enforces_below_iff (hx : 0 < x) (hlo : lo ≤ -10 ^ 17)
    (h : buildMinMaxInt depth x int64Max 16 topLevel = some e) :
    Enforces (.seq minus (.group e)) lo (-x) ↔ LowerFits x e := by
  obtain ⟨D, hD⟩ := exists_spells h
  rw [hD.group.minus.enforces_iff]
  constructor
  · rintro ⟨hsound, -, hneg⟩
    refine ⟨fun hvalid ds hds hmem => ?_, fun n hle hn => ?_⟩
    · obtain ⟨hplain, -, hhi⟩ := (hsound ⟨trivial, hvalid⟩).2 ds hds ((hD.mem_iff hds).mp hmem)
      exact ⟨hplain, Int.ofNat_le.mp (Int.neg_le_neg_iff.mp hhi)⟩
    · obtain ⟨hvalid, hmem⟩ := hneg n (hx.trans_le hle) (by omega) (by omega) hn
      exact ⟨hvalid.2, (hD.mem_iff (isNumeral_decimal n)).mpr hmem⟩
  · intro hfits
    refine ⟨fun hvalid => ⟨fun _ _ hno => hno.elim, fun ds hds hmem => ?_⟩, fun n _ hle _ => ?_,
      fun n _ _ hle hn => ?_⟩
    · have htext := (hD.mem_iff hds).mpr hmem
      obtain ⟨hplain, hle⟩ := hfits.sound hvalid.2 ds hds htext
      have hlt := value_lt_of_build hx h hvalid.2 hds htext
      exact ⟨hplain, by omega, Int.neg_le_neg_iff.mpr (Int.ofNat_le.mpr hle)⟩
    · omega
    · obtain ⟨hvalid, hmem⟩ := hfits.complete n (by omega) hn
      exact ⟨⟨trivial, hvalid⟩, (hD.mem_iff (isNumeral_decimal n)).mp hmem⟩

end ExpertPin.Schema
