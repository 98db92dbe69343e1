import ExpertPin.Schema.Gbnf

/-!
# Bounds of integers

`build_min_max_int` writes an expression for the integers between two bounds: digit by digit for
two numbers of one length, and for a lower bound alone by the first digit that is greater, with as
many more digits as there are and at most 16 in all.

The decimal strings of the source are lists of digits.  The recursion has a bound on its depth;
`none` is also the exception, and the negation of the least `int64_t`.
-/

namespace ExpertPin.Schema

open Decimal

/-- `std::numeric_limits<int64_t>::min()` -/
def int64Min : ℤ := -2 ^ 63

/-- `std::numeric_limits<int64_t>::max()` -/
def int64Max : ℤ := 2 ^ 63 - 1

/-- `"-"` -/
def minus : Gbnf := .literal ['-']

/-- `i` after the loop over the digits that are the same. -/
def commonLength : List ℕ → List ℕ → ℕ
  | f :: from_, t :: to_ => if f = t then commonLength from_ to_ + 1 else 0
  | _, _ => 0

/-- The numerals from the first digits on in which the bounds differ, where `uniform` is the
recursive call. -/
def uniformRest (uniform : List ℕ → List ℕ → Gbnf) (f : ℕ) (fromSub : List ℕ) (t : ℕ)
    (toSub : List ℕ) : Gbnf :=
  let subLen := fromSub.length
  if 0 < subLen then
    let subZeros := List.replicate subLen 0
    let subNines := List.replicate subLen 9
    let upper : Gbnf := .seq (digitRange t t) (uniform subZeros toSub)
    .group (if fromSub = subZeros then
        .alt (.seq (digitRange f (t - 1)) (.moreDigits subLen subLen)) upper
      else
        let lower : Gbnf := .seq (digitRange f f) (.group (uniform fromSub subNines))
        if f < t - 1 then
          if toSub = subNines then
            .alt lower (.seq (digitRange (f + 1) t) (.moreDigits subLen subLen))
          else
            .alt lower (.alt (.seq (digitRange (f + 1) (t - 1)) (.moreDigits subLen subLen)) upper)
        else .alt lower upper)
  else digitRange f t

/-- `uniform_range` -/
def uniformRange : ℕ → List ℕ → List ℕ → Gbnf
  | 0, _, _ => .literal []
  | depth + 1, from_, to_ =>
    let i := commonLength from_ to_
    match from_.drop i, to_.drop i with
    | f :: fromSub, t :: toSub =>
      let rest := uniformRest (uniformRange depth) f fromSub t toSub
      if 0 < i then .seq (.literal (digitsText (from_.take i))) rest else rest
    | _, _ => .literal (digitsText (from_.take i))

/-- The loop over the numbers of digits, of which so many are before the last one. -/
def uniformRanges (maxS : List ℕ) : ℕ → List ℕ → Gbnf
  | 0, minS => uniformRange (minS.length + 1) minS maxS
  | digits + 1, minS =>
    .alt (uniformRange (minS.length + 1) minS (List.replicate minS.length 9))
      (uniformRanges maxS digits (1 :: List.replicate minS.length 0))

/-- The last part, for two bounds that are not negative. -/
def betweenBounds (minValue maxValue : ℤ) : Gbnf :=
  let minS := decimal minValue.toNat
  let maxS := decimal maxValue.toNat
  uniformRanges maxS (maxS.length - minS.length) minS

/-- `build_min_max_int` -/
def buildMinMaxInt : ℕ → ℤ → ℤ → ℕ → Bool → Option Gbnf
  | 0, _, _, _, _ => none
  | depth + 1, minValue, maxValue, decimalsLeft, topLevel =>
    let hasMin : Bool := minValue ≠ int64Min
    let hasMax : Bool := maxValue ≠ int64Max
    let lessDecimals := max (decimalsLeft - 1) 1
    if hasMin && hasMax then
      if minValue < 0 ∧ maxValue < 0 then do
        let e ← buildMinMaxInt depth (-maxValue) (-minValue) decimalsLeft true
        return .seq minus (.group e)
      else if minValue < 0 then do
        let e ← buildMinMaxInt depth 0 (-minValue) decimalsLeft true
        return .alt (.seq minus (.group e)) (betweenBounds 0 maxValue)
      else return betweenBounds minValue maxValue
    else if hasMin then
      if minValue < 0 then do
        let e ← buildMinMaxInt depth int64Min (-minValue) decimalsLeft false
        return .alt (.seq minus (.group e)) (.alt (digitRange 0 0)
          (.seq (digitRange 1 9) (.moreDigits 0 (decimalsLeft - 1))))
      else if minValue = 0 then
        if topLevel then
          return .alt (digitRange 0 0) (.seq (digitRange 1 9) (.moreDigits 0 lessDecimals))
        else return .moreDigits 1 decimalsLeft
      else if minValue ≤ 9 then
        let c := minValue.toNat
        let rangeStart := if topLevel then 1 else 0
        let upper : Gbnf := .seq (digitRange c 9) (.moreDigits 0 lessDecimals)
        if rangeStart < c then
          return .alt (.seq (digitRange rangeStart (c - 1)) (.moreDigits 1 lessDecimals)) upper
        else return upper
      else do
        let minS := decimal minValue.toNat
        let len := minS.length
        let c := minS.headD 0
        let e ← buildMinMaxInt depth (value minS.tail) int64Max lessDecimals false
        let same : Gbnf := .seq (digitRange c c) (.group e)
        let upper : Gbnf :=
          if c < 9 then .alt same (.seq (digitRange (c + 1) 9) (.moreDigits (len - 1) lessDecimals))
          else same
        if 1 < c then
          return .alt (.seq (digitRange (if topLevel then 1 else 0) (c - 1))
            (.moreDigits len lessDecimals)) upper
        else return upper
    else if hasMax then
      if 0 ≤ maxValue then do
        let e ← buildMinMaxInt depth 0 maxValue decimalsLeft true
        if topLevel then
          return .alt (.seq minus (.seq (digitRange 1 9) (.moreDigits 0 lessDecimals))) e
        else return e
      else if maxValue = int64Min then none
      else do
        let e ← buildMinMaxInt depth (-maxValue) int64Max decimalsLeft false
        return .seq minus (.group e)
    else none

/-- The depth of the calls: the signs are taken off, and then one digit after another. -/
def buildDepth : ℕ := 24

/-- The bounds of an integer schema. -/
structure IntegerSchema where
  minimum : Option ℤ := none
  exclusiveMinimum : Option ℤ := none
  maximum : Option ℤ := none
  exclusiveMaximum : Option ℤ := none

namespace IntegerSchema

variable (schema : IntegerSchema)

/-- `min_value`, where a bound that is absent is the extreme. -/
def minValue : ℤ :=
  match schema.minimum, schema.exclusiveMinimum with
  | some v, _ => v
  | none, some v => v + 1
  | none, none => int64Min

/-- `max_value` -/
def maxValue : ℤ :=
  match schema.maximum, schema.exclusiveMaximum with
  | some v, _ => v
  | none, some v => v - 1
  | none, none => int64Max

/-- The expression that the rule for an integer has between `(` and `) space`. -/
def expression : Option Gbnf :=
  buildMinMaxInt buildDepth schema.minValue schema.maxValue 16 true

end IntegerSchema

end ExpertPin.Schema

/-!
## Numbers of one length

`uniform_range` writes an expression for exactly the numerals of one length between two of them
(`uniformRange_spec`), and the loop over the lengths one for exactly the numbers between two
bounds (`betweenBounds_spec`).
-/

namespace ExpertPin.Schema

open Decimal
open List

variable {f t d n depth : ℕ} {fs ts ds tail from_ to_ : List ℕ}

/-! ## The order of numerals -/

/-- The first digit decides, and then the rest. -/
theorem value_cons_le_iff (hfs : IsNumeral fs) (htail : IsNumeral tail)
    (hlength : fs.length = tail.length) :
    value (f :: fs) ≤ value (d :: tail) ↔ f < d ∨ f = d ∧ value fs ≤ value tail := by
  have hlt := value_lt hfs
  have hlt' := value_lt htail
  rw [value_cons, value_cons, hlength]
  rw [hlength] at hlt
  generalize 10 ^ tail.length = p at hlt hlt' ⊢
  rcases Nat.lt_trichotomy f d with h | rfl | h
  · refine iff_of_true ?_ (.inl h)
    calc f * p + value fs ≤ f * p + p := Nat.add_le_add_left hlt.le _
      _ = (f + 1) * p := (Nat.succ_mul f p).symm
      _ ≤ d * p := Nat.mul_le_mul_right p h
      _ ≤ d * p + value tail := Nat.le_add_right _ _
  · simp
  · refine iff_of_false (Nat.not_le.mpr ?_) ?_
    · calc d * p + value tail < d * p + p := Nat.add_lt_add_left hlt' _
        _ = (d + 1) * p := (Nat.succ_mul d p).symm
        _ ≤ f * p := Nat.mul_le_mul_right p h
        _ ≤ f * p + value fs := Nat.le_add_right _ _
    · rintro (h' | ⟨rfl, -⟩)
      · exact Nat.lt_asymm h h'
      · exact Nat.lt_irrefl f h

/-- Numerals between two that begin with the same digits begin with them too. -/
theorem eq_prefix_of_between {p q : List ℕ} (hp : IsNumeral p) (hq : IsNumeral q)
    (hpq : p.length = q.length) (hfs : IsNumeral fs) (htail : IsNumeral tail) (hts : IsNumeral ts)
    (hlength : fs.length = tail.length) (hlength' : ts.length = tail.length) :
    value (p ++ fs) ≤ value (q ++ tail) ∧ value (q ++ tail) ≤ value (p ++ ts) ↔
      q = p ∧ value fs ≤ value tail ∧ value tail ≤ value ts := by
  have hlt := value_lt hfs
  have hlt' := value_lt htail
  have hlt'' := value_lt hts
  rw [value_append, value_append, value_append, hlength, hlength']
  rw [hlength] at hlt
  rw [hlength'] at hlt''
  generalize 10 ^ tail.length = k at hlt hlt' hlt'' ⊢
  constructor
  · rintro ⟨hlo, hhi⟩
    have heq : value q = value p := by
      rcases Nat.lt_trichotomy (value p) (value q) with h | h | h
      · have hmul : (value p + 1) * k ≤ value q * k := Nat.mul_le_mul_right k h
        rw [Nat.succ_mul] at hmul
        omega
      · exact h.symm
      · have hmul : (value q + 1) * k ≤ value p * k := Nat.mul_le_mul_right k h
        rw [Nat.succ_mul] at hmul
        omega
    rw [heq] at hlo hhi
    exact ⟨eq_of_value_eq hq hp hpq.symm heq, Nat.le_of_add_le_add_left hlo,
      Nat.le_of_add_le_add_left hhi⟩
  · rintro ⟨rfl, hlo, hhi⟩
    exact ⟨Nat.add_le_add_left hlo _, Nat.add_le_add_left hhi _⟩

/-! ## The digits that are the same -/

/-- Two numerals of one length are the same, or they differ first behind `commonLength` digits. -/
theorem commonLength_cases (hlength : from_.length = to_.length) :
    from_ = to_ ∧ commonLength from_ to_ = from_.length ∨
      ∃ p f fs t ts, from_ = p ++ f :: fs ∧ to_ = p ++ t :: ts ∧ f ≠ t ∧
        commonLength from_ to_ = p.length := by
  induction from_ generalizing to_ with
  | nil =>
    obtain rfl := eq_nil_of_length_eq_zero hlength.symm
    exact .inl ⟨rfl, rfl⟩
  | cons f fs ih =>
    cases to_ with
    | nil => exact absurd hlength (Nat.succ_ne_zero _)
    | cons t ts =>
      rw [commonLength]
      by_cases hft : f = t
      · subst hft
        rw [if_pos rfl]
        rcases ih (Nat.succ.inj hlength) with ⟨rfl, hcommon⟩ | ⟨p, g, gs, u, us, rfl, rfl, hne, h⟩
        · exact .inl ⟨rfl, congrArg Nat.succ hcommon⟩
        · exact .inr ⟨f :: p, g, gs, u, us, rfl, rfl, hne, congrArg Nat.succ h⟩
      · exact .inr ⟨[], f, fs, t, ts, rfl, rfl, hft, if_neg hft⟩

/-! ## The expressions -/

/-- The numerals of a length with values between two bounds. -/
def Between (n lo hi : ℕ) (ds : List ℕ) : Prop := ds.length = n ∧ lo ≤ value ds ∧ value ds ≤ hi

variable {uniform : List ℕ → List ℕ → Gbnf}

/-- The condition on the first digit and on the others. -/
theorem between_cons_iff (hfs : IsNumeral fs) (hts : IsNumeral ts) (hlength : fs.length = ts.length)
    (htail : IsNumeral tail) :
    Between (fs.length + 1) (value (f :: fs)) (value (t :: ts)) (d :: tail) ↔
      tail.length = fs.length ∧ (f < d ∨ f = d ∧ value fs ≤ value tail) ∧
        (d < t ∨ d = t ∧ value tail ≤ value ts) := by
  rw [Between, length_cons, Nat.add_right_cancel_iff]
  refine and_congr_right fun h => ?_
  rw [value_cons_le_iff hfs htail h.symm, value_cons_le_iff htail hts (h.trans hlength)]

theorem not_between_nil {lo hi : ℕ} : ¬Between (n + 1) lo hi [] := fun h =>
  absurd h.1 (Nat.succ_ne_zero n).symm

/-- The numerals from the first digits on that differ: those that begin with the lower one, with
one in between, and with the upper one. -/
theorem uniformRest_spec (hft : f < t) (ht : t < 10) (hfs : IsNumeral fs) (hts : IsNumeral ts)
    (hlength : fs.length = ts.length)
    (huniform : ∀ fs' ts', IsNumeral fs' → IsNumeral ts' → fs'.length = fs.length →
      ts'.length = fs.length → value fs' ≤ value ts' →
      Writes (uniform fs' ts') (Between fs.length (value fs') (value ts'))) :
    Writes (uniformRest uniform f fs t ts)
      (Between (fs.length + 1) (value (f :: fs)) (value (t :: ts))) := by
  have hf : f < 10 := hft.trans ht
  have hfs' := value_lt hfs
  have hts' := value_lt hts
  have hzeros : IsNumeral (replicate fs.length 0) := isNumeral_replicate (by decide)
  have hnines : IsNumeral (replicate fs.length 9) := isNumeral_replicate (by decide)
  have hnine := @value_nines fs.length
  have hlow := Writes.digit_seq hf hf (huniform fs (replicate fs.length 9) hfs hnines rfl
    length_replicate (by omega)).group
  have hup := Writes.digit_seq ht ht (huniform (replicate fs.length 0) ts hzeros hts
    length_replicate hlength.symm (by rw [value_zeros]; exact Nat.zero_le _))
  have hmid : ∀ a b, a < 10 → b < 10 → Writes (.seq (digitRange a b)
      (.moreDigits fs.length fs.length)) _ :=
    fun a b ha hb => Writes.digit_seq ha hb (writes_moreDigits (Nat.le_refl fs.length))
  -- all that is to be shown is how the conditions on the first digit go together
  have hjoin : ∀ {e : Gbnf} {P : ℕ → List ℕ → Prop}, Writes e (ByDigit P) →
      (∀ d tail, d < 10 → IsNumeral tail → (P d tail ↔ tail.length = fs.length ∧
        (f < d ∨ f = d ∧ value fs ≤ value tail) ∧ (d < t ∨ d = t ∧ value tail ≤ value ts))) →
      Writes e (Between (fs.length + 1) (value (f :: fs)) (value (t :: ts))) := by
    intro e P he hP
    refine he.congr fun ds hds => ?_
    cases ds with
    | nil => exact iff_of_false not_byDigit_nil not_between_nil
    | cons d tail =>
      obtain ⟨hd, htail⟩ := isNumeral_cons.mp hds
      rw [byDigit_cons, hP d tail hd htail, between_cons_iff hfs hts hlength htail]
  unfold uniformRest
  dsimp only
  rw [value_zeros] at hup
  by_cases hsub : 0 < fs.length
  · rw [if_pos hsub]
    by_cases hzero : fs = replicate fs.length 0
    · rw [if_pos hzero]
      have hvalue := (eq_zeros_iff hfs).mp hzero
      refine hjoin ((hmid f (t - 1) hf (by omega)).alt_byDigit hup).group fun d tail _ _ => ?_
      rw [Between]
      omega
    · rw [if_neg hzero]
      by_cases hgap : f < t - 1
      · rw [if_pos hgap]
        by_cases hnine : ts = replicate fs.length 9
        · rw [if_pos hnine]
          rw [hlength] at hnine
          have hvalue := (eq_nines_iff hts).mp hnine
          refine hjoin (hlow.alt_byDigit (hmid (f + 1) t (by omega) ht)).group fun d tail _ htail =>
            ?_
          have hlt := value_lt htail
          rw [Between]
          by_cases hl : tail.length = fs.length
          · rw [hl] at hlt
            rw [← hlength] at hvalue
            omega
          · omega
        · rw [if_neg hnine]
          refine hjoin (hlow.alt_byDigit ((hmid (f + 1) (t - 1) (by omega) (by omega)).alt_byDigit
            hup)).group fun d tail _ htail => ?_
          have hlt := value_lt htail
          rw [Between, Between]
          by_cases hl : tail.length = fs.length
          · rw [hl] at hlt
            omega
          · omega
      · rw [if_neg hgap]
        refine hjoin (hlow.alt_byDigit hup).group fun d tail _ htail => ?_
        have hlt := value_lt htail
        rw [Between, Between]
        by_cases hl : tail.length = fs.length
        · rw [hl] at hlt
          omega
        · omega
  · rw [if_neg hsub]
    obtain rfl := eq_nil_of_length_eq_zero (Nat.le_zero.mp (Nat.not_lt.mp hsub))
    obtain rfl := eq_nil_of_length_eq_zero hlength.symm
    refine (writes_digitRange hf ht).congr fun ds hds => ?_
    cases ds with
    | nil => exact iff_of_false (fun ⟨_, h, _⟩ => cons_ne_nil _ _ h.symm) not_between_nil
    | cons d tail =>
      rw [between_cons_iff hfs hts rfl (isNumeral_cons.mp hds).2, length_nil,
        length_eq_zero_iff]
      constructor
      · rintro ⟨d', heq, hlo, hhi⟩
        obtain ⟨rfl, rfl⟩ := cons.inj heq
        simp only [value_nil, Nat.le_refl, and_true, true_and]
        omega
      · rintro ⟨rfl, hlo, hhi⟩
        exact ⟨d, rfl, hlo.elim Nat.le_of_lt fun h => h.1.le, hhi.elim Nat.le_of_lt fun h => h.1.le⟩

/-- **Numbers of one length**: the expression stands for the numerals between two of them. -/
theorem uniformRange_spec (hfrom : IsNumeral from_) (hto : IsNumeral to_)
    (hlength : from_.length = to_.length) (hdepth : from_.length < depth)
    (hle : value from_ ≤ value to_) :
    Writes (uniformRange depth from_ to_) (Between from_.length (value from_) (value to_)) := by
  induction depth generalizing from_ to_ with
  | zero => exact absurd hdepth (Nat.not_lt_zero _)
  | succ depth ih =>
    rcases commonLength_cases hlength with ⟨rfl, hcommon⟩ | ⟨p, f, fs, t, ts, rfl, rfl, hne, h⟩
    · rw [uniformRange]
      dsimp only
      rw [hcommon, drop_length, take_length]
      refine ⟨trivial, (spells_literal hfrom).congr fun ds hds => ?_⟩
      constructor
      · rintro rfl
        exact ⟨rfl, Nat.le_refl _, Nat.le_refl _⟩
      · rintro ⟨hds', hlo, hhi⟩
        exact eq_of_value_eq hds hfrom hds' (Nat.le_antisymm hhi hlo)
    · obtain ⟨hp, hfs⟩ := isNumeral_append.mp hfrom
      obtain ⟨hf, hfs⟩ := isNumeral_cons.mp hfs
      obtain ⟨-, hts⟩ := isNumeral_append.mp hto
      obtain ⟨ht, hts⟩ := isNumeral_cons.mp hts
      have hlength' : fs.length = ts.length := by simpa using hlength
      have hshort : fs.length < depth := by
        rw [length_append, length_cons] at hdepth
        omega
      have hft : f < t := by
        rw [value_append, value_append, length_cons, length_cons, hlength'] at hle
        have hcons := (value_cons_le_iff hfs hts hlength').mp (Nat.le_of_add_le_add_left hle)
        exact hcons.resolve_right fun heq => hne heq.1
      have hrest : Writes (uniformRest (uniformRange depth) f fs t ts) _ :=
        uniformRest_spec hft ht hfs hts hlength' fun fs' ts' hfs' hts' hl hl' hle' =>
          hl ▸ ih hfs' hts' (hl.trans hl'.symm) (hl.trans_lt hshort) hle'
      rw [uniformRange]
      dsimp only
      rw [h, drop_left' rfl, drop_left' rfl, take_left' rfl]
      dsimp only
      have hfs' : IsNumeral (f :: fs) := isNumeral_cons.mpr ⟨hf, hfs⟩
      have hts' : IsNumeral (t :: ts) := isNumeral_cons.mpr ⟨ht, hts⟩
      have hconslength : (t :: ts).length = fs.length + 1 := by rw [length_cons, hlength']
      by_cases hpos : 0 < p.length
      · rw [if_pos hpos]
        refine ⟨⟨trivial, hrest.valid⟩, ((spells_literal hp).seq hrest.spells).congr fun ds hds =>
          ?_⟩
        constructor
        · rintro ⟨as, bs, rfl, rfl, hl, hlo, hhi⟩
          have hbs := (isNumeral_append.mp hds).2
          refine ⟨by rw [length_append, length_append, hl, length_cons], ?_⟩
          exact (eq_prefix_of_between hp hp rfl hfs' hbs hts' hl.symm
            (hconslength.trans hl.symm)).mpr ⟨rfl, hlo, hhi⟩
        · rintro ⟨hl, hbetween⟩
          rw [length_append, length_cons] at hl
          have htake : (ds.take p.length).length = p.length := by
            rw [length_take]
            omega
          have hdrop : (ds.drop p.length).length = fs.length + 1 := by
            rw [length_drop]
            omega
          rw [← take_append_drop p.length ds] at hds hbetween ⊢
          obtain ⟨hq, hbs⟩ := isNumeral_append.mp hds
          obtain ⟨heq, hlo, hhi⟩ := (eq_prefix_of_between hp hq htake.symm hfs' hbs hts'
            hdrop.symm (hconslength.trans hdrop.symm)).mp hbetween
          exact ⟨_, _, rfl, heq, hdrop, hlo, hhi⟩
      · rw [if_neg hpos]
        obtain rfl := eq_nil_of_length_eq_zero (Nat.le_zero.mp (Nat.not_lt.mp hpos))
        exact hrest

/-! ## Two bounds -/

/-- The loop over the lengths. -/
theorem uniformRanges_spec {minS maxS : List ℕ} {digits : ℕ} (hmin : IsNumeral minS)
    (hmax : IsNumeral maxS) (hpos : 0 < minS.length) (hlength : minS.length + digits = maxS.length)
    (hle : digits = 0 → value minS ≤ value maxS)
    (hplain : 10 ^ (maxS.length - 1) ≤ value maxS ∨ maxS.length = 1) :
    Writes (uniformRanges maxS digits minS) fun ds => minS.length ≤ ds.length ∧
      ds.length ≤ maxS.length ∧ (ds.length = minS.length → value minS ≤ value ds) ∧
      (minS.length < ds.length → 10 ^ (ds.length - 1) ≤ value ds) ∧
      (ds.length = maxS.length → value ds ≤ value maxS) := by
  induction digits generalizing minS with
  | zero =>
    have hl : minS.length = maxS.length := hlength
    rw [uniformRanges]
    refine (uniformRange_spec hmin hmax hl (Nat.lt_succ_self _) (hle rfl)).congr fun ds hds => ?_
    rw [Between]
    constructor
    · rintro ⟨heq, hlo, hhi⟩
      exact ⟨heq.ge, (heq.trans hl).le, fun _ => hlo, fun hlt => absurd heq hlt.ne',
        fun _ => hhi⟩
    · rintro ⟨hge, hle, hlo, -, hhi⟩
      have heq := Nat.le_antisymm (hle.trans hl.ge) hge
      exact ⟨heq, hlo heq, hhi (heq.trans hl)⟩
  | succ digits ih =>
    have hnines : IsNumeral (replicate minS.length 9) := isNumeral_replicate (by decide)
    have hnine := @value_nines minS.length
    have hlt := value_lt hmin
    have hone : IsNumeral (1 :: replicate minS.length 0) :=
      isNumeral_cons.mpr ⟨by decide, isNumeral_replicate (by decide)⟩
    have honelength : (1 :: replicate minS.length 0).length = minS.length + 1 := by
      rw [length_cons, length_replicate]
    have honevalue : value (1 :: replicate minS.length 0) = 10 ^ minS.length := by
      rw [value_cons, value_zeros, length_replicate, Nat.one_mul, Nat.add_zero]
    have hfirst := uniformRange_spec hmin hnines length_replicate.symm
      (Nat.lt_succ_self minS.length) (by omega)
    have hlater := ih hone (by omega) (by omega) (fun hzero => by
      subst hzero
      rw [honevalue]
      have hmaxlength : maxS.length - 1 = minS.length := by omega
      rw [hmaxlength] at hplain
      exact hplain.resolve_right (by omega))
    rw [uniformRanges]
    refine (hfirst.alt hlater).congr fun ds hds => ?_
    have hvalue := value_lt hds
    rw [honelength, honevalue, Between]
    rcases Nat.lt_trichotomy ds.length minS.length with h | h | h
    · omega
    · rw [h] at hvalue ⊢
      omega
    · have hlast : ds.length = minS.length + 1 → ds.length - 1 = minS.length := by omega
      constructor
      · rintro (⟨heq, -⟩ | ⟨-, hle, hexact, hmore, hlast'⟩)
        · exact absurd heq h.ne'
        · refine ⟨h.le, hle, fun heq => absurd heq h.ne', fun _ => ?_, hlast'⟩
          rcases Nat.lt_or_eq_of_le (Nat.succ_le_of_lt h) with hlt' | heq
          · exact hmore hlt'
          · rw [hlast heq.symm]
            exact hexact heq.symm
      · rintro ⟨-, hle, -, hmore, hlast'⟩
        refine .inr ⟨h, hle, fun heq => ?_, fun _ => hmore h, hlast'⟩
        rw [← hlast heq]
        exact hmore h

/-- **Two bounds**: the expression stands for the numbers between them, without superfluous
zeros. -/
theorem betweenBounds_spec {minValue maxValue : ℕ} (hle : minValue ≤ maxValue) :
    Writes (betweenBounds minValue maxValue)
      fun ds => Plain ds ∧ minValue ≤ value ds ∧ value ds ≤ maxValue := by
  have hmin := isNumeral_decimal minValue
  have hmax := isNumeral_decimal maxValue
  have hminlength := length_decimal_pos minValue
  have hmono := length_decimal_mono hle
  have hranges := @uniformRanges_spec _ _ ((decimal maxValue).length - (decimal minValue).length)
    hmin hmax hminlength (Nat.add_sub_cancel' hmono)
    (fun _ => by rwa [value_decimal, value_decimal])
    (by rw [value_decimal]; exact (le_of_length_decimal maxValue).symm)
  rw [betweenBounds, Int.toNat_natCast, Int.toNat_natCast]
  refine hranges.congr fun ds hds => ?_
  rw [value_decimal, value_decimal]
  have hvalue := value_lt hds
  have hminlt := value_lt hmin
  rw [value_decimal] at hminlt
  constructor
  · rintro ⟨hge, hle', hexact, hmore, hlast⟩
    have hne : ds ≠ [] := ne_nil_of_length_pos (hminlength.trans_le hge)
    have hupper : value ds ≤ maxValue := by
      rcases Nat.lt_or_eq_of_le hle' with hlt | heq
      · have hpow := (le_of_length_decimal maxValue).resolve_left (by omega)
        exact hvalue.le.trans ((Nat.pow_le_pow_right (by decide) (Nat.le_sub_one_of_lt hlt)).trans
          hpow)
      · exact hlast heq
    rw [plain_iff hds hne]
    rcases Nat.lt_or_eq_of_le hge with hlt | heq
    · have hpow := hmore hlt
      refine ⟨.inr hpow, ?_, hupper⟩
      exact hminlt.le.trans ((Nat.pow_le_pow_right (by decide) (Nat.le_sub_one_of_lt hlt)).trans
        hpow)
    · have hlo := hexact heq.symm
      refine ⟨?_, hlo, hupper⟩
      rw [← heq]
      exact (le_of_length_decimal minValue).imp id fun hpow => hpow.trans hlo
  · rintro ⟨hplain, hlo, hhi⟩
    have hdecimal := decimal_value hds hplain
    have hge := length_decimal_mono hlo
    have hle' := length_decimal_mono hhi
    rw [hdecimal] at hge hle'
    have hne : ds ≠ [] := ne_nil_of_length_pos (hminlength.trans_le hge)
    refine ⟨hge, hle', fun _ => hlo, fun hlt => ?_, fun _ => hhi⟩
    exact ((plain_iff hds hne).mp hplain).resolve_left (by omega)

end ExpertPin.Schema
