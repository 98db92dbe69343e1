import ExpertPin.Schema.MinMaxInt

/-!
# A lower bound alone

The first digit of the bound decides: a greater one goes with as many digits as there are, a
smaller one with one more, and behind the same one the rest of the bound is a lower bound again.
The rest is read as a number, so that zeros at its front are lost, and in front of a digit 1 no
smaller one is tried: `fits_iff` tells for which bounds all goes well.
-/

namespace ExpertPin.Schema

open Decimal
open List
open Nat

variable {c d k n x less len start depth : ℕ} {s ds tail rest : List ℕ} {e inner : Gbnf}
  {D E : List ℕ → Prop} {topLevel : Bool}

/-! ## The steps -/

/-- The expression for a lower bound with a first digit, where `e` is the one for the rest. -/
def firstDigit (start c len less : ℕ) (e : Gbnf) : Gbnf :=
  let same : Gbnf := .seq (digitRange c c) (.group e)
  let upper : Gbnf :=
    if c < 9 then .alt same (.seq (digitRange (c + 1) 9) (.moreDigits (len - 1) less)) else same
  if 1 < c then .alt (.seq (digitRange start (c - 1)) (.moreDigits len less)) upper else upper

/-- The expression for a lower bound of one digit. -/
def oneDigit (start c less : ℕ) : Gbnf :=
  let upper : Gbnf := .seq (digitRange c 9) (.moreDigits 0 less)
  if start < c then .alt (.seq (digitRange start (c - 1)) (.moreDigits 1 less)) upper else upper

theorem natCast_ne_int64Min : (x : ℤ) ≠ int64Min := by
  have hnonneg := Int.natCast_nonneg x
  unfold int64Min
  omega

theorem build_zero : buildMinMaxInt (depth + 1) (0 : ℕ) int64Max k false =
    some (.moreDigits 1 k) := rfl

/-- `[1-9] [0-9]{0,n}` -/
def nonzero (n : ℕ) : Gbnf := .seq (digitRange 1 9) (.moreDigits 0 n)

theorem build_zero_top : buildMinMaxInt (depth + 1) (0 : ℕ) int64Max k true =
    some (.alt (digitRange 0 0) (nonzero (max (k - 1) 1))) := rfl

theorem build_oneDigit (hx : 0 < x) (hle : x ≤ 9) :
    buildMinMaxInt (depth + 1) x int64Max k topLevel =
      some (oneDigit (if topLevel then 1 else 0) x (max (k - 1) 1)) := by
  have hnonneg : ¬(x : ℤ) < 0 := Int.not_lt.mpr (Int.natCast_nonneg x)
  have hne : (x : ℤ) ≠ 0 := Int.natCast_ne_zero.mpr (ne_of_gt hx)
  have hle' : (x : ℤ) ≤ 9 := Int.ofNat_le.mpr hle
  rw [buildMinMaxInt]
  simp only [natCast_ne_int64Min, hnonneg, hne, hle', oneDigit, Int.toNat_natCast, ne_eq,
    not_false_eq_true, not_true_eq_false, decide_true, decide_false, Bool.and_false, if_false,
    if_true, Bool.false_eq_true]
  exact (apply_ite some _ _ _).symm

theorem build_firstDigit (hx : 9 < x) (hc : decimal x = c :: rest) :
    buildMinMaxInt (depth + 1) x int64Max k topLevel =
      (buildMinMaxInt depth (value rest : ℕ) int64Max (max (k - 1) 1) false).map
        (firstDigit (if topLevel then 1 else 0) c (rest.length + 1) (max (k - 1) 1)) := by
  have hnonneg : ¬(x : ℤ) < 0 := Int.not_lt.mpr (Int.natCast_nonneg x)
  have hne : (x : ℤ) ≠ 0 := Int.natCast_ne_zero.mpr (by omega)
  have hle' : ¬(x : ℤ) ≤ 9 := by omega
  rw [buildMinMaxInt]
  simp only [natCast_ne_int64Min, hnonneg, hne, hle', Int.toNat_natCast, ne_eq, hc,
    not_false_eq_true, not_true_eq_false, decide_true, decide_false, Bool.and_false, if_false,
    if_true, Bool.false_eq_true, tail_cons, headD_cons, length_cons]
  cases buildMinMaxInt depth (value rest : ℕ) int64Max (max (k - 1) 1) false with
  | none => rfl
  | some e =>
    show (if 1 < c then _ else _) = some (firstDigit _ _ _ _ _)
    unfold firstDigit
    split
    · rfl
    · rfl

theorem spells_oneDigit (hx : 0 < x) (hle : x ≤ 9) :
    Spells (oneDigit start x less) (ByDigit fun d tail =>
      x ≤ d ∧ tail.length ≤ less ∨ (start < x ∧ start ≤ d ∧ d < x) ∧ 1 ≤ tail.length ∧
        tail.length ≤ less) := by
  have hupper : Spells (.seq (digitRange x 9) (.moreDigits 0 less)) (ByDigit fun d tail => _) :=
    Spells.digit_seq (by omega) (by decide) spells_moreDigits
  unfold oneDigit
  dsimp only
  by_cases hstart : start < x
  · rw [if_pos hstart]
    have hlower : Spells (.seq (digitRange start (x - 1)) (.moreDigits 1 less))
        (ByDigit fun d tail => _) :=
      Spells.digit_seq (by omega) (by omega) spells_moreDigits
    refine (hlower.alt hupper).congr fun ds hds => ?_
    cases ds with
    | nil => simp
    | cons d tail =>
      have hd := (isNumeral_cons.mp hds).1
      simp only [byDigit_cons]
      omega
  · rw [if_neg hstart]
    refine hupper.congr fun ds hds => ?_
    cases ds with
    | nil => simp
    | cons d tail =>
      have hd := (isNumeral_cons.mp hds).1
      simp only [byDigit_cons]
      omega

theorem valid_oneDigit (hless : 1 ≤ less) : (oneDigit start x less).Valid := by
  unfold oneDigit
  dsimp only
  split
  · exact ⟨⟨trivial, hless⟩, trivial, zero_le _⟩
  · exact ⟨trivial, zero_le _⟩

theorem spells_firstDigit (hstart : start < 10) (hc : 0 < c) (hle : c ≤ 9) (he : Spells e D) :
    Spells (firstDigit start c len less e) (ByDigit fun d tail =>
      d = c ∧ D tail ∨ c < d ∧ len - 1 ≤ tail.length ∧ tail.length ≤ less ∨
        (1 < c ∧ start ≤ d ∧ d < c) ∧ len ≤ tail.length ∧ tail.length ≤ less) := by
  have hsame : Spells (.seq (digitRange c c) (.group e))
      (ByDigit fun d tail => d = c ∧ D tail) := by
    refine (Spells.digit_seq (by omega) (by omega) he.group).congr fun ds _ => ?_
    cases ds with
    | nil => simp
    | cons d tail =>
      rw [byDigit_cons, byDigit_cons, ← le_antisymm_iff, eq_comm]
  have hupper : Spells (if c < 9 then
        .alt (.seq (digitRange c c) (.group e))
          (.seq (digitRange (c + 1) 9) (.moreDigits (len - 1) less))
      else .seq (digitRange c c) (.group e))
      (ByDigit fun d tail => d = c ∧ D tail ∨ c < d ∧ len - 1 ≤ tail.length ∧ tail.length ≤
      less) := by
    by_cases hc : c < 9
    · rw [if_pos hc]
      have hgreater : Spells (.seq (digitRange (c + 1) 9) (.moreDigits (len - 1) less))
          (ByDigit fun d tail => _) := Spells.digit_seq (by omega) (by decide) spells_moreDigits
      refine (hsame.alt hgreater).congr fun ds hds => ?_
      cases ds with
      | nil => simp
      | cons d tail =>
        have hd := (isNumeral_cons.mp hds).1
        rw [byDigit_cons, byDigit_cons, byDigit_cons]
        exact or_congr Iff.rfl (and_congr_left fun _ => by omega)
    · rw [if_neg hc]
      refine hsame.congr fun ds hds => ?_
      cases ds with
      | nil => simp
      | cons d tail =>
        have hd := (isNumeral_cons.mp hds).1
        rw [byDigit_cons, byDigit_cons]
        exact (or_iff_left fun h => by omega).symm
  unfold firstDigit
  dsimp only
  by_cases hone : 1 < c
  · rw [if_pos hone]
    have hlower : Spells (.seq (digitRange start (c - 1)) (.moreDigits len less))
        (ByDigit fun d tail => _) := Spells.digit_seq (by omega) (by omega) spells_moreDigits
    refine (hlower.alt hupper).congr fun ds hds => ?_
    cases ds with
    | nil => simp
    | cons d tail =>
      rw [byDigit_cons, byDigit_cons, byDigit_cons, or_comm, or_assoc]
      refine or_congr Iff.rfl (or_congr Iff.rfl (and_congr_left fun _ => ?_))
      omega
  · rw [if_neg hone]
    refine hupper.congr fun ds _ => ?_
    cases ds with
    | nil => simp
    | cons d tail =>
      rw [byDigit_cons, byDigit_cons, ← or_assoc]
      exact (or_iff_left fun h => hone h.1.1).symm

theorem valid_firstDigit : (firstDigit start c len less e).Valid ↔
    e.Valid ∧ (c < 9 → len - 1 ≤ less) ∧ (1 < c → len ≤ less) := by
  unfold firstDigit
  dsimp only
  by_cases hc : c < 9
  · by_cases hone : 1 < c
    · simp [hc, hone, Gbnf.Valid, digitRange]
      tauto
    · simp [hc, hone, Gbnf.Valid, digitRange]
  · by_cases hone : 1 < c
    · simp [hc, hone, Gbnf.Valid, digitRange]
      tauto
    · simp [hc, hone, Gbnf.Valid, digitRange]

/-! ## The rest of a bound -/

/-- The numeral is as long as `s` and not below it, or it is longer. -/
def AtLeast (s ds : List ℕ) : Prop :=
  ds.length = s.length ∧ value s ≤ value ds ∨ s.length < ds.length

/-- The numerals begin with `start` at least and are at least `s`, and up to `k` digits these are
all of them. -/
structure Fits (start : ℕ) (s : List ℕ) (k : ℕ) (D : List ℕ → Prop) : Prop where
  sound : ∀ ds, IsNumeral ds → D ds → start ≤ ds.headD 0 ∧ AtLeast s ds
  complete : ∀ ds, IsNumeral ds → start ≤ ds.headD 0 → ds.length ≤ k → AtLeast s ds → D ds

/-- The expression can be parsed and stands for such numerals. -/
def FitsExpr (start : ℕ) (s : List ℕ) (k : ℕ) (e : Gbnf) : Prop :=
  e.Valid ∧ ∃ D, Spells e D ∧ Fits start s k D

theorem Spells.unique (hD : Spells e D) (hE : Spells e E) (hds : IsNumeral ds) : D ds ↔ E ds := by
  rw [← hD.mem_iff hds, hE.mem_iff hds]

/-- In front of the rests are the same digit, or others. -/
theorem atLeast_cons_iff (hrest : IsNumeral rest) (htail : IsNumeral tail) :
    AtLeast (c :: rest) (d :: tail) ↔ d = c ∧ AtLeast rest tail ∨
      c < d ∧ rest.length ≤ tail.length ∨ d < c ∧ rest.length < tail.length := by
  rw [AtLeast, AtLeast, length_cons, length_cons, add_right_cancel_iff,
    add_lt_add_iff_right]
  by_cases hlength : tail.length = rest.length
  · rw [value_cons_le_iff hrest htail hlength.symm]
    omega
  · omega

/-- One digit in front: the rest has to fit, a smaller digit must not be forgotten, and there has
to be room for the digits behind a smaller one. -/
theorem fitsExpr_firstDigit_iff (he : Spells e E) (hrest : IsNumeral rest) (hne : rest ≠ [])
    (hc : 0 < c) (hle : c ≤ 9) (hk : rest.length ≤ k) (hstart : start ≤ 1) :
    FitsExpr start (c :: rest) (k + 1) (firstDigit start c (rest.length + 1) k e) ↔
      FitsExpr 0 rest k e ∧ (rest.length < k → c = 1 → start = 1) ∧ (rest.length = k → c = 1) := by
  have hpos := length_pos_iff.mpr hne
  have hspells : Spells (firstDigit start c (rest.length + 1) k e) (ByDigit _) :=
    spells_firstDigit (hstart.trans_lt (by decide)) hc hle he
  have hcons : ∀ {d tail}, IsNumeral (d :: tail) → (AtLeast (c :: rest) (d :: tail) ↔ _) :=
    fun h => atLeast_cons_iff hrest (isNumeral_cons.mp h).2
  constructor
  · rintro ⟨hvalid, D, hD, hfits⟩
    rw [valid_firstDigit] at hvalid
    have hiff : ∀ {d tail}, IsNumeral (d :: tail) → (D (d :: tail) ↔ _) :=
      fun h => (hD.unique hspells h).trans byDigit_cons
    have hnumeral : ∀ {tail}, IsNumeral tail → IsNumeral (c :: tail) :=
      fun h => isNumeral_cons.mpr ⟨by omega, h⟩
    refine ⟨⟨hvalid.1, E, he, ⟨fun tail htail hE => ⟨zero_le _, ?_⟩, fun tail htail _ hl h =>
      ?_⟩⟩,
      fun hroom hone => ?_, fun hfull => ?_⟩
    · have hD' := (hiff (hnumeral htail)).mpr (.inl ⟨rfl, hE⟩)
      have hat := (hcons (hnumeral htail)).mp (hfits.sound _ (hnumeral htail) hD').2
      simpa using hat
    · have hD' := hfits.complete _ (hnumeral htail) (by show start ≤ c; omega)
        (succ_le_succ hl) ((hcons (hnumeral htail)).mpr (.inl ⟨rfl, h⟩))
      simpa using (hiff (hnumeral htail)).mp hD'
    · -- in front of a 1 there is only a zero
      by_contra hnot
      have hzero : IsNumeral (0 :: replicate (rest.length + 1) 0) :=
        isNumeral_cons.mpr ⟨by decide, isNumeral_replicate (by decide)⟩
      have hD' := hfits.complete _ hzero (by show start ≤ 0; omega)
        (by rw [length_cons, length_replicate]; omega)
        ((hcons hzero).mpr (.inr (.inr ⟨hc, by rw [length_replicate]; omega⟩)))
      have hcases := (hiff hzero).mp hD'
      omega
    · have hroom := hvalid.2.2
      omega
  · rintro ⟨⟨hvalid, D₀, hD₀, hfits⟩, hroom, hfull⟩
    have hsame : ∀ tail, IsNumeral tail → (E tail ↔ D₀ tail) := fun tail h => he.unique hD₀ h
    refine ⟨valid_firstDigit.mpr ⟨hvalid, fun _ => hk, fun h => by omega⟩, _, hspells, ?_, ?_⟩
    · rintro (_ | ⟨d, tail⟩) hds hD
      · exact absurd hD not_byDigit_nil
      · have htail := (isNumeral_cons.mp hds).2
        rw [hcons hds]
        rcases byDigit_cons.mp hD with ⟨rfl, hE⟩ | ⟨hlt, hl, -⟩ | ⟨hd, hl, -⟩
        · exact ⟨by show start ≤ d; omega, .inl ⟨rfl, (hfits.sound tail htail ((hsame tail htail).mp
            hE)).2⟩⟩
        · exact ⟨by show start ≤ d; omega, .inr (.inl ⟨hlt, by omega⟩)⟩
        · exact ⟨hd.2.1, .inr (.inr ⟨hd.2.2, by omega⟩)⟩
    · rintro (_ | ⟨d, tail⟩) hds hhead hl hat
      · rcases hat with ⟨h, -⟩ | h
        · exact absurd h.symm (succ_ne_zero _)
        · exact absurd h (not_lt_zero _)
      · have htail := (isNumeral_cons.mp hds).2
        have hhead : start ≤ d := hhead
        rw [length_cons] at hl
        rw [byDigit_cons]
        rcases (hcons hds).mp hat with ⟨rfl, h⟩ | ⟨hlt, h⟩ | ⟨hlt, h⟩
        · exact .inl ⟨rfl, (hsame tail htail).mpr (hfits.complete tail htail (zero_le _)
            (by omega) h)⟩
        · exact .inr (.inl ⟨hlt, by omega, by omega⟩)
        · refine .inr (.inr ⟨⟨?_, hhead, hlt⟩, by omega, by omega⟩)
          omega

/-- The digits of a number of more than one. -/
theorem decimal_cons (hx : 9 < x) : ∃ c rest, decimal x = c :: rest ∧ 0 < c ∧ c ≤ 9 ∧ rest ≠ [] ∧
    IsNumeral rest := by
  have hnumeral := isNumeral_decimal x
  have hvalue := value_decimal x
  rcases plain_decimal x with heq | ⟨c, rest, heq, hc⟩
  · rw [heq] at hvalue
    rw [← hvalue] at hx
    exact absurd hx (by decide)
  · rw [heq] at hnumeral hvalue
    obtain ⟨hlt, hrest⟩ := isNumeral_cons.mp hnumeral
    refine ⟨c, rest, heq, pos_of_ne_zero hc, le_of_lt_succ hlt, ?_, hrest⟩
    rintro rfl
    rw [value_cons, length_nil, pow_zero, mul_one, value_nil] at hvalue
    omega

theorem build_cons {s : List ℕ} (hrest : IsNumeral rest) (hne : rest ≠ []) (hc : 0 < c)
    (hle : c ≤ 9)
    (hs : s = c :: rest) :
    buildMinMaxInt (depth + 1) (value s : ℕ) int64Max k topLevel =
      (buildMinMaxInt depth (value rest : ℕ) int64Max (max (k - 1) 1) false).map
        (firstDigit (if topLevel then 1 else 0) c (rest.length + 1) (max (k - 1) 1)) := by
  subst hs
  have hnumeral : IsNumeral (c :: rest) := isNumeral_cons.mpr ⟨by omega, hrest⟩
  have hdecimal := decimal_value hnumeral (.inr ⟨c, rest, rfl, Nat.ne_of_gt hc⟩)
  refine build_firstDigit ?_ hdecimal
  have hpow := @le_value_of_plain c rest (Nat.ne_of_gt hc)
  have hten : 10 ^ 1 ≤ 10 ^ rest.length :=
    Nat.pow_le_pow_right (by decide) (length_pos_iff.mpr hne)
  omega

/-- What is built for a lower bound is for numerals. -/
theorem exists_spells (h : buildMinMaxInt depth x int64Max k topLevel = some e) :
    ∃ D, Spells e D := by
  induction depth generalizing x k e topLevel with
  | zero => cases h
  | succ depth ih =>
    rcases Nat.eq_zero_or_pos x with rfl | hx
    · cases topLevel with
      | false =>
        rw [build_zero] at h
        exact Option.some.inj h ▸ ⟨_, spells_moreDigits⟩
      | true =>
        rw [build_zero_top] at h
        exact Option.some.inj h ▸ ⟨_, (spells_digitRange (by decide) (by decide)).alt
          (Spells.digit_seq (by decide) (by decide) spells_moreDigits)⟩
    · rcases Nat.lt_or_ge 9 x with hlt | hle
      · obtain ⟨c, rest, heq, hc, hle, -, -⟩ := decimal_cons hlt
        rw [build_firstDigit hlt heq] at h
        obtain ⟨inner, hinner, rfl⟩ := Option.map_eq_some_iff.mp h
        obtain ⟨D, hD⟩ := ih hinner
        exact ⟨_, spells_firstDigit (by cases topLevel <;> decide) hc hle hD⟩
      · rw [build_oneDigit hx hle] at h
        exact Option.some.inj h ▸ ⟨_, spells_oneDigit hx hle⟩

/-- The number of all nines is never refused where its digits have room. -/
theorem nines_mem (h : buildMinMaxInt depth x int64Max k false = some e) (hvalid : e.Valid)
    (hD : Spells e D) (hn : (decimal x).length ≤ n) (hk : n ≤ k) : D (List.replicate n 9) := by
  have hpos := (length_decimal_pos x).trans_le hn
  have hnines : IsNumeral (replicate n 9) := isNumeral_replicate (by decide)
  obtain ⟨m, rfl⟩ := Nat.exists_eq_succ_of_ne_zero (Nat.ne_of_gt hpos)
  induction depth generalizing x k e D m with
  | zero => cases h
  | succ depth ih =>
    rcases Nat.eq_zero_or_pos x with rfl | hx
    · rw [build_zero] at h
      obtain rfl := Option.some.inj h
      rw [hD.unique spells_moreDigits hnines, length_replicate]
      exact ⟨hpos, hk⟩
    · rcases Nat.lt_or_ge 9 x with hlt | hle
      · obtain ⟨c, rest, heq, hc, hle, hne, hrest⟩ := decimal_cons hlt
        rw [build_firstDigit hlt heq] at h
        obtain ⟨inner, hinner, rfl⟩ := Option.map_eq_some_iff.mp h
        obtain ⟨D₀, hD₀⟩ := exists_spells hinner
        have hfirst : Spells (firstDigit 0 c (rest.length + 1) (max (k - 1) 1) inner) (ByDigit _) :=
          spells_firstDigit (by decide) hc hle hD₀
        rw [heq, length_cons] at hn
        have hrestpos := length_pos_iff.mpr hne
        rw [hD.unique hfirst hnines, replicate_succ, byDigit_cons, length_replicate]
        rcases Nat.lt_or_eq_of_le hle with hc9 | rfl
        · exact .inr (.inl ⟨hc9, by omega, by omega⟩)
        · obtain ⟨l, rfl⟩ := Nat.exists_eq_succ_of_ne_zero (show m ≠ 0 by omega)
          have hlength : (decimal (value rest)).length ≤ l + 1 :=
            ((length_decimal_le_iff hrestpos).mpr (value_lt hrest)).trans (by omega)
          refine .inl ⟨rfl, ih hinner (valid_firstDigit.mp hvalid).1 hD₀ l hlength (by omega)
            (Nat.succ_pos l) (isNumeral_replicate (by decide))⟩
      · rw [build_oneDigit hx hle] at h
        obtain rfl := Option.some.inj h
        rw [hD.unique (spells_oneDigit hx hle) hnines, replicate_succ, byDigit_cons,
          length_replicate]
        exact .inl ⟨hle, by omega⟩

/-- The digits before the last one are at least 2 where there is room for one more digit, and all
1 where there is none. -/
def Plainly (s : List ℕ) (k : ℕ) : Prop :=
  s.length < k ∧ (∀ d ∈ s.dropLast, 2 ≤ d) ∨ s.length = k ∧ ∀ d ∈ s.dropLast, d = 1

theorem plainly_singleton (hk : 1 ≤ k) : Plainly [d] k := by
  rcases lt_or_eq_of_le hk with hlt | rfl
  · exact .inl ⟨hlt, forall_mem_nil _⟩
  · exact .inr ⟨rfl, forall_mem_nil _⟩

theorem plainly_cons_iff (hne : rest ≠ []) (hk : rest.length ≤ k) : Plainly (c :: rest) (k + 1) ↔
      Plainly rest k ∧ (rest.length < k → 2 ≤ c) ∧ (rest.length = k → c = 1) := by
  rw [Plainly, Plainly, length_cons, dropLast_cons_of_ne_nil hne, forall_mem_cons,
    forall_mem_cons, add_lt_add_iff_right, add_right_cancel_iff]
  rcases lt_or_eq_of_le hk with hlt | heq
  · simp only [hlt, hlt.ne, true_and, false_and, or_false, forall_const, false_implies, and_true]
    exact and_comm
  · simp only [heq, lt_irrefl, true_and, false_and, false_or, forall_const, false_implies]
    exact and_comm

theorem value_singleton : value [d] = d := by
  rw [value_cons, length_nil, pow_zero, mul_one, value_nil, add_zero]

theorem atLeast_singleton_iff {d' : ℕ} : AtLeast [d] (d' :: tail) ↔ d ≤ d' ∨ 0 < tail.length := by
  rw [AtLeast, length_cons, length_singleton, value_singleton]
  cases tail with
  | nil => simp
  | cons b tail => simp

theorem not_atLeast_nil (hs : s ≠ []) : ¬AtLeast s [] := by
  have hpos := length_pos_iff.mpr hs
  rintro (⟨h, -⟩ | h)
  · exact absurd h hpos.ne
  · exact absurd h (not_lt_zero _)

/-- One digit. -/
theorem fitsExpr_oneDigit (hpos : 0 < d) (hle : d ≤ 9) (hstart : start ≤ d) (hk : 1 ≤ k) :
    FitsExpr start [d] k (oneDigit start d (max (k - 1) 1)) := by
  refine ⟨valid_oneDigit (le_max_right _ _), _, spells_oneDigit hpos hle, ?_, ?_⟩
  · rintro (_ | ⟨d', tail⟩) hds h
    · exact absurd h not_byDigit_nil
    · rw [byDigit_cons] at h
      rw [atLeast_singleton_iff]
      exact ⟨by show start ≤ d'; omega, by omega⟩
  · rintro (_ | ⟨d', tail⟩) hds hhead hl h
    · exact absurd h (not_atLeast_nil (cons_ne_nil _ _))
    · have hhead : start ≤ d' := hhead
      rw [atLeast_singleton_iff] at h
      rw [length_cons] at hl
      rw [byDigit_cons]
      omega

theorem fits_singleton (hd : d < 10) (hk : 1 ≤ k) :
    ∃ e, buildMinMaxInt (depth + 1) d int64Max k false = some e ∧ FitsExpr 0 [d] k e := by
  rcases Nat.eq_zero_or_pos d with rfl | hpos
  · refine ⟨_, build_zero, hk, _, spells_moreDigits, ?_, ?_⟩
    · rintro (_ | ⟨d', tail⟩) hds ⟨hlo, hhi⟩
      · exact absurd hlo (by decide)
      · exact ⟨Nat.zero_le _, atLeast_singleton_iff.mpr (.inl (Nat.zero_le _))⟩
    · rintro (_ | ⟨d', tail⟩) hds - hl h
      · exact absurd h (not_atLeast_nil (cons_ne_nil _ _))
      · exact ⟨Nat.succ_pos _, hl⟩
  · have hle : d ≤ 9 := Nat.le_of_lt_succ hd
    exact ⟨_, build_oneDigit hpos hle, fitsExpr_oneDigit hpos hle (Nat.zero_le d) hk⟩

/-- **A rest**: what is built for the value of a numeral fits if and only if the digits before its
last one are as they should be. -/
theorem fits_iff (hs : IsNumeral s) (hne : s ≠ []) (hk : s.length ≤ k) (hdepth : s.length ≤ depth) :
    (∃ e, buildMinMaxInt depth (value s : ℕ) int64Max k false = some e ∧ FitsExpr 0 s k e) ↔
      Plainly s k := by
  induction depth generalizing s k with
  | zero => exact absurd (eq_nil_of_length_eq_zero (Nat.le_zero.mp hdepth)) hne
  | succ depth ih =>
    obtain ⟨c, rest, rfl⟩ := exists_cons_of_ne_nil hne
    obtain ⟨hc, hrest⟩ := isNumeral_cons.mp hs
    rw [length_cons] at hk hdepth
    by_cases hrestne : rest = []
    · subst hrestne
      have hvalue : value [c] = c := by simp
      rw [hvalue]
      exact iff_of_true (fits_singleton hc hk) (plainly_singleton hk)
    · obtain ⟨l, rfl⟩ := Nat.exists_eq_succ_of_ne_zero (Nat.ne_of_gt (Nat.lt_of_lt_of_le
        (Nat.succ_pos _) hk))
      have hkrest : rest.length ≤ l := Nat.le_of_succ_le_succ hk
      have hrestpos := length_pos_iff.mpr hrestne
      rw [plainly_cons_iff hrestne hkrest]
      rcases Nat.eq_zero_or_pos c with rfl | hcpos
      · -- a zero at the front of a rest is lost
        refine iff_of_false ?_ fun h => by omega
        rintro ⟨e, hbuild, hvalid, D, hD, hfits⟩
        have hlength : (decimal (value (0 :: rest))).length ≤ rest.length := by
          rw [length_decimal_le_iff hrestpos, value_cons, Nat.zero_mul, Nat.zero_add]
          exact value_lt hrest
        have hnines := nines_mem hbuild hvalid hD hlength (by omega)
        have hat := (hfits.sound _ (isNumeral_replicate (by decide)) hnines).2
        rw [AtLeast, length_replicate, length_cons] at hat
        omega
      · have hmax : max (l + 1 - 1) 1 = l := by omega
        rw [build_cons hrest hrestne hcpos (Nat.le_of_lt_succ hc) rfl, hmax, ← ih hrest hrestne
          hkrest (Nat.le_of_succ_le_succ hdepth)]
        constructor
        · rintro ⟨e, hbuild, hfits⟩
          obtain ⟨inner, hinner, rfl⟩ := Option.map_eq_some_iff.mp hbuild
          obtain ⟨E, hE⟩ := exists_spells hinner
          have hiff := (fitsExpr_firstDigit_iff hE hrest hrestne hcpos (Nat.le_of_lt_succ hc)
            hkrest (by decide)).mp hfits
          exact ⟨⟨inner, hinner, hiff.1⟩, fun hlt => by have := hiff.2.1 hlt; omega, hiff.2.2⟩
        · rintro ⟨⟨inner, hinner, hfits⟩, hroom, hfull⟩
          obtain ⟨E, hE⟩ := exists_spells hinner
          refine ⟨_, Option.map_eq_some_iff.mpr ⟨inner, hinner, rfl⟩, ?_⟩
          refine (fitsExpr_firstDigit_iff hE hrest hrestne hcpos (Nat.le_of_lt_succ hc) hkrest
            (by decide)).mpr ⟨hfits, fun hlt hone => ?_, hfull⟩
          exact absurd (hroom hlt) (by omega)

/-- How long the numerals are. -/
theorem length_le_of_build (h : buildMinMaxInt depth x int64Max k topLevel = some e)
    (htop : topLevel = true → x ≠ 0) (hD : Spells e D) (hds : IsNumeral ds) (hmem : D ds) :
    ds.length ≤ max k (decimal x).length + 1 := by
  induction depth generalizing x k e D ds topLevel with
  | zero => cases h
  | succ depth ih =>
    have hpos := length_decimal_pos x
    rcases Nat.eq_zero_or_pos x with rfl | hx
    · obtain rfl : topLevel = false := by
        cases topLevel with
        | false => rfl
        | true => exact absurd rfl (htop rfl)
      rw [build_zero] at h
      obtain rfl := Option.some.inj h
      have hlength := (hD.unique spells_moreDigits hds).mp hmem
      omega
    · cases ds with
      | nil => exact Nat.zero_le _
      | cons d tail =>
        rcases Nat.lt_or_ge 9 x with hlt | hle
        · obtain ⟨c, rest, heq, hc, hle, hne, hrest⟩ := decimal_cons hlt
          rw [build_firstDigit hlt heq] at h
          obtain ⟨inner, hinner, rfl⟩ := Option.map_eq_some_iff.mp h
          obtain ⟨D₀, hD₀⟩ := exists_spells hinner
          have hfirst : Spells (firstDigit (if topLevel then 1 else 0) c (rest.length + 1)
              (max (k - 1) 1) inner) (ByDigit _) :=
            spells_firstDigit (by cases topLevel <;> decide) hc hle hD₀
          have hcases := byDigit_cons.mp ((hD.unique hfirst hds).mp hmem)
          have hrestpos := length_pos_iff.mpr hne
          rw [heq, length_cons, length_cons]
          rcases hcases with ⟨rfl, hD₀mem⟩ | ⟨-, -, hl⟩ | ⟨-, -, hl⟩
          · have hlength : (decimal (value rest)).length ≤ rest.length :=
              (length_decimal_le_iff hrestpos).mpr (value_lt hrest)
            have htail := ih hinner (fun h => absurd h Bool.false_ne_true) hD₀
              (isNumeral_cons.mp hds).2 hD₀mem
            omega
          · omega
          · omega
        · rw [build_oneDigit hx hle] at h
          obtain rfl := Option.some.inj h
          have hcases := byDigit_cons.mp ((hD.unique (spells_oneDigit hx hle) hds).mp hmem)
          rw [length_cons]
          omega

/-- There is always an expression for a lower bound. -/
theorem exists_build (hdepth : (decimal x).length ≤ depth) (htop : topLevel = true → x ≠ 0) :
    ∃ e, buildMinMaxInt depth x int64Max k topLevel = some e := by
  induction depth generalizing x k topLevel with
  | zero => exact absurd (length_decimal_pos x) (Nat.not_lt.mpr hdepth)
  | succ depth ih =>
    rcases Nat.eq_zero_or_pos x with rfl | hx
    · obtain rfl : topLevel = false := by
        cases topLevel with
        | false => rfl
        | true => exact absurd rfl (htop rfl)
      exact ⟨_, build_zero⟩
    · rcases Nat.lt_or_ge 9 x with hlt | hle
      · obtain ⟨c, rest, heq, -, -, hne, hrest⟩ := decimal_cons hlt
        have hlength : (decimal (value rest)).length ≤ depth := by
          rw [heq, length_cons] at hdepth
          exact ((length_decimal_le_iff (length_pos_iff.mpr hne)).mpr (value_lt hrest)).trans
            (Nat.le_of_succ_le_succ hdepth)
        obtain ⟨inner, hinner⟩ := @ih (max (k - 1) 1) _ false hlength
          fun h => absurd h Bool.false_ne_true
        exact ⟨_, (build_firstDigit hlt heq).trans (Option.map_eq_some_iff.mpr
          ⟨inner, hinner, rfl⟩)⟩
      · exact ⟨_, build_oneDigit hx hle⟩

end ExpertPin.Schema
