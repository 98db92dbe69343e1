import ExpertPin.Schema.MinMaxExact

/-!
# Which bounds are enforced

Two bounds are enforced, unless they are below zero and the lower one is taken for an absent one
when the signs are off.  Of one bound the sign and the digits decide.
-/

namespace ExpertPin.Schema

open Decimal
open Option
open Nat

variable {e f : Gbnf} {ds : List ℕ} {lo hi : ℤ} {k depth : ℕ} {topLevel : Bool}

theorem writes_nonzero (n : ℕ) : Writes (nonzero n) fun ds =>
    (Plain ds ∧ ds ≠ [0]) ∧ ds.length ≤ n + 1 := by
  refine (Writes.digit_seq (by decide) (by decide) (writes_moreDigits (zero_le n))).congr
    fun ds hds => ?_
  cases ds with
  | nil => simp [Plain]
  | cons d tail =>
    have hd := (isNumeral_cons.mp hds).1
    rw [byDigit_cons, List.length_cons]
    constructor
    · rintro ⟨⟨hone, -⟩, -, hl⟩
      refine ⟨⟨.inr ⟨d, tail, rfl, ne_of_gt hone⟩, fun heq => ?_⟩, succ_le_succ hl⟩
      exact absurd (List.cons.inj heq).1 (ne_of_gt hone)
    · rintro ⟨⟨hplain, hne⟩, hl⟩
      rcases hplain with heq | ⟨d', tail', heq, hd'⟩
      · exact absurd heq hne
      · obtain ⟨rfl, rfl⟩ := List.cons.inj heq
        exact ⟨⟨pos_of_ne_zero hd', le_of_lt_succ hd⟩, zero_le _,
          le_of_succ_le_succ hl⟩

/-- `[0] | [1-9] [0-9]{0,n}` -/
theorem writes_zero_or_nonzero (n : ℕ) : Writes (.alt (digitRange 0 0) (nonzero n)) fun ds =>
    Plain ds ∧ ds.length ≤ n + 1 := by
  refine ((writes_digitRange (by decide) (by decide)).alt (writes_nonzero n)).congr fun ds _ => ?_
  constructor
  · rintro (⟨d, rfl, -, hd⟩ | ⟨⟨hplain, -⟩, hl⟩)
    · obtain rfl := le_zero.mp hd
      exact ⟨.inl rfl, succ_le_succ (zero_le n)⟩
    · exact ⟨hplain, hl⟩
  · rintro ⟨hplain, hl⟩
    by_cases hzero : ds = [0]
    · exact .inl ⟨0, hzero, le_refl 0, le_refl 0⟩
    · exact .inr ⟨⟨hplain, hzero⟩, hl⟩

/-! ## The branches -/

theorem build_between (hlo : 0 ≤ lo) (hhi : hi ≠ int64Max) :
    buildMinMaxInt (depth + 1) lo hi k topLevel = some (betweenBounds lo hi) := by
  have hne : lo ≠ int64Min := by
    unfold int64Min
    omega
  have hnonneg : ¬lo < 0 := Int.not_lt.mpr hlo
  rw [buildMinMaxInt]
  simp [hne, hhi, hnonneg]

theorem build_across (hlo : lo ≠ int64Min) (hneg : lo < 0) (hhi : hi ≠ int64Max) (hpos : 0 ≤ hi) :
    buildMinMaxInt (depth + 1) lo hi k topLevel = (buildMinMaxInt depth 0 (-lo) k true).map fun e =>
        .alt (.seq minus (.group e)) (betweenBounds 0 hi) := by
  have hnonneg : ¬hi < 0 := Int.not_lt.mpr hpos
  rw [buildMinMaxInt]
  simp only [hlo, hhi, hneg, hnonneg, ne_eq, not_false_eq_true, decide_true, Bool.and_true, if_true,
    and_false, if_false]
  exact map_eq_bind.symm

theorem build_below (hlo : lo ≠ int64Min) (hneg : lo < 0) (hhi : hi < 0) :
    buildMinMaxInt (depth + 1) lo hi k topLevel =
      (buildMinMaxInt depth (-hi) (-lo) k true).map fun e => .seq minus (.group e) := by
  have hne : hi ≠ int64Max := by
    unfold int64Max
    omega
  rw [buildMinMaxInt]
  simp only [hlo, hne, hneg, hhi, ne_eq, not_false_eq_true, decide_true, Bool.and_true, if_true,
    and_true]
  exact map_eq_bind.symm

theorem build_from (hlo : lo ≠ int64Min) (hneg : lo < 0) :
    buildMinMaxInt (depth + 1) lo int64Max 16 topLevel =
      (buildMinMaxInt depth int64Min (-lo) 16 false).map fun e =>
        .alt (.seq minus (.group e)) (.alt (digitRange 0 0) (nonzero 15)) := by
  rw [buildMinMaxInt]
  simp only [hlo, hneg, ne_eq, not_false_eq_true, not_true_eq_false, decide_true, decide_false,
    Bool.and_false, Bool.false_eq_true, if_true, if_false]
  exact map_eq_bind.symm

theorem build_upTo (hhi : hi ≠ int64Max) (hpos : 0 ≤ hi) :
    buildMinMaxInt (depth + 1) int64Min hi 16 topLevel =
      (buildMinMaxInt depth 0 hi 16 true).map fun e =>
        if topLevel then .alt (.seq minus (nonzero 15)) e else e := by
  rw [buildMinMaxInt]
  simp only [hhi, hpos, ne_eq, not_false_eq_true, not_true_eq_false, decide_true, decide_false,
    Bool.false_and, Bool.false_eq_true, if_true, if_false]
  cases topLevel with
  | false => exact map_eq_bind.symm
  | true => exact map_eq_bind.symm

theorem build_upTo_neg (hhi : hi < 0) : buildMinMaxInt (depth + 1) int64Min hi k topLevel =
      if hi = int64Min then none
      else (buildMinMaxInt depth (-hi) int64Max k false).map fun e => .seq minus (.group e) := by
  have hne : hi ≠ int64Max := by
    unfold int64Max
    omega
  have hneg : ¬0 ≤ hi := Int.not_le.mpr hhi
  rw [buildMinMaxInt]
  simp only [hne, hneg, ne_eq, not_false_eq_true, not_true_eq_false, decide_true, decide_false,
    Bool.false_and, Bool.false_eq_true, if_true, if_false]
  exact congrArg _ map_eq_bind.symm

theorem build_no_bounds : buildMinMaxInt (depth + 1) int64Min int64Max k topLevel = none := rfl

/-! ## Signs on both sides -/

/-- The bounds that are enforced. -/
def EnforcedBounds (lo hi : ℤ) : Prop :=
  if lo = int64Min then
    if hi = int64Max then False
    else 0 ≤ hi ∨ hi ≠ int64Min ∧ UpperDigited (decimal (-hi).toNat)
  else if hi = int64Max then
    if lo < 0 then lo ≠ -int64Max else WellDigited (decimal lo.toNat)
  else lo = -int64Max → hi < 0 → WellDigited (decimal (-hi).toNat)

theorem length_decimal_le_of_le_int64Max {v : ℤ} (hv : v ≤ int64Max) :
    (decimal v.toNat).length ≤ 19 := by
  rw [length_decimal_le_iff (by decide)]
  unfold int64Max at hv
  omega

/-- Two bounds that are not negative. -/
theorem enforces_between (hlo : 0 ≤ lo) (hle : lo ≤ hi) : Enforces (betweenBounds lo hi) lo hi := by
  obtain ⟨lo, rfl⟩ := Int.eq_ofNat_of_zero_le hlo
  obtain ⟨hi, rfl⟩ := Int.eq_ofNat_of_zero_le (hlo.trans hle)
  obtain ⟨hvalid, hspells⟩ := betweenBounds_spec (Int.ofNat_le.mp hle)
  rw [hspells.signed.enforces_iff]
  refine ⟨fun _ => ⟨fun ds _ hmem => ?_, fun _ _ hno => hno.elim⟩, fun n hlo' hhi _ => ⟨hvalid, ?_⟩,
    fun n hpos hlo' _ _ => ?_⟩
  · exact ⟨hmem.1, Int.ofNat_le.mpr hmem.2.1, Int.ofNat_le.mpr hmem.2.2⟩
  · rw [value_decimal]
    exact ⟨plain_decimal n, Int.ofNat_le.mp hlo', Int.ofNat_le.mp hhi⟩
  · omega

/-- Two bounds below zero. -/
theorem enforces_between_neg (hlo : lo ≤ hi) (hhi : hi < 0) :
    Enforces (.seq minus (.group (betweenBounds (-hi) (-lo)))) lo hi := by
  obtain ⟨a, ha⟩ := Int.eq_ofNat_of_zero_le (show 0 ≤ -hi by omega)
  obtain ⟨b, hb⟩ := Int.eq_ofNat_of_zero_le (show 0 ≤ -lo by omega)
  obtain ⟨hvalid, hspells⟩ := @betweenBounds_spec a b (by omega)
  rw [ha, hb, hspells.group.minus.enforces_iff]
  refine ⟨fun _ => ⟨fun _ _ hno => hno.elim, fun ds _ hmem => ?_⟩, fun n _ hhi' _ => ?_,
    fun n hpos hlo' hhi' _ => ⟨⟨trivial, hvalid⟩, ?_⟩⟩
  · obtain ⟨hplain, hmin, hmax⟩ := hmem
    exact ⟨hplain, by omega, by omega⟩
  · omega
  · rw [value_decimal]
    exact ⟨plain_decimal n, by omega, by omega⟩

/-- The expression stands for numbers up to a bound, and for all of these but zero that have at
most 16 digits. -/
def WritesUpTo (e : Gbnf) (b : ℤ) : Prop :=
  ∃ D, Writes e D ∧ (∀ ds, IsNumeral ds → D ds → Plain ds ∧ value ds ≤ b) ∧
    ∀ n : ℕ, 0 < n → n ≤ b → n < 10 ^ 16 → D (decimal n)

theorem writesUpTo_between {b : ℤ} (hb : 0 ≤ b) : WritesUpTo (betweenBounds 0 b) b := by
  obtain ⟨b, rfl⟩ := Int.eq_ofNat_of_zero_le hb
  refine ⟨_, betweenBounds_spec (zero_le b), fun ds _ hmem => ?_, fun n _ hle _ => ?_⟩
  · exact ⟨hmem.1, Int.ofNat_le.mpr hmem.2.2⟩
  · rw [value_decimal]
    exact ⟨plain_decimal n, zero_le n, Int.ofNat_le.mp hle⟩

theorem value_le_of_length_le {b : ℤ} (hb : 10 ^ 16 ≤ b) (hds : IsNumeral ds)
    (hl : ds.length ≤ 16) : value ds ≤ b := by
  have hlt : value ds < 10 ^ 16 :=
    (value_lt hds).trans_le (Nat.pow_le_pow_right (by decide) hl)
  omega

theorem writesUpTo_nonzero {b : ℤ} (hb : 10 ^ 16 ≤ b) : WritesUpTo (nonzero 15) b := by
  refine ⟨_, writes_nonzero 15, fun ds hds hmem => ?_, fun n hpos _ hn =>
    ⟨⟨plain_decimal n, ?_⟩, ?_⟩⟩
  · exact ⟨hmem.1.1, value_le_of_length_le hb hds hmem.2⟩
  · intro hzero
    have hvalue := congrArg value hzero
    rw [value_decimal, value_singleton] at hvalue
    exact ne_of_gt hpos hvalue
  · exact (length_decimal_le_iff (by decide)).mpr hn

theorem writesUpTo_zero_or_nonzero {b : ℤ} (hb : 10 ^ 16 ≤ b) :
    WritesUpTo (.alt (digitRange 0 0) (nonzero 15)) b := by
  refine ⟨_, writes_zero_or_nonzero 15, fun ds hds hmem => ?_, fun n _ _ hn =>
    ⟨plain_decimal n, ?_⟩⟩
  · exact ⟨hmem.1, value_le_of_length_le hb hds hmem.2⟩
  · exact (length_decimal_le_iff (by decide)).mpr hn

theorem WritesUpTo.group {b : ℤ} (h : WritesUpTo e b) : WritesUpTo (.group e) b :=
  let ⟨D, hD, hbound⟩ := h
  ⟨D, hD.group, hbound⟩

/-- A lower bound that is not positive and an upper one that is not negative. -/
theorem WritesUpTo.enforces (he : WritesUpTo e (-lo)) (hf : WritesUpTo f hi) (hlo : lo ≤ 0)
    (hhi : 0 ≤ hi) (hzero : digitsText (decimal 0) ∈ f.language) :
    Enforces (.alt (.seq minus e) f) lo hi := by
  obtain ⟨N, hN, hNsound, hNall⟩ := he
  obtain ⟨P, hP, hPsound, hPall⟩ := hf
  rw [hP.spells.mem_iff (isNumeral_decimal 0)] at hzero
  have hvalid : (Gbnf.alt (.seq minus e) f).Valid := ⟨⟨trivial, hN.valid⟩, hP.valid⟩
  rw [(hN.spells.minus.alt hP.spells.signed).enforces_iff]
  refine ⟨fun _ => ⟨fun ds hds hmem => ?_, fun ds hds hmem => ?_⟩, fun n _ hle hn =>
    ⟨hvalid, .inr ?_⟩,
    fun n hpos hle _ hn => ⟨hvalid, .inl ?_⟩⟩
  · obtain ⟨hplain, hle⟩ := hPsound ds hds (hmem.resolve_left id)
    exact ⟨hplain, by omega, hle⟩
  · obtain ⟨hplain, hle⟩ := hNsound ds hds (hmem.resolve_right id)
    exact ⟨hplain, by omega, by omega⟩
  · rcases Nat.eq_zero_or_pos n with rfl | hpos
    · exact hzero
    · exact hPall n hpos hle hn
  · exact hNall n hpos (by omega) hn

/-- Zero for a lower bound. -/
theorem WritesUpTo.enforces_zero (he : WritesUpTo e hi)
    (hzero : digitsText (decimal 0) ∈ e.language) : Enforces e 0 hi := by
  obtain ⟨P, hP, hPsound, hPall⟩ := he
  rw [hP.spells.mem_iff (isNumeral_decimal 0)] at hzero
  rw [hP.spells.signed.enforces_iff]
  refine ⟨fun _ => ⟨fun ds hds hmem => ?_, fun _ _ hno => hno.elim⟩, fun n _ hle hn =>
    ⟨hP.valid, ?_⟩,
    fun n hpos hle _ _ => ?_⟩
  · obtain ⟨hplain, hle⟩ := hPsound ds hds hmem
    exact ⟨hplain, Int.natCast_nonneg _, hle⟩
  · rcases Nat.eq_zero_or_pos n with rfl | hpos
    · exact hzero
    · exact hPall n hpos hle hn
  · omega

/-! ## All bounds -/

theorem zero_mem_between {b : ℤ} (hb : 0 ≤ b) :
    digitsText (decimal 0) ∈ (betweenBounds 0 b).language := by
  obtain ⟨b, rfl⟩ := Int.eq_ofNat_of_zero_le hb
  refine ((betweenBounds_spec (zero_le b)).spells.mem_iff (isNumeral_decimal 0)).mpr ?_
  rw [value_decimal]
  exact ⟨plain_decimal 0, le_refl 0, zero_le b⟩

theorem zero_mem_zero_or_nonzero :
    digitsText (decimal 0) ∈ (Gbnf.alt (digitRange 0 0) (nonzero 15)).language :=
  ((writes_zero_or_nonzero 15).spells.mem_iff (isNumeral_decimal 0)).mpr
    ⟨plain_decimal 0, succ_le_succ (zero_le _)⟩

theorem neg_pow_le_int64Min : int64Min ≤ -10 ^ 17 := by decide

theorem pow_le_int64Max : 10 ^ 16 ≤ int64Max := by decide

/-- An upper bound alone. -/
theorem enforces_upTo_iff (hmin : int64Min ≤ hi) (hmax : hi < int64Max) :
    (∃ e, buildMinMaxInt buildDepth int64Min hi 16 true = some e ∧ Enforces e int64Min hi) ↔
      0 ≤ hi ∨ hi ≠ int64Min ∧ UpperDigited (decimal (-hi).toNat) := by
  have hne : hi ≠ int64Max := Int.ne_of_lt hmax
  have hlarge := neg_pow_le_int64Min
  rw [buildDepth]
  rcases lt_or_ge hi 0 with hneg | hpos
  · rw [or_iff_right (Int.not_le.mpr hneg), build_upTo_neg hneg]
    by_cases hextreme : hi = int64Min
    · rw [if_pos hextreme]
      exact iff_of_false (fun ⟨e, h, _⟩ => some_ne_none e h.symm) fun h => h.1 hextreme
    · rw [if_neg hextreme, and_iff_right hextreme]
      obtain ⟨x, hx⟩ := Int.eq_ofNat_of_zero_le (show 0 ≤ -hi by omega)
      have hdepth := @length_decimal_le_of_le_int64Max x (by unfold int64Min int64Max at *; omega)
      rw [Int.toNat_natCast] at hdepth
      obtain rfl : hi = -x := by omega
      rw [Int.neg_neg, Int.toNat_natCast, ← @upper_iff x 23 (by omega) (hdepth.trans (by decide))]
      constructor
      · rintro ⟨e, hbuild, henforces⟩
        obtain ⟨inner, hinner, rfl⟩ := map_eq_some_iff.mp hbuild
        exact ⟨inner, hinner, (enforces_below_iff (by omega) hlarge hinner).mp henforces⟩
      · rintro ⟨inner, hinner, hfits⟩
        exact ⟨_, map_eq_some_iff.mpr ⟨inner, hinner, rfl⟩,
          (enforces_below_iff (by omega) hlarge hinner).mpr hfits⟩
  · refine iff_of_true ⟨.alt (.seq minus (nonzero 15)) (betweenBounds 0 hi), ?_, ?_⟩ (.inl hpos)
    · rw [build_upTo hne hpos, build_between (Int.le_refl 0) hne]
      rfl
    · exact (writesUpTo_nonzero (by omega)).enforces (writesUpTo_between hpos) (by decide) hpos
        (zero_mem_between hpos)

/-- A lower bound alone. -/
theorem enforces_from_iff_wellDigited (hmin : int64Min < lo) (hmax : lo ≤ int64Max) :
    (∃ e, buildMinMaxInt buildDepth lo int64Max 16 true = some e ∧ Enforces e lo int64Max) ↔
      if lo < 0 then lo ≠ -int64Max else WellDigited (decimal lo.toNat) := by
  have hne : lo ≠ int64Min := Int.ne_of_gt hmin
  have hlarge := pow_le_int64Max
  rw [buildDepth]
  split_ifs with hneg
  · rw [build_from hne hneg]
    by_cases hextreme : lo = -int64Max
    · rw [hextreme, Int.neg_neg, build_no_bounds]
      exact iff_of_false (fun ⟨e, h, _⟩ => some_ne_none e h.symm) fun h => h rfl
    · have hne' : -lo ≠ int64Max := by omega
      refine iff_of_true ⟨.alt (.seq minus (.group (betweenBounds 0 (-lo))))
        (.alt (digitRange 0 0) (nonzero 15)), ?_, ?_⟩ hextreme
      · rw [build_upTo hne' (by omega), build_between (Int.le_refl 0) hne']
        rfl
      · exact (writesUpTo_between (by omega)).group.enforces (writesUpTo_zero_or_nonzero hlarge)
          (Int.le_of_lt hneg) (by decide) zero_mem_zero_or_nonzero
  · obtain ⟨x, rfl⟩ := Int.eq_ofNat_of_zero_le (Int.not_lt.mp hneg)
    rw [Int.toNat_natCast]
    rcases Nat.eq_zero_or_pos x with rfl | hx
    · refine iff_of_true ⟨_, build_zero_top, ?_⟩ ?_
      · exact (writesUpTo_zero_or_nonzero hlarge).enforces_zero zero_mem_zero_or_nonzero
      · exact .inr (.inl ⟨by decide, by decide⟩)
    · have hdepth := length_decimal_le_of_le_int64Max hmax
      rw [Int.toNat_natCast] at hdepth
      rw [← @lower_iff x 24 hx (hdepth.trans (by decide))]
      exact exists_congr fun e => and_congr_right fun hbuild => enforces_from_iff hx hbuild

/-- Two bounds. -/
theorem enforces_both_iff (hmin : int64Min < lo) (hle : lo ≤ hi) (hmax : hi < int64Max) :
    (∃ e, buildMinMaxInt buildDepth lo hi 16 true = some e ∧ Enforces e lo hi) ↔
      (lo = -int64Max → hi < 0 → WellDigited (decimal (-hi).toNat)) := by
  have hne : lo ≠ int64Min := Int.ne_of_gt hmin
  have hne' : hi ≠ int64Max := Int.ne_of_lt hmax
  have hlarge := pow_le_int64Max
  rw [buildDepth]
  rcases lt_or_ge lo 0 with hneg | hnonneg
  · rcases lt_or_ge hi 0 with hneg' | hpos
    · rw [build_below hne hneg hneg']
      by_cases hextreme : lo = -int64Max
      · -- the lower bound is no bound without its sign
        obtain ⟨x, hx⟩ := Int.eq_ofNat_of_zero_le (show 0 ≤ -hi by omega)
        have hdepth := @length_decimal_le_of_le_int64Max x (by omega)
        rw [Int.toNat_natCast] at hdepth
        obtain rfl : hi = -x := by omega
        have hfew : lo ≤ -10 ^ 17 := by rw [hextreme]; decide
        have hxpos : 0 < x := by omega
        rw [forall_prop_of_true hextreme, forall_prop_of_true hneg', Int.neg_neg, Int.toNat_natCast,
          ← @lower_iff x 23 hxpos (hdepth.trans (by decide)), show -lo = int64Max by omega]
        constructor
        · rintro ⟨e, hbuild, henforces⟩
          obtain ⟨inner, hinner, rfl⟩ := map_eq_some_iff.mp hbuild
          exact ⟨inner, hinner, (enforces_below_iff hxpos hfew hinner).mp henforces⟩
        · rintro ⟨inner, hinner, hfits⟩
          exact ⟨_, map_eq_some_iff.mpr ⟨inner, hinner, rfl⟩,
            (enforces_below_iff hxpos hfew hinner).mpr hfits⟩
      · refine iff_of_true ⟨_, ?_, enforces_between_neg hle hneg'⟩ fun h => absurd h hextreme
        rw [build_between (by omega) (by omega)]
        rfl
    · refine iff_of_true ?_ fun _ h => absurd h (Int.not_lt.mpr hpos)
      rw [build_across hne hneg hne' hpos]
      by_cases hextreme : -lo = int64Max
      · refine ⟨_, ?_, (writesUpTo_zero_or_nonzero (hextreme ▸ hlarge)).group.enforces
          (writesUpTo_between hpos) (Int.le_of_lt hneg) hpos (zero_mem_between hpos)⟩
        rw [hextreme]
        rfl
      · refine ⟨_, ?_, (writesUpTo_between (by omega)).group.enforces
          (writesUpTo_between hpos) (Int.le_of_lt hneg) hpos (zero_mem_between hpos)⟩
        rw [build_between (Int.le_refl 0) hextreme]
        rfl
  · refine iff_of_true ⟨_, build_between hnonneg hne', enforces_between hnonneg hle⟩ fun h => ?_
    omega

/-- **Integer bounds**: the expression that is written enforces exactly these. -/
theorem IntegerSchema.expression_enforces_iff {schema : IntegerSchema}
    (hmin : int64Min ≤ schema.minValue)
    (hle : schema.minValue ≤ schema.maxValue) (hmax : schema.maxValue ≤ int64Max) :
    (∃ e, schema.expression = some e ∧ Enforces e schema.minValue schema.maxValue) ↔
      EnforcedBounds schema.minValue schema.maxValue := by
  rw [IntegerSchema.expression, EnforcedBounds]
  by_cases hnomin : schema.minValue = int64Min
  · rw [if_pos hnomin]
    by_cases hnomax : schema.maxValue = int64Max
    · rw [if_pos hnomax, hnomin, hnomax, buildDepth, build_no_bounds]
      exact iff_of_false (fun ⟨e, h, _⟩ => some_ne_none e h.symm) id
    · rw [if_neg hnomax, hnomin]
      exact enforces_upTo_iff (hmin.trans hle) (lt_of_le_of_ne hmax hnomax)
  · rw [if_neg hnomin]
    have hlt := lt_of_le_of_ne hmin (Ne.symm hnomin)
    by_cases hnomax : schema.maxValue = int64Max
    · rw [if_pos hnomax, hnomax]
      exact enforces_from_iff_wellDigited hlt (hle.trans hmax)
    · rw [if_neg hnomax]
      exact enforces_both_iff hlt hle (lt_of_le_of_ne hmax hnomax)

theorem decimal_25 : decimal 25 = [2, 5] :=
  @decimal_value [2, 5] (show ∀ d ∈ [2, 5], d < 10 by decide) (.inr ⟨2, [5], rfl, by decide⟩)

/-- The numbers from 25 on. -/
theorem IntegerSchema.expression_enforces_iff_25 :
    let schema : IntegerSchema := { minimum := some 25 }
    ∃ e, schema.expression = some e ∧ Enforces e schema.minValue schema.maxValue := by
  refine (@expression_enforces_iff { minimum := some 25 } (by decide) (by decide) (by decide)).mpr
    ?_
  show WellDigited (decimal 25)
  rw [decimal_25]
  exact .inr (.inl ⟨by decide, by decide⟩)

theorem decimal_100 : decimal 100 = [1, 0, 0] :=
  @decimal_value [1, 0, 0] (show ∀ d ∈ [1, 0, 0], d < 10 by decide)
  (.inr ⟨1, [0, 0], rfl, by decide⟩)

/-- A lower bound of 100 lets 10 pass. -/
theorem IntegerSchema.not_expression_enforces : ¬∀ schema : IntegerSchema,
    int64Min ≤ schema.minValue → schema.minValue ≤ schema.maxValue → schema.maxValue ≤ int64Max →
        ∃ e, schema.expression = some e ∧ Enforces e schema.minValue schema.maxValue := by
  intro h
  obtain ⟨e, he, henforces⟩ := h { minimum := some 100 } (by decide) (by decide) (by decide)
  have hwell := (enforces_from_iff_wellDigited (by decide) (by decide)).mp ⟨e, he, henforces⟩
  have hwell : WellDigited (decimal 100) := hwell
  rw [decimal_100] at hwell
  rcases hwell with h | ⟨-, h⟩ | ⟨h, -⟩
  · exact absurd h (by decide)
  · exact absurd h (by decide)
  · exact absurd h (by decide)

end ExpertPin.Schema
