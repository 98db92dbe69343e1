import ExpertPin.Grammar.Rules
import ExpertPin.Grammar.Decoding

/-!
# Characters that are not complete

The bytes of a character that have been read leave a number and how many bytes remain
(`decodeBytes_encodeCode`), and with these the engine takes the interval of the numbers that they
can be completed to (`prefix_encodeCode_iff`).  It compares the items of a class with the interval,
one by one, and the first one that it meets decides: for a negated class too, where all of the
other numbers in the interval would still be allowed.
-/

namespace ExpertPin.Grammar

open Pushdown
open List
open Nat

/-! ## The bytes of a number -/

/-- How many bytes follow on the first one. -/
def follow (code : ℕ) : ℕ :=
  if code ≤ 0x7F then 0 else if code ≤ 0x7FF then 1 else if code ≤ 0xFFFF then 2 else 3

theorem follow_range (code : ℕ) :
    follow code = 0 ∧ code ≤ 0x7F ∨ follow code = 1 ∧ 0x80 ≤ code ∧ code ≤ 0x7FF ∨
      follow code = 2 ∧ 0x800 ≤ code ∧ code ≤ 0xFFFF ∨ follow code = 3 ∧ 0x10000 ≤ code := by
  unfold follow
  split_ifs <;> omega

/-- The bits that tell how many bytes follow. -/
def mark (n : ℕ) : ℕ := if n = 0 then 0 else if n = 1 then 0xC0 else if n = 2 then 0xE0 else 0xF0

/-- The bytes that follow, for six bits each. -/
def digits (code : ℕ) : ℕ → List UInt8
  | 0 => []
  | n + 1 => UInt8.ofNat (code / 64 ^ n % 64 + 0x80) :: digits code n

variable {code code' n : ℕ} {pre suf : List UInt8} {p : PartialUtf8}

@[simp] theorem length_digits : (digits code n).length = n := by
  induction n with
  | zero => rfl
  | succ n ih => rw [digits, length_cons, ih]

theorem encodeCode_eq (h : code < 2 ^ 21) : Utf8.encodeCode code =
    UInt8.ofNat (code / 64 ^ follow code + mark (follow code)) :: digits code (follow code) := by
  unfold Utf8.encodeCode follow
  split
  · simp [mark, digits]
  · split
    · have hlead : code / 64 % 32 = code / 64 := by omega
      simp [mark, digits, hlead]
    · split
      · have hlead : code / 4096 % 16 = code / 4096 := by omega
        simp [mark, digits, hlead]
      · have hlead : code / 262144 % 8 = code / 262144 := by omega
        simp [mark, digits, hlead]

theorem remaining_lead (h : code < 2 ^ 21) :
    remaining (UInt8.ofNat (code / 64 ^ follow code + mark (follow code))) = follow code := by
  have hzero : ∀ d : Fin 128, remaining (UInt8.ofNat d) = 0 := by decide +kernel
  have hone : ∀ d : Fin 32, remaining (UInt8.ofNat (d + 0xC0)) = 1 := by decide +kernel
  have htwo : ∀ d : Fin 16, remaining (UInt8.ofNat (d + 0xE0)) = 2 := by decide +kernel
  have hthree : ∀ d : Fin 8, remaining (UInt8.ofNat (d + 0xF0)) = 3 := by decide +kernel
  unfold follow
  split
  · exact hzero ⟨code / 64 ^ 0, by omega⟩
  · split
    · exact hone ⟨code / 64 ^ 1, by omega⟩
    · split
      · exact htwo ⟨code / 64 ^ 2, by omega⟩
      · exact hthree ⟨code / 64 ^ 3, by omega⟩

theorem leadBits_lead (hpos : 0 < follow code) (h : code < 2 ^ 21) :
    (leadBits (UInt8.ofNat (code / 64 ^ follow code + mark (follow code)))
      (follow code)).toNat = code / 64 ^ follow code := by
  have hone : ∀ d : Fin 32, (leadBits (UInt8.ofNat (d + 0xC0)) 1).toNat = d := by decide +kernel
  have htwo : ∀ d : Fin 16, (leadBits (UInt8.ofNat (d + 0xE0)) 2).toNat = d := by decide +kernel
  have hthree : ∀ d : Fin 8, (leadBits (UInt8.ofNat (d + 0xF0)) 3).toNat = d := by decide +kernel
  revert hpos
  unfold follow
  split
  · exact fun hpos => absurd hpos (lt_irrefl 0)
  · split
    · exact fun _ => hone ⟨code / 64 ^ 1, by omega⟩
    · split
      · exact fun _ => htwo ⟨code / 64 ^ 2, by omega⟩
      · exact fun _ => hthree ⟨code / 64 ^ 3, by omega⟩

variable {value : UInt32}

theorem goOn_toNat {digit : ℕ} (hvalue : value.toNat < 2 ^ 15)
    (hdigit : digit < 64) :
    (goOn value (UInt8.ofNat (digit + 0x80))).toNat = value.toNat * 64 + digit := by
  have hall : ∀ d : Fin 64, (UInt8.ofNat (d + 0x80) &&& 0x3F).toUInt32.toNat = d := by
    decide +kernel
  rw [goOn, UInt32.toNat_add, UInt32.toNat_shiftLeft, hall ⟨digit, hdigit⟩]
  show (value.toNat <<< 6 % 2 ^ 32 + digit) % 2 ^ 32 = _
  rw [shiftLeft_eq]
  omega

/-- The bytes of a number that follow, up to some of them. -/
theorem decodeBytes_digits (h : code < 2 ^ 21)
    (hvalue : value.toNat = code / 64 ^ n) (hdigits : digits code n = pre ++ suf) :
    (decodeBytes ⟨value, n⟩ pre).2.nRemain = suf.length ∧
      (decodeBytes ⟨value, n⟩ pre).2.value.toNat = code / 64 ^ suf.length := by
  induction pre generalizing value n with
  | nil =>
    have hlength : suf.length = n := (congrArg length hdigits).symm.trans length_digits
    rw [hlength]
    exact ⟨rfl, hvalue⟩
  | cons b pre ih =>
    cases n with
    | zero => exact absurd hdigits (cons_ne_nil _ _).symm
    | succ n =>
      obtain ⟨rfl, hrest⟩ := cons.inj hdigits
      have hsmall : value.toNat < 2 ^ 15 := by
        have hle : code / 64 ^ (n + 1) ≤ code / 64 :=
          Nat.div_le_div_left (Nat.le_self_pow (Nat.succ_ne_zero n) 64) (by decide)
        omega
      have hnext : (goOn value (UInt8.ofNat (code / 64 ^ n % 64 + 0x80))).toNat =
          code / 64 ^ n := by
        rw [goOn_toNat hsmall (Nat.mod_lt _ (by decide)), hvalue, Nat.pow_succ,
          ← Nat.div_div_eq_div_mul]
        exact Nat.div_add_mod' _ _
      have hpos : (0 : ℤ) < (n + 1 : ℕ) := Int.natCast_pos.mpr (Nat.succ_pos n)
      rw [decodeBytes, step_of_pos hpos, Int.natCast_succ, Int.add_sub_cancel]
      exact ih hnext hrest

/-- **Partial characters**: what is left after the first bytes of a number. -/
theorem decodeBytes_encodeCode (h : code < 2 ^ 21) (hp : p.nRemain = 0) (hpre : pre ≠ [])
    (hsuf : suf ≠ []) (hcode : Utf8.encodeCode code = pre ++ suf) :
    (decodeBytes p pre).2.nRemain = suf.length ∧
      (decodeBytes p pre).2.value.toNat = code / 64 ^ suf.length := by
  obtain ⟨lead, pre, rfl⟩ := exists_cons_of_ne_nil hpre
  rw [encodeCode_eq h, cons_append] at hcode
  obtain ⟨hlead, hdigits⟩ := cons.inj hcode
  have hpos : 0 < follow code := by
    have hlength := congrArg length hdigits
    rw [length_digits, length_append] at hlength
    rw [hlength]
    exact Nat.add_pos_right _ (length_pos_iff.mpr hsuf)
  have hremaining := remaining_lead h
  have hbits := leadBits_lead hpos h
  obtain ⟨value, n⟩ := p
  have hn : ¬0 < n := Int.not_lt.mpr (Int.le_of_eq hp)
  rw [decodeBytes, step_of_not_pos hn, ← hlead, hremaining]
  exact decodeBytes_digits h hbits hdigits

theorem digits_take (k : ℕ) (h : code / 64 ^ (n - k) = code' / 64 ^ (n - k)) :
    (digits code n).take k = (digits code' n).take k := by
  induction n generalizing k with
  | zero => rfl
  | succ n ih =>
    cases k with
    | zero => rfl
    | succ k =>
      rw [Nat.succ_sub_succ] at h
      have hdigit : code / 64 ^ n = code' / 64 ^ n := by
        have hsplit : 64 ^ n = 64 ^ (n - k) * 64 ^ (n - (n - k)) := by
          rw [← Nat.pow_add, Nat.add_sub_cancel' (Nat.sub_le n k)]
        rw [hsplit, ← Nat.div_div_eq_div_mul, ← Nat.div_div_eq_div_mul, h]
      rw [digits, digits, take_succ_cons, take_succ_cons, hdigit, ih k h]

theorem length_encodeCode (h : code < 2 ^ 21) :
    (Utf8.encodeCode code).length = follow code + 1 := by
  rw [encodeCode_eq h, length_cons, length_digits]

/-- The numbers that begin with the same bytes. -/
theorem prefix_encodeCode_iff_top (h : code < 2 ^ 21) (h' : code' < 2 ^ 21) (hpre : pre ≠ [])
    (hsuf : suf ≠ []) (hcode : Utf8.encodeCode code = pre ++ suf) :
    pre <+: Utf8.encodeCode code' ↔
      follow code' = follow code ∧ code' / 64 ^ suf.length = code / 64 ^ suf.length := by
  have hlength := length_encodeCode h
  rw [hcode, length_append] at hlength
  constructor
  · rintro ⟨suf', hcode'⟩
    have hfollow : follow code' = follow code := by
      obtain ⟨lead, pre, rfl⟩ := exists_cons_of_ne_nil hpre
      have hlead := remaining_lead h
      have hlead' := remaining_lead h'
      rw [encodeCode_eq h, cons_append] at hcode
      rw [encodeCode_eq h', cons_append] at hcode'
      rw [(cons.inj hcode).1] at hlead
      rw [← (cons.inj hcode').1] at hlead'
      exact Int.natCast_inj.mp (hlead'.symm.trans hlead)
    have hlength' := length_encodeCode h'
    rw [← hcode', length_append, hfollow] at hlength'
    have heq : suf'.length = suf.length := Nat.add_left_cancel (hlength'.trans hlength.symm)
    have hsuf' : suf' ≠ [] := ne_nil_of_length_pos (heq ▸ length_pos_iff.mpr hsuf)
    have hvalue := (@decodeBytes_encodeCode _ _ _ ⟨0, 0⟩ h rfl hpre hsuf hcode).2
    have hvalue' := (@decodeBytes_encodeCode _ _ _ ⟨0, 0⟩ h' rfl hpre hsuf' hcode'.symm).2
    rw [heq] at hvalue'
    exact ⟨hfollow, hvalue'.symm.trans hvalue⟩
  · rintro ⟨hfollow, htop⟩
    have htake : (Utf8.encodeCode code').take pre.length = pre := by
      obtain ⟨k, hk⟩ := Nat.exists_eq_succ_of_ne_zero (length_pos_iff.mpr hpre).ne'
      have hsplit : follow code - k = suf.length := by omega
      have hlead : code' / 64 ^ follow code = code / 64 ^ follow code := by
        have hpow : 64 ^ follow code = 64 ^ suf.length * 64 ^ k := by
          rw [← Nat.pow_add]
          congr 1
          omega
        rw [hpow, ← Nat.div_div_eq_div_mul, ← Nat.div_div_eq_div_mul, htop]
      have hdigits := @digits_take code' code (follow code) k (hsplit ▸ htop)
      have hpretake : (Utf8.encodeCode code).take pre.length = pre := by
        rw [hcode]
        exact take_left' rfl
      rw [encodeCode_eq h', hfollow, hlead, hk, take_succ_cons, hdigits]
      rw [encodeCode_eq h, hk, take_succ_cons] at hpretake
      exact hpretake
    exact htake ▸ take_prefix _ _

/-- The bits below are all 0, and all 1. -/
theorem shift_toNat {n : ℕ} (hn : n = 1 ∨ n = 2 ∨ n = 3)
    (hvalue : value.toNat * 64 ^ n < 2 ^ 21) :
    (value <<< UInt32.ofNat (n * 6)).toNat = value.toNat * 64 ^ n ∧
      (value <<< UInt32.ofNat (n * 6) ||| ((1 <<< UInt32.ofNat (n * 6)) - 1)).toNat =
        value.toNat * 64 ^ n + (64 ^ n - 1) := by
  have hpow : 64 ^ n = 2 ^ (n * 6) := by rw [Nat.mul_comm, Nat.pow_mul]
  have hmask : ((1 <<< UInt32.ofNat (n * 6)) - 1 : UInt32).toNat = 64 ^ n - 1 := by
    rcases hn with rfl | rfl | rfl <;> rfl
  have hshift : (UInt32.ofNat (n * 6)).toNat % 32 = n * 6 := by
    rcases hn with rfl | rfl | rfl <;> rfl
  have hlow : (value <<< UInt32.ofNat (n * 6)).toNat = value.toNat <<< (n * 6) := by
    rw [UInt32.toNat_shiftLeft, hshift, Nat.shiftLeft_eq, ← hpow]
    exact Nat.mod_eq_of_lt (hvalue.trans (by decide))
  refine ⟨?_, ?_⟩
  · rw [hlow, Nat.shiftLeft_eq, hpow]
  · rw [UInt32.toNat_or, hlow, hmask, ← Nat.shiftLeft_add_eq_or_of_lt, Nat.shiftLeft_eq, hpow]
    rw [hpow]
    exact Nat.sub_lt (Nat.two_pow_pos _) Nat.one_pos

/-- What is left of a number gives back the interval of the numbers like it. -/
theorem completions_toNat (h : code < 2 ^ 21) (hn : n = 1 ∨ n = 2 ∨ n = 3)
    (hvalue : value.toNat = code / 64 ^ n) :
    (completions value n).1.toNat =
      (if code / 64 ^ n = 0 then if n = 2 then 2048 else if n = 3 then 65536 else 0
        else code / 64 ^ n * 64 ^ n) ∧
      (completions value n).2.toNat = code / 64 ^ n * 64 ^ n + (64 ^ n - 1) := by
  have hsmall : value.toNat * 64 ^ n < 2 ^ 21 := by
    rw [hvalue]
    exact (Nat.div_mul_le_self _ _).trans_lt h
  obtain ⟨hlow, hhigh⟩ := shift_toNat hn hsmall
  have hzero : value <<< UInt32.ofNat (n * 6) = 0 ↔ code / 64 ^ n = 0 := by
    rw [← UInt32.toNat_inj, hlow, hvalue, UInt32.toNat_zero, Nat.mul_eq_zero]
    exact or_iff_left (Nat.pow_pos (by decide)).ne'
  refine ⟨?_, hvalue ▸ hhigh⟩
  unfold completions
  dsimp only
  rw [Int.toNat_natCast]
  simp only [hzero]
  by_cases htop : code / 64 ^ n = 0
  · rw [if_pos htop, if_pos htop]
    rcases hn with rfl | rfl | rfl
    · exact hlow.trans (by rw [hvalue, htop]; rfl)
    · rfl
    · rfl
  · rw [if_neg htop, if_neg htop, hlow, hvalue]

/-- How many bytes remain. -/
theorem length_remaining (h : code < 2 ^ 21) (hpre : pre ≠ []) (hsuf : suf ≠ [])
    (hcode : Utf8.encodeCode code = pre ++ suf) :
    suf.length ≤ follow code ∧ (suf.length = 1 ∨ suf.length = 2 ∨ suf.length = 3) := by
  have hlength := length_encodeCode h
  rw [hcode, length_append] at hlength
  have hpos := length_pos_iff.mpr hpre
  have hpos' := length_pos_iff.mpr hsuf
  have hrange := follow_range code
  omega

/-- The interval that the engine takes are the numbers that begin with the bytes. -/
theorem prefix_encodeCode_iff (h : code < 2 ^ 21) (h' : code' < 2 ^ 21) (hpre : pre ≠ [])
    (hsuf : suf ≠ []) (hcode : Utf8.encodeCode code = pre ++ suf)
    (hvalue : value.toNat = code / 64 ^ suf.length) :
    pre <+: Utf8.encodeCode code' ↔ (completions value suf.length).1.toNat ≤ code' ∧
        code' ≤ (completions value suf.length).2.toNat := by
  obtain ⟨hle, hn⟩ := length_remaining h hpre hsuf hcode
  have hcompletions := completions_toNat h hn hvalue
  rw [prefix_encodeCode_iff_top h h' hpre hsuf hcode, hcompletions.1, hcompletions.2]
  clear hcompletions hvalue
  generalize suf.length = n at hle hn ⊢
  have hrange := follow_range code
  have hrange' := follow_range code'
  rcases hn with rfl | rfl | rfl
  · simp only [reducePow, reduceEqDiff, if_false]
    split_ifs
    · omega
    · omega
  · simp only [reducePow, if_true]
    split_ifs
    · omega
    · omega
  · simp only [reducePow, reduceEqDiff, if_false, if_true]
    split_ifs
    · omega
    · omega

/-! ## The items of a class -/

/-- The comparison of an item with an interval. -/
def CharItem.meets (low high : UInt32) : CharItem → Bool
  | one c => low ≤ c && c ≤ high
  | range lo hi => lo ≤ high && low ≤ hi

section Loop

variable {low high : UInt32} {isPositiveChar : Bool} {type : GreType} {es tail : List Element}

theorem matchPartialLoop_one {c : UInt32} (htype : type ≠ .charAny) {u : Element}
    (hu : u.type ≠ .charRngUpper) :
    matchPartialLoop low high isPositiveChar (⟨type, c⟩ :: u :: es) =
      if low ≤ c && c ≤ high then isPositiveChar
      else if u.type = .charAlt then matchPartialLoop low high isPositiveChar (u :: es)
      else !isPositiveChar := by
  cases es with
  | nil => exact (if_neg hu).trans (if_neg htype)
  | cons next es => exact (if_neg hu).trans (if_neg htype)

theorem matchPartialLoop_range {lo hi : UInt32} {u : Element} :
    matchPartialLoop low high isPositiveChar (⟨type, lo⟩ :: ⟨.charRngUpper, hi⟩ :: u :: es) =
      if lo ≤ high && low ≤ hi then isPositiveChar
      else if u.type = .charAlt then matchPartialLoop low high isPositiveChar (u :: es)
      else !isPositiveChar :=
  if_pos rfl

/-- One item, with what is next in the class or after it. -/
theorem matchPartialLoop_item (item : CharItem) (htype : type ≠ .charAny) {u : Element}
    (hu : u.type ≠ .charRngUpper) :
    matchPartialLoop low high isPositiveChar (encodeItem type item ++ u :: es) =
      if item.meets low high then isPositiveChar
      else if u.type = .charAlt then matchPartialLoop low high isPositiveChar (u :: es)
      else !isPositiveChar := by
  cases item with
  | one c => exact matchPartialLoop_one htype hu
  | range lo hi => exact matchPartialLoop_range

/-- The first item that meets the interval decides. -/
theorem matchPartialLoop_items (item : CharItem) (more : List CharItem) (htype : type ≠ .charAny)
    (htail : Fresh tail) :
    matchPartialLoop low high isPositiveChar (encodeItem type item ++
      (more.flatMap (encodeItem .charAlt) ++ tail)) =
      if ∃ i ∈ item :: more, i.meets low high = true then isPositiveChar else !isPositiveChar := by
  induction more generalizing type item with
  | nil =>
    obtain ⟨u, es, rfl, hu, halt⟩ := htail
    rw [flatMap_nil, nil_append, matchPartialLoop_item item htype hu, if_neg halt]
    simp only [mem_singleton, exists_eq_left]
  | cons next more ih =>
    obtain ⟨value, es, heq⟩ := encodeItem_cons .charAlt next
    have hstep : matchPartialLoop low high isPositiveChar (encodeItem type item ++
        ((next :: more).flatMap (encodeItem .charAlt) ++ tail)) =
        if item.meets low high then isPositiveChar
        else matchPartialLoop low high isPositiveChar
          (encodeItem .charAlt next ++ (more.flatMap (encodeItem .charAlt) ++ tail)) := by
      rw [flatMap_cons, append_assoc, heq]
      have hnext : GreType.charAlt ≠ .charRngUpper := by decide
      exact (matchPartialLoop_item item htype hnext).trans (by rw [if_pos rfl]; rfl)
    rw [hstep, ih next (by decide)]
    by_cases hmeets : item.meets low high = true
    · rw [if_pos hmeets, if_pos ⟨item, mem_cons_self, hmeets⟩]
    · rw [if_neg hmeets]
      simp only [exists_mem_cons_iff, hmeets, Bool.false_eq_true, false_or]

end Loop

/-! ## What the engine decides -/

/-- The number begins with the bytes; it may be a surrogate or too large for a character. -/
def Begins (pre : List UInt8) (code : ℕ) : Prop := code < 2 ^ 21 ∧ pre <+: Utf8.encodeCode code

/-- The item is not altogether before or after the numbers that begin with the bytes. -/
def CharItem.Near (pre : List UInt8) : CharItem → Prop
  | one c => Begins pre c.toNat
  | range lo hi => (∃ code, lo.toNat ≤ code ∧ Begins pre code) ∧ ∃ code ≤ hi.toNat, Begins pre code

/-- What the engine answers: a class has an item that is near, and a negated one has none. -/
def CharClass.Answer (pre : List UInt8) : CharClass → Prop
  | any => True
  | set negated first more => (∃ item ∈ first :: more, item.Near pre) ↔ negated = false

/-- If an item is near the numbers that begin with the bytes, then the items of a negated class
contain all characters among them, and those of another class contain one. -/
def CharClass.Judged (pre : List UInt8) : CharClass → Prop
  | any => True
  | set negated first more => (∃ item ∈ first :: more, item.Near pre) →
    if negated then
      ∀ chr : Char, pre <+: String.utf8EncodeChar chr → ∃ item ∈ first :: more, item.has chr.val
    else
      ∃ chr : Char, pre <+: String.utf8EncodeChar chr ∧ ∃ item ∈ first :: more, item.has chr.val

/-- The engine's comparison tells which items are near. -/
theorem meets_iff (h : code < 2 ^ 21) (hpre : pre ≠ []) (hsuf : suf ≠ [])
    (hcode : Utf8.encodeCode code = pre ++ suf)
    (hvalue : value.toNat = code / 64 ^ suf.length) (item : CharItem) :
    item.meets (completions value suf.length).1 (completions value suf.length).2 = true ↔
      item.Near pre := by
  have hbegins : ∀ code', Begins pre code' ↔ code' < 2 ^ 21 ∧
      (completions value suf.length).1.toNat ≤ code' ∧
        code' ≤ (completions value suf.length).2.toNat :=
    fun code' => and_congr_right fun h' => prefix_encodeCode_iff h h' hpre hsuf hcode hvalue
  have hself := (hbegins code).mp ⟨h, hcode ▸ prefix_append pre suf⟩
  have hhigh : (completions value suf.length).2.toNat < 2 ^ 21 := by
    obtain ⟨-, hn⟩ := length_remaining h hpre hsuf hcode
    rw [(completions_toNat h hn hvalue).2]
    rcases hn with hn | hn | hn
    · rw [hn]
      omega
    · rw [hn]
      omega
    · rw [hn]
      omega
  generalize (completions value suf.length).1 = low at hbegins hself ⊢
  generalize (completions value suf.length).2 = high at hbegins hself hhigh ⊢
  have hle := hself.2.1.trans hself.2.2
  cases item with
  | one c =>
    rw [CharItem.meets, CharItem.Near, hbegins, Bool.and_eq_true, decide_eq_true_eq,
      decide_eq_true_eq, UInt32.le_iff_toNat_le, UInt32.le_iff_toNat_le]
    exact ⟨fun hc => ⟨hc.2.trans_lt hhigh, hc⟩, And.right⟩
  | range lo hi =>
    rw [CharItem.meets, CharItem.Near, Bool.and_eq_true, decide_eq_true_eq,
      decide_eq_true_eq, UInt32.le_iff_toNat_le, UInt32.le_iff_toNat_le]
    constructor
    · rintro ⟨hlo, hhi⟩
      exact ⟨⟨high.toNat, hlo, (hbegins _).mpr ⟨hhigh, hle, le_refl _⟩⟩,
        low.toNat, hhi, (hbegins _).mpr ⟨hle.trans_lt hhigh, le_refl _, hle⟩⟩
    · rintro ⟨⟨m, hlo, hm⟩, k, hhi, hk⟩
      exact ⟨hlo.trans ((hbegins m).mp hm).2.2, ((hbegins k).mp hk).2.1.trans hhi⟩

theorem foldl_decodeUtf8 {pieces : List (List UInt8)} (h : Fits p.nRemain pieces.flatten)
    (hp : 0 ≤ p.nRemain) :
    pieces.foldl (fun p piece => (decodeUtf8 piece p).2) p = (decodeBytes p pieces.flatten).2 := by
  induction pieces generalizing p with
  | nil => rfl
  | cons piece pieces ih =>
    rw [flatten_cons] at h
    obtain ⟨hfirst, hrest⟩ := (Fits.append_iff p piece pieces.flatten).mp h
    rw [foldl_cons, decodeUtf8_eq hfirst hp, ih hrest (hfirst.nRemain_nonneg hp),
      flatten_cons, decodeBytes_append]

/-- **The partial state**: what pieces leave that end inside of a character. -/
theorem partial_state {pieces : List (List UInt8)} {text : List Char} {chr : Char}
    (hp : p.nRemain = 0) (hnul : '\x00' ∉ text) (hpre : pre ≠ []) (hsuf : suf ≠ [])
    (hchr : String.utf8EncodeChar chr = pre ++ suf)
    (hpieces : pieces.flatten = Utf8.encode text ++ pre) :
    let q := pieces.foldl (fun p piece => (decodeUtf8 piece p).2) p
    q.nRemain = suf.length ∧ q.value.toNat = chr.toNat / 64 ^ suf.length := by
  have hnul' : '\x00' ∉ text ++ [chr] := by
    rw [mem_append, mem_singleton]
    rintro (hmem | rfl)
    · exact hnul hmem
    · have hlength := congrArg length hchr
      rw [length_append] at hlength
      have hpos := length_pos_iff.mpr hpre
      have hpos' := length_pos_iff.mpr hsuf
      have hone : (String.utf8EncodeChar '\x00').length = 1 := rfl
      omega
  have hfits : Fits p.nRemain (Utf8.encode text ++ pre) := by
    have hall := (fits_encode hnul' hp).1
    rw [Utf8.encode_append, Utf8.encode_cons, Utf8.encode_nil, append_nil, hchr,
      ← append_assoc] at hall
    exact ((Fits.append_iff p _ suf).mp hall).1
  have hcode : chr.toNat < 2 ^ 21 := (Utf8.toNat_val_lt chr).trans (by decide)
  dsimp only
  rw [foldl_decodeUtf8 (hpieces ▸ hfits) (Int.le_of_eq hp.symm), hpieces, decodeBytes_append]
  exact decodeBytes_encodeCode hcode (fits_encode hnul hp).2 hpre hsuf hchr

theorem has_set (negated : Bool) (first : CharItem) (more : List CharItem) (chr : UInt32) :
    (CharClass.set negated first more).has chr = true ↔
      ((∃ item ∈ first :: more, item.has chr = true) ↔ negated = false) := by
  rw [CharClass.has]
  cases negated with
  | false => simp
  | true => simp

theorem CharItem.near_of_has {chr : Char} (hbegins : pre <+: String.utf8EncodeChar chr)
    (item : CharItem) (h : item.has chr.val = true) : item.Near pre := by
  have hself : Begins pre chr.toNat := ⟨(Utf8.toNat_val_lt chr).trans (by decide), hbegins⟩
  cases item with
  | one c =>
    obtain rfl := of_decide_eq_true h
    exact hself
  | range lo hi =>
    obtain ⟨hlo, hhi⟩ := (Bool.and_eq_true _ _).mp h
    exact ⟨⟨chr.toNat, UInt32.le_iff_toNat_le.mp (of_decide_eq_true hlo), hself⟩,
      chr.toNat, UInt32.le_iff_toNat_le.mp (of_decide_eq_true hhi), hself⟩

section Judge

variable {rules : Rules} {pos : Pos} {tail : List Element} {q : PartialUtf8}

theorem matchPartialChar_eq (h : code < 2 ^ 21) (hpre : pre ≠ []) (hsuf : suf ≠ [])
    (hcode : Utf8.encodeCode code = pre ++ suf) (hremain : q.nRemain = suf.length)
    (hvalue : q.value.toNat = code / 64 ^ suf.length)
    (htype : (rules.at pos).isPositiveChar = true ∨ (rules.at pos).type = .charNot) :
    matchPartialChar rules pos q =
      some (matchPartialLoop (completions q.value suf.length).1 (completions q.value suf.length).2
        (rules.at pos).isPositiveChar ((rules.rule pos.rule).drop pos.off)) := by
  obtain ⟨hle, hn⟩ := length_remaining h hpre hsuf hcode
  have hrange := follow_range code
  have hguard : ¬(q.nRemain < 0 ∨ q.nRemain = 1 ∧ q.value < 2) := by
    rintro (hneg | ⟨hone, hsmall⟩)
    · rw [hremain] at hneg
      exact absurd (Int.natCast_nonneg suf.length) (Int.not_le.mpr hneg)
    · have hlength : suf.length = 1 := Int.natCast_inj.mp (hremain.symm.trans hone)
      rw [hlength, pow_one] at hvalue
      have hlt : q.value.toNat < 2 := UInt32.lt_iff_toNat_lt.mp hsmall
      omega
  rw [matchPartialChar]
  dsimp only
  rw [if_pos htype, if_neg hguard, hremain]

/-- What the engine answers for a class and what is left of a number. -/
theorem matchPartialChar_cls {c : CharClass} (h : code < 2 ^ 21) (hpre : pre ≠ []) (hsuf : suf ≠ [])
    (hcode : Utf8.encodeCode code = pre ++ suf) (hremain : q.nRemain = suf.length)
    (hvalue : q.value.toNat = code / 64 ^ suf.length)
    (hdrop : (rules.rule pos.rule).drop pos.off = encodeSym (.cls c) ++ tail)
    (hfresh : Fresh tail) :
    matchPartialChar rules pos q = some true ↔ c.Answer pre := by
  cases c with
  | any =>
    have hat : rules.at pos = ⟨.charAny, 0⟩ := at_eq hdrop
    have htype : (rules.at pos).isPositiveChar = true := by rw [hat]; rfl
    obtain ⟨u, es, rfl, hu, -⟩ := hfresh
    rw [matchPartialChar_eq h hpre hsuf hcode hremain hvalue (.inl htype), hdrop]
    refine iff_of_true (congrArg some ?_) trivial
    cases es with
    | nil => exact if_neg hu
    | cons e es => exact if_neg hu
  | set negated first more =>
    obtain ⟨value, es, heq⟩ := encodeItem_cons (if negated then .charNot else .char) first
    have hat : rules.at pos = ⟨if negated then .charNot else .char, value⟩ := by
      rw [encodeSym, heq] at hdrop
      exact at_eq hdrop
    have htype : (if negated then GreType.charNot else .char) ≠ .charAny := by
      cases negated <;> decide
    have hpositive : (rules.at pos).isPositiveChar = !negated := by
      rw [hat]
      cases negated with
      | false => rfl
      | true => rfl
    have hor : (rules.at pos).isPositiveChar = true ∨ (rules.at pos).type = .charNot := by
      rw [hat]
      cases negated with
      | false => exact .inl rfl
      | true => exact .inr rfl
    rw [matchPartialChar_eq h hpre hsuf hcode hremain hvalue hor, hdrop, encodeSym,
      append_assoc, matchPartialLoop_items first more htype hfresh, hpositive,
      CharClass.Answer]
    have hiff : (∃ item ∈ first :: more, item.meets (completions q.value suf.length).1
        (completions q.value suf.length).2 = true) ↔ ∃ item ∈ first :: more, item.Near pre :=
      exists_congr fun item => and_congr_right fun _ => meets_iff h hpre hsuf hcode hvalue item
    by_cases hnear : ∃ item ∈ first :: more, item.Near pre
    · rw [if_pos (hiff.mpr hnear), iff_true_left hnear]
      simp
    · rw [if_neg (mt hiff.mp hnear), iff_false_left hnear]
      simp

/-- **Partial matching**: the engine's answer for a class, after bytes that end inside of a
character, is whether a character of the class begins with these bytes, if and only if no item is
near them, or the items of a negated class contain all of the characters that begin with them, or
those of another class contain one. -/
theorem matchPartialChar_iff_judged {pieces : List (List UInt8)} {text : List Char} {chr : Char}
    {c : CharClass} (hp : p.nRemain = 0) (hnul : '\x00' ∉ text) (hpre : pre ≠ []) (hsuf : suf ≠ [])
    (hchr : String.utf8EncodeChar chr = pre ++ suf)
    (hpieces : pieces.flatten = Utf8.encode text ++ pre)
    (hdrop : (rules.rule pos.rule).drop pos.off = encodeSym (.cls c) ++ tail)
    (hfresh : Fresh tail) :
    (matchPartialChar rules pos (pieces.foldl (fun p piece => (decodeUtf8 piece p).2) p) =
        some true ↔
      ∃ chr : Char, pre <+: String.utf8EncodeChar chr ∧
        (matchChar rules pos chr.val).map Prod.fst = some true) ↔ c.Judged pre := by
  obtain ⟨hremain, hvalue⟩ := partial_state hp hnul hpre hsuf hchr hpieces
  have hcode : chr.toNat < 2 ^ 21 := (Utf8.toNat_val_lt chr).trans (by decide)
  rw [matchPartialChar_cls hcode hpre hsuf hchr hremain hvalue hdrop hfresh]
  have hmatch : ∀ chr : Char, (matchChar rules pos chr.val).map Prod.fst = some true ↔
      c.has chr.val = true := by
    intro chr
    rw [(matchChar_cls hdrop hfresh chr.val).2]
    exact ⟨Option.some.inj, congrArg some⟩
  have hself : pre <+: String.utf8EncodeChar chr := hchr ▸ prefix_append pre suf
  simp only [hmatch]
  cases c with
  | any => exact iff_of_true (iff_of_true trivial ⟨chr, hself, rfl⟩) trivial
  | set negated first more =>
    -- a character in an item, which begins with the bytes
    have hnear : ∀ chr : Char, pre <+: String.utf8EncodeChar chr →
        (∃ item ∈ first :: more, item.has chr.val = true) →
        ∃ item ∈ first :: more, item.Near pre :=
      fun chr hbegins ⟨item, hmem, hhas⟩ => ⟨item, hmem, item.near_of_has hbegins hhas⟩
    cases negated with
    | false =>
      simp only [CharClass.Answer, CharClass.Judged, has_set, iff_true, Bool.false_eq_true,
        if_false]
      exact ⟨fun hiff => hiff.mp, fun hjudged => ⟨hjudged, fun ⟨chr, hbegins, hhas⟩ =>
        hnear chr hbegins hhas⟩⟩
    | true =>
      simp only [CharClass.Answer, CharClass.Judged, has_set, Bool.true_eq_false, iff_false,
        if_true]
      constructor
      · intro hiff hsome chr hbegins
        by_contra hno
        exact hiff.mpr ⟨chr, hbegins, hno⟩ hsome
      · intro hjudged
        constructor
        · exact fun hno => ⟨chr, hself, fun hhas => hno (hnear chr hself hhas)⟩
        · exact fun ⟨chr, hbegins, hno⟩ hsome => hno (hjudged hsome chr hbegins)

end Judge

/-- `[é]`, after the first byte of `é`. -/
theorem matchPartialChar_iff_judged_accent : (matchPartialChar [[⟨.char, 233⟩, ⟨.end_, 0⟩]] ⟨0, 0⟩
        ([[0xC3]].foldl (fun p piece => (decodeUtf8 piece p).2) ⟨0, 0⟩) = some true ↔
      ∃ chr : Char, [0xC3] <+: String.utf8EncodeChar chr ∧
        (matchChar [[⟨.char, 233⟩, ⟨.end_, 0⟩]] ⟨0, 0⟩ chr.val).map Prod.fst = some true) ↔
      (CharClass.set false (.one 233) []).Judged [0xC3] :=
  @matchPartialChar_iff_judged [0xC3] [0xA9] ⟨0, 0⟩ _ ⟨0, 0⟩ [⟨.end_, 0⟩] [[0xC3]] [] 'é'
    (.set false (.one 233) []) rfl not_mem_nil (cons_ne_nil _ _) (cons_ne_nil _ _)
    (by decide) rfl rfl ⟨_, _, rfl, by decide, by decide⟩

/-- `[^é]` also contains `ê`, which begins with the same byte, but the engine refuses the byte. -/
theorem not_matchPartialChar_iff :
    ¬(matchPartialChar [[⟨.charNot, 233⟩, ⟨.end_, 0⟩]] ⟨0, 0⟩ (decodeUtf8 [0xC3] ⟨0, 0⟩).2 =
        some true ↔
      ∃ chr : Char, [0xC3] <+: String.utf8EncodeChar chr ∧
        (matchChar [[⟨.charNot, 233⟩, ⟨.end_, 0⟩]] ⟨0, 0⟩ chr.val).map Prod.fst = some true) := by
  intro hiff
  have hrefused : matchPartialChar [[⟨.charNot, 233⟩, ⟨.end_, 0⟩]] ⟨0, 0⟩
      (decodeUtf8 [0xC3] ⟨0, 0⟩).2 = some false := by decide
  rw [hrefused] at hiff
  exact absurd (hiff.mpr ⟨'ê', by decide, by decide⟩) (by decide)

end ExpertPin.Grammar
