import ExpertPin.Grammar.Tokens
import ExpertPin.Lib.Utf8
import Mathlib.Data.List.TakeWhile

/-!
# Decoding piece by piece

`decode_utf8` carries a character that is not complete from one piece to the next.  Byte by byte
it does what `PartialUtf8.step` does, as long as the bytes are where they should be (`Fits`), and
then it does not matter how a text is cut into pieces (`decodeBytes_append`).
-/

namespace ExpertPin.Grammar

open List

/-! ## One byte -/

/-- One byte more. -/
def PartialUtf8.step (p : PartialUtf8) (b : UInt8) : PartialUtf8 :=
  if 0 < p.nRemain then ⟨goOn p.value b, p.nRemain - 1⟩
  else ⟨leadBits b (remaining b), remaining b⟩

/-- The code points that are completed, and what is left. -/
def decodeBytes (p : PartialUtf8) : List UInt8 → List UInt32 × PartialUtf8
  | [] => ([], p)
  | b :: bytes =>
    let r := decodeBytes (p.step b) bytes
    (if (p.step b).nRemain = 0 then (p.step b).value :: r.1 else r.1, r.2)

/-- No byte is 0, the next `nRemain` bytes go on with a character, and then the bytes of further
characters follow. -/
def Fits (nRemain : ℤ) : List UInt8 → Prop
  | [] => True
  | b :: bytes => b ≠ 0 ∧
    if 0 < nRemain then Utf8.IsContinuation b ∧ Fits (nRemain - 1) bytes
    else ¬Utf8.IsContinuation b ∧ Fits (remaining b) bytes

variable {p q : PartialUtf8} {b : UInt8} {bytes bytes' : List UInt8} {value : UInt32} {n : ℤ}

@[simp] theorem decodeBytes_nil : decodeBytes p [] = ([], p) := rfl

theorem step_of_pos (h : 0 < n) : (PartialUtf8.mk value n).step b = ⟨goOn value b, n - 1⟩ :=
  if_pos h

theorem step_of_not_pos (h : ¬0 < n) :
    (PartialUtf8.mk value n).step b = ⟨leadBits b (remaining b), remaining b⟩ := if_neg h

theorem decodeBytes_append (p : PartialUtf8) (bytes bytes' : List UInt8) :
    decodeBytes p (bytes ++ bytes') =
      ((decodeBytes p bytes).1 ++ (decodeBytes (decodeBytes p bytes).2 bytes').1,
        (decodeBytes (decodeBytes p bytes).2 bytes').2) := by
  induction bytes generalizing p with
  | nil => rfl
  | cons b bytes ih =>
    rw [cons_append, decodeBytes, decodeBytes, ih]
    split
    · rfl
    · rfl

/-- A text that ends with a character completes one. -/
theorem decodeBytes_ne_nil (hne : bytes ≠ []) (h : (decodeBytes p bytes).2.nRemain = 0) :
    (decodeBytes p bytes).1 ≠ [] := by
  induction bytes generalizing p with
  | nil => exact absurd rfl hne
  | cons b bytes ih =>
    rw [decodeBytes] at h ⊢
    split
    case isTrue => exact cons_ne_nil _ _
    case isFalse hn =>
      refine ih ?_ h
      rintro rfl
      exact hn h

theorem shiftRight_eq_two_iff (b : UInt8) : b >>> 6 = 2 ↔ Utf8.IsContinuation b := by
  have hall : ∀ n : Fin 256, UInt8.ofFin n >>> 6 = 2 ↔ UInt8.ofFin n &&& 0xC0 = 0x80 := by
    decide +kernel
  exact hall b.toFin

theorem remaining_nonneg_iff (b : UInt8) : 0 ≤ remaining b ↔ ¬Utf8.IsContinuation b := by
  have hall : ∀ n : Fin 256, 0 ≤ remaining (UInt8.ofFin n) ↔ ¬UInt8.ofFin n &&& 0xC0 = 0x80 := by
    decide +kernel
  exact hall b.toFin

theorem Fits.append_iff (p : PartialUtf8) (bytes bytes' : List UInt8) :
    Fits p.nRemain (bytes ++ bytes') ↔
      Fits p.nRemain bytes ∧ Fits (decodeBytes p bytes).2.nRemain bytes' := by
  induction bytes generalizing p with
  | nil => exact ⟨fun h => ⟨trivial, h⟩, And.right⟩
  | cons b bytes ih =>
    obtain ⟨value, n⟩ := p
    rw [cons_append, Fits, Fits, decodeBytes, and_assoc]
    refine and_congr_right fun _ => ?_
    by_cases hn : 0 < n
    · have hih := ih ⟨goOn value b, n - 1⟩
      rw [if_pos hn, if_pos hn, step_of_pos hn, and_assoc]
      exact and_congr_right fun _ => hih
    · have hih := ih ⟨leadBits b (remaining b), remaining b⟩
      rw [if_neg hn, if_neg hn, step_of_not_pos hn, and_assoc]
      exact and_congr_right fun _ => hih

/-- What remains is never negative while the bytes fit. -/
theorem Fits.nRemain_nonneg (h : Fits p.nRemain bytes) (hp : 0 ≤ p.nRemain) :
    0 ≤ (decodeBytes p bytes).2.nRemain := by
  induction bytes generalizing p with
  | nil => exact hp
  | cons b bytes ih =>
    obtain ⟨value, n⟩ := p
    obtain ⟨-, h⟩ := h
    rw [decodeBytes]
    by_cases hn : 0 < n
    · rw [if_pos hn] at h
      rw [step_of_pos hn]
      exact ih h.2 (Int.le_sub_one_of_lt hn)
    · rw [if_neg hn] at h
      rw [step_of_not_pos hn]
      exact ih h.2 ((remaining_nonneg_iff b).mpr h.1)

theorem Fits.ne_zero (h : Fits n bytes) : ∀ b ∈ bytes, b ≠ 0 := by
  induction bytes generalizing n with
  | nil => exact fun _ hb => absurd hb not_mem_nil
  | cons b bytes ih =>
    obtain ⟨hb, h⟩ := h
    refine forall_mem_cons.mpr ⟨hb, ?_⟩
    split at h
    · exact ih h.2
    · exact ih h.2

/-! ## The loops -/

/-- A loop over the bytes of a character that has begun stops at the end of the character, or of
the bytes. -/
structure Resumed (value : UInt32) (n : ℤ) (bytes rest : List UInt8) (q : PartialUtf8) : Prop where
  fits : Fits q.nRemain rest
  nonneg : 0 ≤ q.nRemain
  ends : 0 < q.nRemain → rest = []
  short : rest.length ≤ bytes.length
  decodes : decodeBytes ⟨value, n⟩ bytes =
    ((if 0 < n ∧ q.nRemain = 0 then [q.value] else []) ++ (decodeBytes q rest).1,
      (decodeBytes q rest).2)

/-- One byte before. -/
theorem Resumed.cons {rest : List UInt8} (hn : 0 < n)
    (h : Resumed (goOn value b) (n - 1) bytes rest q)
    (hlast : n - 1 = 0 → q = ⟨goOn value b, 0⟩ ∧ rest = bytes) :
    Resumed value n (b :: bytes) rest q := by
  refine ⟨h.fits, h.nonneg, h.ends, Nat.le_succ_of_le h.short, ?_⟩
  rw [decodeBytes, step_of_pos hn, h.decodes]
  rcases Int.lt_or_eq_of_le (Int.le_sub_one_of_lt hn) with hmore | hzero
  · have hnot : ¬n - 1 = 0 := (Int.ne_of_lt hmore).symm
    simp only [if_neg hnot, hn, hmore, true_and]
  · obtain ⟨rfl, rfl⟩ := hlast hzero.symm
    simp [hn, ← hzero]

theorem resume_eq (h : Fits n bytes) (hn : 0 ≤ n) :
    ∃ rest q, resume bytes value n = some (rest, q) ∧ complete bytes value n = (rest, q) ∧
      Resumed value n bytes rest q ∧ (n = 0 → q = ⟨value, 0⟩ ∧ rest = bytes) := by
  induction bytes generalizing value n with
  | nil =>
    refine ⟨[], ⟨value, n⟩, rfl, rfl, ⟨trivial, hn, fun _ => rfl, Nat.le_refl 0, ?_⟩, ?_⟩
    · have hnot : ¬(0 < n ∧ n = 0) := fun hand => Int.ne_of_gt hand.1 hand.2
      rw [if_neg hnot]
      rfl
    · rintro rfl
      exact ⟨rfl, rfl⟩
  | cons b bytes ih =>
    by_cases hpos : 0 < n
    · have hfits := h.2
      rw [if_pos hpos] at hfits
      obtain ⟨rest, q, hresume, hcomplete, hresumed, hlast⟩ :=
        @ih (goOn value b) _ hfits.2 (Int.le_sub_one_of_lt hpos)
      refine ⟨rest, q, ?_, ?_, hresumed.cons hpos hlast, fun hzero => ?_⟩
      · have hcontinues : ¬b >>> 6 ≠ 2 := not_not.mpr ((shiftRight_eq_two_iff b).mpr hfits.1)
        rw [resume, if_pos hpos, if_neg hcontinues, hresume]
      · rw [complete, if_pos hpos, hcomplete]
      · exact absurd hzero (Int.ne_of_gt hpos)
    · obtain rfl : n = 0 := Int.le_antisymm (Int.not_lt.mp hpos) hn
      refine ⟨b :: bytes, ⟨value, 0⟩, if_neg hpos, if_neg hpos, ?_, fun _ => ⟨rfl, rfl⟩⟩
      refine ⟨h, Int.le_refl 0, fun hlt => absurd hlt hpos, Nat.le_refl _, ?_⟩
      have hnot : ¬((0 : ℤ) < 0 ∧ (0 : ℤ) = 0) := fun hand => hpos hand.1
      rw [if_neg hnot]
      rfl

theorem decodeFrom_eq {steps : ℕ} (hsteps : bytes.length ≤ steps) (h : Fits p.nRemain bytes)
    (hp : 0 ≤ p.nRemain) (hends : 0 < p.nRemain → bytes = []) (codePoints : List UInt32) :
    decodeFrom steps bytes p codePoints =
      (codePoints ++ (decodeBytes p bytes).1, (decodeBytes p bytes).2) := by
  induction steps generalizing bytes p codePoints with
  | zero =>
    obtain rfl := eq_nil_of_length_eq_zero (Nat.le_zero.mp hsteps)
    rw [decodeFrom, decodeBytes_nil, append_nil]
    exact fun _ _ _ hsucc => absurd hsucc (Nat.succ_ne_zero _).symm
  | succ steps ih =>
    cases bytes with
    | nil =>
      rw [decodeFrom, decodeBytes_nil, append_nil]
      exact fun _ _ _ _ hcons => absurd hcons.symm (cons_ne_nil _ _)
    | cons b bytes =>
      obtain ⟨value, n⟩ := p
      have hn : ¬0 < n := fun hlt => cons_ne_nil b bytes (hends hlt)
      have hfits := h.2
      rw [if_neg hn] at hfits
      have hlead : 0 ≤ remaining b := (remaining_nonneg_iff b).mpr hfits.1
      obtain ⟨rest, q, -, hcomplete, hresumed, hlast⟩ :=
        @resume_eq _ (leadBits b (remaining b)) _ hfits.2 hlead
      have hshort : rest.length ≤ steps :=
        hresumed.short.trans (Nat.le_of_succ_le_succ hsteps)
      rw [decodeFrom, decodeBytes, step_of_not_pos hn, if_neg (Int.not_lt.mpr hlead),
        hcomplete, ih hshort hresumed.fits hresumed.nonneg hresumed.ends, hresumed.decodes]
      rcases Int.lt_or_eq_of_le hlead with hmore | hzero
      · have hnot : ¬remaining b = 0 := (Int.ne_of_lt hmore).symm
        simp only [hmore, true_and, if_neg hnot]
        split
        · rw [append_assoc]
        · rw [nil_append]
      · obtain ⟨rfl, rfl⟩ := hlast hzero.symm
        simp [← hzero]

/-- **Decoding**: on bytes that fit the loops do what is done byte by byte. -/
theorem decodeUtf8_eq (h : Fits p.nRemain bytes) (hp : 0 ≤ p.nRemain) :
    decodeUtf8 bytes p = decodeBytes p bytes := by
  have hall : bytes.takeWhile (· ≠ 0) = bytes :=
    takeWhile_eq_self_iff.mpr fun b hb => decide_eq_true (h.ne_zero b hb)
  obtain ⟨rest, q, hresume, -, hresumed, -⟩ := @resume_eq _ p.value _ h hp
  rw [decodeUtf8, hall, hresume]
  dsimp only
  rw [decodeFrom_eq (Nat.le_refl _) hresumed.fits hresumed.nonneg hresumed.ends]
  exact hresumed.decodes.symm

/-! ## Texts -/

theorem charLength_eq (b : UInt8) (h : ¬Utf8.IsContinuation b) :
    (Utf8.charLength b : ℤ) = remaining b + 1 := by
  have hall : ∀ n : Fin 256, ¬UInt8.ofFin n &&& 0xC0 = 0x80 →
      (Utf8.charLength (UInt8.ofFin n) : ℤ) = remaining (UInt8.ofFin n) + 1 := by
    decide +kernel
  exact hall b.toFin h

/-- The bytes that go on with a character. -/
theorem fits_continuations (hbytes : ∀ b ∈ bytes, Utf8.IsContinuation b)
    (hn : n = bytes.length) (h : Fits 0 bytes') :
    Fits n (bytes ++ bytes') := by
  induction bytes generalizing n with
  | nil => exact hn ▸ h
  | cons b bytes ih =>
    obtain ⟨hb, hbytes⟩ := forall_mem_cons.mp hbytes
    have hpos : 0 < n := hn ▸ Int.natCast_pos.mpr (Nat.succ_pos _)
    refine ⟨?_, ?_⟩
    · rintro rfl
      exact absurd hb (by decide)
    · rw [if_pos hpos]
      refine ⟨hb, ih hbytes ?_⟩
      rw [hn, length_cons, Int.natCast_succ, Int.add_sub_cancel]

theorem nRemain_continuations (hbytes : ∀ b ∈ bytes, Utf8.IsContinuation b)
    (hn : n = bytes.length) : (decodeBytes ⟨value, n⟩ bytes).2.nRemain = 0 := by
  induction bytes generalizing value n with
  | nil => exact hn
  | cons b bytes ih =>
    obtain ⟨hb, hbytes⟩ := forall_mem_cons.mp hbytes
    have hpos : 0 < n := hn ▸ Int.natCast_pos.mpr (Nat.succ_pos _)
    rw [decodeBytes, step_of_pos hpos]
    refine ih hbytes ?_
    rw [hn, length_cons, Int.natCast_succ, Int.add_sub_cancel]

/-- A text without 0 fits where no character has begun, and leaves none. -/
theorem fits_encode {text : List Char} (hzero : '\x00' ∉ text) (hp : p.nRemain = 0) :
    Fits p.nRemain (Utf8.encode text) ∧ (decodeBytes p (Utf8.encode text)).2.nRemain = 0 := by
  induction text generalizing p with
  | nil => exact ⟨trivial, hp⟩
  | cons c text ih =>
    obtain ⟨hc, htext⟩ := not_or.mp fun hor => hzero (mem_cons.mpr hor)
    obtain ⟨lead, rest, hchar, hlead, hrest, hlength⟩ := Utf8.utf8EncodeChar_eq_cons c
    obtain ⟨value, n⟩ := p
    obtain rfl : n = 0 := hp
    have hremaining : remaining lead = rest.length := by
      have h := charLength_eq lead hlead
      rw [← hlength, Int.natCast_succ] at h
      omega
    have hleave := @nRemain_continuations _ (leadBits lead (remaining lead)) _ hrest hremaining
    rw [Utf8.encode_cons, hchar, cons_append]
    refine ⟨⟨?_, ?_⟩, ?_⟩
    · rintro rfl
      refine hc ?_
      rcases Nat.lt_or_ge c.toNat 128 with hsmall | hlarge
      · rw [Utf8.utf8EncodeChar_of_lt hsmall] at hchar
        have hnat := congrArg UInt8.toNat (cons.inj hchar).1
        rw [UInt8.toNat_ofNat', Nat.mod_eq_of_lt (Nat.lt_trans hsmall (by decide))] at hnat
        exact (Char.toNat_inj.mp hnat).symm
      · have hle := Utf8.le_of_mem_utf8EncodeChar hlarge (hchar ▸ mem_cons_self)
        exact absurd hle (by decide)
    · rw [if_neg (Int.lt_irrefl 0)]
      exact ⟨hlead, fits_continuations hrest hremaining (@ih ⟨value, 0⟩ htext rfl).1⟩
    · rw [decodeBytes, step_of_not_pos (Int.lt_irrefl 0), decodeBytes_append]
      exact (ih htext hleave).2

end ExpertPin.Grammar
