import ExpertPin.Peg.Prefixes
import ExpertPin.Sampling.ReasoningBudget

/-!
# Code points as bytes

`common/unicode.cpp` has an encoder, a decoder and a test for the end of a character, each with
bit operations of its own.  They agree on what the encoder writes, wherever it is cut off, except
that the test takes the size of a string as an `int` (`agree_iff`).
-/

namespace ExpertPin.Unicode

open Draft (toInt toInt_of_lt)
open Peg (Text Utf8Result parseUtf8Codepoint)
open Sampling (utf8IsComplete)
open Utf8 (IsContinuation charLength encodeCode)
open List
open Nat

/-! ## The encoder -/

/-- The byte that is pushed for some bits under a mark. -/
def byte (mark bits : UInt32) : UInt8 := (mark ||| bits).toUInt8

/-- `common_unicode_cpt_to_utf8`, which throws on what is not a code point. -/
def cptToUtf8 (cpt : UInt32) : Option Text :=
  if cpt ≤ 0x7F then some [cpt.toUInt8]
  else if 0x80 ≤ cpt ∧ cpt ≤ 0x7FF then
    some [byte 0xC0 (cpt >>> 6 &&& 0x1F), byte 0x80 (cpt &&& 0x3F)]
  else if 0x800 ≤ cpt ∧ cpt ≤ 0xFFFF then
    some [byte 0xE0 (cpt >>> 12 &&& 0x0F), byte 0x80 (cpt >>> 6 &&& 0x3F), byte 0x80 (cpt &&& 0x3F)]
  else if 0x10000 ≤ cpt ∧ cpt ≤ 0x10FFFF then
    some [byte 0xF0 (cpt >>> 18 &&& 0x07), byte 0x80 (cpt >>> 12 &&& 0x3F),
      byte 0x80 (cpt >>> 6 &&& 0x3F), byte 0x80 (cpt &&& 0x3F)]
  else none

/-- `common_unicode_cpts_to_utf8`. -/
def cptsToUtf8 (cps : List UInt32) : Option Text :=
  cps.foldlM (fun result cpt => (cptToUtf8 cpt).map (result ++ ·)) []

/-! ## The decoder -/

/-- The code points from a position on, and the result of the call that reads none. -/
def decodeFrom (input : Text) (pos : ℕ) : List ℕ × Utf8Result :=
  match _h : parseUtf8Codepoint input pos with
  | .success codepoint bytesConsumed =>
    let rest := decodeFrom input (pos + bytesConsumed)
    (codepoint :: rest.1, rest.2)
  | result => ([], result)
termination_by input.length - pos
decreasing_by
  obtain ⟨hpos, hle⟩ := Peg.parseUtf8Codepoint_bounds _h
  omega

variable {cpt : UInt32} {cps : List UInt32} {input t : Text} {pos code : ℕ}

/-! ## Bytes -/

/-- The low bits of a number under a mark in the high bits of a byte. -/
theorem byte_eq (x : UInt32) {mark mask : UInt32} {a w : ℕ} (hmark : mark.toNat = a <<< w)
    (hmask : mask.toNat = 2 ^ w - 1) :
    byte mark (x &&& mask) = UInt8.ofNat (x.toNat % 2 ^ w + mark.toNat) := by
  apply UInt8.toNat_inj.mp
  rw [byte, UInt32.toNat_toUInt8, UInt32.toNat_or, UInt32.toNat_and, hmask,
    Nat.and_two_pow_sub_one_eq_mod, hmark,
    ← Nat.shiftLeft_add_eq_or_of_lt (Nat.mod_lt _ (Nat.two_pow_pos w)), UInt8.toNat_ofNat',
    Nat.add_comm]

theorem byte_shift_eq (x : UInt32) {shift mark mask : UInt32} {a w : ℕ} (hshift : shift.toNat < 32)
    (hmark : mark.toNat = a <<< w) (hmask : mask.toNat = 2 ^ w - 1) :
    byte mark (x >>> shift &&& mask) =
      UInt8.ofNat (x.toNat / 2 ^ shift.toNat % 2 ^ w + mark.toNat) := by
  rw [byte_eq _ hmark hmask, UInt32.toNat_shiftRight, mod_eq_of_lt hshift,
    shiftRight_eq_div_pow]

/-- The bit operations of the encoder form the bytes of the character. -/
theorem cptToUtf8_eq (h : cpt ≤ 0x10FFFF) : cptToUtf8 cpt = some (encodeCode cpt.toNat) := by
  have hle : ∀ n : UInt32, cpt ≤ n ↔ cpt.toNat ≤ n.toNat := fun n => UInt32.le_iff_toNat_le
  have hge : ∀ n : UInt32, n ≤ cpt ↔ n.toNat ≤ cpt.toNat := fun n => UInt32.le_iff_toNat_le
  have hlow : byte 0x80 (cpt &&& 0x3F) = UInt8.ofNat (cpt.toNat % 0x40 + 0x80) :=
    @byte_eq cpt 0x80 0x3F 2 6 rfl rfl
  have hmid : byte 0x80 (cpt >>> 6 &&& 0x3F) = UInt8.ofNat (cpt.toNat / 64 % 0x40 + 0x80) :=
    @byte_shift_eq cpt 6 0x80 0x3F 2 6 (by decide) rfl rfl
  have hhigh : byte 0x80 (cpt >>> 12 &&& 0x3F) = UInt8.ofNat (cpt.toNat / 4096 % 0x40 + 0x80) :=
    @byte_shift_eq cpt 12 0x80 0x3F 2 6 (by decide) rfl rfl
  have htwo : byte 0xC0 (cpt >>> 6 &&& 0x1F) = UInt8.ofNat (cpt.toNat / 64 % 0x20 + 0xC0) :=
    @byte_shift_eq cpt 6 0xC0 0x1F 6 5 (by decide) rfl rfl
  have hthree : byte 0xE0 (cpt >>> 12 &&& 0x0F) = UInt8.ofNat (cpt.toNat / 4096 % 0x10 + 0xE0) :=
    @byte_shift_eq cpt 12 0xE0 0x0F 14 4 (by decide) rfl rfl
  have hfour : byte 0xF0 (cpt >>> 18 &&& 0x07) = UInt8.ofNat (cpt.toNat / 262144 % 0x08 + 0xF0) :=
    @byte_shift_eq cpt 18 0xF0 0x07 30 3 (by decide) rfl rfl
  rw [cptToUtf8, hlow, hmid, hhigh, htwo, hthree, hfour, encodeCode]
  have hpush : cpt.toUInt8 = UInt8.ofNat cpt.toNat := rfl
  rw [hpush]
  simp only [hle, hge]
  have hmax : cpt.toNat ≤ 0x10FFFF := (hle _).mp h
  by_cases h₁ : cpt.toNat ≤ 0x7F
  · exact (if_pos h₁).trans (congrArg some (if_pos h₁).symm)
  refine (if_neg h₁).trans (Eq.trans ?_ (congrArg some (if_neg h₁).symm))
  by_cases h₂ : cpt.toNat ≤ 0x7FF
  · exact (if_pos ⟨Nat.lt_of_not_le h₁, h₂⟩).trans (congrArg some (if_pos h₂).symm)
  refine (if_neg fun h => h₂ h.2).trans (Eq.trans ?_ (congrArg some (if_neg h₂).symm))
  by_cases h₃ : cpt.toNat ≤ 0xFFFF
  · exact (if_pos ⟨Nat.lt_of_not_le h₂, h₃⟩).trans (congrArg some (if_pos h₃).symm)
  refine (if_neg fun h => h₃ h.2).trans (Eq.trans ?_ (congrArg some (if_neg h₃).symm))
  exact if_pos ⟨Nat.lt_of_not_le h₃, hmax⟩

/-- The bytes of some characters. -/
def encodeCodes (codes : List ℕ) : Text := codes.flatMap encodeCode

theorem encodeCodes_append (codes codes' : List ℕ) :
    encodeCodes (codes ++ codes') = encodeCodes codes ++ encodeCodes codes' :=
  flatMap_append

theorem cptsToUtf8_eq (h : ∀ cpt ∈ cps, cpt ≤ 0x10FFFF) :
    cptsToUtf8 cps = some (encodeCodes (cps.map UInt32.toNat)) := by
  have hfold : ∀ acc : Text, cps.foldlM (fun result cpt => (cptToUtf8 cpt).map (result ++ ·)) acc =
      some (acc ++ encodeCodes (cps.map UInt32.toNat)) := by
    induction cps with
    | nil => exact fun acc => congrArg some (append_nil acc).symm
    | cons cpt cps ih =>
      obtain ⟨hcpt, hcps⟩ := forall_mem_cons.mp h
      intro acc
      rw [foldlM_cons, cptToUtf8_eq hcpt, Option.map_some]
      refine (ih hcps _).trans ?_
      rw [append_assoc]
      rfl
  exact hfold []

/-! ## A text that is cut off -/

variable {codes : List ℕ}

/-- The beginning of some characters: those that are whole, and a part of the next one. -/
theorem exists_whole (h : t <+: encodeCodes codes) :
    (∃ whole, whole <+: codes ∧ t = encodeCodes whole) ∨
      ∃ whole code part, whole ++ [code] <+: codes ∧ t = encodeCodes whole ++ part ∧ part ≠ [] ∧
        part <+: encodeCode code ∧ part.length < (encodeCode code).length := by
  induction codes generalizing t with
  | nil => exact .inl ⟨[], prefix_rfl, prefix_nil.mp h⟩
  | cons code codes ih =>
    rcases lt_or_ge t.length (encodeCode code).length with hlt | hge
    · have hpart : t <+: encodeCode code :=
        prefix_of_prefix_length_le h (prefix_append _ _) (le_of_lt hlt)
      by_cases hnil : t = []
      · exact .inl ⟨[], nil_prefix, hnil⟩
      · exact .inr ⟨[], code, t, cons_prefix_cons.mpr ⟨rfl, nil_prefix⟩, rfl, hnil,
          hpart, hlt⟩
    · obtain ⟨t, rfl⟩ :=
        prefix_of_prefix_length_le (prefix_append _ (encodeCodes codes)) h hge
      rcases ih ((prefix_append_right_inj _).mp h) with ⟨whole, hwhole, rfl⟩ |
        ⟨whole, next, part, hwhole, rfl, hpart⟩
      · exact .inl ⟨code :: whole, cons_prefix_cons.mpr ⟨rfl, hwhole⟩, rfl⟩
      · refine .inr ⟨code :: whole, next, part, cons_prefix_cons.mpr ⟨rfl, hwhole⟩, ?_, hpart⟩
        exact (append_assoc _ _ _).symm

/-! ## Decoding -/

theorem decodeFrom_success {n : ℕ} (h : parseUtf8Codepoint input pos = .success code n) :
    decodeFrom input pos =
      (code :: (decodeFrom input (pos + n)).1, (decodeFrom input (pos + n)).2) := by
  rw [decodeFrom]
  split
  case h_1 hsuccess =>
    cases h.symm.trans hsuccess
    rfl
  case h_2 hnot => exact absurd h (hnot _ _)

theorem decodeFrom_incomplete (h : parseUtf8Codepoint input pos = .incomplete) :
    decodeFrom input pos = ([], .incomplete) := by
  rw [decodeFrom]
  split
  case h_1 hsuccess => cases h.symm.trans hsuccess
  case h_2 => rw [h]

/-- A part of a character is waited for. -/
theorem parse_part {part : Text} (hcode : code < 0x110000) (hdrop : input.drop pos = part)
    (hpart : part <+: encodeCode code) (hshort : part.length < (encodeCode code).length) :
    parseUtf8Codepoint input pos = .incomplete := by
  rcases lt_or_ge pos input.length with hlt | hge
  · by_contra hnot
    obtain ⟨more, hmore⟩ := hpart
    have hwhole : (input ++ more).drop pos = encodeCode code ++ [] := by
      rw [drop_append_of_le_length (le_of_lt hlt), hdrop, hmore, append_nil]
    have hparse := Peg.parseUtf8Codepoint_cut (prefix_append input more) hnot
    rw [Peg.parseUtf8Codepoint_encodeCode hcode hwhole] at hparse
    obtain ⟨-, hle⟩ := Peg.parseUtf8Codepoint_bounds hparse.symm
    have hlength : input.length - pos = part.length := by rw [← length_drop, hdrop]
    omega
  · exact Peg.parseUtf8Codepoint_end hge

/-- The whole characters are read, and a part of the next one is waited for. -/
theorem decodeFrom_whole {whole : List ℕ} {part : Text} (hcodes : ∀ code ∈ whole, code < 0x110000)
    (hdrop : input.drop pos = encodeCodes whole ++ part)
    (hpart : ∀ pos, input.drop pos = part → parseUtf8Codepoint input pos = .incomplete) :
    decodeFrom input pos = (whole, .incomplete) := by
  induction whole generalizing pos with
  | nil => exact decodeFrom_incomplete (hpart pos hdrop)
  | cons code whole ih =>
    obtain ⟨hcode, hwhole⟩ := forall_mem_cons.mp hcodes
    rw [encodeCodes, flatMap_cons, append_assoc, ← encodeCodes] at hdrop
    have hnext : input.drop (pos + (encodeCode code).length) = encodeCodes whole ++ part := by
      rw [← drop_drop, hdrop, drop_left]
    rw [decodeFrom_success (Peg.parseUtf8Codepoint_encodeCode hcode hdrop), ih hwhole hnext]

/-! ## The end of a character -/

theorem encodeCodes_singleton (code : ℕ) : encodeCodes [code] = encodeCode code :=
  append_nil _

/-- A part of a character is not complete. -/
theorem utf8IsComplete_part {before part : Text} (hcode : code < 0x110000) (hne : part ≠ [])
    (hpart : part <+: encodeCode code) (hshort : part.length < (encodeCode code).length) :
    utf8IsComplete (before ++ part) = false := by
  obtain ⟨lead, rest, hcons, hlead, hrest, hlength⟩ := Utf8.encodeCode_eq_cons hcode
  rw [hcons] at hpart hshort
  cases part with
  | nil => exact absurd rfl hne
  | cons b part =>
    obtain ⟨rfl, hbegins⟩ := cons_prefix_cons.mp hpart
    have hpart' : ∀ b ∈ part, IsContinuation b := fun b hb => hrest b (hbegins.subset hb)
    rw [Sampling.utf8IsComplete_eq hlead hpart']
    refine decide_eq_false fun h => ?_
    rw [length_cons, length_cons, hlength] at hshort
    exact not_lt.mpr h.1 hshort

/-- A whole character is complete as far as the size of the text shows. -/
theorem utf8IsComplete_whole (before : Text) (hcode : code < 0x110000) :
    utf8IsComplete (before ++ encodeCode code) = true ↔
      ((encodeCode code).length : ℤ) ≤ toInt (before ++ encodeCode code).length := by
  obtain ⟨lead, rest, hcons, hlead, hrest, hlength⟩ := Utf8.encodeCode_eq_cons hcode
  rw [hcons, Sampling.utf8IsComplete_eq hlead hrest, decide_eq_true_eq, length_cons]
  have hfour := Sampling.charLength_le lead
  rw [← hlength] at hfour ⊢
  rw [and_iff_right (le_refl _)]
  omega

/-! ## The agreement -/

/-- A text ends with a whole character of a list, or is empty. -/
def Boundary (cps : List UInt32) (t : Text) : Prop :=
  ∃ whole, whole <+: cps ∧ cptsToUtf8 whole = some t

/-- The decoder and the test for the end of a character agree with the encoder on the bytes of a
list, and where these are cut off. -/
structure Agrees (cps : List UInt32) (bytes t : Text) : Prop where
  decodes : decodeFrom bytes 0 = (cps.map UInt32.toNat, .incomplete)
  decodesCut : ∃ whole, whole <+: cps ∧ decodeFrom t 0 = (whole.map UInt32.toNat, .incomplete) ∧
    (Boundary cps t → cptsToUtf8 whole = some t)
  complete : utf8IsComplete t = true ↔ Boundary cps t

/-- Where a text ends with a character, its size is not less than that of the character, as an
`int`. -/
def SizeShows (cps : List UInt32) (t : Text) : Prop :=
  ∀ whole cpt char, whole ++ [cpt] <+: cps → cptsToUtf8 (whole ++ [cpt]) = some t →
    cptToUtf8 cpt = some char → (char.length : ℤ) ≤ toInt t.length

theorem toNat_lt_of_le (h : cpt ≤ 0x10FFFF) : cpt.toNat < 0x110000 :=
  lt_succ_of_le (UInt32.le_iff_toNat_le.mp h)

theorem toNat_lt_of_mem (h : ∀ cpt ∈ cps, cpt ≤ 0x10FFFF) :
    ∀ code ∈ cps.map UInt32.toNat, code < 0x110000 := by
  intro code hcode
  obtain ⟨cpt, hcpt, rfl⟩ := mem_map.mp hcode
  exact toNat_lt_of_le (h cpt hcpt)

/-- A beginning of the numbers is of a beginning of the list. -/
theorem exists_of_prefix_map (h : codes <+: cps.map UInt32.toNat) :
    ∃ whole, whole <+: cps ∧ codes = whole.map UInt32.toNat := by
  refine ⟨cps.take codes.length, take_prefix _ _, ?_⟩
  rw [map_take]
  exact prefix_iff_eq_take.mp h

theorem cptsToUtf8_isPrefix {whole : List UInt32} (h : ∀ cpt ∈ cps, cpt ≤ 0x10FFFF)
    (hwhole : whole <+: cps) :
    cptsToUtf8 whole = some (encodeCodes (whole.map UInt32.toNat)) :=
  cptsToUtf8_eq fun cpt hcpt => h cpt (hwhole.subset hcpt)

theorem decodeFrom_encodeCodes (h : ∀ code ∈ codes, code < 0x110000) :
    decodeFrom (encodeCodes codes) 0 = (codes, .incomplete) := by
  refine decodeFrom_whole h (append_nil _).symm fun pos hdrop => ?_
  exact Peg.parseUtf8Codepoint_end (drop_eq_nil_iff.mp hdrop)

/-- What is decoded tells the beginning of the list that ends with a text. -/
theorem eq_of_cptsToUtf8 {whole : List UInt32} (h : ∀ cpt ∈ cps, cpt ≤ 0x10FFFF)
    (hwhole : whole <+: cps) (ht : cptsToUtf8 whole = some t)
    (hdecodes : decodeFrom t 0 = (codes, .incomplete)) : whole.map UInt32.toNat = codes := by
  have hwhole' : ∀ cpt ∈ whole, cpt ≤ 0x10FFFF := fun cpt hcpt => h cpt (hwhole.subset hcpt)
  rw [cptsToUtf8_eq hwhole'] at ht
  cases ht
  rw [decodeFrom_encodeCodes (toNat_lt_of_mem hwhole')] at hdecodes
  exact congrArg Prod.fst hdecodes

/-- A text that is cut off ends with a whole character, or it ends with a part of one. -/
theorem boundary_or_part (h : ∀ cpt ∈ cps, cpt ≤ 0x10FFFF)
    (ht : t <+: encodeCodes (cps.map UInt32.toNat)) :
    ∃ whole, whole <+: cps ∧ decodeFrom t 0 = (whole.map UInt32.toNat, .incomplete) ∧
      (cptsToUtf8 whole = some t ∨ ¬Boundary cps t ∧ utf8IsComplete t = false) := by
  rcases exists_whole ht with ⟨codes, hcodes, rfl⟩ |
    ⟨codes, code, part, hcodes, rfl, hne, hpart, hshort⟩
  · obtain ⟨whole, hwhole, rfl⟩ := exists_of_prefix_map hcodes
    have hvalid : ∀ cpt ∈ whole, cpt ≤ 0x10FFFF := fun cpt hcpt => h cpt (hwhole.subset hcpt)
    exact ⟨whole, hwhole, decodeFrom_encodeCodes (toNat_lt_of_mem hvalid),
      .inl (cptsToUtf8_eq hvalid)⟩
  · have hvalid : ∀ c ∈ codes ++ [code], c < 0x110000 := fun c hc =>
      toNat_lt_of_mem h c (hcodes.subset hc)
    have hcode : code < 0x110000 := hvalid code (mem_append_right _ mem_cons_self)
    have hdecodes : decodeFrom (encodeCodes codes ++ part) 0 = (codes, .incomplete) :=
      decodeFrom_whole (fun c hc => hvalid c (mem_append_left _ hc)) rfl
        fun pos hdrop => parse_part hcode hdrop hpart hshort
    obtain ⟨whole, hwhole, rfl⟩ := exists_of_prefix_map
      ((prefix_append codes [code]).trans hcodes)
    refine ⟨whole, hwhole, hdecodes, .inr ⟨?_, utf8IsComplete_part hcode hne hpart hshort⟩⟩
    rintro ⟨whole', hwhole', htext⟩
    have hsame := eq_of_cptsToUtf8 h hwhole' htext hdecodes
    rw [cptsToUtf8_isPrefix h hwhole', hsame, Option.some_inj] at htext
    exact hne (append_cancel_left (htext.symm.trans (append_nil _).symm))

/-- The decoder reads the characters that are whole. -/
theorem exists_decodes (h : ∀ cpt ∈ cps, cpt ≤ 0x10FFFF)
    (ht : t <+: encodeCodes (cps.map UInt32.toNat)) :
    ∃ whole, whole <+: cps ∧ decodeFrom t 0 = (whole.map UInt32.toNat, .incomplete) ∧
      (Boundary cps t → cptsToUtf8 whole = some t) := by
  obtain ⟨whole, hwhole, hdecodes, hend⟩ := boundary_or_part h ht
  refine ⟨whole, hwhole, hdecodes, fun hboundary => ?_⟩
  rcases hend with htext | ⟨hnot, -⟩
  · exact htext
  · exact absurd hboundary hnot

/-- The test for the end of a character is right where the size shows. -/
theorem complete_iff (h : ∀ cpt ∈ cps, cpt ≤ 0x10FFFF)
    (ht : t <+: encodeCodes (cps.map UInt32.toNat)) :
    (utf8IsComplete t = true ↔ Boundary cps t) ↔ SizeShows cps t := by
  obtain ⟨whole, hwhole, hdecodes, htext | ⟨hnot, hpart⟩⟩ := boundary_or_part h ht
  · -- the characters up to the end of the text are known
    have hlast : ∀ whole', whole' <+: cps → cptsToUtf8 whole' = some t → whole' = whole := by
      intro whole' hwhole' htext'
      have hmap := eq_of_cptsToUtf8 h hwhole' htext' hdecodes
      exact map_injective_iff.mpr (fun _ _ => UInt32.toNat_inj.mp) hmap
    rw [@iff_true_right (Boundary cps t) _ ⟨whole, hwhole, htext⟩]
    rcases eq_nil_or_concat' whole with rfl | ⟨before, cpt, rfl⟩
    · cases htext
      refine iff_of_true rfl fun whole' cpt char hwhole' htext' _ => ?_
      exact absurd (hlast _ hwhole' htext')
        (append_ne_nil_of_right_ne_nil _ (cons_ne_nil _ _))
    · have hcpt : cpt ≤ 0x10FFFF := h cpt (hwhole.subset (by simp))
      have hbytes : t = encodeCodes (before.map UInt32.toNat) ++ encodeCode cpt.toNat := by
        rw [cptsToUtf8_isPrefix h hwhole, Option.some_inj] at htext
        rw [← htext, map_append, encodeCodes_append]
        exact congrArg _ (encodeCodes_singleton _)
      rw [hbytes, utf8IsComplete_whole _ (toNat_lt_of_le hcpt), ← hbytes]
      constructor
      · intro hsize whole' cpt' char hwhole' htext' hchar
        obtain ⟨-, hsame⟩ := append_inj' (hlast _ hwhole' htext') rfl
        cases hsame
        rw [cptToUtf8_eq hcpt] at hchar
        cases hchar
        exact hsize
      · intro hshows
        exact hshows before cpt _ hwhole htext (cptToUtf8_eq hcpt)
  · rw [hpart]
    refine iff_of_true (iff_of_false Bool.false_ne_true hnot) fun whole' cpt _ hwhole' htext' _ =>
      ?_
    exact absurd ⟨_, hwhole', htext'⟩ hnot

/-- The encoder, the decoder and the test for the end of a character agree on all lists of code
points, wherever their bytes are cut off, just where the size of what is left shows. -/
theorem agrees_iff (h : ∀ cpt ∈ cps, cpt ≤ 0x10FFFF) : ∃ bytes, cptsToUtf8 cps = some bytes ∧
    ∀ t, t <+: bytes → (Agrees cps bytes t ↔ SizeShows cps t) := by
  refine ⟨_, cptsToUtf8_eq h, fun t ht => ?_⟩
  rw [← complete_iff h ht]
  constructor
  · exact fun hagrees => hagrees.complete
  · intro hcomplete
    exact ⟨decodeFrom_encodeCodes (toNat_lt_of_mem h), exists_decodes h ht, hcomplete⟩

theorem agrees_euro : Agrees [0x20AC] [0xE2, 0x82, 0xAC] [0xE2, 0x82] := by
  obtain ⟨bytes, hbytes, hagrees⟩ := @agrees_iff [0x20AC]
    (forall_mem_singleton.mpr (UInt32.le_iff_toNat_le.mpr (le_of_ble_eq_true rfl)))
  cases hbytes
  refine (hagrees [0xE2, 0x82] ⟨[0xAC], rfl⟩).mpr fun whole cpt char hwhole htext _ => ?_
  cases whole with
  | nil =>
    obtain ⟨rfl, -⟩ := cons_prefix_cons.mp hwhole
    exact absurd htext (by decide)
  | cons first whole =>
    have hnil := prefix_nil.mp (cons_prefix_cons.mp hwhole).2
    exact absurd hnil (append_ne_nil_of_right_ne_nil _ (cons_ne_nil _ _))

theorem length_encodeCodes_replicate (n : ℕ) :
    (encodeCodes ((List.replicate n (0x61 : UInt32)).map UInt32.toNat)).length = n := by
  rw [map_replicate]
  induction n with
  | zero => rfl
  | succ n ih =>
    rw [replicate_succ, encodeCodes, flatMap_cons, ← encodeCodes, length_append, ih]
    exact add_comm 1 n

/-- With `2 ^ 31` bytes the size is negative as an `int`, and no byte is looked at. -/
theorem not_agrees : ¬∀ cps : List UInt32, (∀ cpt ∈ cps, cpt ≤ 0x10FFFF) →
    ∀ bytes, cptsToUtf8 cps = some bytes → ∀ t, t <+: bytes → Agrees cps bytes t := by
  intro hall
  obtain ⟨n, hn⟩ : ∃ n, n = 2 ^ 31 - 1 := ⟨_, rfl⟩
  have hvalid : ∀ cpt ∈ replicate (n + 1) (0x61 : UInt32), cpt ≤ 0x10FFFF := by
    intro cpt hcpt
    rw [eq_of_mem_replicate hcpt]
    decide
  have hagrees := hall _ hvalid _ (cptsToUtf8_eq hvalid) _ prefix_rfl
  have hshows := (complete_iff hvalid prefix_rfl).mp hagrees.complete
  have hlast : replicate n (0x61 : UInt32) ++ [0x61] = replicate (n + 1) 0x61 :=
    replicate_succ'.symm
  have hsize := hshows (replicate n 0x61) 0x61 [0x61] (hlast ▸ prefix_rfl)
    (by rw [hlast, cptsToUtf8_eq hvalid]) rfl
  rw [length_encodeCodes_replicate, hn] at hsize
  revert hsize
  decide

end ExpertPin.Unicode
