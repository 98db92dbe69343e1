import Mathlib.Data.Nat.Notation

/-!
# Text as bytes

The UTF-8 encoding of a text, its strict decoding, and a fact that lets a program
work on the bytes of a text where it means characters: a byte below 128 only ever
stands for the character of that number, so doubling it in the encoding doubles the
character.
-/

namespace ExpertPin.Utf8

open List
open Nat

/-- The bytes of a text. -/
def encode (text : List Char) : List UInt8 := text.flatMap String.utf8EncodeChar

/-- The text of which these are the bytes, if there is one. -/
def decode (bytes : List UInt8) : Option (List Char) :=
  bytes.toByteArray.utf8Decode?.map Array.toList

theorem decode_encode (text : List Char) : decode (encode text) = some text := by
  have hdecode : (encode text).toByteArray.utf8Decode? = some text.toArray :=
    utf8Decode?_utf8Encode
  rw [decode, hdecode]
  rfl

@[simp] theorem encode_nil : encode [] = [] := rfl

@[simp] theorem encode_append (text text' : List Char) :
    encode (text ++ text') = encode text ++ encode text' := flatMap_append

theorem encode_cons (c : Char) (text : List Char) :
    encode (c :: text) = String.utf8EncodeChar c ++ encode text := flatMap_cons

theorem length_le_length_encode (text : List Char) : text.length ≤ (encode text).length := by
  induction text with
  | nil => exact Nat.le_refl 0
  | cons c text ih =>
    have hpos : 0 < (String.utf8EncodeChar c).length := by
      rw [String.length_utf8EncodeChar]
      exact c.utf8Size_pos
    rw [encode_cons, length_append, length_cons, Nat.add_comm]
    exact Nat.add_le_add hpos ih

/-! ## Bytes below 128 -/

theorem utf8EncodeChar_of_lt {c : Char} (h : c.toNat < 128) :
    String.utf8EncodeChar c = [UInt8.ofNat c.toNat] := if_pos (le_of_lt_succ h)

theorem le_of_mem_utf8EncodeChar {c : Char} (h : 128 ≤ c.toNat) {b : UInt8}
    (hb : b ∈ String.utf8EncodeChar c) : 128 ≤ b.toNat := by
  have hbyte : ∀ n, 128 ≤ n → n < 256 → 128 ≤ (UInt8.ofNat n).toNat := by
    intro n hlo hhi
    rwa [UInt8.toNat_ofNat', Nat.mod_eq_of_lt hhi]
  have hnot : ¬c.val.toNat ≤ 0x7f := Nat.not_le.mpr h
  unfold String.utf8EncodeChar at hb
  dsimp only at hb
  rw [if_neg hnot] at hb
  split at hb
  · simp only [mem_cons, not_mem_nil, or_false] at hb
    rcases hb with rfl | rfl <;> exact hbyte _ (by omega) (by omega)
  · split at hb
    · simp only [mem_cons, not_mem_nil, or_false] at hb
      rcases hb with rfl | rfl | rfl <;> exact hbyte _ (by omega) (by omega)
    · simp only [mem_cons, not_mem_nil, or_false] at hb
      rcases hb with rfl | rfl | rfl | rfl <;> exact hbyte _ (by omega) (by omega)

/-- The elements of a list, some of them twice. -/
def double {α : Type} [DecidableEq α] (a : α) (l : List α) : List α :=
  l.flatMap fun b => if b = a then [b, b] else [b]

theorem double_append {α : Type} [DecidableEq α] (a : α) (l m : List α) :
    double a (l ++ m) = double a l ++ double a m := flatMap_append

theorem double_eq_self {α : Type} [DecidableEq α] {a : α} {l : List α} (h : a ∉ l) :
    double a l = l := by
  induction l with
  | nil => rfl
  | cons b l ih =>
    have hb : b ≠ a := fun heq => h (heq ▸ mem_cons_self)
    rw [double, flatMap_cons, if_neg hb, singleton_append, ← double,
      ih fun hmem => h (mem_cons_of_mem b hmem)]

theorem length_le_length_double {α : Type} [DecidableEq α] (a : α) (l : List α) :
    l.length ≤ (double a l).length := by
  induction l with
  | nil => exact Nat.le_refl 0
  | cons b l ih =>
    have hb : 1 ≤ (if b = a then [b, b] else [b]).length := by
      split
      · exact Nat.le_succ 1
      · exact Nat.le_refl 1
    rw [double, flatMap_cons, ← double, length_append, length_cons, Nat.add_comm]
    exact Nat.add_le_add hb ih

/-- Doubling a byte below 128 is doubling its character. -/
theorem double_encode {q : Char} (hq : q.toNat < 128) (text : List Char) :
    double (UInt8.ofNat q.toNat) (encode text) = encode (double q text) := by
  induction text with
  | nil => rfl
  | cons c text ih =>
    have hcons : double q (c :: text) = (if c = q then [c, c] else [c]) ++ double q text :=
      flatMap_cons
    rw [encode_cons, double_append, ih, hcons, encode_append]
    congr 1
    by_cases hc : c = q
    · subst hc
      rw [if_pos rfl, utf8EncodeChar_of_lt hq, encode_cons, utf8EncodeChar_of_lt hq,
        encode_cons, utf8EncodeChar_of_lt hq]
      simp [double]
    · rw [if_neg hc, encode_cons, encode_nil, append_nil]
      refine double_eq_self fun hmem => ?_
      rcases Nat.lt_or_ge c.toNat 128 with hlt | hge
      · rw [utf8EncodeChar_of_lt hlt, mem_singleton] at hmem
        have heq := congrArg UInt8.toNat hmem
        rw [UInt8.toNat_ofNat', UInt8.toNat_ofNat', Nat.mod_eq_of_lt (by omega),
          Nat.mod_eq_of_lt (by omega)] at heq
        exact hc (Char.toNat_inj.mp heq.symm)
      · have hle := le_of_mem_utf8EncodeChar hge hmem
        rw [UInt8.toNat_ofNat', Nat.mod_eq_of_lt (by omega)] at hle
        exact absurd hq (Nat.not_lt.mpr hle)

/-! ## The bytes of a character -/

/-- A byte that goes on with a character. -/
def IsContinuation (b : UInt8) : Prop := b &&& 0xC0 = 0x80

instance : DecidablePred IsContinuation := fun b => inferInstanceAs (Decidable (b &&& 0xC0 = 0x80))

/-- The number of bytes of a character that begins with a byte. -/
def charLength (lead : UInt8) : ℕ :=
  if 0xF0 ≤ lead then 4 else if 0xE0 ≤ lead then 3 else if 0xC0 ≤ lead then 2 else 1

theorem charLength_pos (lead : UInt8) : 0 < charLength lead := by
  rw [charLength]
  repeat' split
  all_goals decide

theorem isContinuation_iff (b : UInt8) : IsContinuation b ↔ 128 ≤ b.toNat ∧ b.toNat < 192 := by
  have hall : ∀ n : Fin 256,
      UInt8.ofFin n &&& 0xC0 = 0x80 ↔ 128 ≤ n.val ∧ n.val < 192 := by decide +kernel
  exact hall b.toFin

theorem isContinuation_ofNat {n : ℕ} (h : n < 64) : IsContinuation (UInt8.ofNat (n + 0x80)) := by
  rw [isContinuation_iff, UInt8.toNat_ofNat', mod_eq_of_lt (by omega)]
  omega

theorem not_isContinuation_ofNat {n : ℕ} (h : n < 256) (hlead : n < 128 ∨ 192 ≤ n) :
    ¬IsContinuation (UInt8.ofNat n) := by
  rw [isContinuation_iff, UInt8.toNat_ofNat', mod_eq_of_lt h]
  omega

/-- The number of bytes by the number of the first byte. -/
theorem charLength_ofNat {n : ℕ} (h : n < 256) : charLength (UInt8.ofNat n) =
    if 240 ≤ n then 4 else if 224 ≤ n then 3 else if 192 ≤ n then 2 else 1 := by
  have hle : ∀ k : ℕ, k < 256 → (UInt8.ofNat k ≤ UInt8.ofNat n ↔ k ≤ n) := by
    intro k hk
    rw [UInt8.le_iff_toNat_le, UInt8.toNat_ofNat', UInt8.toNat_ofNat', mod_eq_of_lt hk,
      mod_eq_of_lt h]
  unfold charLength
  simp only [← hle 240 (by decide), ← hle 224 (by decide), ← hle 192 (by decide)]
  rfl

/-- The bytes of the character with a number.  Those of a surrogate are formed in the same way. -/
def encodeCode (code : ℕ) : List UInt8 :=
  if code ≤ 0x7F then [UInt8.ofNat code]
  else if code ≤ 0x7FF then
    [UInt8.ofNat (code / 64 % 0x20 + 0xC0), UInt8.ofNat (code % 0x40 + 0x80)]
  else if code ≤ 0xFFFF then
    [UInt8.ofNat (code / 4096 % 0x10 + 0xE0), UInt8.ofNat (code / 64 % 0x40 + 0x80),
      UInt8.ofNat (code % 0x40 + 0x80)]
  else
    [UInt8.ofNat (code / 262144 % 0x08 + 0xF0), UInt8.ofNat (code / 4096 % 0x40 + 0x80),
      UInt8.ofNat (code / 64 % 0x40 + 0x80), UInt8.ofNat (code % 0x40 + 0x80)]

theorem toNat_val_lt (c : Char) : c.val.toNat < 0x110000 := by
  rcases c.valid with hlow | hhigh
  · exact Nat.lt_trans hlow (by decide)
  · exact hhigh.2

/-- A character begins with a byte that tells how many go on with it. -/
theorem encodeCode_eq_cons {code : ℕ} (hlt : code < 0x110000) :
    ∃ lead rest, encodeCode code = lead :: rest ∧ ¬IsContinuation lead ∧
      (∀ b ∈ rest, IsContinuation b) ∧ rest.length + 1 = charLength lead := by
  unfold encodeCode
  split
  case isTrue h =>
    refine ⟨_, _, rfl, not_isContinuation_ofNat (by omega) (.inl (by omega)), ?_, ?_⟩
    · exact forall_mem_nil _
    · rw [charLength_ofNat (by omega), if_neg (by omega), if_neg (by omega), if_neg (by omega)]
      rfl
  case isFalse h =>
    split
    case isTrue h' =>
      refine ⟨_, _, rfl, not_isContinuation_ofNat (by omega) (.inr (by omega)), ?_, ?_⟩
      · exact forall_mem_singleton.mpr (isContinuation_ofNat (by omega))
      · rw [charLength_ofNat (by omega), if_neg (by omega), if_neg (by omega), if_pos (by omega)]
        rfl
    case isFalse h' =>
      split
      case isTrue h'' =>
        refine ⟨_, _, rfl, not_isContinuation_ofNat (by omega) (.inr (by omega)), ?_, ?_⟩
        · exact forall_mem_cons.mpr ⟨isContinuation_ofNat (by omega),
            forall_mem_singleton.mpr (isContinuation_ofNat (by omega))⟩
        · rw [charLength_ofNat (by omega), if_neg (by omega), if_pos (by omega)]
          rfl
      case isFalse h'' =>
        refine ⟨_, _, rfl, not_isContinuation_ofNat (by omega) (.inr (by omega)), ?_, ?_⟩
        · exact forall_mem_cons.mpr ⟨isContinuation_ofNat (by omega),
            forall_mem_cons.mpr ⟨isContinuation_ofNat (by omega),
              forall_mem_singleton.mpr (isContinuation_ofNat (by omega))⟩⟩
        · rw [charLength_ofNat (by omega), if_pos (by omega)]
          rfl

theorem utf8EncodeChar_eq_cons (c : Char) : ∃ lead rest, String.utf8EncodeChar c = lead :: rest ∧
    ¬IsContinuation lead ∧ (∀ b ∈ rest, IsContinuation b) ∧ rest.length + 1 = charLength lead :=
  encodeCode_eq_cons (toNat_val_lt c)

/-! ## A text that is cut off -/

/-- The bytes of some text. -/
def Valid (bytes : List UInt8) : Prop := ∃ text, encode text = bytes

variable {bytes : List UInt8} {text : List Char} {c : Char}

theorem valid_nil : Valid [] := ⟨[], rfl⟩

/-- A byte is a text of its own if it is below 128. -/
theorem valid_singleton_iff {b : UInt8} : Valid [b] ↔ b.toNat < 128 := by
  constructor
  · rintro ⟨text, htext⟩
    cases text with
    | nil => cases htext
    | cons c text =>
      rw [encode_cons] at htext
      have hlen := congrArg length htext
      rw [length_append, String.length_utf8EncodeChar, length_singleton] at hlen
      have hpos := c.utf8Size_pos
      have hsize : c.utf8Size = 1 := by omega
      have hlow : c.toNat < 128 := by
        rw [Char.utf8Size] at hsize
        split at hsize
        case isTrue hle => exact lt_succ_of_le hle
        case isFalse =>
          exfalso
          revert hsize
          repeat' split
          all_goals decide
      rw [utf8EncodeChar_of_lt hlow] at htext
      rw [← (cons.inj htext).1, UInt8.toNat_ofNat', mod_eq_of_lt (by omega)]
      exact hlow
  · intro hlow
    have hchar : (Char.ofUInt8 b).toNat = b.toNat := UInt8.toNat_toUInt32 b
    refine ⟨[Char.ofUInt8 b], ?_⟩
    rw [encode_cons, utf8EncodeChar_of_lt (hchar.symm ▸ hlow), hchar, UInt8.ofNat_toNat]
    rfl

/-- Bytes behind a character are those of a text when they are with it. -/
theorem valid_append_iff : Valid (String.utf8EncodeChar c ++ bytes) ↔ Valid bytes := by
  constructor
  · rintro ⟨text, htext⟩
    obtain ⟨lead, rest, hc, -, -, hlength⟩ := utf8EncodeChar_eq_cons c
    cases text with
    | nil =>
      rw [hc] at htext
      cases htext
    | cons c' text =>
      obtain ⟨lead', rest', hc', -, -, hlength'⟩ := utf8EncodeChar_eq_cons c'
      rw [encode_cons, hc, hc', cons_append, cons_append, cons.injEq] at htext
      obtain ⟨rfl, hrest⟩ := htext
      have hsame : rest'.length = rest.length :=
        succ.inj (hlength'.trans hlength.symm)
      exact ⟨text, (append_inj hrest hsame).2⟩
  · rintro ⟨text, rfl⟩
    exact ⟨c :: text, encode_cons c text⟩

/-- What goes on with a character ends where the next one begins. -/
theorem length_le_of_continuations {rest others : List UInt8}
    (hrest : ∀ b ∈ rest, IsContinuation b) (hbegins : rest <+: others ++ encode text) :
    rest.length ≤ others.length := by
  apply Nat.le_of_not_lt
  intro hlong
  have hat := hbegins.getElem hlong
  rw [getElem_append_right (Nat.le_refl _)] at hat
  have hcontinues := hrest _ (getElem_mem hlong)
  cases text with
  | nil => exact Nat.not_lt.mpr (Nat.le_trans hbegins.length_le (by simp)) hlong
  | cons c text =>
    obtain ⟨lead, rest, hc, hlead, -, -⟩ := utf8EncodeChar_eq_cons c
    simp only [encode_cons, hc, Nat.sub_self, cons_append, getElem_cons_zero] at hat
    exact hlead (hat ▸ hcontinues)

/-- The bytes up to the end of a text that is cut off are those of a text when its last
character has all of its bytes. -/
theorem valid_iff_of_isPrefix {before rest : List UInt8} {lead : UInt8}
    (hlead : ¬IsContinuation lead) (hrest : ∀ b ∈ rest, IsContinuation b)
    (hbegins : before ++ lead :: rest <+: encode text) :
    rest.length + 1 ≤ charLength lead ∧
      (Valid (before ++ lead :: rest) ↔ charLength lead ≤ rest.length + 1) := by
  induction text generalizing before with
  | nil =>
    rw [encode_nil, prefix_nil] at hbegins
    exact absurd hbegins (append_ne_nil_of_right_ne_nil _ (cons_ne_nil _ _))
  | cons c text ih =>
    obtain ⟨first, others, hc, hfirst, hothers, hlength⟩ := utf8EncodeChar_eq_cons c
    rw [encode_cons, hc, cons_append] at hbegins
    cases before with
    | nil =>
      rw [nil_append, cons_prefix_cons] at hbegins
      obtain ⟨rfl, hbegins⟩ := hbegins
      have hshort := length_le_of_continuations hrest hbegins
      rw [← hlength]
      refine ⟨Nat.succ_le_succ hshort, ?_⟩
      constructor
      · rintro ⟨text', htext'⟩
        cases text' with
        | nil => cases htext'
        | cons c' text' =>
          obtain ⟨lead', rest', hc', -, -, hlength'⟩ := utf8EncodeChar_eq_cons c'
          rw [encode_cons, hc', nil_append, cons_append, cons.injEq] at htext'
          obtain ⟨rfl, rfl⟩ := htext'
          rw [hlength, ← hlength', length_append]
          exact Nat.succ_le_succ (Nat.le_add_right _ _)
      · intro hlong
        have hsame : rest = others := by
          refine List.IsPrefix.eq_of_length ?_
            (Nat.le_antisymm hshort (Nat.le_of_succ_le_succ hlong))
          exact prefix_of_prefix_length_le hbegins (prefix_append _ _) hshort
        exact ⟨[c], by rw [encode_cons, hc, encode_nil, append_nil, hsame]; rfl⟩
    | cons b before =>
      rw [cons_append, cons_prefix_cons] at hbegins
      obtain ⟨rfl, hbegins⟩ := hbegins
      have hlong : others.length ≤ before.length := by
        apply Nat.le_of_not_lt
        intro hlt
        have hat := hbegins.getElem (i := before.length) (by simp)
        rw [getElem_append_left hlt, getElem_append_right (Nat.le_refl _)] at hat
        simp only [Nat.sub_self, getElem_cons_zero] at hat
        exact hlead (hat ▸ hothers _ (getElem_mem hlt))
      have hothers' : others <+: before :=
        prefix_of_prefix_length_le (prefix_append _ _)
          ((prefix_append before _).trans hbegins) hlong
      obtain ⟨before, rfl⟩ := hothers'
      rw [append_assoc, prefix_append_right_inj] at hbegins
      obtain ⟨hshort, hvalid⟩ := ih hbegins
      refine ⟨hshort, ?_⟩
      have hchar : b :: (others ++ before) ++ lead :: rest =
          String.utf8EncodeChar c ++ (before ++ lead :: rest) := by
        rw [hc, cons_append, cons_append, append_assoc]
      rw [hchar, valid_append_iff]
      exact hvalid

/-! ## The character at the beginning -/

/-- The character at the beginning of bytes, if there is one. -/
def firstChar (bytes : List UInt8) : Option Char := bytes.toByteArray.utf8DecodeChar? 0

theorem firstChar_append (c : Char) (bytes : List UInt8) :
    firstChar (String.utf8EncodeChar c ++ bytes) = some c := by
  rw [firstChar, toByteArray_append]
  exact ByteArray.utf8DecodeChar?_utf8EncodeChar_append

theorem firstChar_eq_some_iff : firstChar bytes = some c ↔ String.utf8EncodeChar c <+: bytes := by
  constructor
  · intro h
    obtain ⟨l, hl⟩ := ByteArray.exists_of_utf8DecodeChar?_eq_some h
    refine ⟨l.data.toList, ?_⟩
    have hdata := congrArg (fun b => b.data.toList) hl
    simpa using hdata.symm
  · rintro ⟨rest, rfl⟩
    exact firstChar_append c rest

@[simp] theorem firstChar_nil : firstChar [] = none := by
  cases h : firstChar [] with
  | none => rfl
  | some c =>
    have hlength := (firstChar_eq_some_iff.mp h).length_le
    rw [String.length_utf8EncodeChar, length_nil] at hlength
    exact absurd c.utf8Size_pos (Nat.not_lt.mpr hlength)

/-- No character begins with a byte that goes on with one. -/
theorem firstChar_of_isContinuation {b : UInt8} (hb : IsContinuation b) (rest : List UInt8) :
    firstChar (b :: rest) = none := by
  cases h : firstChar (b :: rest) with
  | none => rfl
  | some c =>
    obtain ⟨lead, others, hc, hlead, -, -⟩ := utf8EncodeChar_eq_cons c
    have hhead := firstChar_eq_some_iff.mp h
    rw [hc, cons_prefix_cons] at hhead
    exact absurd (hhead.1 ▸ hb) hlead

/-- From a position on, the bytes of a text are those of a text, or the position is inside of a
character. -/
theorem drop_encode (text : List Char) (pos : ℕ) :
    (∃ text', (encode text).drop pos = encode text') ∨
      ∃ b rest, (encode text).drop pos = b :: rest ∧ IsContinuation b := by
  induction text generalizing pos with
  | nil => exact .inl ⟨[], drop_nil⟩
  | cons c text ih =>
    obtain ⟨lead, others, hc, -, hothers, -⟩ := utf8EncodeChar_eq_cons c
    rcases Nat.lt_or_ge pos (String.utf8EncodeChar c).length with hlt | hge
    · cases pos with
      | zero => exact .inl ⟨c :: text, rfl⟩
      | succ pos =>
        rw [hc, length_cons, Nat.succ_lt_succ_iff] at hlt
        refine .inr ⟨others[pos], others.drop (pos + 1) ++ encode text, ?_,
          hothers _ (getElem_mem hlt)⟩
        rw [encode_cons, hc, cons_append, drop_succ_cons,
          drop_append_of_le_length (Nat.le_of_lt hlt), drop_eq_getElem_cons hlt,
          cons_append]
    · rw [encode_cons, drop_append, drop_of_length_le hge, nil_append]
      exact ih _

end ExpertPin.Utf8
