import Mathlib.Data.List.Nodup
import Mathlib.Data.Int.Notation

/-!
# JSON documents

A document as a reader returns it.  The members of an object keep their order.
-/

namespace ExpertPin

/-- Names and keys are compared character by character. -/
instance lawfulBEqText : LawfulBEq (List Char) := inferInstance

inductive Json where
  | null
  | bool (b : Bool)
  | int (i : ℤ)
  /-- A number with a fraction or an exponent, as it is written. -/
  | float (text : List Char)
  | str (s : List Char)
  | array (items : List Json)
  | object (members : List (List Char × Json))
deriving Repr

namespace Json

/-- The member of an object with a key. -/
def get? (key : List Char) : Json → Option Json
  | object members => members.lookup key
  | _ => none

def str? : Json → Option (List Char)
  | str s => some s
  | _ => none

def array? : Json → Option (List Json)
  | array items => some items
  | _ => none

def object? : Json → Option (List (List Char × Json))
  | object members => some members
  | _ => none

mutual

/-- No object of the document has a key twice. -/
def uniqueKeys : Json → Bool
  | array items => uniqueKeysOfItems items
  | object members => (members.map Prod.fst).Nodup && uniqueKeysOfMembers members
  | _ => true

def uniqueKeysOfItems : List Json → Bool
  | [] => true
  | item :: items => uniqueKeys item && uniqueKeysOfItems items

def uniqueKeysOfMembers : List (List Char × Json) → Bool
  | [] => true
  | (_, value) :: members => uniqueKeys value && uniqueKeysOfMembers members

end

end Json

end ExpertPin

/-!
## JSON as text

A strict reader, and a writer that breaks lines and indents.  `read_write`: a document without
fractions, whose strings need no escapes, is read back from what is written.
-/

namespace ExpertPin.Json

open List
open Option

abbrev Text := List Char

/-! ## Reading -/

def isSpace (c : Char) : Bool := c = ' ' || c = '\t' || c = '\n' || c = '\r'

def skipSpace (text : Text) : Text := text.dropWhile isSpace

/-- The value of a hexadecimal digit. -/
def hexDigit? (c : Char) : Option ℕ :=
  if c.isDigit then some (c.toNat - 48)
  else if 'a' ≤ c ∧ c ≤ 'f' then some (c.toNat - 87)
  else if 'A' ≤ c ∧ c ≤ 'F' then some (c.toNat - 55)
  else none

/-- Four hexadecimal digits. -/
def readHex : Text → Option (ℕ × Text)
  | a :: b :: c :: d :: text => do
      let a ← hexDigit? a
      let b ← hexDigit? b
      let c ← hexDigit? c
      let d ← hexDigit? d
      some (((a * 16 + b) * 16 + c) * 16 + d, text)
  | _ => none

/-- An escaped code point, which two units make up if the first is a high surrogate. -/
def readUnicode (text : Text) : Option (Char × Text) := do
  let (unit, text) ← readHex text
  if 0xD800 ≤ unit ∧ unit < 0xDC00 then
    match text with
    | '\\' :: 'u' :: text =>
      let (low, text) ← readHex text
      if 0xDC00 ≤ low ∧ low < 0xE000 then
        some (Char.ofNat (0x10000 + (unit - 0xD800) * 0x400 + (low - 0xDC00)), text)
      else none
    | _ => none
  else if 0xDC00 ≤ unit ∧ unit < 0xE000 then none
  else some (Char.ofNat unit, text)

/-- What the character after a backslash stands for. -/
def unescape : Char → Option Char
  | '"' => some '"'
  | '\\' => some '\\'
  | '/' => some '/'
  | 'b' => some '\x08'
  | 'f' => some '\x0c'
  | 'n' => some '\n'
  | 'r' => some '\r'
  | 't' => some '\t'
  | _ => none

/-- What stands after a backslash. -/
def readEscape : Text → Option (Char × Text)
  | [] => none
  | 'u' :: text => readUnicode text
  | c :: text => (unescape c).map fun d => (d, text)

/-- A string after its opening quote. -/
def readString : ℕ → Text → Option (Text × Text)
  | 0, _ => none
  | _ + 1, [] => none
  | fuel + 1, c :: text =>
    if c = '"' then some ([], text)
    else if c = '\\' then do
      let (c, text) ← readEscape text
      (readString fuel text).map fun p => (c :: p.1, p.2)
    else if c.toNat < 0x20 then none
    else (readString fuel text).map fun p => (c :: p.1, p.2)

/-- The digits at the beginning of a text. -/
def readDigits (text : Text) : Text × Text :=
  (text.takeWhile Char.isDigit, text.dropWhile Char.isDigit)

/-- The fraction of a number, if there is one. -/
def readFraction : Text → Option (Text × Text)
  | '.' :: text =>
    let (digits, text) := readDigits text
    if digits = [] then none else some ('.' :: digits, text)
  | text => some ([], text)

def readSign : Text → Text × Text
  | '+' :: text => (['+'], text)
  | '-' :: text => (['-'], text)
  | text => ([], text)

/-- The exponent of a number, if there is one. -/
def readExponent : Text → Option (Text × Text)
  | [] => some ([], [])
  | e :: text =>
    if e = 'e' ∨ e = 'E' then
      let (sign, text) := readSign text
      let (digits, text) := readDigits text
      if digits = [] then none else some (e :: sign ++ digits, text)
    else some ([], e :: text)

/-- A number after its sign. -/
def readNumber (negative : Bool) (text : Text) : Option (Json × Text) := do
  let (digits, text) := readDigits text
  if digits = [] ∨ digits.head? = some '0' ∧ digits ≠ ['0'] then none
  else
    let (fraction, text) ← readFraction text
    let (exponent, text) ← readExponent text
    let n := Nat.ofDigitChars 10 digits 0
    if fraction = [] ∧ exponent = [] then some (.int (if negative then -n else n), text)
    else some (.float ((if negative then ['-'] else []) ++ digits ++ fraction ++ exponent), text)

/-- A literal, after which the text goes on. -/
def readLiteral (literal : Text) (value : Json) (text : Text) : Option (Json × Text) :=
  if literal.isPrefixOf text then some (value, text.drop literal.length) else none

/-- What follows a character, if the text begins with it. -/
def after (c : Char) : Text → Option Text
  | d :: text => if d = c then some text else none
  | [] => none

mutual

/-- A value, after the space before it. -/
def readValue : ℕ → Text → Option (Json × Text)
  | 0, _ => none
  | _ + 1, [] => none
  | fuel + 1, c :: text =>
    if c = '"' then (readString fuel text).map fun p => (.str p.1, p.2)
    else if c = '[' then
      match after ']' (skipSpace text) with
      | some text => some (.array [], text)
      | none => do
          let (item, text) ← readValue fuel (skipSpace text)
          let (items, text) ← readItems fuel (skipSpace text)
          some (.array (item :: items), text)
    else if c = '\x7b' then
      match after '\x7d' (skipSpace text) with
      | some text => some (.object [], text)
      | none => do
          let (member, text) ← readMember fuel (skipSpace text)
          let (members, text) ← readMembers fuel (skipSpace text)
          some (.object (member :: members), text)
    else if c = '-' then readNumber true text
    else if c.isDigit then readNumber false (c :: text)
    else if c = 't' then readLiteral "true".toList (.bool true) (c :: text)
    else if c = 'f' then readLiteral "false".toList (.bool false) (c :: text)
    else if c = 'n' then readLiteral "null".toList .null (c :: text)
    else none

/-- What follows an item of an array. -/
def readItems : ℕ → Text → Option (List Json × Text)
  | 0, _ => none
  | fuel + 1, text =>
    match after ',' text with
    | some text => do
        let (item, text) ← readValue fuel (skipSpace text)
        let (items, text) ← readItems fuel (skipSpace text)
        some (item :: items, text)
    | none => (after ']' text).map fun text => ([], text)

/-- A member of an object. -/
def readMember : ℕ → Text → Option ((Text × Json) × Text)
  | 0, _ => none
  | fuel + 1, text => do
      let text ← after '"' text
      let (key, text) ← readString fuel text
      let text ← after ':' (skipSpace text)
      let (value, text) ← readValue fuel (skipSpace text)
      some ((key, value), text)

/-- What follows a member of an object. -/
def readMembers : ℕ → Text → Option (List (Text × Json) × Text)
  | 0, _ => none
  | fuel + 1, text =>
    match after ',' text with
    | some text => do
        let (member, text) ← readMember fuel (skipSpace text)
        let (members, text) ← readMembers fuel (skipSpace text)
        some (member :: members, text)
    | none => (after '\x7d' text).map fun text => ([], text)

end

/-- A document: one value with nothing but space around it. -/
def read (text : Text) : Option Json := do
  let (value, rest) ← readValue (text.length + 1) (skipSpace text)
  if skipSpace rest = [] then some value else none

/-! ## Writing -/

/-- A line break and the indentation of a level. -/
def newline (level : ℕ) : Text := '\n' :: List.replicate level ' '

def hexChar (n : ℕ) : Char := Nat.digitChar (n % 16)

/-- A unit of sixteen bits, escaped. -/
def escapeUnit (n : ℕ) : Text :=
  ['\\', 'u', hexChar (n / 4096), hexChar (n / 256), hexChar (n / 16), hexChar n]

/-- A character of a string, of which only ASCII is written as it is. -/
def escapeChar (c : Char) : Text :=
  if c = '"' then ['\\', '"']
  else if c = '\\' then ['\\', '\\']
  else if c = '\n' then ['\\', 'n']
  else if c = '\r' then ['\\', 'r']
  else if c = '\t' then ['\\', 't']
  else if c = '\x0c' then ['\\', 'f']
  else if c = '\x08' then ['\\', 'b']
  else if 0x20 ≤ c.toNat ∧ c.toNat ≤ 0x7E then [c]
  else if c.toNat < 0x10000 then escapeUnit c.toNat
  else
    escapeUnit (0xD800 + (c.toNat - 0x10000) / 0x400) ++
      escapeUnit (0xDC00 + (c.toNat - 0x10000) % 0x400)

def writeString (s : Text) : Text := '"' :: s.flatMap escapeChar ++ ['"']

def writeInt (i : ℤ) : Text :=
  (if i < 0 then ['-'] else []) ++ Nat.toDigits 10 i.natAbs

mutual

/-- A value at a level, each item of which stands on a line of its own. -/
def write (level : ℕ) : Json → Text
  | null => "null".toList
  | bool true => "true".toList
  | bool false => "false".toList
  | int i => writeInt i
  | float text => text
  | str s => writeString s
  | array [] => ['[', ']']
  | array (item :: items) =>
    '[' :: newline (level + 1) ++ write (level + 1) item ++ writeItems level items
  | object [] => ['\x7b', '\x7d']
  | object ((key, value) :: members) =>
    '\x7b' :: newline (level + 1) ++ writeString key ++ [':', ' '] ++ write (level + 1) value ++
      writeMembers level members

def writeItems (level : ℕ) : List Json → Text
  | [] => newline level ++ [']']
  | item :: items =>
    ',' :: newline (level + 1) ++ write (level + 1) item ++ writeItems level items

def writeMembers (level : ℕ) : List (Text × Json) → Text
  | [] => newline level ++ ['\x7d']
  | (key, value) :: members =>
    ',' :: newline (level + 1) ++ writeString key ++ [':', ' '] ++ write (level + 1) value ++
      writeMembers level members

end

/-! ## Space and strings -/

theorem skipSpace_of_not {c : Char} (h : isSpace c = false) (text : Text) :
    skipSpace (c :: text) = c :: text := by
  rw [skipSpace, dropWhile_cons_of_neg (by simp [h])]

theorem skipSpace_newline (level : ℕ) (text : Text) :
    skipSpace (newline level ++ text) = skipSpace text := by
  have hspaces (n : ℕ) : skipSpace (replicate n ' ' ++ text) = skipSpace text := by
    induction n with
    | zero => rfl
    | succ n ih =>
      rw [replicate_succ, cons_append, skipSpace, dropWhile_cons_of_pos (by decide)]
      exact ih
  rw [newline, cons_append, skipSpace, dropWhile_cons_of_pos (by decide)]
  exact hspaces level

/-- A character that is written as it is. -/
def PlainChar (c : Char) : Prop := c ≠ '"' ∧ c ≠ '\\' ∧ 0x20 ≤ c.toNat ∧ c.toNat ≤ 0x7E

theorem escapeChar_of_plain {c : Char} (h : PlainChar c) : escapeChar c = [c] := by
  obtain ⟨hquote, hslash, hlo, hhi⟩ := h
  have hne {d : Char} (hd : d.toNat < 0x20) : c ≠ d := by
    rintro rfl
    exact absurd hlo (Nat.not_le_of_lt hd)
  rw [escapeChar, if_neg hquote, if_neg hslash, if_neg (hne (by decide)), if_neg (hne (by decide)),
    if_neg (hne (by decide)), if_neg (hne (by decide)), if_neg (hne (by decide)), if_pos ⟨hlo, hhi⟩]

theorem flatMap_escapeChar_of_plain {s : Text} (h : ∀ c ∈ s, PlainChar c) :
    s.flatMap escapeChar = s := by
  induction s with
  | nil => rfl
  | cons c s ih =>
    rw [flatMap_cons, escapeChar_of_plain (h c mem_cons_self),
      ih fun d hd => h d (mem_cons_of_mem c hd)]
    rfl

theorem readString_plain {fuel : ℕ} {s rest : Text} (h : ∀ c ∈ s, PlainChar c)
    (hfuel : s.length < fuel) : readString fuel (s ++ '"' :: rest) = some (s, rest) := by
  induction s generalizing fuel with
  | nil =>
    obtain ⟨fuel, rfl⟩ := Nat.exists_eq_add_of_lt hfuel
    rfl
  | cons c s ih =>
    obtain ⟨fuel, rfl⟩ : ∃ n, fuel = n + 1 := ⟨fuel - 1, by omega⟩
    obtain ⟨hquote, hslash, hlo, _⟩ := h c mem_cons_self
    have hrest := ih (fun d hd => h d (mem_cons_of_mem c hd)) (Nat.lt_of_succ_lt_succ hfuel)
    rw [cons_append, readString, if_neg hquote, if_neg hslash,
      if_neg (Nat.not_lt_of_le hlo), hrest]
    rfl

/-! ## Numbers -/

/-- What follows a number does not go on with it. -/
def Ends (rest : Text) : Prop :=
  ∀ c ∈ rest.head?, c.isDigit = false ∧ c ≠ '.' ∧ c ≠ 'e' ∧ c ≠ 'E'

theorem readDigits_append {digits rest : Text} (h : ∀ c ∈ digits, c.isDigit = true)
    (hrest : Ends rest) : readDigits (digits ++ rest) = (digits, rest) := by
  have htake : rest.takeWhile Char.isDigit = [] ∧ rest.dropWhile Char.isDigit = rest := by
    cases rest with
    | nil => exact ⟨rfl, rfl⟩
    | cons c rest =>
      have hc := (hrest c rfl).1
      rw [takeWhile_cons_of_neg (by simp [hc]), dropWhile_cons_of_neg (by simp [hc])]
      exact ⟨rfl, rfl⟩
  rw [readDigits, takeWhile_append_of_pos h, dropWhile_append_of_pos h, htake.1, htake.2,
    append_nil]

variable {rest : Text}

theorem readFraction_of_ends (h : Ends rest) :
    readFraction rest = some ([], rest) := by
  cases rest with
  | nil => rfl
  | cons c rest =>
    rw [readFraction]
    rintro _ heq
    cases heq
    exact (h '.' rfl).2.1 rfl

theorem readExponent_of_ends (h : Ends rest) :
    readExponent rest = some ([], rest) := by
  cases rest with
  | nil => rfl
  | cons c rest =>
    obtain ⟨_, _, he, hE⟩ := h c rfl
    rw [readExponent, if_neg (not_or.mpr ⟨he, hE⟩)]

/-- A number other than zero is written without leading zeros. -/
theorem head?_toDigits {n : ℕ} (h : (Nat.toDigits 10 n).head? = some '0') : n = 0 := by
  induction n using Nat.strongRecOn with
  | _ n ih =>
    rw [Nat.toDigits_eq_if (by decide)] at h
    split at h
    case isTrue hlt =>
      have hdigit := congrArg Char.toNat (some.inj h)
      rw [Nat.toNat_digitChar_of_lt_ten hlt] at hdigit
      exact Nat.add_left_cancel hdigit
    case isFalse hge =>
      rw [head?_append_of_ne_nil _ Nat.toDigits_ne_nil] at h
      have hzero := ih (n / 10) (Nat.div_lt_self (by omega) (by decide)) h
      omega

theorem readNumber_toDigits (negative : Bool) (n : ℕ) (h : Ends rest) :
    readNumber negative (Nat.toDigits 10 n ++ rest) =
      some (.int (if negative then -n else n), rest) := by
  have hdigits : readDigits (Nat.toDigits 10 n ++ rest) = (Nat.toDigits 10 n, rest) :=
    readDigits_append (fun c hc => Nat.isDigit_of_mem_toDigits (by decide) (by decide) hc) h
  have hvalid : ¬(Nat.toDigits 10 n = [] ∨
      (Nat.toDigits 10 n).head? = some '0' ∧ Nat.toDigits 10 n ≠ ['0']) := by
    rintro (hnil | ⟨hzero, hne⟩)
    · exact Nat.toDigits_ne_nil hnil
    · obtain rfl := head?_toDigits hzero
      exact hne rfl
  rw [readNumber, hdigits]
  dsimp only
  rw [if_neg hvalid, readFraction_of_ends h, bind_eq_bind, bind_some,
    readExponent_of_ends h, bind_some, if_pos ⟨rfl, rfl⟩, Nat.ofDigitChars_ten_toDigits]

/-! ## Reading what is written -/

mutual

/-- A document without fractions, whose strings need no escapes. -/
def Plain : Json → Prop
  | str s => ∀ c ∈ s, PlainChar c
  | float _ => False
  | array items => PlainItems items
  | object members => PlainMembers members
  | _ => True

def PlainItems : List Json → Prop
  | [] => True
  | item :: items => Plain item ∧ PlainItems items

def PlainMembers : List (Text × Json) → Prop
  | [] => True
  | (key, value) :: members => (∀ c ∈ key, PlainChar c) ∧ Plain value ∧ PlainMembers members

end

theorem after_self (c : Char) (text : Text) : after c (c :: text) = some text := if_pos rfl

theorem after_of_ne {c d : Char} (h : d ≠ c) (text : Text) : after c (d :: text) = none := if_neg h

theorem writeString_of_plain {s : Text} (h : ∀ c ∈ s, PlainChar c) (rest : Text) :
    writeString s ++ rest = '"' :: (s ++ '"' :: rest) := by
  rw [writeString, flatMap_escapeChar_of_plain h]
  simp

theorem length_writeString_of_plain {s : Text} (h : ∀ c ∈ s, PlainChar c) :
    (writeString s).length = s.length + 2 := by
  rw [writeString, flatMap_escapeChar_of_plain h, length_append, length_cons,
    length_singleton]

theorem ends_cons {c : Char} (h : c = ',' ∨ c = '\n') (rest : Text) : Ends (c :: rest) := by
  rintro d hd
  cases hd
  rcases h with rfl | rfl
  · decide
  · decide

/-- A digit begins no other value than a number. -/
theorem ne_of_isDigit {c d : Char} (hc : c.isDigit = true) (hd : d.isDigit = false) : c ≠ d := by
  rintro rfl
  rw [hc] at hd
  cases hd

/-- A value that is written begins with a character that is no space and closes nothing. -/
theorem write_eq_cons {level : ℕ} {v : Json} (h : Plain v) :
    ∃ c text, write level v = c :: text ∧ isSpace c = false ∧ c ≠ ']' := by
  cases v with
  | null => exact ⟨_, _, rfl, by decide, by decide⟩
  | bool b =>
    cases b with
    | true => exact ⟨_, _, rfl, by decide, by decide⟩
    | false => exact ⟨_, _, rfl, by decide, by decide⟩
  | int i =>
    rw [write, writeInt]
    split
    case isTrue => exact ⟨_, _, rfl, by decide, by decide⟩
    case isFalse =>
      obtain ⟨c, text, htext⟩ := List.exists_cons_of_ne_nil (@Nat.toDigits_ne_nil i.natAbs 10)
      have hdigit : c.isDigit = true :=
        Nat.isDigit_of_mem_toDigits (by decide) (by decide) (htext ▸ List.mem_cons_self)
      refine ⟨c, text, htext, ?_, ne_of_isDigit hdigit (by decide)⟩
      simp only [isSpace, Bool.or_eq_false_iff, decide_eq_false_iff_not]
      exact ⟨⟨⟨ne_of_isDigit hdigit (by decide), ne_of_isDigit hdigit (by decide)⟩,
        ne_of_isDigit hdigit (by decide)⟩, ne_of_isDigit hdigit (by decide)⟩
  | float text => exact h.elim
  | str s => exact ⟨_, _, rfl, by decide, by decide⟩
  | array items =>
    cases items with
    | nil => exact ⟨_, _, rfl, by decide, by decide⟩
    | cons item items => exact ⟨_, _, rfl, by decide, by decide⟩
  | object members =>
    cases members with
    | nil => exact ⟨_, _, rfl, by decide, by decide⟩
    | cons member members => exact ⟨_, _, rfl, by decide, by decide⟩

theorem skipSpace_write {level : ℕ} {v : Json} (h : Plain v) (rest : Text) :
    skipSpace (write level v ++ rest) = write level v ++ rest := by
  obtain ⟨c, text, htext, hspace, _⟩ := @write_eq_cons level v h
  rw [htext, cons_append, skipSpace_of_not hspace]

theorem after_write {level : ℕ} {v : Json} (h : Plain v) (rest : Text) :
    after ']' (write level v ++ rest) = none := by
  obtain ⟨c, text, htext, _, hne⟩ := @write_eq_cons level v h
  rw [htext, List.cons_append, after_of_ne hne]

theorem ends_writeItems (level : ℕ) (items : List Json) (rest : Text) :
    Ends (writeItems level items ++ rest) := by
  cases items with
  | nil => exact ends_cons (.inr rfl) _
  | cons item items => exact ends_cons (.inl rfl) _

theorem ends_writeMembers (level : ℕ) (members : List (Text × Json)) (rest : Text) :
    Ends (writeMembers level members ++ rest) := by
  cases members with
  | nil => exact ends_cons (.inr rfl) _
  | cons member members => exact ends_cons (.inl rfl) _

theorem readValue_writeInt {fuel : ℕ} (i : ℤ) (hrest : Ends rest) :
    readValue (fuel + 1) (writeInt i ++ rest) = some (int i, rest) := by
  rw [writeInt]
  split
  case isTrue hneg =>
    change readNumber true (Nat.toDigits 10 i.natAbs ++ rest) = _
    rw [readNumber_toDigits true _ hrest, if_pos rfl]
    congr
    omega
  case isFalse hnonneg =>
    obtain ⟨c, text, htext⟩ := exists_cons_of_ne_nil (@Nat.toDigits_ne_nil i.natAbs 10)
    have hdigit : c.isDigit = true :=
      Nat.isDigit_of_mem_toDigits (by decide) (by decide) (htext ▸ mem_cons_self)
    have hread := readNumber_toDigits false i.natAbs hrest
    have hi : (i.natAbs : ℤ) = i := Int.natAbs_of_nonneg (Int.not_lt.mp hnonneg)
    rw [htext, if_neg Bool.false_ne_true, hi] at hread
    rw [htext, nil_append, cons_append, readValue,
      if_neg (ne_of_isDigit hdigit (by decide)), if_neg (ne_of_isDigit hdigit (by decide)),
      if_neg (ne_of_isDigit hdigit (by decide)), if_neg (ne_of_isDigit hdigit (by decide)),
      if_pos hdigit]
    exact hread

/-- The key of a member and its value, read after the space before the key. -/
theorem readMember_write {level fuel : ℕ} {key : Text} {value : Json}
    (hkey : ∀ c ∈ key, PlainChar c) (hplain : Plain value)
    (hvalue : readValue fuel (write level value ++ rest) = some (value, rest))
    (hfuel : key.length < fuel) :
    readMember (fuel + 1)
        (skipSpace (writeString key ++ ([':', ' '] ++ (write level value ++ rest)))) =
      some ((key, value), rest) := by
  rw [writeString_of_plain hkey, skipSpace_of_not (by decide), readMember, after_self]
  dsimp only [bind_eq_bind, bind_some]
  rw [readString_plain hkey hfuel]
  dsimp only [bind_some, cons_append, nil_append]
  have hspace : skipSpace (' ' :: (write level value ++ rest)) = write level value ++ rest :=
    skipSpace_write hplain rest
  rw [skipSpace_of_not (by decide), after_self, bind_some, hspace, hvalue]
  rfl

mutual

/-- A value that is written is read back, whatever follows that does not go on with a number. -/
theorem readValue_write (v : Json) (level fuel : ℕ) (rest : Text) (h : Plain v) (hrest : Ends rest)
    (hfuel : (write level v ++ rest).length < fuel) :
    readValue fuel (write level v ++ rest) = some (v, rest) := by
  obtain ⟨fuel, rfl⟩ : ∃ n, fuel = n + 1 := ⟨fuel - 1, by omega⟩
  match v with
  | null => rfl
  | bool true => rfl
  | bool false => rfl
  | int i => exact readValue_writeInt i hrest
  | float text => exact h.elim
  | str s =>
    rw [write, writeString_of_plain h] at hfuel ⊢
    have hlen : s.length < fuel := by
      simp only [length_cons, length_append] at hfuel
      omega
    rw [readValue, if_pos rfl, readString_plain h hlen]
    rfl
  | array [] => rfl
  | array (item :: items) =>
    obtain ⟨hitem, hitems⟩ := h
    have hone := readValue_write item (level + 1) fuel (writeItems level items ++ rest) hitem
      (ends_writeItems level items rest)
      (by simp only [write, length_append, length_cons] at hfuel ⊢; omega)
    have hmany := readItems_write items level fuel rest hitems
      (by simp only [write, length_append, length_cons] at hfuel ⊢; omega)
    have htext : skipSpace (newline (level + 1) ++
        (write (level + 1) item ++ (writeItems level items ++ rest))) =
        write (level + 1) item ++ (writeItems level items ++ rest) := by
      rw [skipSpace_newline, skipSpace_write hitem]
    rw [write, append_assoc, append_assoc, cons_append, readValue,
      if_neg (by decide), if_pos rfl, htext, after_write hitem]
    dsimp only [bind_eq_bind]
    rw [hone, bind_some, hmany]
    rfl
  | object [] => rfl
  | object ((key, value) :: members) =>
    obtain ⟨hkey, hvalue, hmembers⟩ := h
    simp only [write, length_writeString_of_plain hkey, length_append,
      length_cons] at hfuel
    obtain ⟨fuel, rfl⟩ : ∃ n, fuel = n + 1 := ⟨fuel - 1, by omega⟩
    have hone := readValue_write value (level + 1) fuel (writeMembers level members ++ rest) hvalue
      (ends_writeMembers level members rest)
      (by simp only [length_append]; omega)
    have hmany := readMembers_write members level (fuel + 1) rest hmembers
      (by simp only [length_append]; omega)
    have hmember := readMember_write hkey hvalue hone (by omega)
    rw [write, append_assoc, append_assoc, append_assoc, append_assoc,
      cons_append, readValue, if_neg (by decide), if_neg (by decide), if_pos rfl,
      skipSpace_newline]
    have hopen : after '\x7d' (skipSpace (writeString key ++ ([':', ' '] ++
        (write (level + 1) value ++ (writeMembers level members ++ rest))))) = none := by
      rw [writeString_of_plain hkey, skipSpace_of_not (by decide), after_of_ne (by decide)]
    rw [hopen]
    dsimp only [bind_eq_bind]
    rw [hmember, bind_some, hmany]
    rfl

theorem readItems_write (items : List Json) (level fuel : ℕ) (rest : Text) (h : PlainItems items)
    (hfuel : (writeItems level items ++ rest).length < fuel) :
    readItems fuel (skipSpace (writeItems level items ++ rest)) = some (items, rest) := by
  obtain ⟨fuel, rfl⟩ : ∃ n, fuel = n + 1 := ⟨fuel - 1, by omega⟩
  match items with
  | [] =>
    rw [writeItems, append_assoc, skipSpace_newline]
    rfl
  | item :: items =>
    obtain ⟨hitem, hitems⟩ := h
    have hone := readValue_write item (level + 1) fuel (writeItems level items ++ rest) hitem
      (ends_writeItems level items rest)
      (by simp only [writeItems, length_append, length_cons] at hfuel ⊢; omega)
    have hmany := readItems_write items level fuel rest hitems
      (by simp only [writeItems, length_append, length_cons] at hfuel ⊢; omega)
    rw [writeItems, append_assoc, append_assoc, cons_append,
      skipSpace_of_not (by decide), readItems, after_self]
    dsimp only [bind_eq_bind]
    rw [skipSpace_newline, skipSpace_write hitem, hone, bind_some, hmany]
    rfl

theorem readMembers_write (members : List (Text × Json)) (level fuel : ℕ) (rest : Text)
    (h : PlainMembers members) (hfuel : (writeMembers level members ++ rest).length < fuel) :
    readMembers fuel (skipSpace (writeMembers level members ++ rest)) = some (members, rest) := by
  obtain ⟨fuel, rfl⟩ : ∃ n, fuel = n + 1 := ⟨fuel - 1, by omega⟩
  match members with
  | [] =>
    rw [writeMembers, append_assoc, skipSpace_newline]
    rfl
  | (key, value) :: members =>
    obtain ⟨hkey, hvalue, hmembers⟩ := h
    simp only [writeMembers, length_writeString_of_plain hkey, length_append,
      length_cons] at hfuel
    obtain ⟨fuel, rfl⟩ : ∃ n, fuel = n + 1 := ⟨fuel - 1, by omega⟩
    have hone := readValue_write value (level + 1) fuel (writeMembers level members ++ rest) hvalue
      (ends_writeMembers level members rest)
      (by simp only [length_append]; omega)
    have hmany := readMembers_write members level (fuel + 1) rest hmembers
      (by simp only [length_append]; omega)
    have hmember := readMember_write hkey hvalue hone (by omega)
    rw [writeMembers, append_assoc, append_assoc, append_assoc, append_assoc,
      cons_append, skipSpace_of_not (by decide), readMembers, after_self]
    dsimp only [bind_eq_bind]
    rw [skipSpace_newline, hmember, bind_some, hmany]
    rfl

end

/-- A document is read back from what is written, whatever space follows it. -/
theorem read_write {v : Json} (h : Plain v) {space : Text} (hspace : skipSpace space = [])
    (hends : Ends space) (level : ℕ) : read (write level v ++ space) = some v := by
  rw [read, skipSpace_write h, readValue_write v level _ space h hends (Nat.lt_succ_self _)]
  exact if_pos hspace

end ExpertPin.Json
