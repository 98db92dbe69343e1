import ExpertPin.Grammar.Reading
import ExpertPin.Peg.Matcher

/-!
# The grammar that excludes delimiters

`gbnf_excluding_pattern` writes a class of the characters that no delimiter begins with, and an
alternative for each place inside of a delimiter: what stands before it, and a character that does
not go on with a delimiter.
-/

namespace ExpertPin.Peg

open Grammar Gbnf
open Function
open List
open Option

/-! ## The trie with its children in order -/

/-- `trie`, with its nodes below each other.  The children are a map by their characters. -/
inductive CodeTrie
  | node (isWord : Bool) (children : List (ℕ × CodeTrie))

namespace CodeTrie

def isWord : CodeTrie → Bool
  | .node isWord _ => isWord

def children : CodeTrie → List (ℕ × CodeTrie)
  | .node _ children => children

def leaf : CodeTrie := .node false []

def child? (t : CodeTrie) (c : ℕ) : Option CodeTrie :=
  (t.children.find? fun m => m.1 = c).map Prod.snd

def setChild (c : ℕ) (child : CodeTrie) : List (ℕ × CodeTrie) → List (ℕ × CodeTrie)
  | [] => [(c, child)]
  | (d, t) :: ts =>
    if c < d then (c, child) :: (d, t) :: ts
    else if c = d then (c, child) :: ts
    else (d, t) :: setChild c child ts

def insert (t : CodeTrie) : List ℕ → CodeTrie
  | [] => .node true t.children
  | c :: word =>
    .node t.isWord (setChild c (insert ((t.child? c).getD leaf) word) t.children)

def ofWords (words : List Text) : CodeTrie :=
  words.foldl (fun t word => t.insert (readable word)) leaf

mutual

/-- `collect_prefix_and_next` -/
def collect (pre : List ℕ) : CodeTrie → List (List ℕ × List ℕ)
  | .node isWord children =>
    (if isWord = false ∧ children.map Prod.fst ≠ [] then [(pre, children.map Prod.fst)] else []) ++
      collectChildren pre children

def collectChildren (pre : List ℕ) : List (ℕ × CodeTrie) → List (List ℕ × List ℕ)
  | [] => []
  | (c, t) :: ts => collect (pre ++ [c]) t ++ collectChildren pre ts

end

end CodeTrie

/-! ## Writing -/

/-- `gbnf_escape_char_class` -/
def gbnfEscapeCharClass (c : ℕ) : Text :=
  if c = '-'.toNat ∨ c = ']'.toNat ∨ c = '['.toNat ∨ c = '\\'.toNat then
    [byte '\\', UInt8.ofNat c]
  else if c = '\n'.toNat then bytes "\\n"
  else if c = '\t'.toNat then bytes "\\t"
  else if c = '\r'.toNat then bytes "\\r"
  else if 0x20 ≤ c ∧ c ≤ 0x7E then [UInt8.ofNat c]
  else if c ≤ 0xFF then byte '\\' :: byte 'x' :: [c / 16 % 16, c % 16].map hexByte
  else if c ≤ 0xFFFF then
    byte '\\' :: byte 'u' :: [c / 4096 % 16, c / 256 % 16, c / 16 % 16, c % 16].map hexByte
  else
    byte '\\' :: byte 'U' ::
      [c / 0x10000000 % 16, c / 0x1000000 % 16, c / 0x100000 % 16, c / 0x10000 % 16,
        c / 4096 % 16, c / 256 % 16, c / 16 % 16, c % 16].map hexByte

/-- What `format_literal` puts in the place of a byte. -/
def escapeLiteral (b : UInt8) : Text :=
  if b = byte '\r' then bytes "\\r"
  else if b = byte '\n' then bytes "\\n"
  else if b = byte '"' then bytes "\\\""
  else if b = byte '\\' then bytes "\\\\"
  else [b]

def gbnfFormatLiteral (literal : Text) : Text :=
  byte '"' :: literal.flatMap escapeLiteral ++ [byte '"']

/-- `common_unicode_cpt_to_utf8`, which throws where there is no such code point. -/
def cptToUtf8 (cpt : ℕ) : Option Text := if cpt ≤ 0x10FFFF then some (Utf8.encodeCode cpt) else none

/-- `common_unicode_cpts_to_utf8` -/
def cptsToUtf8 (cpts : List ℕ) : Option Text := (cpts.mapM cptToUtf8).map List.flatten

def excludingPiece (piece : List ℕ × List ℕ) : Option Text :=
  let cls := piece.2.flatMap gbnfEscapeCharClass
  if piece.1 = [] then some (bytes "[^" ++ cls ++ bytes "]")
  else (cptsToUtf8 piece.1).map fun pre =>
    gbnfFormatLiteral pre ++ bytes " [^" ++ cls ++ bytes "]"

def joinAlternates : List Text → Text
  | [] => []
  | [piece] => piece
  | piece :: pieces => piece ++ bytes " | " ++ joinAlternates pieces

/-- `gbnf_excluding_pattern` -/
def gbnfExcludingPattern (strings : List Text) : Option Text :=
  (((CodeTrie.ofWords strings).collect []).mapM excludingPiece).map fun pieces =>
    byte '(' :: joinAlternates pieces ++ bytes ")*"

/-! ## Reading what is written of a character -/

theorem spells_hexDigits {c x : Char} {digits : List ℕ} (h : ∀ d ∈ digits, d < 16)
    (hvalue : digits.foldl (fun value d => 16 * value + d) 0 = c.toNat)
    (hlength : x = 'x' ∧ digits.length = 2 ∨ x = 'u' ∧ digits.length = 4 ∨
      x = 'U' ∧ digits.length = 8) :
    Spells (byte '\\' :: byte x :: digits.map hexByte) c.val := by
  have hval : c.val = UInt32.ofNat c.toNat := UInt32.ofNat_toNat.symm
  rw [hval, ← hvalue]
  exact spells_hex h hlength

/-- A character of a class can be read, but for a hyphen. -/
theorem spells_gbnfEscapeCharClass {c : Char} (hminus : c ≠ '-') :
    Spells (gbnfEscapeCharClass c.toNat) c.val := by
  have hlt : c.toNat < 0x110000 := Utf8.toNat_val_lt c
  rw [gbnfEscapeCharClass]
  split
  case isTrue hescape =>
    simp only [Char.toNat_inj] at hescape
    rcases hescape with rfl | rfl | rfl | rfl
    · exact absurd rfl hminus
    · exact spells_escape (.inr (.inr (.inr rfl)))
    · exact spells_escape (.inr (.inr (.inl rfl)))
    · exact spells_escape (.inl rfl)
  case isFalse hescape =>
    split
    case isTrue hc => exact Char.toNat_inj.mp hc ▸ spells_control.2.1
    case isFalse =>
      split
      case isTrue hc => exact Char.toNat_inj.mp hc ▸ spells_control.1
      case isFalse =>
        split
        case isTrue hc => exact Char.toNat_inj.mp hc ▸ spells_control.2.2
        case isFalse =>
          split
          case isTrue hprintable =>
            rw [← Utf8.utf8EncodeChar_of_lt (by omega)]
            refine spells_encode ?_ ?_
            · rintro rfl
              exact hescape (.inr (.inr (.inr rfl)))
            · rintro rfl
              exact absurd hprintable.1 (by decide)
          case isFalse =>
            split
            case isTrue hle =>
              refine spells_hexDigits (by simp; omega) ?_ (.inl ⟨rfl, rfl⟩)
              simp only [foldl_cons, foldl_nil]
              omega
            case isFalse =>
              split
              case isTrue hle =>
                refine spells_hexDigits (by simp; omega) ?_ (.inr (.inl ⟨rfl, rfl⟩))
                simp only [foldl_cons, foldl_nil]
                omega
              case isFalse =>
                refine spells_hexDigits (by simp; omega) ?_ (.inr (.inr ⟨rfl, rfl⟩))
                simp only [foldl_cons, foldl_nil]
                omega

theorem head_gbnfEscapeCharClass (c : Char) : ∃ b tail, gbnfEscapeCharClass c.toNat = b :: tail ∧
    b ≠ byte ']' ∧ b ≠ byte '-' := by
  rw [gbnfEscapeCharClass]
  split
  case isTrue => exact ⟨_, _, rfl, by decide, by decide⟩
  case isFalse hescape =>
    split
    case isTrue => exact ⟨_, _, rfl, by decide, by decide⟩
    case isFalse =>
      split
      case isTrue => exact ⟨_, _, rfl, by decide, by decide⟩
      case isFalse =>
        split
        case isTrue => exact ⟨_, _, rfl, by decide, by decide⟩
        case isFalse =>
          split
          case isTrue hprintable =>
            have hnat : (UInt8.ofNat c.toNat).toNat = c.toNat := by
              rw [UInt8.toNat_ofNat', Nat.mod_eq_of_lt (by omega)]
            refine ⟨_, _, rfl, fun h => ?_, fun h => ?_⟩
            · exact hescape (.inr (.inl (hnat.symm.trans (congrArg UInt8.toNat h))))
            · exact hescape (.inl (hnat.symm.trans (congrArg UInt8.toNat h)))
          case isFalse =>
            split
            case isTrue => exact ⟨_, _, rfl, by decide, by decide⟩
            case isFalse =>
              split
              case isTrue => exact ⟨_, _, rfl, by decide, by decide⟩
              case isFalse => exact ⟨_, _, rfl, by decide, by decide⟩

theorem parseChar_hyphen (rest : Text) :
    ∃ e, parseChar (gbnfEscapeCharClass '-'.toNat ++ rest) = .error e := ⟨_, rfl⟩

/-- A class is read to its end if there is no hyphen in it. -/
theorem settles_excludedClass (cs : List Char) (rest : Text) : Settles (fun fuel => parseClass fuel
        (cString ((cs.map Char.toNat).flatMap gbnfEscapeCharClass ++ byte ']' :: rest)))
      (∀ c ∈ cs, c ≠ '-') (cs.map fun c => .one c.val, cString rest) := by
  rw [List.flatMap_map]
  refine settles_parseClass (fun c _ hc => spells_gbnfEscapeCharClass hc)
    (fun c _ => head_gbnfEscapeCharClass c) fun c _ hc => ?_
  obtain rfl := not_not.mp hc
  exact ⟨List.forall_mem_ne'.mpr (by decide), parseChar_hyphen⟩

theorem escapeLiteral_of_le {b : UInt8} (h : 128 ≤ b.toNat) : escapeLiteral b = [b] := by
  have hne : ∀ c : UInt8, c.toNat < 128 → b ≠ c := by
    rintro c hc rfl
    omega
  rw [escapeLiteral, if_neg (hne _ (by decide)), if_neg (hne _ (by decide)),
    if_neg (hne _ (by decide)), if_neg (hne _ (by decide))]

/-- What is written of a character in a literal. -/
def literalChar (c : Char) : Text := (String.utf8EncodeChar c).flatMap escapeLiteral

theorem ofNat_ne_byte {c d : Char} (hc : c.toNat < 128) (hd : d.toNat < 128) (h : c ≠ d) :
    UInt8.ofNat c.toNat ≠ byte d := by
  intro heq
  have hnat := congrArg UInt8.toNat heq
  have hbyte : (byte d).toNat = d.toNat := Nat.mod_eq_of_lt (Nat.lt_trans hd (by decide))
  rw [UInt8.toNat_ofNat', Nat.mod_eq_of_lt (Nat.lt_trans hc (by decide)), hbyte] at hnat
  exact h (Char.toNat_inj.mp hnat)

theorem spells_literalChar {c : Char} (h : c ≠ '\x00') :
    Spells (literalChar c) c.val ∧ (literalChar c).head? ≠ some (byte '"') := by
  by_cases hescape : c = '\r' ∨ c = '\n' ∨ c = '"' ∨ c = '\\'
  · rcases hescape with rfl | rfl | rfl | rfl
    · exact ⟨spells_control.2.2, by decide⟩
    · exact ⟨spells_control.2.1, by decide⟩
    · exact ⟨spells_escape (.inr (.inl rfl)), by decide⟩
    · exact ⟨spells_escape (.inl rfl), by decide⟩
  · obtain ⟨hreturn, hnewline, hquote, hslash⟩ := not_or.mp hescape |>.imp_right fun h =>
      (not_or.mp h).imp_right not_or.mp
    have hliteral : literalChar c = String.utf8EncodeChar c := by
      rw [literalChar]
      by_cases hlt : c.toNat < 128
      · rw [Utf8.utf8EncodeChar_of_lt hlt, flatMap_singleton, escapeLiteral,
          if_neg (ofNat_ne_byte hlt (by decide) hreturn),
          if_neg (ofNat_ne_byte hlt (by decide) hnewline),
          if_neg (ofNat_ne_byte hlt (by decide) hquote),
          if_neg (ofNat_ne_byte hlt (by decide) hslash)]
      · refine (flatMap_congr fun b hb => escapeLiteral_of_le ?_).trans
          (flatMap_singleton' _)
        exact Utf8.le_of_mem_utf8EncodeChar (Nat.not_lt.mp hlt) hb
    rw [hliteral]
    refine ⟨spells_encode hslash h, fun hhead => ?_⟩
    by_cases hlt : c.toNat < 128
    · rw [Utf8.utf8EncodeChar_of_lt hlt] at hhead
      exact ofNat_ne_byte hlt (by decide) hquote (some.inj hhead)
    · have hle := Utf8.le_of_mem_utf8EncodeChar (Nat.not_lt.mp hlt) (mem_of_mem_head? hhead)
      exact absurd hle (by decide)

/-- A literal is read to its end if there is no zero in it. -/
theorem settles_excludedLiteral (text : List Char) (rest : Text) :
    Settles (fun fuel => parseLiteral fuel
        (cString ((Utf8.encode text).flatMap escapeLiteral ++ byte '"' :: rest)))
      (∀ c ∈ text, c ≠ '\x00') (text.map Char.val, cString rest) := by
  have hwrite : (Utf8.encode text).flatMap escapeLiteral = text.flatMap literalChar :=
    flatMap_assoc
  rw [hwrite]
  refine settles_parseLiteral (fun c _ hc => spells_literalChar hc) fun c _ hc => ?_
  obtain rfl := not_not.mp hc
  rfl

/-! ## The trie -/

namespace CodeTrie

mutual

/-- The trie that is matched. -/
def toTrie : CodeTrie → WordTrie
  | .node isWord children => .node isWord (childrenOf children)

def childrenOf : List (ℕ × CodeTrie) → ℕ → Option WordTrie
  | [], _ => none
  | (d, t) :: ts, c => if c = d then some (toTrie t) else childrenOf ts c

end

theorem toTrie_eq (t : CodeTrie) : t.toTrie = .node t.isWord (childrenOf t.children) := by
  cases t with
  | node isWord children => rfl

theorem childrenOf_child? (t : CodeTrie) (c : ℕ) :
    childrenOf t.children c = (t.child? c).map toTrie := by
  rw [child?]
  induction t.children with
  | nil => rfl
  | cons m ts ih =>
    rw [childrenOf, find?_cons]
    by_cases h : c = m.1
    · rw [if_pos h, decide_eq_true h.symm]
      rfl
    · rw [if_neg h, decide_eq_false fun heq => h heq.symm]
      exact ih

theorem childrenOf_setChild (c : ℕ) (t : CodeTrie) (ts : List (ℕ × CodeTrie)) :
    childrenOf (setChild c t ts) = update (childrenOf ts) c (some t.toTrie) := by
  funext c'
  induction ts with
  | nil =>
    by_cases h : c' = c
    · rw [h, update_self]
      exact if_pos rfl
    · rw [update_of_ne h]
      exact if_neg h
  | cons m ts ih =>
    obtain ⟨d, s⟩ := m
    rw [setChild]
    split
    case isTrue hlt =>
      by_cases h : c' = c
      · rw [h, update_self]
        exact if_pos rfl
      · rw [update_of_ne h]
        exact if_neg h
    case isFalse =>
      split
      case isTrue heq =>
        by_cases h : c' = c
        · rw [h, update_self]
          exact if_pos rfl
        · rw [update_of_ne h, childrenOf, childrenOf, if_neg h, if_neg (heq ▸ h)]
      case isFalse hne =>
        rw [childrenOf, ih]
        by_cases h : c' = c
        · rw [h, if_neg hne, update_self, update_self]
        · rw [update_of_ne h, update_of_ne h, childrenOf]

theorem toTrie_insert (t : CodeTrie) (word : List ℕ) :
    (t.insert word).toTrie = t.toTrie.insert word := by
  induction word generalizing t with
  | nil =>
    rw [insert, toTrie, WordTrie.insert, toTrie_eq t]
    rfl
  | cons c word ih =>
    have hchild : ((t.child? c).getD leaf).toTrie = (t.toTrie.children c).getD (.leaf false) := by
      rw [toTrie_eq t, Trie.children_node, childrenOf_child?]
      cases t.child? c with
      | none => exact congrArg (Trie.node false) (funext fun _ => rfl)
      | some child => rfl
    rw [insert, toTrie, WordTrie.insert, childrenOf_setChild, ih, hchild, toTrie_eq t]
    rfl

theorem toTrie_ofWords (words : List Text) : (ofWords words).toTrie = WordTrie.ofWords words := by
  have hfold : ∀ t : CodeTrie, (words.foldl (fun t word => t.insert (readable word)) t).toTrie =
      words.foldl (fun t word => t.insert (readable word)) t.toTrie := by
    induction words with
    | nil => exact fun t => rfl
    | cons word words ih =>
      intro t
      rw [foldl_cons, foldl_cons, ih, toTrie_insert]
  have hleaf : leaf.toTrie = .leaf false := congrArg (Trie.node false) (funext fun _ => rfl)
  rw [ofWords, hfold, hleaf]
  rfl

/-! ### Children in order -/

mutual

def Ordered : CodeTrie → Prop
  | .node _ children => OrderedChildren children

def OrderedChildren : List (ℕ × CodeTrie) → Prop
  | [] => True
  | (c, t) :: ts => (∀ m ∈ ts, c < m.1) ∧ Ordered t ∧ OrderedChildren ts

end

theorem ordered_iff {t : CodeTrie} : t.Ordered ↔ OrderedChildren t.children := by
  cases t with
  | node isWord children => exact Iff.rfl

theorem Ordered.child? {t child : CodeTrie} (h : t.Ordered) {c : ℕ} (hc : t.child? c = some child) :
    child.Ordered := by
  rw [ordered_iff] at h
  rw [CodeTrie.child?] at hc
  induction hts : t.children generalizing t with
  | nil =>
    rw [hts] at hc
    exact nomatch hc
  | cons m ts ih =>
    rw [hts] at h hc
    rw [find?_cons] at hc
    split at hc
    · cases hc
      exact h.2.1
    · exact ih (t := .node false ts) h.2.2 hc rfl

variable {ts : List (ℕ × CodeTrie)}

theorem mem_setChild {c : ℕ} {t : CodeTrie} {m : ℕ × CodeTrie}
    (h : m ∈ setChild c t ts) : m = (c, t) ∨ m ∈ ts := by
  induction ts with
  | nil => exact .inl (mem_singleton.mp h)
  | cons m' ts ih =>
    rw [setChild] at h
    split at h
    · exact mem_cons.mp h
    · split at h
      · exact (mem_cons.mp h).imp_right (mem_cons_of_mem m')
      · rcases mem_cons.mp h with rfl | h
        · exact .inr mem_cons_self
        · exact (ih h).imp_right (mem_cons_of_mem m')

theorem orderedChildren_setChild {c : ℕ} {t : CodeTrie}
    (ht : t.Ordered) (hts : OrderedChildren ts) : OrderedChildren (setChild c t ts) := by
  induction ts with
  | nil => exact ⟨forall_mem_nil _, ht, trivial⟩
  | cons m ts ih =>
    obtain ⟨d, s⟩ := m
    obtain ⟨hlt, hs, hrest⟩ := hts
    rw [setChild]
    split
    case isTrue hcd =>
      refine ⟨forall_mem_cons.mpr ⟨hcd, fun m hm => ?_⟩, ht, hlt, hs, hrest⟩
      exact hcd.trans (hlt m hm)
    case isFalse hcd =>
      split
      case isTrue heq => exact ⟨heq ▸ hlt, ht, hrest⟩
      case isFalse hne =>
        refine ⟨fun m hm => ?_, hs, ih hrest⟩
        rcases mem_setChild hm with rfl | hm
        · exact lt_of_le_of_ne (Nat.not_lt.mp hcd) (Ne.symm hne)
        · exact hlt m hm

theorem Ordered.insert {t : CodeTrie} (h : t.Ordered) (word : List ℕ) :
    (t.insert word).Ordered := by
  induction word generalizing t with
  | nil => exact ordered_iff.mp h
  | cons c word ih =>
    refine orderedChildren_setChild (ih ?_) (ordered_iff.mp h)
    cases hc : t.child? c with
    | none => trivial
    | some child => exact h.child? hc

theorem ordered_ofWords (words : List Text) : (ofWords words).Ordered := by
  have hfold : ∀ t : CodeTrie, t.Ordered →
      (words.foldl (fun t word => t.insert (readable word)) t).Ordered := by
    induction words with
    | nil => exact fun t ht => ht
    | cons word words ih => exact fun t ht => ih _ (ht.insert _)
  exact hfold leaf trivial

/-! ### The pieces -/

theorem isSome_childrenOf_iff {c : ℕ} :
    (childrenOf ts c).isSome ↔ c ∈ ts.map Prod.fst := by
  induction ts with
  | nil => exact iff_of_false Bool.false_ne_true not_mem_nil
  | cons m ts ih =>
    rw [childrenOf, map_cons, mem_cons]
    split
    case isTrue h => exact iff_of_true rfl (.inl h)
    case isFalse h => rw [ih, or_iff_right h]

mutual

/-- Each piece is at a node inside of a word. -/
theorem mem_collect {pre p next : List ℕ} : ∀ t : CodeTrie, t.Ordered →
    ((p, next) ∈ t.collect pre → ∃ q, p = pre ++ q ∧ t.toTrie.get q = some false ∧ next ≠ [] ∧
      ∀ c ∈ next, (t.toTrie.get (q ++ [c])).isSome)
  | .node isWord children => by
      intro hordered h
      rw [collect, mem_append] at h
      rcases h with h | h
      · split at h
        case isTrue hword =>
          obtain ⟨rfl, rfl⟩ := Prod.mk.inj (mem_singleton.mp h)
          refine ⟨[], (append_nil p).symm, ?_, hword.2, fun c hc => ?_⟩
          · rw [Trie.get_nil, toTrie, Trie.value_node, hword.1]
          · obtain ⟨child, hchild⟩ := isSome_iff_exists.mp (isSome_childrenOf_iff.mpr hc)
            rw [nil_append, Trie.get_cons, toTrie, Trie.children_node, hchild]
            rfl
        case isFalse => exact absurd h not_mem_nil
      · obtain ⟨c, q, child, rfl, hc, hget, hnext⟩ := mem_collectChildren children hordered h
        have hcons : ∀ q', (toTrie (.node isWord children)).get (c :: q') = child.get q' := by
          intro q'
          rw [Trie.get_cons, toTrie, Trie.children_node, hc, bind_some]
        refine ⟨c :: q, rfl, (hcons q).trans hget, hnext.1, fun c' hc' => ?_⟩
        rw [cons_append, hcons]
        exact hnext.2 c' hc'

theorem mem_collectChildren {pre p next : List ℕ} : ∀ ts : List (ℕ × CodeTrie), OrderedChildren ts →
    ((p, next) ∈ collectChildren pre ts → ∃ c q child, p = pre ++ c :: q ∧
      childrenOf ts c = some child ∧ child.get q = some false ∧ next ≠ [] ∧
      ∀ c' ∈ next, (child.get (q ++ [c'])).isSome)
  | [] => fun _ h => absurd h not_mem_nil
  | (c, t) :: ts => by
      intro hordered h
      rw [collectChildren, mem_append] at h
      rcases h with h | h
      · obtain ⟨q, rfl, hget, hnext⟩ := mem_collect t hordered.2.1 h
        refine ⟨c, q, t.toTrie, ?_, if_pos rfl, hget, hnext⟩
        rw [append_assoc, singleton_append]
      · obtain ⟨c', q, child, rfl, hc', hget, hnext⟩ := mem_collectChildren ts hordered.2.2 h
        have hmem : c' ∈ ts.map Prod.fst := isSome_childrenOf_iff.mp (by rw [hc']; rfl)
        obtain ⟨m, hm, rfl⟩ := mem_map.mp hmem
        refine ⟨m.1, q, child, rfl, ?_, hget, hnext⟩
        rw [childrenOf, if_neg (Nat.ne_of_gt (hordered.1 m hm))]
        exact hc'

end

mutual

/-- There is a piece at each node inside of a word. -/
theorem exists_mem_collect (pre : List ℕ) {q : List ℕ} {c : ℕ} :
    ∀ t : CodeTrie, t.toTrie.get q = some false → (t.toTrie.get (q ++ [c])).isSome →
      ∃ next, (pre ++ q, next) ∈ t.collect pre
  | .node isWord children => by
      intro hget hnext
      rw [collect]
      cases q with
      | nil =>
        rw [Trie.get_nil, toTrie, Trie.value_node, some.injEq] at hget
        have hmem : c ∈ children.map Prod.fst := by
          rw [← isSome_childrenOf_iff]
          rw [nil_append, Trie.get_cons, toTrie, Trie.children_node] at hnext
          cases hc : childrenOf children c with
          | none =>
            rw [hc] at hnext
            exact nomatch hnext
          | some child => rfl
        refine ⟨children.map Prod.fst, mem_append_left _ ?_⟩
        rw [if_pos ⟨hget, ne_nil_of_mem hmem⟩, append_nil]
        exact mem_singleton_self _
      | cons d q =>
        rw [Trie.get_cons, toTrie, Trie.children_node] at hget
        rw [cons_append, Trie.get_cons, toTrie, Trie.children_node] at hnext
        obtain ⟨child, hchild, hget⟩ := bind_eq_some_iff.mp hget
        rw [hchild] at hnext
        obtain ⟨next, hmem⟩ := exists_mem_collectChildren children hchild hget hnext
        exact ⟨next, mem_append_right _ hmem⟩

theorem exists_mem_collectChildren {pre q : List ℕ} {c d : ℕ} {child : WordTrie} :
    ∀ ts : List (ℕ × CodeTrie), childrenOf ts d = some child → child.get q = some false →
      (child.get (q ++ [c])).isSome → ∃ next, (pre ++ d :: q, next) ∈ collectChildren pre ts
  | [] => fun h => nomatch h
  | (d', t) :: ts => by
      intro hchild hget hnext
      rw [childrenOf] at hchild
      rw [collectChildren]
      split at hchild
      case isTrue heq =>
        subst heq
        obtain rfl := some.inj hchild
        obtain ⟨next, hmem⟩ := exists_mem_collect (pre ++ [d]) t hget hnext
        rw [append_assoc, singleton_append] at hmem
        exact ⟨next, mem_append_left _ hmem⟩
      case isFalse =>
        obtain ⟨next, hmem⟩ := exists_mem_collectChildren ts hchild hget hnext
        exact ⟨next, mem_append_right _ hmem⟩

end

end CodeTrie

end ExpertPin.Peg
