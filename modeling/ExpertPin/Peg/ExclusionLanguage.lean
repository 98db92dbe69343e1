import ExpertPin.Peg.Exclusion

/-!
# What the excluding grammar derives

The grammar derives the texts without the delimiters just if each beginning of a delimiter is one
as well, and no delimiter begins with a hyphen (`derives_iff_excludes_iff`).  Then its only
alternative is the class of the characters that no delimiter begins with.
-/

namespace ExpertPin.Peg

open Grammar Gbnf
open List

/-! ## Reading the pattern -/

/-- A place inside of a delimiter, and the characters that go on with one. -/
abbrev Piece : Type := List Char × List Char

namespace Piece

variable (piece : Piece)

def codes : List ℕ × List ℕ := (piece.1.map Char.toNat, piece.2.map Char.toNat)

/-- The grammar can be read as far as the piece goes. -/
def Readable : Prop := (∀ c ∈ piece.1, c ≠ '\x00') ∧ ∀ c ∈ piece.2, c ≠ '-'

def classText : Text := bytes "[^" ++ piece.codes.2.flatMap gbnfEscapeCharClass ++ bytes "]"

def text : Text :=
  if piece.1 = [] then piece.classText
  else gbnfFormatLiteral (Utf8.encode piece.1) ++ bytes " " ++ piece.classText

/-- What has been read of a sequence before its class. -/
def before (ids : Symbols) : Reading :=
  if piece.1 = [] then ⟨.empty, none, 1, ids⟩
  else (Reading.mk .empty none 1 ids).push (literalOf (piece.1.map Char.val)) 1 ids

def reading (ids : Symbols) : Reading :=
  (piece.before ids).push (classOf true (piece.2.map fun c => .one c.val)) 1 ids

def expr : Expr := (piece.reading []).whole

theorem whole_reading (ids : Symbols) : (piece.reading ids).whole = piece.expr := by
  rw [expr, reading, reading, before, before]
  split <;> rfl

theorem cptsToUtf8_map (text : List Char) :
    cptsToUtf8 (text.map Char.toNat) = some (Utf8.encode text) := by
  have hmap : (text.map Char.toNat).mapM cptToUtf8 = some (text.map String.utf8EncodeChar) := by
    induction text with
    | nil => rfl
    | cons c text ih =>
      have hc : cptToUtf8 c.toNat = some (String.utf8EncodeChar c) :=
        if_pos (Nat.le_of_lt_succ (Utf8.toNat_val_lt c))
      rw [map_cons, mapM_cons, hc, ih]
      rfl
  rw [cptsToUtf8, hmap]
  rfl

theorem excludingPiece_codes : excludingPiece piece.codes = some piece.text := by
  have hcodes : piece.codes.1 = [] ↔ piece.1 = [] := map_eq_nil_iff
  rw [excludingPiece, text]
  by_cases h : piece.1 = []
  · rw [if_pos (hcodes.mpr h), if_pos h]
    rfl
  · have hwords : bytes " [^" = bytes " " ++ bytes "[^" := rfl
    rw [if_neg fun hnil => h (hcodes.mp hnil), if_neg h, hwords]
    simp only [codes, cptsToUtf8_map, Option.map_some, classText, append_assoc]

variable {piece} {vocab : Option (Text → Option ℕ)} {ruleName rest src : Text} {c : UInt8}

theorem parseSpace_classText :
    parseSpace (cString (piece.classText ++ rest)) true = cString (piece.classText ++ rest) := by
  rw [classText, append_assoc, append_assoc,
    cString_append (forall_mem_ne'.mpr (by decide))]
  exact parseSpace_cons (by decide)

theorem settles_classText {r : Reading} (hend : parseSpace (cString rest) true = c :: src)
    (hc : c = byte '|' ∨ c = byte ')') :
    Settles (fun fuel => parseSequence vocab ruleName fuel true r
        (cString (piece.classText ++ rest)))
      (∀ c ∈ piece.2, c ≠ '-')
      ((r.push (classOf true (piece.2.map fun c => .one c.val)) 1 r.ids).whole, r.ids,
        c :: src) := by
  have hcut : cString (piece.classText ++ rest) = byte '[' :: byte '^' ::
      cString (piece.codes.2.flatMap gbnfEscapeCharClass ++ byte ']' :: rest) := by
    rw [classText, List.append_assoc, List.append_assoc,
      cString_append (List.forall_mem_ne'.mpr (by decide))]
    rfl
  have hrest : Settles (fun fuel => parseSequence vocab ruleName fuel true
      (r.push (classOf true (piece.2.map fun c => .one c.val)) 1 r.ids)
      (parseSpace (cString rest) true)) True
      ((r.push (classOf true (piece.2.map fun c => .one c.val)) 1 r.ids).whole, r.ids,
        c :: src) := by
    rw [hend]
    exact settles_end hc
  rw [hcut]
  exact (settles_negated (settles_excludedClass piece.2 rest) hrest).congr (by rw [and_true])

theorem settles_text {ids : Symbols} (hend : parseSpace (cString rest) true = c :: src)
    (hc : c = byte '|' ∨ c = byte ')') :
    Settles (fun fuel => parseSequence vocab ruleName fuel true ⟨.empty, none, 1, ids⟩
      (cString (piece.text ++ rest))) piece.Readable (piece.expr, ids, c :: src) := by
  by_cases h : piece.1 = []
  · have hreadable : (∀ c ∈ piece.2, c ≠ '-') ↔ piece.Readable := by
      rw [Readable, h, and_iff_right (List.forall_mem_nil _)]
    have hbefore : piece.before ids = ⟨.empty, none, 1, ids⟩ := if_pos h
    rw [text, if_pos h, ← whole_reading piece ids, reading, hbefore]
    exact (settles_classText hend hc).congr hreadable
  · have hcut : cString (piece.text ++ rest) = byte '"' :: cString
        ((Utf8.encode piece.1).flatMap escapeLiteral ++ byte '"' ::
          (byte ' ' :: (piece.classText ++ rest))) := by
      have hspace : bytes " " = [byte ' '] := rfl
      rw [text, if_neg h, gbnfFormatLiteral, hspace, ← cString_cons (by decide)]
      simp only [List.append_assoc, List.cons_append, List.nil_append]
    have hspace : parseSpace (cString (byte ' ' :: (piece.classText ++ rest))) true =
        cString (piece.classText ++ rest) := by
      rw [cString_cons (by decide)]
      exact parseSpace_classText
    have hbefore : piece.before ids =
        (Reading.mk .empty none 1 ids).push (literalOf (piece.1.map Char.val)) 1 ids := if_neg h
    rw [hcut, ← whole_reading piece ids, reading, hbefore]
    refine settles_literal (settles_excludedLiteral piece.1 _) ?_
    rw [hspace]
    exact settles_classText hend hc

theorem head_text : ∃ b tail, piece.text = b :: tail ∧ b ≠ 0 ∧
    b ≠ byte ' ' ∧ b ≠ byte '\t' ∧ b ≠ byte '#' ∧ b ≠ byte '\r' ∧ b ≠ byte '\n' := by
  rw [text]
  split
  · exact ⟨byte '[', _, rfl, by decide⟩
  · exact ⟨byte '"', _, rfl, by decide⟩

end Piece

variable {vocab : Option (Text → Option ℕ)} {ruleName : Text} {pieces : List Piece} {piece : Piece}

/-- The alternatives of some pieces. -/
def alternativesExpr : List Piece → Expr
  | [] => .empty
  | [piece] => piece.expr
  | piece :: pieces => .alt piece.expr (alternativesExpr pieces)

theorem parseSpace_joinAlternates (rest : Text) (h : pieces ≠ []) :
    parseSpace (cString (joinAlternates (pieces.map Piece.text) ++ rest)) true =
      cString (joinAlternates (pieces.map Piece.text) ++ rest) := by
  cases pieces with
  | nil => exact absurd rfl h
  | cons piece pieces =>
    obtain ⟨b, tail, htext, hb, hspace⟩ := piece.head_text
    have hhead : ∃ tail', joinAlternates ((piece :: pieces).map Piece.text) = b :: tail' := by
      cases pieces with
      | nil => exact ⟨tail, htext⟩
      | cons piece' pieces =>
        have hjoin : joinAlternates ((piece :: piece' :: pieces).map Piece.text) =
            piece.text ++ bytes " | " ++ joinAlternates ((piece' :: pieces).map Piece.text) :=
          rfl
        rw [hjoin, htext]
        exact ⟨_, rfl⟩
    obtain ⟨tail', hjoin⟩ := hhead
    rw [hjoin, cons_append, cString_cons hb]
    exact parseSpace_cons hspace

theorem settles_joinAlternates {ids : Symbols} (h : pieces ≠ []) :
    Settles (fun fuel => parseAlternates vocab ruleName fuel true ids
        (cString (joinAlternates (pieces.map Piece.text) ++ bytes ")*")))
      (∀ piece ∈ pieces, piece.Readable) (alternativesExpr pieces, ids, bytes ")*") := by
  induction pieces with
  | nil => exact absurd rfl h
  | cons piece pieces ih =>
    cases pieces with
    | nil =>
      have hsequence : Settles (fun fuel => parseSequence vocab ruleName fuel true
          ⟨.empty, none, 1, ids⟩ (cString (piece.text ++ bytes ")*"))) piece.Readable
          (piece.expr, ids, bytes ")*") := piece.settles_text rfl (.inr rfl)
      have hend : (bytes ")*").head? ≠ some (byte '|') := by decide
      refine (settles_alternates_last hsequence hend).congr ?_
      rw [List.forall_mem_singleton]
    | cons piece' pieces =>
      have hne := List.cons_ne_nil piece' pieces
      let rest := joinAlternates ((piece' :: pieces).map Piece.text) ++ bytes ")*"
      have hend : parseSpace (cString (bytes " | " ++ rest)) true =
          byte '|' :: byte ' ' :: cString rest := by
        rw [cString_append (List.forall_mem_ne'.mpr (by decide))]
        rfl
      have hsequence : Settles (fun fuel => parseSequence vocab ruleName fuel true
          ⟨.empty, none, 1, ids⟩ (cString (piece.text ++ (bytes " | " ++ rest)))) piece.Readable
          (piece.expr, ids, byte '|' :: byte ' ' :: cString rest) :=
        piece.settles_text hend (.inl rfl)
      have hmore : Settles (fun fuel => parseAlternates vocab ruleName fuel true ids
          (parseSpace (byte ' ' :: cString rest) true))
          (∀ piece ∈ piece' :: pieces, piece.Readable)
          (alternativesExpr (piece' :: pieces), ids, bytes ")*") := by
        have hspace : parseSpace (byte ' ' :: cString rest) true = cString rest :=
          parseSpace_joinAlternates (bytes ")*") hne
        rw [hspace]
        exact ih hne
      have hjoin : joinAlternates ((piece :: piece' :: pieces).map Piece.text) ++ bytes ")*" =
          piece.text ++ (bytes " | " ++ rest) := by
        rw [← List.append_assoc, ← List.append_assoc]
        rfl
      rw [hjoin, List.forall_mem_cons]
      exact settles_alternates_more hsequence rfl hmore

theorem length_generateSymbolId_le (ruleName : Text) (ids : Symbols) :
    (generateSymbolId ruleName ids).length ≤ ids.length + 1 := by
  rw [generateSymbolId, getSymbolId]
  split
  · exact Nat.le_succ _
  · rw [length_append]
    exact Nat.le_refl _

/-- What is made of the pattern. -/
def patternExpr (pieces : List Piece) : Expr :=
  .seq .empty (.rep (alternativesExpr pieces) 0 none)

theorem settles_pattern {ids : Symbols} (h : pieces ≠ []) :
    Settles (fun fuel => parseAlternates vocab ruleName fuel false ids (byte '(' ::
        cString (joinAlternates (pieces.map Piece.text) ++ bytes ")*")))
      (∀ piece ∈ pieces, piece.Readable)
      (patternExpr pieces, generateSymbolId ruleName (generateSymbolId ruleName ids), []) := by
  have hgroup : Settles (fun fuel => parseAlternates vocab ruleName fuel true
      (generateSymbolId ruleName ids)
      (parseSpace (cString (joinAlternates (pieces.map Piece.text) ++ bytes ")*")) true))
      (∀ piece ∈ pieces, piece.Readable)
      (alternativesExpr pieces, generateSymbolId ruleName ids, byte ')' :: [byte '*']) := by
    rw [parseSpace_joinAlternates _ h]
    exact settles_joinAlternates h
  -- one rule has been made for the group
  have hrules : max 1 (((generateSymbolId ruleName ids).length - ids.length) % 2 ^ 32) = 1 := by
    have hle := length_generateSymbolId_le ruleName ids
    omega
  have hspace : parseSpace [byte '*'] false = [byte '*'] := parseSpace_cons (by decide)
  have hend : Settles (fun fuel => parseSequence vocab ruleName fuel false
      ⟨.empty, some (.rep (alternativesExpr pieces) 0 none), 1,
        generateSymbolId ruleName (generateSymbolId ruleName ids)⟩ []) True
      (patternExpr pieces, generateSymbolId ruleName (generateSymbolId ruleName ids), []) :=
    Settles.succ_ok (e := .outOfFuel) trivial rfl fun _ => rfl
  have hstar : Settles (fun fuel => parseSequence vocab ruleName fuel false
      ((Reading.mk .empty none 1 ids).push (some (alternativesExpr pieces))
        (max 1 (((generateSymbolId ruleName ids).length - ids.length) % 2 ^ 32))
        (generateSymbolId ruleName ids)) (parseSpace [byte '*'] false)) True
      (patternExpr pieces, generateSymbolId ruleName (generateSymbolId ruleName ids), []) := by
    have hone : 1 < maxRepetitionThreshold := by decide
    rw [hrules, hspace]
    exact settles_star (handleRepetitions_star rfl hone) hend
  have hsequence := settles_group (r := .mk .empty none 1 ids) hgroup hstar
  refine (settles_alternates_last hsequence ?_).congr (by rw [and_true])
  exact nofun

/-- The pattern is read if all of its pieces are. -/
theorem reads_pattern_iff {ids : Symbols} {e : Expr} (h : pieces ≠ []) :
    Gbnf.Reads vocab ruleName ids
      (byte '(' :: joinAlternates (pieces.map Piece.text) ++ bytes ")*") e ↔
      (∀ piece ∈ pieces, piece.Readable) ∧ e = patternExpr pieces := by
  have hcut : parseSpace (cString
      (byte '(' :: joinAlternates (pieces.map Piece.text) ++ bytes ")*")) true =
      byte '(' :: cString (joinAlternates (pieces.map Piece.text) ++ bytes ")*") := by
    rw [cons_append, cString_cons (by decide)]
    exact parseSpace_cons (by decide)
  rw [Gbnf.Reads, hcut]
  constructor
  · rintro ⟨fuel, ids', hfuel⟩
    obtain ⟨hreadable, heq⟩ := (settles_pattern h).exists_iff.mp ⟨fuel, hfuel⟩
    exact ⟨hreadable, congrArg Prod.fst heq⟩
  · rintro ⟨hreadable, rfl⟩
    obtain ⟨fuel, hfuel⟩ := (settles_pattern h).exists_iff.mpr ⟨hreadable, rfl⟩
    exact ⟨fuel, _, hfuel⟩

/-! ## The pieces of some delimiters -/

section

variable {delimiters : List (List Char)}

/-- A place inside of a delimiter, where none ends. -/
structure Inside (delimiters : List (List Char)) (p : List Char) : Prop where
  ne_nil : p ≠ []
  not_mem : p ∉ delimiters
  exists_prefix : ∃ d ∈ delimiters, p <+: d

/-- The trie of the delimiters. -/
def trieOf (delimiters : List (List Char)) : CodeTrie :=
  CodeTrie.ofWords (delimiters.map Utf8.encode)

theorem map_toNat_inj {p q : List Char} : p.map Char.toNat = q.map Char.toNat ↔ p = q :=
  (map_injective_iff.mpr fun _ _ => Char.toNat_inj.mp).eq_iff

theorem map_toNat_prefix_iff {p q : List Char} : p.map Char.toNat <+: q.map Char.toNat ↔ p <+: q :=
  prefix_map_iff_of_injective fun _ _ => Char.toNat_inj.mp

theorem toTrie_trieOf : (trieOf delimiters).toTrie =
    (delimiters.map fun d => d.map Char.toNat).foldl WordTrie.insert (.leaf false) := by
  have hreadable : ∀ d : List Char, readable (Utf8.encode d) = d.map Char.toNat := fun d =>
    codepoints_encode rfl (Nat.le_refl _)
  rw [trieOf, CodeTrie.toTrie_ofWords, WordTrie.ofWords, foldl_map, foldl_map]
  exact congrArg (foldl · _ _) (funext fun t => funext fun d =>
    congrArg t.insert (hreadable d))

theorem get_trieOf_iff (p : List Char) :
    (trieOf delimiters).toTrie.get (p.map Char.toNat) = some true ↔ p ∈ delimiters := by
  rw [toTrie_trieOf, (WordTrie.get_words _ _).1, mem_map]
  simp only [map_toNat_inj, exists_eq_right]

/-- The paths of the trie are those of the beginnings of delimiters. -/
theorem exists_of_isSome_get {q : List ℕ} (h : ((trieOf delimiters).toTrie.get q).isSome) :
    ∃ p, q = p.map Char.toNat ∧ ((∃ d ∈ delimiters, p <+: d) ∨ p = []) := by
  rw [toTrie_trieOf, (WordTrie.get_words _ _).2] at h
  rcases h with ⟨w, hw, hprefix⟩ | rfl
  · obtain ⟨d, hd, rfl⟩ := mem_map.mp hw
    obtain ⟨p, hp, rfl⟩ := prefix_map_iff.mp hprefix
    exact ⟨p, rfl, .inl ⟨d, hd, hp⟩⟩
  · exact ⟨[], rfl, .inr rfl⟩

theorem isSome_get_trieOf {p d : List Char} (hd : d ∈ delimiters) (hp : p <+: d) :
    ((trieOf delimiters).toTrie.get (p.map Char.toNat)).isSome := by
  rw [toTrie_trieOf, (WordTrie.get_words _ _).2]
  exact .inl ⟨_, mem_map_of_mem hd, map_toNat_prefix_iff.mpr hp⟩

theorem isSome_get_trieOf_iff {p : List Char} (h : p ≠ []) :
    ((trieOf delimiters).toTrie.get (p.map Char.toNat)).isSome ↔ ∃ d ∈ delimiters, p <+: d := by
  constructor
  · intro hsome
    obtain ⟨p', hp', hprefix⟩ := exists_of_isSome_get hsome
    obtain rfl := map_toNat_inj.mp hp'
    exact hprefix.resolve_right h
  · rintro ⟨d, hd, hp⟩
    exact isSome_get_trieOf hd hp

theorem codes_injective : Function.Injective Piece.codes := by
  intro piece piece' h
  obtain ⟨h, h'⟩ := Prod.mk.inj h
  exact Prod.ext (map_toNat_inj.mp h) (map_toNat_inj.mp h')

theorem inside_iff {p : List Char} (h : p ≠ []) :
    Inside delimiters p ↔ (trieOf delimiters).toTrie.get (p.map Char.toNat) = some false := by
  constructor
  · rintro ⟨-, hmem, d, hd, hp⟩
    obtain ⟨b, hb⟩ := Option.isSome_iff_exists.mp (isSome_get_trieOf hd hp)
    cases b with
    | false => exact hb
    | true => exact absurd ((get_trieOf_iff p).mp hb) hmem
  · intro hget
    refine ⟨h, fun hmem => ?_, ?_⟩
    · rw [(get_trieOf_iff p).mpr hmem] at hget
      exact nomatch hget
    · obtain ⟨p', hp', hprefix⟩ := exists_of_isSome_get (by rw [hget]; rfl)
      obtain rfl := map_toNat_inj.mp hp'
      exact hprefix.resolve_right h

/-- A piece inside of the delimiters. -/
theorem exists_piece {p next : List ℕ}
    (h : (p, next) ∈ CodeTrie.collectChildren [] (trieOf delimiters).children) :
    ∃ piece : Piece, piece.codes = (p, next) ∧ Inside delimiters piece.1 ∧ piece.2 ≠ [] := by
  have hordered := CodeTrie.ordered_iff.mp (CodeTrie.ordered_ofWords (delimiters.map Utf8.encode))
  obtain ⟨c, q, child, rfl, hc, hget, hne, hnext⟩ := CodeTrie.mem_collectChildren _ hordered h
  have hcons : ∀ q', (trieOf delimiters).toTrie.get (c :: q') = child.get q' := by
    intro q'
    rw [CodeTrie.toTrie_eq, Trie.get_cons, Trie.children_node, trieOf, hc, Option.bind_some]
  rw [← hcons] at hget
  obtain ⟨p, hp, -⟩ := exists_of_isSome_get (by rw [hget]; rfl)
  have hchars : next ∈ Set.range (map Char.toNat) := by
    rw [Set.range_list_map]
    intro c' hc'
    have hsome := hnext c' hc'
    rw [← hcons] at hsome
    obtain ⟨p', hp', -⟩ := exists_of_isSome_get hsome
    have hmem : c' ∈ p'.map Char.toNat := hp' ▸
      mem_cons_of_mem c (mem_append_right q (mem_singleton_self c'))
    obtain ⟨x, -, hx⟩ := mem_map.mp hmem
    exact ⟨x, hx⟩
  obtain ⟨n, rfl⟩ := hchars
  have hnil : p ≠ [] := by
    rintro rfl
    exact cons_ne_nil c q hp
  refine ⟨(p, n), Prod.ext hp.symm rfl, (inside_iff hnil).mpr (hp ▸ hget), ?_⟩
  rintro rfl
  exact hne rfl

/-- The first piece is the characters that delimiters begin with, and there is one for each place
inside of the delimiters. -/
theorem exists_pieces (hne : delimiters ≠ []) (hwords : ∀ d ∈ delimiters, d ≠ []) :
    ∃ (firsts : List Char) (pieces : List Piece),
      (trieOf delimiters).collect [] = ((([], firsts) : Piece) :: pieces).map Piece.codes ∧
      (∀ c, c ∈ firsts ↔ ∃ s, c :: s ∈ delimiters) ∧
      (∀ piece ∈ pieces, Inside delimiters piece.1 ∧ piece.2 ≠ []) ∧
      ∀ p, Inside delimiters p → ∃ piece ∈ pieces, piece.1 = p := by
  obtain ⟨isWord, children, htrie⟩ :
      ∃ isWord children, trieOf delimiters = .node isWord children := by
    cases trieOf delimiters with
    | node isWord children => exact ⟨isWord, children, rfl⟩
  have hroot : isWord = false := by
    have hiff : (trieOf delimiters).toTrie.get (([] : List Char).map Char.toNat) = some true ↔
        [] ∈ delimiters := get_trieOf_iff []
    rw [map_nil, Trie.get_nil, htrie, CodeTrie.toTrie, Trie.value_node] at hiff
    exact Bool.eq_false_iff.mpr fun h => hwords [] (hiff.mp (congrArg some h)) rfl
  have hkeys : ∀ c, c ∈ children.map Prod.fst ↔ ((trieOf delimiters).toTrie.get [c]).isSome := by
    intro c
    rw [← CodeTrie.isSome_childrenOf_iff, htrie, CodeTrie.toTrie, Trie.get_cons, Trie.children_node]
    cases CodeTrie.childrenOf children c with
    | none => rfl
    | some child => rfl
  have hchars : children.map Prod.fst ∈ Set.range (map Char.toNat) := by
    rw [Set.range_list_map]
    intro c hc
    obtain ⟨p, hp, -⟩ := exists_of_isSome_get ((hkeys c).mp hc)
    have hmem : c ∈ p.map Char.toNat := hp ▸ mem_singleton_self c
    obtain ⟨x, -, hx⟩ := mem_map.mp hmem
    exact ⟨x, hx⟩
  have hpieces : CodeTrie.collectChildren [] children ∈ Set.range (map Piece.codes) := by
    rw [Set.range_list_map]
    rintro ⟨p, next⟩ hpiece
    obtain ⟨piece, hcodes, -⟩ := exists_piece (by rw [htrie]; exact hpiece)
    exact ⟨piece, hcodes⟩
  obtain ⟨firsts, hfirsts⟩ := hchars
  obtain ⟨pieces, hpieces⟩ := hpieces
  have hmem : ∀ c, c ∈ firsts ↔ ∃ s, c :: s ∈ delimiters := by
    intro c
    have hcode : c ∈ firsts ↔ c.toNat ∈ firsts.map Char.toNat := by
      rw [mem_map_of_injective fun _ _ => Char.toNat_inj.mp]
    rw [hcode, hfirsts, hkeys]
    refine (isSome_get_trieOf_iff (cons_ne_nil c [])).trans ?_
    constructor
    · rintro ⟨d, hd, s, rfl⟩
      exact ⟨s, hd⟩
    · rintro ⟨s, hs⟩
      exact ⟨c :: s, hs, s, rfl⟩
  refine ⟨firsts, pieces, ?_, hmem, fun piece hpiece => ?_, fun p hp => ?_⟩
  · have hne : children.map Prod.fst ≠ [] := by
      obtain ⟨d, hd⟩ := exists_mem_of_ne_nil delimiters hne
      cases d with
      | nil => exact absurd rfl (hwords [] hd)
      | cons c s =>
        rw [← hfirsts]
        exact ne_nil_of_mem (mem_map_of_mem ((hmem c).mpr ⟨s, hd⟩))
    rw [htrie, CodeTrie.collect, if_pos ⟨hroot, hne⟩, ← hpieces, ← hfirsts]
    rfl
  · have hcodes : piece.codes ∈ CodeTrie.collectChildren [] (trieOf delimiters).children := by
      rw [htrie, CodeTrie.children, ← hpieces]
      exact mem_map_of_mem hpiece
    obtain ⟨piece', hpiece', hinside⟩ := exists_piece hcodes
    exact codes_injective hpiece' ▸ hinside
  · obtain ⟨d, hd, s, rfl⟩ := hp.exists_prefix
    cases s with
    | nil => exact absurd (append_nil p ▸ hd) hp.not_mem
    | cons c s =>
      have hget := (inside_iff hp.ne_nil).mp hp
      have hsome := isSome_get_trieOf (p := p ++ [c]) hd ⟨s, by rw [append_assoc]; rfl⟩
      rw [map_append] at hsome
      obtain ⟨next, hnext⟩ := CodeTrie.exists_mem_collect [] _ hget hsome
      rw [htrie, CodeTrie.collect, mem_append] at hnext
      rcases hnext with hnext | hnext
      · split at hnext
        case isTrue =>
          have hnil := congrArg Prod.fst (mem_singleton.mp hnext)
          exact absurd (map_eq_nil_iff.mp hnil) hp.ne_nil
        case isFalse => exact absurd hnext not_mem_nil
      · rw [← hpieces] at hnext
        obtain ⟨piece, hpiece, hcodes⟩ := mem_map.mp hnext
        exact ⟨piece, hpiece, map_toNat_inj.mp (congrArg Prod.fst hcodes)⟩

end

/-! ## What is derived -/

section

variable {ids : Symbols} {rules : Text → Language UInt32} {w : List UInt32}

theorem Piece.mem_language_expr (h : piece.2 ≠ []) : w ∈ piece.expr.language rules ↔
    ∃ chr, w = piece.1.map Char.val ++ [chr] ∧ chr ∉ piece.2.map Char.val := by
  obtain ⟨cls, hcls⟩ : ∃ cls, classOf true ((piece.2.map Char.val).map .one) = some cls := by
    obtain ⟨c, cs, hcons⟩ := exists_cons_of_ne_nil h
    rw [hcons]
    exact ⟨_, rfl⟩
  have hmap : piece.2.map (fun c => CharItem.one c.val) = (piece.2.map Char.val).map .one :=
    map_map.symm
  have hbefore : ∀ u, u ∈ (piece.before []).whole.language rules ↔ u = piece.1.map Char.val := by
    intro u
    rw [before]
    by_cases hnil : piece.1 = []
    · rw [if_pos hnil, hnil]
      exact Language.mem_one u
    · obtain ⟨literal, hliteral⟩ : ∃ literal, literalOf (piece.1.map Char.val) = some literal := by
        obtain ⟨c, cs, hcons⟩ := exists_cons_of_ne_nil hnil
        rw [hcons]
        exact ⟨_, rfl⟩
      have hwhole : ((Reading.mk .empty none 1 []).push (some literal) 1 []).whole =
          .seq .empty literal := rfl
      rw [if_neg hnil, hliteral, hwhole, Expr.language, Expr.language, one_mul]
      exact Expr.mem_language_literalOf hliteral
  have hexpr : piece.expr = .seq (piece.before []).whole cls := by
    rw [expr, reading, hmap, hcls]
    rfl
  rw [hexpr, Expr.language, Language.mem_mul]
  constructor
  · rintro ⟨u, hu, v, hv, rfl⟩
    obtain ⟨chr, rfl, hchr⟩ := (Expr.mem_language_negated hcls).mp hv
    exact ⟨chr, by rw [(hbefore u).mp hu], hchr⟩
  · rintro ⟨chr, rfl, hchr⟩
    have hnegated : [chr] ∈ cls.language rules :=
      (Expr.mem_language_negated hcls).mpr ⟨chr, rfl, hchr⟩
    exact ⟨_, (hbefore _).mpr rfl, [chr], hnegated, rfl⟩

theorem mem_language_alternativesExpr (h : pieces ≠ []) :
    w ∈ (alternativesExpr pieces).language rules ↔
      ∃ piece ∈ pieces, w ∈ piece.expr.language rules := by
  induction pieces with
  | nil => exact absurd rfl h
  | cons piece pieces ih =>
    cases pieces with
    | nil => simp only [mem_singleton, exists_eq_left, alternativesExpr]
    | cons piece' pieces =>
      have hsplit : (∃ p ∈ piece :: piece' :: pieces, w ∈ p.expr.language rules) ↔
          w ∈ piece.expr.language rules ∨ ∃ p ∈ piece' :: pieces, w ∈ p.expr.language rules := by
        simp only [mem_cons, exists_eq_or_imp]
      rw [hsplit, ← ih (cons_ne_nil piece' pieces)]
      exact Language.mem_add _ _ w

theorem mem_language_patternExpr : w ∈ (patternExpr pieces).language rules ↔
      w ∈ KStar.kstar ((alternativesExpr pieces).language rules) := by
  rw [patternExpr, Expr.language, Expr.language, one_mul]
  exact Expr.mem_language_star

end

/-! ## The claim of the grammar -/

section

variable {delimiters : List (List Char)} {ids : Symbols} {rules : Text → Language UInt32}

/-- The pattern for some delimiters can be read, and derives a text. -/
def Derives (vocab : Option (Text → Option ℕ)) (ruleName : Text) (ids : Symbols)
    (rules : Text → Language UInt32) (delimiters : List (List Char)) (w : List Char) : Prop :=
  ∃ text e, gbnfExcludingPattern (delimiters.map Utf8.encode) = some text ∧
    Gbnf.Reads vocab ruleName ids text e ∧ w.map Char.val ∈ e.language rules

/-- No delimiter occurs in a text. -/
def Excludes (delimiters : List (List Char)) (w : List Char) : Prop :=
  ∀ d ∈ delimiters, ¬d <:+: w

/-- Each beginning of a delimiter is a delimiter. -/
def PrefixClosed (delimiters : List (List Char)) : Prop :=
  ∀ d ∈ delimiters, ∀ p, p <+: d → p ≠ [] → p ∈ delimiters

theorem derives_iff {firsts : List Char} {w : List Char}
    (h : (trieOf delimiters).collect [] = ((([], firsts) : Piece) :: pieces).map Piece.codes) :
    Derives vocab ruleName ids rules delimiters w ↔
      (∀ piece ∈ (([], firsts) : Piece) :: pieces, Piece.Readable piece) ∧ w.map Char.val ∈
          KStar.kstar ((alternativesExpr (([], firsts) :: pieces)).language rules) := by
  have hmap : ∀ pieces : List Piece,
      (pieces.map Piece.codes).mapM excludingPiece = some (pieces.map Piece.text) := by
    intro pieces
    induction pieces with
    | nil => rfl
    | cons piece pieces ih =>
      rw [map_cons, mapM_cons, piece.excludingPiece_codes, ih]
      rfl
  have hpattern : gbnfExcludingPattern (delimiters.map Utf8.encode) = some (byte '(' ::
      joinAlternates (((([], firsts) : Piece) :: pieces).map Piece.text) ++ bytes ")*") := by
    rw [gbnfExcludingPattern, ← trieOf, h, hmap]
    rfl
  rw [Derives, hpattern]
  constructor
  · rintro ⟨text, e, htext, hreads, hw⟩
    rw [← Option.some.inj htext] at hreads
    obtain ⟨hreadable, rfl⟩ := (reads_pattern_iff (cons_ne_nil _ _)).mp hreads
    exact ⟨hreadable, mem_language_patternExpr.mp hw⟩
  · rintro ⟨hreadable, hw⟩
    exact ⟨_, _, rfl, (reads_pattern_iff (cons_ne_nil _ _)).mpr ⟨hreadable, rfl⟩,
      mem_language_patternExpr.mpr hw⟩

/-- A text of one character of the class, again and again. -/
theorem mem_kstar_class_iff {firsts w : List Char} (h : firsts ≠ []) :
    w.map Char.val ∈ KStar.kstar ((alternativesExpr [([], firsts)]).language rules) ↔
      ∀ c ∈ w, c ∉ firsts := by
  have hmem : ∀ c : Char, c.val ∈ firsts.map Char.val ↔ c ∈ firsts := fun c =>
    mem_map_of_injective fun _ _ => Char.val_inj.mp
  have hpiece : ∀ u, u ∈ (alternativesExpr [([], firsts)]).language rules ↔
      ∃ chr, u = [chr] ∧ chr ∉ firsts.map Char.val := fun u =>
    Piece.mem_language_expr h
  rw [Language.mem_kstar]
  constructor
  · rintro ⟨L, hL, hall⟩ c hc hfirst
    have hflatten : c.val ∈ L.flatten := hL ▸ mem_map_of_mem hc
    obtain ⟨u, hu, hcu⟩ := mem_flatten.mp hflatten
    obtain ⟨chr, rfl, hchr⟩ := (hpiece u).mp (hall u hu)
    exact hchr (mem_singleton.mp hcu ▸ (hmem c).mpr hfirst)
  · intro hall
    refine ⟨w.map fun c => [c.val], ?_, forall_mem_map.mpr fun c hc => ?_⟩
    · induction w with
      | nil => rfl
      | cons c w ih =>
        rw [map_cons, map_cons, flatten_cons, singleton_append,
          ← ih (forall_mem_cons.mp hall).2]
    · exact (hpiece _).mpr ⟨c.val, rfl, fun hmem' => hall c hc ((hmem c).mp hmem')⟩

/-- What holds where the grammar derives the texts without the delimiters. -/
theorem prefixClosed_of_derives_iff (hne : delimiters ≠ []) (hwords : ∀ d ∈ delimiters, d ≠ [])
    (h : ∀ w, Derives vocab ruleName ids rules delimiters w ↔ Excludes delimiters w) :
    PrefixClosed delimiters ∧ ∀ d ∈ delimiters, d.head? ≠ some '-' := by
  obtain ⟨firsts, pieces, hcollect, hfirsts, hinside, hpieces⟩ := exists_pieces hne hwords
  have hfirstsne : firsts ≠ [] := by
    obtain ⟨d, hd⟩ := exists_mem_of_ne_nil delimiters hne
    obtain ⟨c, s, rfl⟩ := exists_cons_of_ne_nil (hwords d hd)
    exact ne_nil_of_mem ((hfirsts c).mpr ⟨s, hd⟩)
  have hnil : Excludes delimiters [] := fun d hd hinside =>
    hwords d hd (infix_nil.mp hinside)
  have hreadable := ((derives_iff hcollect).mp ((h []).mpr hnil)).1
  rw [forall_mem_cons] at hreadable
  constructor
  · intro d hd p hp hpne
    by_contra hmem
    obtain ⟨c, q, rfl⟩ := exists_cons_of_ne_nil hpne
    have hfirst : c ∈ firsts := by
      obtain ⟨s, rfl⟩ := hp
      exact (hfirsts c).mpr ⟨q ++ s, hd⟩
    by_cases hc : [c] ∈ delimiters
    · -- the piece at this place derives a text with the delimiter in it
      obtain ⟨piece, hpiece, hplace⟩ := hpieces (c :: q) ⟨hpne, hmem, d, hd, hp⟩
      have hderives : Derives vocab ruleName ids rules delimiters (c :: q ++ ['-']) := by
        refine (derives_iff hcollect).mpr ⟨forall_mem_cons.mpr hreadable, ?_⟩
        refine Language.mem_kstar.mpr ⟨[(c :: q ++ ['-']).map Char.val], ?_, ?_⟩
        · exact (append_nil _).symm
        · refine forall_mem_singleton.mpr ?_
          rw [mem_language_alternativesExpr (cons_ne_nil _ _)]
          refine ⟨piece, mem_cons_of_mem _ hpiece, ?_⟩
          rw [Piece.mem_language_expr (hinside piece hpiece).2, hplace, map_append]
          refine ⟨_, rfl, fun hhyphen => ?_⟩
          obtain ⟨c', hc', hval⟩ := mem_map.mp hhyphen
          exact (hreadable.2 piece hpiece).2 c' hc' (Char.val_inj.mp hval)
      exact (h _).mp hderives [c] hc ⟨[], q ++ ['-'], rfl⟩
    · -- the character alone is not derived
      have hexcludes : Excludes delimiters [c] := by
        intro d' hd' hinside
        obtain ⟨x, s, rfl⟩ := exists_cons_of_ne_nil (hwords d' hd')
        have hlength : s.length + 1 ≤ 1 := hinside.length_le
        obtain rfl := length_eq_zero_iff.mp (Nat.le_zero.mp (Nat.le_of_succ_le_succ hlength))
        obtain rfl := mem_singleton.mp (hinside.subset (mem_singleton_self x))
        exact hc hd'
      have hderived := ((derives_iff hcollect).mp ((h [c]).mpr hexcludes)).2
      obtain ⟨L, hL, hall⟩ := Language.mem_kstar.mp hderived
      have hmem : c.val ∈ L.flatten := hL ▸ mem_singleton_self c.val
      obtain ⟨u, hu, hcu⟩ := mem_flatten.mp hmem
      have hlength : u.length ≤ 1 := by
        have hle := (sublist_flatten_of_mem hu).length_le
        rwa [← hL] at hle
      obtain ⟨piece, hpiece, hup⟩ :=
        (mem_language_alternativesExpr (cons_ne_nil _ _)).mp (hall u hu)
      rcases mem_cons.mp hpiece with rfl | hpiece
      · obtain ⟨chr, rfl, hchr⟩ := (Piece.mem_language_expr hfirstsne).mp hup
        refine hchr ?_
        rw [← mem_singleton.mp hcu]
        exact mem_map_of_mem hfirst
      · obtain ⟨chr, rfl, -⟩ := (Piece.mem_language_expr (hinside piece hpiece).2).mp hup
        rw [length_append, length_map] at hlength
        have hzero : piece.1.length ≤ 0 := Nat.le_of_succ_le_succ hlength
        exact (hinside piece hpiece).1.ne_nil (length_eq_zero_iff.mp (Nat.le_zero.mp hzero))
  · intro d hd hhead
    obtain ⟨s, rfl⟩ : ∃ s, d = '-' :: s := ⟨d.tail, (cons_head?_tail hhead).symm⟩
    exact hreadable.1.2 '-' ((hfirsts '-').mpr ⟨s, hd⟩) rfl

theorem derives_iff_of_prefixClosed (hne : delimiters ≠ []) (hwords : ∀ d ∈ delimiters, d ≠ [])
    (hclosed : PrefixClosed delimiters) (hhyphen : ∀ d ∈ delimiters, d.head? ≠ some '-')
    (w : List Char) :
    Derives vocab ruleName ids rules delimiters w ↔ Excludes delimiters w := by
  obtain ⟨firsts, pieces, hcollect, hfirsts, hinside, hpieces⟩ := exists_pieces hne hwords
  have hfirstsne : firsts ≠ [] := by
    obtain ⟨d, hd⟩ := exists_mem_of_ne_nil delimiters hne
    obtain ⟨c, s, rfl⟩ := exists_cons_of_ne_nil (hwords d hd)
    exact ne_nil_of_mem ((hfirsts c).mpr ⟨s, hd⟩)
  have hpieces : pieces = [] := by
    refine eq_nil_iff_forall_not_mem.mpr fun piece hpiece => ?_
    obtain ⟨hne, hmem, d, hd, hp⟩ := (hinside piece hpiece).1
    exact hmem (hclosed d hd _ hp hne)
  subst hpieces
  have hreadable : ∀ piece ∈ [(([], firsts) : Piece)], Piece.Readable piece := by
    refine forall_mem_singleton.mpr ⟨forall_mem_nil _, ?_⟩
    rintro c hc rfl
    obtain ⟨s, hs⟩ := (hfirsts '-').mp hc
    exact hhyphen _ hs rfl
  rw [derives_iff hcollect, and_iff_right hreadable, mem_kstar_class_iff hfirstsne]
  constructor
  · rintro hall d hd ⟨before, after, rfl⟩
    obtain ⟨c, s, rfl⟩ := exists_cons_of_ne_nil (hwords d hd)
    exact hall c (by simp) ((hfirsts c).mpr ⟨s, hd⟩)
  · intro hexcludes c hc hfirst
    obtain ⟨s, hs⟩ := (hfirsts c).mp hfirst
    have hone := hclosed _ hs [c] ⟨s, rfl⟩ (cons_ne_nil c [])
    obtain ⟨before, after, rfl⟩ := append_of_mem hc
    exact hexcludes [c] hone ⟨before, after, append_assoc before [c] after⟩

/-- The grammar that excludes delimiters derives the texts without them just if all beginnings of
delimiters are delimiters and none begins with a hyphen, which the grammar cannot have in a
class. -/
theorem derives_iff_excludes_iff (hne : delimiters ≠ []) (hwords : ∀ d ∈ delimiters, d ≠ []) :
    (∀ w, Derives vocab ruleName ids rules delimiters w ↔ Excludes delimiters w) ↔
      PrefixClosed delimiters ∧ ∀ d ∈ delimiters, d.head? ≠ some '-' :=
  ⟨prefixClosed_of_derives_iff hne hwords, fun h w =>
    derives_iff_of_prefixClosed hne hwords h.1 h.2 w⟩

theorem derives_iff_excludes_angle :
    Derives none (bytes "root") [] (fun _ => 0) [['<'], ['<', 'a']] ['b'] := by
  have hall : ∀ d ∈ [['<'], ['<', 'a']], ∀ p ∈ d.inits, p ≠ [] → p ∈ [['<'], ['<', 'a']] := by
    decide
  have hclosed : PrefixClosed [['<'], ['<', 'a']] := fun d hd p hp =>
    hall d hd p ((mem_inits p d).mpr hp)
  refine ((derives_iff_excludes_iff (cons_ne_nil _ _) (by decide)).mpr
    ⟨hclosed, by decide⟩ ['b']).mpr ?_
  have hnone : ∀ d ∈ [['<'], ['<', 'a']], ¬d <:+: ['b'] := by decide
  exact hnone

/-- A text that ends inside of a delimiter is not derived. -/
theorem not_derives_inside :
    ¬∀ w, Derives none (bytes "root") [] (fun _ => 0) [['a', 'b']] w ↔ Excludes [['a', 'b']] w := by
  intro h
  have hclosed := (prefixClosed_of_derives_iff (cons_ne_nil _ _) (by decide) h).1
  have hmem := hclosed ['a', 'b'] (mem_singleton_self _) ['a'] ⟨['b'], rfl⟩ (by decide)
  exact absurd hmem (by decide)

end

end ExpertPin.Peg
