import ExpertPin.Peg.Semantics

/-!
# What the matcher sees

The trie of some delimiters has the beginnings of what can be read of them as its paths, and their
ends are marked.  At a character of a text it sees a delimiter where one stands or where the text
ends inside of one (`checkAt_ne_noMatch_iff`).
-/

namespace ExpertPin.Peg

open Utf8 (encode)
open List

namespace WordTrie

variable {t : WordTrie} {word s : List ℕ} {words : List (List ℕ)}

theorem get_leaf (b : Bool) (s : List ℕ) :
    (Trie.leaf b : WordTrie).get s = if s = [] then some b else none := by
  cases s with
  | nil => rfl
  | cons a s => rfl

theorem get_insert (t : WordTrie) (word s : List ℕ) : (t.insert word).get s =
      if s = word then some true
      else if s <+: word then some ((t.get s).getD false) else t.get s := by
  induction word generalizing t s with
  | nil =>
    cases s with
    | nil => rfl
    | cons b s => simp [insert, Trie.get_cons]
  | cons a word ih =>
    cases s with
    | nil => simp [insert]
    | cons b s =>
      rw [Trie.get_cons, Trie.get_cons, insert, Trie.children_node]
      by_cases hab : b = a
      · subst hab
        rw [Function.update_self, Option.bind_some, ih]
        simp only [cons.injEq, true_and, cons_prefix_cons]
        cases t.children b with
        | some child => rfl
        | none =>
          simp only [Option.getD_none, get_leaf, Option.bind_none]
          split_ifs <;> simp_all
      · rw [Function.update_of_ne hab, if_neg fun h => hab (cons.inj h).1,
          if_neg fun h => hab (cons_prefix_cons.mp h).1]

theorem get_foldl_insert (t : WordTrie) (words : List (List ℕ)) (s : List ℕ) :
    ((words.foldl insert t).get s = some true ↔ s ∈ words ∨ t.get s = some true) ∧
      (((words.foldl insert t).get s).isSome ↔ (∃ w ∈ words, s <+: w) ∨ (t.get s).isSome) := by
  induction words generalizing t with
  | nil => simp
  | cons word words ih =>
    rw [foldl_cons]
    obtain ⟨htrue, hsome⟩ := ih (t.insert word)
    rw [htrue, hsome, get_insert]
    by_cases hs : s = word
    · subst hs
      simp
    · rw [if_neg hs]
      by_cases hprefix : s <+: word
      · rw [if_pos hprefix]
        cases t.get s with
        | none => simp [hs, hprefix]
        | some b => simp [hs, hprefix]
      · rw [if_neg hprefix]
        simp [hs, hprefix]

theorem get_words (words : List (List ℕ)) (s : List ℕ) :
    ((words.foldl insert (.leaf false)).get s = some true ↔ s ∈ words) ∧
      (((words.foldl insert (.leaf false)).get s).isSome ↔ (∃ w ∈ words, s <+: w) ∨ s = []) := by
  obtain ⟨htrue, hsome⟩ := get_foldl_insert (.leaf false) words s
  rw [htrue, hsome, get_leaf]
  cases s with
  | nil => simp
  | cons a s => simp

/-- What `check` does with the characters that are left. -/
def walk : WordTrie → Bool → List ℕ → MatchResult
  | _, atRoot, [] => if atRoot then .noMatch else .partialMatch
  | t, _, c :: rest =>
    match t.children c with
    | none => .noMatch
    | some child => if child.value then .completeMatch else walk child false rest

/-- A word is come to, or a path is followed to the end of the text. -/
theorem walk_ne_noMatch_iff (t : WordTrie) (atRoot : Bool) (rest : List ℕ) :
    t.walk atRoot rest ≠ .noMatch ↔ (∃ s, s ≠ [] ∧ s <+: rest ∧ t.get s = some true) ∨
        ((atRoot = true → rest ≠ []) ∧ (t.get rest).isSome) := by
  induction rest generalizing t atRoot with
  | nil => cases atRoot <;> simp [walk]
  | cons c rest ih =>
    have hsplit : (∃ s, s ≠ [] ∧ s <+: c :: rest ∧ t.get s = some true) ↔
        ∃ s, s <+: rest ∧ t.get (c :: s) = some true := by
      constructor
      · rintro ⟨s, hne, hs, hget⟩
        cases s with
        | nil => exact absurd rfl hne
        | cons d s =>
          obtain ⟨rfl, hs'⟩ := cons_prefix_cons.mp hs
          exact ⟨s, hs', hget⟩
      · rintro ⟨s, hs, hget⟩
        exact ⟨c :: s, cons_ne_nil c s, cons_prefix_cons.mpr ⟨rfl, hs⟩, hget⟩
    rw [hsplit, walk]
    simp only [Trie.get_cons]
    cases t.children c with
    | none => simp
    | some child =>
      dsimp only [Option.bind_some]
      by_cases hvalue : child.value
      · rw [if_pos hvalue]
        refine iff_of_true ?_ (.inl ⟨[], nil_prefix, ?_⟩)
        · intro heq
          cases heq
        · rw [Trie.get_nil, hvalue]
      · rw [if_neg hvalue, ih]
        refine or_congr ?_ ?_
        · constructor
          · rintro ⟨s, -, hs, hget⟩
            exact ⟨s, hs, hget⟩
          · rintro ⟨s, hs, hget⟩
            refine ⟨s, ?_, hs, hget⟩
            rintro rfl
            exact hvalue (Option.some.inj hget)
        · simp

end WordTrie

/-! ## Characters of a text -/

variable {input : Text} {pos : ℕ}

variable {rest : List Char}

theorem drop_add_utf8Size {c : Char}
    (h : input.drop pos = encode (c :: rest)) :
    input.drop (pos + c.utf8Size) = encode rest := by
  rw [← drop_drop, h, Utf8.encode_cons, drop_left' (String.length_utf8EncodeChar c)]

theorem check_eq_walk (t : WordTrie) (atRoot : Bool) {steps : ℕ}
    (h : input.drop pos = encode rest) (hsteps : (encode rest).length ≤ steps) :
    t.check input steps atRoot pos = t.walk atRoot (rest.map Char.toNat) := by
  induction rest generalizing t atRoot pos steps with
  | nil =>
    have hend : input.length ≤ pos := drop_eq_nil_iff.mp h
    cases steps with
    | zero => rfl
    | succ steps =>
      rw [WordTrie.check, parseUtf8Codepoint, h]
      rfl
  | cons c rest ih =>
    rw [Utf8.encode_cons, length_append, String.length_utf8EncodeChar] at hsteps
    have hpos := c.utf8Size_pos
    obtain ⟨steps, rfl⟩ := Nat.exists_eq_add_of_le' (Nat.lt_of_lt_of_le hpos
      ((Nat.le_add_right _ _).trans hsteps))
    rw [WordTrie.check, parseUtf8Codepoint_of_drop (Utf8.encode_cons c rest ▸ h), map_cons,
      WordTrie.walk]
    dsimp only
    cases t.children c.toNat with
    | none => rfl
    | some child =>
      dsimp only
      rw [ih child false (drop_add_utf8Size h) (by omega)]

/-- All characters of a text are read. -/
theorem codepoints_encode {steps : ℕ} (h : input.drop pos = encode rest)
    (hsteps : (encode rest).length ≤ steps) :
    codepoints input steps pos = rest.map Char.toNat := by
  induction rest generalizing pos steps with
  | nil =>
    cases steps with
    | zero => rfl
    | succ steps =>
      rw [codepoints, parseUtf8Codepoint, h]
      rfl
  | cons c rest ih =>
    rw [Utf8.encode_cons, length_append, String.length_utf8EncodeChar] at hsteps
    have hpos := c.utf8Size_pos
    obtain ⟨steps, rfl⟩ := Nat.exists_eq_add_of_le' (Nat.lt_of_lt_of_le hpos
      ((Nat.le_add_right _ _).trans hsteps))
    rw [codepoints, parseUtf8Codepoint_of_drop (Utf8.encode_cons c rest ▸ h)]
    dsimp only
    rw [ih (drop_add_utf8Size h) (by omega), map_cons]

/-! ## Delimiters -/

/-- What can be read of a delimiter. -/
def readable (delimiter : Text) : List ℕ := codepoints delimiter delimiter.length 0

/-- At the beginning of the text stands what can be read of a delimiter, or the text is the
beginning of it. -/
def Seen (delimiters : List Text) (rest : List Char) : Prop :=
  ∃ d ∈ delimiters, readable d ≠ [] ∧ readable d <+: rest.map Char.toNat ∨
    rest ≠ [] ∧ rest.map Char.toNat <+: readable d

theorem checkAt_ne_noMatch_iff {delimiters : List Text}
    (h : input.drop pos = encode rest) :
    (WordTrie.ofWords delimiters).checkAt input pos ≠ .noMatch ↔ Seen delimiters rest := by
  have hlen : (encode rest).length ≤ input.length - pos := by rw [← h, length_drop]
  have hwords : WordTrie.ofWords delimiters =
      (delimiters.map readable).foldl WordTrie.insert (.leaf false) := by
    rw [foldl_map]
    rfl
  rw [WordTrie.checkAt, check_eq_walk _ _ h hlen, WordTrie.walk_ne_noMatch_iff, hwords]
  simp only [(WordTrie.get_words _ _).1, (WordTrie.get_words _ _).2, mem_map]
  constructor
  · rintro (⟨_, hne, hs, d, hd, rfl⟩ | ⟨hne, ⟨_, ⟨d, hd, rfl⟩, hs⟩ | hnil⟩)
    · exact ⟨d, hd, .inl ⟨hne, hs⟩⟩
    · exact ⟨d, hd, .inr ⟨fun hnil => hne trivial (by rw [hnil]; rfl), hs⟩⟩
    · exact absurd hnil (hne trivial)
  · rintro ⟨d, hd, ⟨hne, hs⟩ | ⟨hne, hs⟩⟩
    · exact .inl ⟨readable d, hne, hs, d, hd, rfl⟩
    · exact .inr ⟨fun _ hnil => hne (map_eq_nil_iff.mp hnil),
        .inl ⟨readable d, ⟨d, hd, rfl⟩, hs⟩⟩

end ExpertPin.Peg
