import Mathlib.Data.List.Infix

/-!
# The text of tokens

The text of a token list is not the concatenation of the pieces of its tokens: the space in front
is taken away, and three passes tidy up spaces before punctuation.  Only blanks are ever removed
(`squeezed_detokenize`), so that the two agree up to the characters a comparison ignores.
-/

namespace ExpertPin.Server

open List

/-- `llama_token` -/
abbrev Token := Int

abbrev Text := List UInt8

/-- What detokenizing needs of a vocabulary. -/
structure Vocab where
  /-- the text of a token, special ones included -/
  piece : Token → Text
  /-- `add_space_prefix` -/
  addSpacePrefix : Bool
  /-- `clean_spaces` -/
  cleanSpaces : Bool

/-! ## Blanks -/

/-- The `ignore_set` of the comparison: the space and both line breaks. -/
def ignored (c : UInt8) : Bool :=
  c == 32 || c == 10 || c == 13

/-- `remove_with_set` -/
def removeIgnored (s : Text) : Text :=
  s.filter (!ignored ·)

@[simp] theorem removeIgnored_nil : removeIgnored [] = [] := rfl

@[simp] theorem removeIgnored_append (s t : Text) :
    removeIgnored (s ++ t) = removeIgnored s ++ removeIgnored t :=
  filter_append s t

theorem removeIgnored_cons (c : UInt8) (s : Text) :
    removeIgnored (c :: s) = if ignored c then removeIgnored s else c :: removeIgnored s := by
  cases h : ignored c <;> simp [removeIgnored, h]

/-- The second text is the first with some of its blanks left out. -/
inductive Squeezed : Text → Text → Prop
  | nil : Squeezed [] []
  | keep (c : UInt8) {s t : Text} : Squeezed s t → Squeezed (c :: s) (c :: t)
  | drop {c : UInt8} {s t : Text} : ignored c → Squeezed s t → Squeezed (c :: s) t

namespace Squeezed

theorem refl (s : Text) : Squeezed s s := by
  induction s with
  | nil => exact .nil
  | cons c s ih => exact .keep c ih

theorem trans {s t u : Text} (hst : Squeezed s t) (htu : Squeezed t u) : Squeezed s u := by
  induction hst generalizing u with
  | nil => exact htu
  | keep c hst ih =>
    cases htu with
    | keep _ htu => exact .keep c (ih htu)
    | drop hc htu => exact .drop hc (ih htu)
  | drop hc hst ih => exact .drop hc (ih htu)

theorem prepend (a : Text) {s t : Text} (h : Squeezed s t) : Squeezed (a ++ s) (a ++ t) := by
  induction a with
  | nil => exact h
  | cons c a ih => exact .keep c ih

theorem append {s t : Text} (h : Squeezed s t) (a : Text) : Squeezed (s ++ a) (t ++ a) := by
  induction h with
  | nil => exact refl a
  | keep c _ ih => exact .keep c ih
  | drop hc _ ih => exact .drop hc ih

/-- One blank is left out, wherever it stands. -/
theorem cut (a : Text) {c : UInt8} (hc : ignored c) (s : Text) : Squeezed (a ++ c :: s) (a ++ s) :=
  prepend a (.drop hc (refl s))

theorem removeIgnored_eq {s t : Text} (h : Squeezed s t) : removeIgnored t = removeIgnored s := by
  induction h with
  | nil => rfl
  | keep c _ ih => simp only [removeIgnored_cons, ih]
  | drop hc _ ih => simp only [removeIgnored_cons, ih, hc, if_true]

/-- As many bytes of the squeezed text hold at least as much besides blanks. -/
theorem length_take_le {s t : Text} (h : Squeezed s t) {m n : ℕ} (hmn : m ≤ n) :
    (removeIgnored (s.take m)).length ≤ (removeIgnored (t.take n)).length := by
  induction h generalizing m n with
  | nil => simp
  | keep c _ ih =>
    cases m with
    | zero => simp
    | succ m =>
      obtain ⟨n, rfl⟩ := Nat.exists_eq_add_of_le' (Nat.le_trans (Nat.le_add_left 1 m) hmn)
      simp only [take_succ_cons, removeIgnored_cons]
      have hle := ih (Nat.le_of_succ_le_succ hmn)
      split
      · exact hle
      · exact Nat.succ_le_succ hle
  | drop hc _ ih =>
    cases m with
    | zero => simp
    | succ m =>
      simp only [take_succ_cons, removeIgnored_cons, hc, if_true]
      exact ih (Nat.le_of_succ_le hmn)

end Squeezed

/-! ## Detokenizing -/

/-- `token_to_piece` with `lstrip` one -/
def stripSpace : Text → Text
  | [] => []
  | c :: s => if c = 32 then s else c :: s

theorem squeezed_stripSpace (s : Text) : Squeezed s (stripSpace s) := by
  cases s with
  | nil => exact .nil
  | cons c s =>
    rw [stripSpace]
    split
    case isTrue h => exact .drop (by rw [h]; rfl) (.refl s)
    case isFalse => exact .refl _

/-- Is the space before `x` removed by the first pass, " ?", " !", " ." and " ,"? -/
def isPunctuation (x : UInt8) : Bool :=
  x == 63 || x == 33 || x == 46 || x == 44

/-- The first pass.  Written is `out`, last character first; `prev` is the character read
before. -/
def joinPunctuation (out : Text) (prev : UInt8) : Text → Text
  | [] => out.reverse
  | x :: s => joinPunctuation (x :: if prev = 32 ∧ isPunctuation x then out.tail else out) x s

/-- The second pass, over apostrophes between spaces.  The space after one is overwritten with a
zero, which the next step reads. -/
def joinApostrophes (out : Text) (prev : UInt8) : Text → Text
  | [] => out.reverse
  | [x] => (x :: out).reverse
  | x :: y :: s =>
    if x = 39 ∧ prev = 32 ∧ y = 32 then joinApostrophes (x :: out.tail) 0 s
    else joinApostrophes (x :: out) x (y :: s)

/-- What follows an apostrophe in "'s", "'m", "'re" and "'ve". -/
def isContraction : Text → Bool
  | [] => false
  | [x] => x == 115 || x == 109
  | x :: y :: _ => x == 115 || x == 109 || ((x == 114 || x == 118) && y == 101)

/-- The third pass. -/
def joinContractions (out : Text) (prev : UInt8) : Text → Text
  | [] => out.reverse
  | x :: s =>
    joinContractions (x :: if prev = 32 ∧ x = 39 ∧ isContraction s then out.tail else out) x s

/-- A pass starts behind the first character. -/
def pass (step : Text → UInt8 → Text → Text) : Text → Text
  | [] => []
  | c :: s => step [c] c s

/-- The pieces, without the space in front where the tokenizer put one. -/
def Vocab.joinPieces (V : Vocab) : List Token → Text
  | [] => []
  | t :: ts =>
    (if V.addSpacePrefix then stripSpace (V.piece t) else V.piece t) ++ ts.flatMap V.piece

/-- `llama_vocab::impl::detokenize` without removing and with unparsing special tokens. -/
def Vocab.detokenize (V : Vocab) (tokens : List Token) : Text :=
  if V.cleanSpaces then
    pass joinContractions (pass joinApostrophes (pass joinPunctuation (V.joinPieces tokens)))
  else V.joinPieces tokens

/-- What a pass may drop from what is written: a space that was read just before. -/
theorem squeezed_tail {out : Text} {prev : UInt8} (h : prev = 32 → out.head? = some 32)
    (s : Text) (hprev : prev = 32) : Squeezed (out.reverse ++ s) (out.tail.reverse ++ s) := by
  cases out with
  | nil => cases h hprev
  | cons c out =>
    have hc : c = 32 := Option.some.inj (h hprev)
    rw [reverse_cons, append_assoc]
    exact .cut out.reverse (by rw [hc]; rfl) s

theorem squeezed_joinPunctuation (s out : Text) (prev : UInt8)
    (h : prev = 32 → out.head? = some 32) :
    Squeezed (out.reverse ++ s) (joinPunctuation out prev s) := by
  induction s generalizing out prev with
  | nil => simpa [joinPunctuation] using Squeezed.refl _
  | cons x s ih =>
    unfold joinPunctuation
    have hstep := ih (x :: if prev = 32 ∧ isPunctuation x then out.tail else out) x
      fun hx => by rw [hx]; rfl
    rw [reverse_cons, append_assoc] at hstep
    refine .trans ?_ hstep
    split
    case isTrue hprev => exact squeezed_tail h _ hprev.1
    case isFalse => exact .refl _

theorem squeezed_joinContractions (s out : Text) (prev : UInt8)
    (h : prev = 32 → out.head? = some 32) :
    Squeezed (out.reverse ++ s) (joinContractions out prev s) := by
  induction s generalizing out prev with
  | nil => simpa [joinContractions] using Squeezed.refl _
  | cons x s ih =>
    unfold joinContractions
    have hstep := ih (x :: if prev = 32 ∧ x = 39 ∧ isContraction s then out.tail else out) x
      fun hx => by rw [hx]; rfl
    rw [reverse_cons, append_assoc] at hstep
    refine .trans ?_ hstep
    split
    case isTrue hprev => exact squeezed_tail h _ hprev.1
    case isFalse => exact .refl _

theorem squeezed_joinApostrophes (out : Text) (prev : UInt8) (s : Text)
    (h : prev = 32 → out.head? = some 32) :
    Squeezed (out.reverse ++ s) (joinApostrophes out prev s) := by
  induction out, prev, s using joinApostrophes.induct with
  | case1 out prev => simpa [joinApostrophes] using Squeezed.refl _
  | case2 out prev x => simpa [joinApostrophes] using Squeezed.refl _
  | case3 out prev x y s hxy ih =>
    rw [joinApostrophes, if_pos hxy]
    refine .trans ?_ (ih fun hz => absurd hz (by decide))
    rw [reverse_cons, append_assoc]
    refine .trans (squeezed_tail h _ hxy.2.1) (.prepend _ (.keep x ?_))
    exact .drop (by rw [hxy.2.2]; rfl) (.refl s)
  | case4 out prev x y s hxy ih =>
    rw [joinApostrophes, if_neg hxy]
    have hstep := ih fun hx => by rw [hx]; rfl
    rwa [reverse_cons, append_assoc] at hstep

theorem squeezed_pass {step : Text → UInt8 → Text → Text}
    (hstep : ∀ (c : UInt8) (s : Text), Squeezed (c :: s) (step [c] c s)) (s : Text) :
    Squeezed s (pass step s) := by
  cases s with
  | nil => exact .nil
  | cons c s => exact hstep c s

theorem squeezed_joinPieces (V : Vocab) (tokens : List Token) :
    Squeezed (tokens.flatMap V.piece) (V.joinPieces tokens) := by
  cases tokens with
  | nil => exact .nil
  | cons t ts =>
    refine Squeezed.append ?_ (ts.flatMap V.piece)
    split
    case isTrue => exact squeezed_stripSpace _
    case isFalse => exact .refl _

/-- Only blanks of the pieces are missing in the text. -/
theorem squeezed_detokenize (V : Vocab) (tokens : List Token) :
    Squeezed (tokens.flatMap V.piece) (V.detokenize tokens) := by
  have hhead : ∀ c : UInt8, c = 32 → [c].head? = some 32 := fun c hc => by rw [hc]; rfl
  have htext := squeezed_joinPieces V tokens
  unfold Vocab.detokenize
  split
  case isFalse => exact htext
  case isTrue =>
    have hpunct := squeezed_pass (fun c s => squeezed_joinPunctuation s [c] c (hhead c))
      (V.joinPieces tokens)
    have hapost := squeezed_pass (fun c s => squeezed_joinApostrophes [c] c s (hhead c))
      (pass joinPunctuation (V.joinPieces tokens))
    exact htext.trans (hpunct.trans (hapost.trans
      (squeezed_pass (fun c s => squeezed_joinContractions s [c] c (hhead c)) _)))

end ExpertPin.Server
