import ExpertPin.Lib.Borders
import ExpertPin.Sampling.ReasoningBudget

/-!
# What the token matcher recognises

After a token that does not go on with the pattern the matcher only remembers whether that token
begins it.  It should remember the longest beginning of the pattern that the tokens since its last
match end with.  The two are the same on all streams just when the pattern is repeated to its end
from each place where its first token occurs again (`recognises_stream_iff`).
-/

namespace ExpertPin.Sampling

open Borders
open Draft (Token)
open List
open Nat

namespace TokenMatcher

/-- A token for a matcher that is watched: the tokens since its last match are kept. -/
def watchStep (watched : TokenMatcher × List Token) (token : Token) : TokenMatcher × List Token :=
  let (matcher, found) := watched.1.advance token
  (matcher, if found then [] else watched.2 ++ [token])

/-- A fresh matcher after a stream, and the tokens since its last match. -/
def watch (pattern stream : List Token) : TokenMatcher × List Token :=
  stream.foldl watchStep ({ tokens := pattern }, [])

/-- At each token of a stream the matcher reports a match just when the tokens since the match
before end with the pattern. -/
def Recognises (pattern stream : List Token) : Prop :=
  ∀ before token, before ++ [token] <+: stream →
    (((watch pattern before).1.advance token).2 = true ↔
      pattern <:+ (watch pattern before).2 ++ [token])

/-- Where the first token of the pattern occurs again, the pattern is repeated to its end. -/
def Repeats (pattern : List Token) : Prop :=
  ∀ d, 0 < d → pattern[d]? = pattern[0]? → pattern.drop d <+: pattern

variable {pattern stream : List Token} {matcher : TokenMatcher} {since : List Token} {token : Token}

theorem watch_append_singleton (pattern before : List Token) (token : Token) :
    watch pattern (before ++ [token]) = watchStep (watch pattern before) token :=
  foldl_append

theorem watchStep_snd (watched : TokenMatcher × List Token) (token : Token) :
    (watchStep watched token).2 =
      if (watched.1.advance token).2 then [] else watched.2 ++ [token] := rfl

/-! ## Steps -/

/-- The three things that a token does to a matcher with a pattern. -/
theorem advance_cases (hne : pattern ≠ []) (pos : ℕ) (token : Token) :
    (pattern[pos]? = some token ∧ pattern.length ≤ pos + 1 ∧
      (⟨pattern, pos⟩ : TokenMatcher).advance token = (⟨pattern, 0⟩, true)) ∨
    (pattern[pos]? = some token ∧ pos + 1 < pattern.length ∧
      (⟨pattern, pos⟩ : TokenMatcher).advance token = (⟨pattern, pos + 1⟩, false)) ∨
    (pattern[pos]? ≠ some token ∧ (⟨pattern, pos⟩ : TokenMatcher).advance token =
      (⟨pattern, if pattern[0]? = some token then 1 else 0⟩, false)) := by
  unfold advance
  rw [if_neg hne]
  by_cases htoken : pattern[pos]? = some token
  · rw [if_pos htoken]
    rcases lt_or_ge (pos + 1) pattern.length with hlt | hge
    · rw [if_neg (not_le.mpr hlt)]
      exact .inr (.inl ⟨htoken, hlt, rfl⟩)
    · rw [if_pos hge]
      exact .inl ⟨htoken, hge, rfl⟩
  · rw [if_neg htoken]
    refine .inr (.inr ⟨htoken, ?_⟩)
    split
    · rfl
    · rfl

/-- The matcher remembers the longest beginning of its pattern. -/
structure Remembers (pattern : List Token) (watched : TokenMatcher × List Token) : Prop where
  tokens : watched.1.tokens = pattern
  short : watched.1.pos < pattern.length
  longest : Longest pattern watched.2 watched.1.pos

theorem remembers_nil (hne : pattern ≠ []) : Remembers pattern (watch pattern []) where
  tokens := rfl
  short := length_pos_iff.mpr hne
  longest := longest_nil pattern

/-- In a pattern that is repeated, a token that does not go on with the longest beginning goes on
with none but the empty one. -/
theorem Repeats.eq_zero (h : Repeats pattern) {k j : ℕ} (hlongest : Longest pattern since k)
    (hk : k < pattern.length) (htoken : pattern[k]? ≠ some token) (hj : j < pattern.length)
    (hends : pattern.take (j + 1) <:+ since ++ [token]) : j = 0 := by
  obtain ⟨hnext, hlt, hborder⟩ := hlongest.border_of_ne htoken hj hends
  refine Nat.eq_zero_of_not_pos fun hpos => ?_
  -- the border is where the first token occurs again
  have hfirst : pattern[k - j]? = pattern[0]? :=
    getElem?_of_border hlongest.le (Nat.le_of_lt hlt) hborder hpos
  obtain ⟨rest, hrest⟩ := h (k - j) (Nat.sub_pos_of_lt hlt) hfirst
  have hkj : k - j + j = k := Nat.sub_add_cancel (Nat.le_of_lt hlt)
  have hsame : pattern[k]? = pattern[j]? := by
    have hinside : j < (pattern.drop (k - j)).length := by
      rw [length_drop]
      omega
    calc pattern[k]?
        = (pattern.drop (k - j))[j]? := by rw [getElem?_drop, hkj]
      _ = (pattern.drop (k - j) ++ rest)[j]? := (getElem?_append_left hinside).symm
      _ = pattern[j]? := by rw [hrest]
  exact htoken (hsame.trans hnext)

/-- A token: whether the pattern is complete is reported, and the rest is remembered. -/
theorem Remembers.step (h : Repeats pattern) {watched : TokenMatcher × List Token}
    (hw : Remembers pattern watched) (token : Token) :
    ((watched.1.advance token).2 = true ↔ pattern <:+ watched.2 ++ [token]) ∧
      Remembers pattern (watchStep watched token) := by
  obtain ⟨⟨tokens, pos⟩, since⟩ := watched
  obtain ⟨rfl, hshort, hlongest⟩ := hw
  dsimp only at hshort hlongest
  have hne : tokens ≠ [] := length_pos_iff.mp (Nat.zero_lt_of_lt hshort)
  unfold watchStep
  rcases advance_cases hne pos token with ⟨htoken, hlast, hadvance⟩ | ⟨htoken, hmore, hadvance⟩ |
    ⟨htoken, hadvance⟩
  · have hcomplete := hlongest.extend htoken
    rw [hadvance]
    refine ⟨iff_of_true rfl (hcomplete.suffix_iff.mpr (Nat.le_antisymm hshort hlast)), ?_⟩
    exact remembers_nil hne
  · have hcomplete := hlongest.extend htoken
    rw [hadvance]
    refine ⟨iff_of_false Bool.false_ne_true fun hends => ?_, rfl, hmore, hcomplete⟩
    exact Nat.ne_of_lt hmore (hcomplete.suffix_iff.mp hends)
  · -- only the token itself can begin the pattern
    have hzero : ∀ j < tokens.length, tokens.take (j + 1) <:+ since ++ [token] → j = 0 :=
      fun j hj hends => h.eq_zero hlongest hshort htoken hj hends
    have hnext : Longest tokens (since ++ [token]) (if tokens[0]? = some token then 1 else 0) := by
      by_cases hfirst : tokens[0]? = some token
      · rw [if_pos hfirst]
        refine ⟨Nat.zero_lt_of_lt hshort, ?_, ?_⟩
        · exact (take_succ_suffix_iff (Nat.zero_lt_of_lt hshort)).mpr ⟨hfirst, nil_suffix⟩
        · intro j hj hends
          cases j with
          | zero => exact Nat.zero_le 1
          | succ j => exact Nat.succ_le_succ (Nat.le_of_eq (hzero j hj hends))
      · rw [if_neg hfirst]
        refine ⟨Nat.zero_le _, nil_suffix, ?_⟩
        intro j hj hends
        cases j with
        | zero => exact Nat.le_refl 0
        | succ j =>
          obtain rfl := hzero j hj hends
          exact absurd ((take_succ_suffix_iff hj).mp hends).1 hfirst
    have hbelow : (if tokens[0]? = some token then 1 else 0) < tokens.length := by
      split
      case isTrue hfirst =>
        -- a pattern of one token would have been complete
        refine Nat.lt_of_le_of_ne (Nat.zero_lt_of_lt hshort) fun hone => htoken ?_
        have hpos : pos = 0 := by omega
        rw [hpos]
        exact hfirst
      case isFalse => exact Nat.zero_lt_of_lt hshort
    rw [hadvance]
    refine ⟨iff_of_false Bool.false_ne_true fun hends => ?_, rfl, hbelow, hnext⟩
    exact Nat.ne_of_lt hbelow (hnext.suffix_iff.mp hends)

theorem remembers_watch (hne : pattern ≠ []) (h : Repeats pattern) (stream : List Token) :
    Remembers pattern (watch pattern stream) := by
  induction stream using reverseRecOn with
  | nil => exact remembers_nil hne
  | append_singleton stream token ih =>
    rw [watch_append_singleton]
    exact (ih.step h token).2

/-! ## A match that is missed -/

/-- As long as the pattern has more tokens than come, it is not complete. -/
theorem foldl_watchStep_quiet (hne : pattern ≠ []) {pos : ℕ} (rest : List Token)
    (hrest : pos + rest.length < pattern.length) (since : List Token) :
    ∃ pos' ≤ pos + rest.length,
      rest.foldl watchStep (⟨pattern, pos⟩, since) = (⟨pattern, pos'⟩, since ++ rest) := by
  induction rest generalizing pos since with
  | nil => exact ⟨pos, le_refl _, by rw [append_nil]; rfl⟩
  | cons token rest ih =>
    rw [length_cons] at hrest ⊢
    obtain ⟨pos', hpos', hadvance⟩ : ∃ pos' ≤ pos + 1,
        (⟨pattern, pos⟩ : TokenMatcher).advance token = (⟨pattern, pos'⟩, false) := by
      rcases advance_cases hne pos token with ⟨-, hlast, -⟩ | ⟨-, -, hadvance⟩ | ⟨-, hadvance⟩
      · omega
      · exact ⟨pos + 1, le_refl _, hadvance⟩
      · refine ⟨_, ?_, hadvance⟩
        split
        · exact le_add_left 1 pos
        · exact zero_le _
    have hstep : watchStep (⟨pattern, pos⟩, since) token = (⟨pattern, pos'⟩, since ++ [token]) := by
      rw [watchStep, hadvance]
      rfl
    obtain ⟨pos'', hle, hfold⟩ := @ih pos' (by omega) (since ++ [token])
    refine ⟨pos'', by omega, ?_⟩
    rw [foldl_cons, hstep, hfold, append_assoc]
    rfl

/-- The beginning of the pattern, up to its last token. -/
theorem watch_beginning (hne : pattern ≠ []) {before : List Token} (h : before <+: pattern)
    (hshort : before.length < pattern.length) :
    watch pattern before = (⟨pattern, before.length⟩, before) := by
  induction before using reverseRecOn with
  | nil => rfl
  | append_singleton before token ih =>
    rw [length_append, length_singleton] at hshort ⊢
    have hnext : pattern[before.length]? = some token := by
      obtain ⟨rest, rfl⟩ := h
      rw [append_assoc, getElem?_append_right (Nat.le_refl _), Nat.sub_self]
      rfl
    rw [watch_append_singleton,
      ih ((prefix_append before [token]).trans h) (Nat.lt_of_succ_lt hshort), watchStep]
    rcases advance_cases hne before.length token with ⟨-, hlast, -⟩ | ⟨-, -, hadvance⟩ |
      ⟨hmismatch, -⟩
    · exact absurd hshort (Nat.not_lt.mpr hlast)
    · rw [hadvance]
      rfl
    · exact absurd hnext hmismatch

/-- Where a pattern is not repeated to its end, a match that begins there is missed. -/
theorem watch_missed (hne : pattern ≠ []) {d : ℕ} (hfirst : pattern[d]? = pattern[0]?)
    (hrest : ¬pattern.drop d <+: pattern) :
    (watch pattern (pattern.take d ++ pattern)).2 = pattern.take d ++ pattern := by
  obtain ⟨c, x, y, u, v, hx, hy, hxy⟩ := exists_mismatch hrest (length_drop ▸ Nat.sub_le _ _)
  have hwhole : pattern.take d ++ c ++ x :: u = pattern := by
    rw [append_assoc, ← hx, take_append_drop]
  generalize pattern.take d = q at hwhole ⊢
  -- what the two have in common has the first token
  have hc : 0 < c.length := by
    refine Nat.pos_of_ne_zero fun hzero => hxy ?_
    obtain rfl := eq_nil_of_length_eq_zero hzero
    have hx0 : pattern[d]? = some x := by
      rw [← Nat.add_zero d, ← getElem?_drop, hx]
      rfl
    have hy0 : pattern[0]? = some y := by
      rw [hy]
      rfl
    exact Option.some.inj (hx0.symm.trans (hfirst.trans hy0))
  have hlong : (q ++ c).length < pattern.length := by
    rw [← hwhole, @length_append _ (q ++ c) (x :: u)]
    exact Nat.lt_add_of_pos_right (Nat.succ_pos _)
  have hmismatch : pattern[(q ++ c).length]? ≠ some y := by
    rw [← hwhole, getElem?_append_right (Nat.le_refl _), Nat.sub_self]
    exact fun heq => hxy (Option.some.inj heq)
  have hstream : q ++ pattern = q ++ c ++ [y] ++ v := by
    rw [append_assoc, append_assoc, singleton_append, ← hy]
  have hlength : pattern.length = c.length + (v.length + 1) :=
    (congrArg length hy).trans length_append
  rw [hstream, watch, foldl_append, foldl_append, ← watch,
    watch_beginning hne ⟨x :: u, hwhole⟩ hlong]
  rcases advance_cases hne (q ++ c).length y with ⟨hnext, -, -⟩ | ⟨hnext, -, -⟩ | ⟨-, hadvance⟩
  · exact absurd hnext hmismatch
  · exact absurd hnext hmismatch
  · obtain ⟨pos, hpos, hif⟩ : ∃ pos ≤ 1, (if pattern[0]? = some y then 1 else 0) = pos := by
      refine ⟨_, ?_, rfl⟩
      split
      · exact Nat.le_refl 1
      · exact Nat.zero_le 1
    obtain ⟨pos', -, hfold⟩ := @foldl_watchStep_quiet pattern hne pos v (by omega) (q ++ c ++ [y])
    rw [foldl_cons, foldl_nil, watchStep, hadvance, hif]
    exact congrArg Prod.snd hfold

/-! ## The patterns that are recognised -/

/-- The matcher recognises its pattern in all streams just when the pattern is repeated to its end
from each place where its first token occurs again. -/
theorem recognises_stream_iff (hne : pattern ≠ []) :
    (∀ stream, Recognises pattern stream) ↔ Repeats pattern := by
  constructor
  · intro hall d _ hfirst
    by_contra hrest
    have hmissed := watch_missed hne hfirst hrest
    -- the pattern is at the end of the stream, and so its last token completes it
    obtain ⟨before, token, rfl⟩ : ∃ before token, pattern = before ++ [token] :=
      ⟨_, _, (dropLast_concat_getLast hne).symm⟩
    generalize hq : (before ++ [token]).take d = q at hmissed
    rw [← append_assoc, watch_append_singleton, watchStep_snd] at hmissed
    have hmatch := hall (q ++ (before ++ [token])) (q ++ before) token (by rw [append_assoc])
    cases hfound : ((watch (before ++ [token]) (q ++ before)).1.advance token).2 with
    | true =>
      rw [hfound, if_pos rfl] at hmissed
      exact absurd hmissed.symm (append_ne_nil_of_right_ne_nil _ (cons_ne_nil _ _))
    | false =>
      rw [hfound] at hmissed hmatch
      refine Bool.false_ne_true (hmatch.mpr ?_)
      rw [if_neg Bool.false_ne_true] at hmissed
      rw [hmissed, append_assoc]
      exact suffix_append q _
  · intro h stream before token _
    exact ((remembers_watch hne h before).step h token).1

theorem recognises_sameTokens : Repeats [1, 1] ∧ ∀ stream, Recognises [1, 1] stream := by
  have hrepeats : Repeats [1, 1] := by
    intro d hd hfirst
    have hlt : d < 2 := (List.getElem?_eq_some_iff.mp hfirst).1
    obtain rfl : d = 1 := le_antisymm (le_of_lt_succ hlt) hd
    exact ⟨[1], rfl⟩
  exact ⟨hrepeats, (recognises_stream_iff (List.cons_ne_nil 1 [1])).mpr hrepeats⟩

/-- The third token of the stream ends the first attempt, and the second attempt, which is the right
one, is forgotten. -/
theorem not_recognises : ¬∀ pattern : List Token, pattern ≠ [] →
    ∀ stream, Recognises pattern stream := by
  intro hall
  have hmatch := hall [1, 1, 2] (cons_ne_nil 1 [1, 2]) [1, 1, 1, 2] [1, 1, 1] 2 prefix_rfl
  revert hmatch
  decide

end TokenMatcher

end ExpertPin.Sampling
