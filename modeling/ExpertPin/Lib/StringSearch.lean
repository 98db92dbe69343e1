import Mathlib.Data.List.Infix
import Mathlib.Order.Bounds.Basic
import Mathlib.Order.Nat

/-!
# Searching for a string in a text

The first position at or after a given one at which a string stands, and how often it is found
when the search goes on after it.
-/

namespace ExpertPin.StringSearch

open List

universe u

variable {α : Type u} [DecidableEq α]

/-- The first position from `pos` on at which a word stands. -/
def find (text word : List α) (pos : ℕ) : Option ℕ :=
  (List.range' pos (text.length + 1 - pos)).find? fun i => word <+: text.drop i

/-- How often a word is found when the search goes on after it. -/
def countFrom (text word : List α) : ℕ → ℕ → ℕ
  | 0, _ => 0
  | steps + 1, pos =>
    match find text word pos with
    | some i => countFrom text word steps (i + word.length) + 1
    | none => 0

def count (text word : List α) (pos : ℕ) : ℕ := countFrom text word text.length pos

variable {text word : List α} {pos i : ℕ}

/-! ## What is found -/

theorem find_eq_some_iff : find text word pos = some i ↔
      word <+: text.drop i ∧ pos ≤ i ∧ i ≤ text.length ∧
        ∀ j, pos ≤ j → j < i → ¬word <+: text.drop j := by
  rw [find, find?_range'_eq_some, decide_eq_true_iff, mem_range'_1]
  refine and_congr_right fun _ => ⟨?_, ?_⟩
  · rintro ⟨⟨hpos, hlt⟩, hfirst⟩
    refine ⟨hpos, by omega, fun j hj hji hbegins => ?_⟩
    have hnot := hfirst j hj hji
    rw [decide_eq_true hbegins] at hnot
    cases hnot
  · rintro ⟨hpos, hle, hfirst⟩
    refine ⟨⟨hpos, by omega⟩, fun j hj hji => ?_⟩
    rw [decide_eq_false (hfirst j hj hji)]
    rfl

theorem find_eq_none_iff : find text word pos = none ↔
      ∀ i, pos ≤ i → i ≤ text.length → ¬word <+: text.drop i := by
  rw [find, find?_eq_none]
  constructor
  · intro h i hpos hle
    refine mt decide_eq_true (h i (mem_range'_1.mpr ⟨hpos, ?_⟩))
    omega
  · intro h i hi
    obtain ⟨hpos, hlt⟩ := mem_range'_1.mp hi
    exact mt of_decide_eq_true (h i hpos (by omega))

end ExpertPin.StringSearch

/-!
## Stop strings

The first of several words is looked for in a text that grows piece by piece.  A text may be given
away as long as no word begins at its end: a word that ends later does not begin in it then
(`length_le_of_endsFrom`).
-/

namespace ExpertPin.StopStrings

open StringSearch (find find_eq_some_iff find_eq_none_iff)
open List

universe u

variable {α : Type u}

/-- One of the words stands at a position. -/
def Occurs (words : List (List α)) (text : List α) (i : ℕ) : Prop :=
  ∃ word ∈ words, word <+: text.drop i

/-- One of the words stands there and ends at or after another position. -/
def EndsFrom (words : List (List α)) (text : List α) (lo i : ℕ) : Prop :=
  ∃ word ∈ words, word <+: text.drop i ∧ lo ≤ i + word.length

/-- Something at the end of the text is the beginning of a word. -/
def Begun (words : List (List α)) (text : List α) : Prop :=
  ∃ word ∈ words, ∃ i < text.length, text.drop i <+: word

section Decidable

variable [DecidableEq α] (words : List (List α)) (text : List α) (lo i : ℕ)

instance : Decidable (Occurs words text i) :=
  inferInstanceAs (Decidable (∃ word ∈ words, _))

instance : Decidable (EndsFrom words text lo i) :=
  inferInstanceAs (Decidable (∃ word ∈ words, _ ∧ _))

instance : Decidable (Begun words text) :=
  inferInstanceAs (Decidable (∃ word ∈ words, ∃ i < _, _))

end Decidable

variable {words : List (List α)} {text more : List α} {lo i : ℕ}

theorem EndsFrom.occurs (h : EndsFrom words text lo i) : Occurs words text i := by
  obtain ⟨word, hword, hbegins, _⟩ := h
  exact ⟨word, hword, hbegins⟩

/-- A word that is not empty stands within the text. -/
theorem Occurs.lt_length (hwords : ∀ word ∈ words, word ≠ []) (h : Occurs words text i) :
    i < text.length := by
  obtain ⟨word, hword, hbegins⟩ := h
  by_contra hle
  rw [drop_eq_nil_of_le (Nat.le_of_not_lt hle)] at hbegins
  exact hwords word hword (prefix_nil.mp hbegins)

/-! ## Texts that may be given away -/

theorem not_begun_nil : ¬Begun words ([] : List α) := by
  rintro ⟨_, _, i, hi, _⟩
  exact absurd hi (Nat.not_lt_zero i)

/-- What ends after a text in which no word is begun does not begin in it. -/
theorem length_le_of_endsFrom (h : ¬Begun words text) (hlo : text.length ≤ lo)
    (hends : EndsFrom words (text ++ more) lo i) : text.length ≤ i := by
  obtain ⟨word, hword, hbegins, hend⟩ := hends
  by_contra hi
  have hi := Nat.lt_of_not_le hi
  rw [drop_append_of_le_length hi.le] at hbegins
  refine h ⟨word, hword, i, hi, ?_⟩
  refine prefix_of_prefix_length_le (prefix_append _ _) hbegins ?_
  rw [length_drop]
  omega

theorem drop_append_add (text more : List α) (i : ℕ) :
    (text ++ more).drop (text.length + i) = more.drop i := by
  rw [drop_append, drop_eq_nil_of_le (Nat.le_add_right _ _), nil_append,
    Nat.add_sub_cancel_left]

/-- A word is begun at the end if it is begun in what has been added. -/
theorem begun_append (h : ¬Begun words text) : Begun words (text ++ more) ↔ Begun words more := by
  constructor
  · rintro ⟨word, hword, i, hi, hbegins⟩
    by_cases hlt : i < text.length
    · refine absurd ⟨word, hword, i, hlt, ?_⟩ h
      rw [drop_append_of_le_length hlt.le] at hbegins
      exact (prefix_append _ _).trans hbegins
    · obtain ⟨j, rfl⟩ := Nat.exists_eq_add_of_le (Nat.le_of_not_lt hlt)
      rw [drop_append_add] at hbegins
      rw [length_append] at hi
      exact ⟨word, hword, j, Nat.lt_of_add_lt_add_left hi, hbegins⟩
  · rintro ⟨word, hword, i, hi, hbegins⟩
    refine ⟨word, hword, text.length + i, ?_, ?_⟩
    · rw [length_append]
      exact Nat.add_lt_add_left hi _
    · rwa [drop_append_add]

theorem endsFrom_append : EndsFrom words (text ++ more) (text.length + lo) (text.length + i) ↔
      EndsFrom words more lo i := by
  have hend (word : List α) :
      text.length + lo ≤ text.length + i + word.length ↔ lo ≤ i + word.length := by omega
  simp only [EndsFrom, drop_append_add, hend]

/-! ## The first word -/

/-- The text up to the first word in it. -/
def cut [DecidableEq α] (words : List (List α)) (text : List α) : List α :=
  match (List.range (text.length + 1)).find? fun i => Occurs words text i with
  | some i => text.take i
  | none => text

theorem cut_of_isLeast [DecidableEq α] (hwords : ∀ word ∈ words, word ≠ [])
    (h : IsLeast {i | Occurs words text i} i) : cut words text = text.take i := by
  have hfind : (range (text.length + 1)).find? (fun i => Occurs words text i) = some i := by
    rw [find?_range_eq_some]
    refine ⟨decide_eq_true h.1, mem_range.mpr ?_, fun j hj => ?_⟩
    · exact Nat.lt_succ_of_lt (Occurs.lt_length hwords h.1)
    · have hnot : ¬Occurs words text j := fun hoccurs => absurd (h.2 hoccurs) (Nat.not_le_of_lt hj)
      rw [decide_eq_false hnot]
      rfl
  rw [cut, hfind]

theorem cut_of_forall_not [DecidableEq α] (h : ∀ i, ¬Occurs words text i) :
    cut words text = text := by
  have hfind : (range (text.length + 1)).find? (fun i => Occurs words text i) = none := by
    rw [find?_eq_none]
    exact fun i _ => mt of_decide_eq_true (h i)
  rw [cut, hfind]

/-- If a word occurs there is a first place where one does. -/
theorem exists_isLeast {P : ℕ → Prop} (h : ∃ i, P i) : ∃ i, IsLeast {i | P i} i := by
  classical
  exact ⟨Nat.find h, Nat.find_spec h, fun _ hi => Nat.find_min' h hi⟩

/-- What has been found before, unless the search finds a word earlier. -/
def earlier (search : List α → Option ℕ) (stop : Option (ℕ × List α)) (word : List α) :
    Option (ℕ × List α) :=
  match search word, stop with
  | none, _ => stop
  | some pos, none => some (pos, word)
  | some pos, some (stopPos, stopWord) =>
    if pos < stopPos then some (pos, word) else some (stopPos, stopWord)

/-- The place and the word of the search that finds something first. -/
def earliest (search : List α → Option ℕ) (words : List (List α)) : Option (ℕ × List α) :=
  words.foldl (earlier search) none

variable {search : List α → Option ℕ} {stop : Option (ℕ × List α)} {word : List α} {pos : ℕ}

theorem earlier_of_none (h : search word = none) : earlier search stop word = stop := by
  simp only [earlier, h]

theorem earlier_none (h : search word = some pos) :
    earlier search none word = some (pos, word) := by
  simp only [earlier, h]

theorem earlier_some (h : search word = some pos) (stopPos : ℕ) (stopWord : List α) :
    earlier search (some (stopPos, stopWord)) word =
      if pos < stopPos then some (pos, word) else some (stopPos, stopWord) := by
  simp only [earlier, h]

theorem earliest_concat (search : List α → Option ℕ) (words : List (List α)) (word : List α) :
    earliest search (words ++ [word]) = earlier search (earliest search words) word :=
  foldl_concat _ _ _ _

theorem earliest_eq_none_iff :
    earliest search words = none ↔ ∀ word ∈ words, search word = none := by
  induction words using reverseRecOn with
  | nil => simp [earliest]
  | append_singleton words word ih =>
    rw [earliest_concat]
    cases hsearch : search word with
    | none => simp [earlier_of_none hsearch, ih, hsearch, or_imp, forall_and]
    | some pos =>
      have hnot : ¬∀ found ∈ words ++ [word], search found = none := by
        intro h
        rw [h word (mem_append_right words (mem_singleton_self word))] at hsearch
        cases hsearch
      refine iff_of_false ?_ hnot
      cases earliest search words with
      | none => simp [earlier_none hsearch]
      | some stop =>
        rw [earlier_some hsearch]
        split <;> simp

/-- What is found first is found by one of the searches, and none of them finds anything before. -/
theorem earliest_spec {stopWord : List α} (h : earliest search words = some (pos, stopWord)) :
    stopWord ∈ words ∧ search stopWord = some pos ∧
      ∀ word ∈ words, ∀ other, search word = some other → pos ≤ other := by
  induction words using reverseRecOn generalizing pos stopWord with
  | nil => cases h
  | append_singleton words word ih =>
    rw [earliest_concat] at h
    have hnewMem := mem_append_right words (mem_singleton_self word)
    -- one more search is no obstacle if it finds nothing before
    have hconcat {bound : ℕ} (hold : ∀ found ∈ words, ∀ other, search found = some other →
        bound ≤ other) (hnew : ∀ other, search word = some other → bound ≤ other) :
        ∀ found ∈ words ++ [word], ∀ other, search found = some other → bound ≤ other := by
      intro found hmem
      rcases mem_append.mp hmem with h | h
      · exact hold found h
      · rwa [mem_singleton.mp h]
    cases hsearch : search word with
    | none =>
      rw [earlier_of_none hsearch] at h
      obtain ⟨hmem, hfound, hfirst⟩ := ih h
      refine ⟨mem_append_left _ hmem, hfound, hconcat hfirst fun other hother => ?_⟩
      rw [hsearch] at hother
      cases hother
    | some newPos =>
      have hnew (other : ℕ) (hother : search word = some other) : newPos ≤ other :=
        (Option.some.inj (hsearch.symm.trans hother)).le
      cases hbefore : earliest search words with
      | none =>
        rw [hbefore, earlier_none hsearch] at h
        cases h
        refine ⟨hnewMem, hsearch, hconcat (fun found hmem other hother => ?_) hnew⟩
        rw [earliest_eq_none_iff.mp hbefore found hmem] at hother
        cases hother
      | some stop =>
        obtain ⟨hmem, hfound, hfirst⟩ := ih hbefore
        rw [hbefore, earlier_some hsearch] at h
        split at h
        case isTrue hlt =>
          cases h
          refine ⟨hnewMem, hsearch, hconcat (fun found hmem other hother => ?_) hnew⟩
          exact hlt.le.trans (hfirst found hmem other hother)
        case isFalse hlt =>
          cases h
          refine ⟨mem_append_left _ hmem, hfound, hconcat hfirst fun other hother => ?_⟩
          exact (Nat.le_of_not_lt hlt).trans (hnew other hother)

end ExpertPin.StopStrings
