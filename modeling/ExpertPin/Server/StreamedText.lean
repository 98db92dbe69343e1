import ExpertPin.Lib.StringSearch

/-!
# Streaming text up to a stop string

The text of a slot grows by a piece with each token.  What has not been sent yet is searched for
stop strings, unless the text ends within a character, and is sent unless a stop string may begin
at its end.  Streaming is on throughout, and nothing is parsed out of the text.
-/

namespace ExpertPin.Server.StreamedText

open StringSearch (find find_eq_some_iff find_eq_none_iff)
open StopStrings

abbrev Text := List UInt8

/-! ## Characters -/

/-- A character that begins with this byte is cut off after `i` bytes. -/
def cutOff (i : ℕ) (c : UInt8) : Bool :=
  if c &&& 0xE0 = 0xC0 then i < 2
  else if c &&& 0xF0 = 0xE0 then i < 3
  else if c &&& 0xF8 = 0xF0 then i < 4
  else false

/-- `validate_utf8`: where the last character begins if it is cut off, else the whole length. -/
def validateUtf8 (text : Text) : ℕ :=
  let starts := (List.range' 1 4).find? fun i =>
    i ≤ text.length ∧ (text[text.length - i]?).any (cutOff i)
  text.length - starts.getD 0

/-- The text does not end within a character. -/
def Complete (text : Text) : Prop := validateUtf8 text = text.length

instance (text : Text) : Decidable (Complete text) := inferInstanceAs (Decidable (_ = _))

theorem validateUtf8_le (text : Text) : validateUtf8 text ≤ text.length :=
  Nat.sub_le _ _

theorem not_complete_iff {text : Text} : ¬Complete text ↔ validateUtf8 text < text.length :=
  (validateUtf8_le text).lt_iff_ne.symm

theorem complete_nil : Complete [] := rfl

/-! ## Stop strings -/

/-- A word is looked for where it may end with the last token. -/
def findFullStop (text : Text) (lastTokenSize : ℕ) (word : Text) : Option ℕ :=
  find text word (text.length - (word.length + lastTokenSize))

/-- `string_find_partial_stop`: the longest beginning of a word that the text ends with. -/
def findPartialStop (text stop : Text) : Option ℕ :=
  let ends := (List.range stop.length).reverse.find? fun i =>
    text ≠ [] ∧ stop.take (i + 1) <:+ text
  ends.map fun i => text.length - i - 1

/-! ## A slot -/

/-- A sampled token: its text, whether it ends the generation, and which limits are reached. -/
structure Token where
  piece : Text
  isEog : Bool := false
  outOfBudget : Bool := false
  pastTrained : Bool := false

/-- What a slot keeps of its text, and why it has stopped. -/
structure TextSlot where
  generatedText : Text := []
  nSentText : ℕ := 0
  hasNextToken : Bool := true
  stoppedWord : Bool := false
  stoppingWord : Text := []
  stoppedEos : Bool := false
  stoppedLimit : Bool := false
  truncated : Bool := false
  deriving DecidableEq

/-- A piece is added to the text. -/
def TextSlot.addText (slot : TextSlot) (piece : Text) : TextSlot :=
  { slot with generatedText := slot.generatedText ++ piece, hasNextToken := true }

/-- The part of `process_token` for a text that does not end within a character. -/
def sendText (antiprompt : List Text) (slot : TextSlot) (result : Token) : TextSlot × Text :=
  let pos := min slot.nSentText slot.generatedText.length
  let test := slot.generatedText.drop pos
  match earliest (findFullStop test result.piece.length) antiprompt with
  | some (stopPos, word) =>
    let generated := slot.generatedText.take (pos + stopPos)
    let text := generated.drop (min slot.nSentText generated.length)
    ({ slot with
        generatedText := generated
        nSentText := slot.nSentText + text.length
        hasNextToken := false
        stoppedWord := true
        stoppingWord := word }, text)
  | none =>
    if (slot.hasNextToken ∧ ¬result.isEog) ∧
        (earliest (findPartialStop test) antiprompt).isSome then
      (slot, [])
    else
      ({ slot with nSentText := slot.nSentText + test.length }, test)

/-- The part of `process_token` that checks the limits. -/
def checkLimits (slot : TextSlot) (result : Token) : TextSlot :=
  let slot :=
    if slot.hasNextToken ∧ result.outOfBudget then
      { slot with stoppedLimit := true, hasNextToken := false }
    else slot
  let slot :=
    if result.isEog then { slot with stoppedEos := true, hasNextToken := false } else slot
  if result.pastTrained then
    { slot with truncated := true, stoppedLimit := true, hasNextToken := false }
  else slot

/-- `process_token`, with the text of the partial response if one is sent. -/
def processToken (antiprompt : List Text) (slot : TextSlot) (result : Token) :
    TextSlot × Option Text :=
  let slot := slot.addText result.piece
  if validateUtf8 slot.generatedText < slot.generatedText.length then
    (checkLimits slot result, none)
  else
    let (slot, text) := sendText antiprompt slot result
    (checkLimits slot result, some text)

/-- The content of the final response. -/
def finalContent (stream : Bool) (slot : TextSlot) : Text :=
  if stream then [] else slot.generatedText

/-- The tokens that a slot processes, with all the text in the partial responses.  After a limit
the tokens that had been held back are still processed, after a stop string or the end none is. -/
def generate (antiprompt : List Text) : TextSlot → List Token → Option (TextSlot × Text)
  | slot, [] => some (slot, [])
  | slot, result :: results =>
    if slot.stoppedWord ∨ slot.stoppedEos then none
    else
      let (slot, text) := processToken antiprompt slot result
      (generate antiprompt slot results).map fun (slot, sent) => (slot, text.getD [] ++ sent)

/-! ## What is to be sent -/

/-- The text of some tokens. -/
def textOf (tokens : List Token) : Text := tokens.flatMap Token.piece

/-- The text up to the first stop string, without a character that is cut off. -/
def expected (antiprompt : List Text) (text : Text) : Text :=
  (cut antiprompt text).take (validateUtf8 (cut antiprompt text))

/-- What has been sent is exactly what was to be sent, and no part of a stop string. -/
def Streams (antiprompt : List Text) (text sent : Text) : Prop :=
  sent = expected antiprompt text ∧ ∀ i, Occurs antiprompt text i → sent.length ≤ i

/-- The text ends with a character, and no stop string may begin at its end. -/
def Sendable (antiprompt : List Text) (text : Text) : Prop :=
  Complete text ∧ ¬Begun antiprompt text

/-- The last place between tokens at which the text so far can be sent. -/
def LastSendable (antiprompt : List Text) (tokens : List Token) (k : ℕ) : Prop :=
  IsGreatest {k | k ≤ tokens.length ∧ Sendable antiprompt (textOf (tokens.take k))} k

/-- When streaming is exact, for a slot that stops with a token: if stop strings end with that
token, the first of these is the first of all and begins after a character; if the text can be
sent at once, there is none; and if it is held back, all there is to send could be sent before. -/
def OnTime (antiprompt : List Text) (tokens : List Token) (last : Token) : Prop :=
  let text := textOf (tokens ++ [last])
  let here (i : ℕ) := EndsFrom antiprompt text (textOf tokens).length i
  if Complete text ∧ ∃ i < text.length, here i then
    ∃ i < text.length, here i ∧ (∀ j < i, ¬Occurs antiprompt text j) ∧ Complete (text.take i)
  else if Complete text ∧ (last.isEog ∨ ¬Begun antiprompt text) then
    ∀ i < text.length, ¬Occurs antiprompt text i
  else
    ∃ k, LastSendable antiprompt tokens k ∧ textOf (tokens.take k) = expected antiprompt text

end ExpertPin.Server.StreamedText

/-!
## When streaming is exact

While a slot generates, what has been sent is the text up to the last place between tokens at which
it could be sent (`Held`).  The token that stops the slot decides what else is sent.
-/

namespace ExpertPin.Server.StreamedText

open StringSearch (find find_eq_some_iff find_eq_none_iff)
open StopStrings
open List
open Option

variable {words : List Text} {text : Text} {size i : ℕ}

/-! ## The searches -/

theorem findFullStop_eq_some_iff {word : Text} : findFullStop text size word = some i ↔
      IsLeast {i | i ≤ text.length ∧ word <+: text.drop i ∧ text.length - size ≤ i + word.length}
        i := by
  have hfrom (j : ℕ) :
      text.length - (word.length + size) ≤ j ↔ text.length - size ≤ j + word.length := by omega
  rw [findFullStop, find_eq_some_iff]
  simp only [hfrom]
  constructor
  · rintro ⟨hword, hends, hle, hfirst⟩
    refine ⟨⟨hle, hword, hends⟩, fun j ⟨_, hother, hotherEnds⟩ => ?_⟩
    exact Nat.le_of_not_lt fun hlt => hfirst j hotherEnds hlt hother
  · rintro ⟨⟨hle, hword, hends⟩, hfirst⟩
    refine ⟨hword, hends, hle, fun j hotherEnds hlt hother => ?_⟩
    exact absurd (hfirst ⟨hlt.le.trans hle, hother, hotherEnds⟩) (Nat.not_le_of_lt hlt)

theorem findFullStop_eq_none_iff {word : Text} : findFullStop text size word = none ↔
      ∀ i ≤ text.length, word <+: text.drop i → ¬text.length - size ≤ i + word.length := by
  have hfrom (j : ℕ) :
      text.length - (word.length + size) ≤ j ↔ text.length - size ≤ j + word.length := by omega
  rw [findFullStop, find_eq_none_iff]
  simp only [hfrom]
  exact ⟨fun h i hle hword hends => h i hends hle hword,
    fun h i hends hle hword => h i hle hword hends⟩

/-- The full search finds nothing if no stop string ends with the last token. -/
theorem earliest_full_eq_none_iff (hwords : ∀ word ∈ words, word ≠ []) :
    earliest (findFullStop text size) words = none ↔
      ∀ i, ¬EndsFrom words text (text.length - size) i := by
  rw [earliest_eq_none_iff]
  simp only [findFullStop_eq_none_iff]
  constructor
  · intro h i hends
    have hle := (hends.occurs.lt_length hwords).le
    obtain ⟨word, hmem, hword, hlo⟩ := hends
    exact h word hmem i hle hword hlo
  · exact fun h word hmem i _ hword hlo => h i ⟨word, hmem, hword, hlo⟩

/-- The full search finds the first stop string of those that end with the last token. -/
theorem isLeast_of_earliest_full {stopWord : Text} (hwords : ∀ word ∈ words, word ≠ [])
    (h : earliest (findFullStop text size) words = some (i, stopWord)) :
    IsLeast {i | EndsFrom words text (text.length - size) i} i := by
  obtain ⟨hmem, hfound, hfirst⟩ := earliest_spec h
  obtain ⟨⟨_, hword, hlo⟩, _⟩ := findFullStop_eq_some_iff.mp hfound
  refine ⟨⟨stopWord, hmem, hword, hlo⟩, fun j hends => ?_⟩
  have hle := (hends.occurs.lt_length hwords).le
  obtain ⟨word, hmem, hword, hlo⟩ := hends
  cases hother : findFullStop text size word with
  | none => exact absurd hlo (findFullStop_eq_none_iff.mp hother j hle hword)
  | some k =>
    have hk := (findFullStop_eq_some_iff.mp hother).2 ⟨hle, hword, hlo⟩
    exact (hfirst word hmem k hother).trans hk

theorem findPartialStop_isSome_iff {word : Text} :
    (findPartialStop text word).isSome ↔ ∃ i < text.length, text.drop i <+: word := by
  simp only [findPartialStop, isSome_map, find?_isSome, mem_reverse,
    mem_range, decide_eq_true_iff]
  constructor
  · rintro ⟨n, hn, htext, hends⟩
    obtain ⟨before, rfl⟩ := hends
    have hlen : (word.take (n + 1)).length = n + 1 := length_take_of_le hn
    refine ⟨before.length, ?_, ?_⟩
    · rw [length_append, hlen]
      omega
    · rw [drop_left]
      exact take_prefix _ _
  · rintro ⟨i, hi, hbegins⟩
    have hlen : (text.drop i).length = text.length - i - 1 + 1 := by
      rw [length_drop]
      omega
    refine ⟨text.length - i - 1, ?_, ne_nil_of_length_pos (Nat.zero_lt_of_lt hi), ?_⟩
    · have hle := hbegins.length_le
      omega
    · rw [← hlen, ← prefix_iff_eq_take.mp hbegins]
      exact drop_suffix _ _

theorem earliest_partial_isSome_iff :
    (earliest (findPartialStop text) words).isSome ↔ Begun words text := by
  rw [← not_iff_not, not_isSome_iff_eq_none, earliest_eq_none_iff]
  simp only [Begun, ← findPartialStop_isSome_iff, not_exists, not_and,
    not_isSome_iff_eq_none]

/-! ## One token -/

@[simp] theorem checkLimits_generatedText (slot : TextSlot) (result : Token) :
    (checkLimits slot result).generatedText = slot.generatedText := by
  simp only [checkLimits]
  split <;> split <;> split <;> rfl

@[simp] theorem checkLimits_nSentText (slot : TextSlot) (result : Token) :
    (checkLimits slot result).nSentText = slot.nSentText := by
  simp only [checkLimits]
  split <;> split <;> split <;> rfl

@[simp] theorem checkLimits_stoppedWord (slot : TextSlot) (result : Token) :
    (checkLimits slot result).stoppedWord = slot.stoppedWord := by
  simp only [checkLimits]
  split <;> split <;> split <;> rfl

theorem checkLimits_stoppedEos (slot : TextSlot) (result : Token) :
    (checkLimits slot result).stoppedEos = (slot.stoppedEos || result.isEog) := by
  simp only [checkLimits]
  split <;> split <;> split <;> simp [*]

theorem textOf_concat (tokens : List Token) (result : Token) :
    textOf (tokens ++ [result]) = textOf tokens ++ result.piece := by
  rw [textOf, textOf, flatMap_append, flatMap_singleton]

theorem textOf_take_prefix (tokens : List Token) (k : ℕ) :
    textOf (tokens.take k) <+: textOf tokens := by
  refine ⟨textOf (tokens.drop k), ?_⟩
  rw [textOf, textOf, textOf, ← flatMap_append, take_append_drop]

/-- A slot that is still generating, with the text that it has sent. -/
structure Held (words : List Text) (tokens : List Token) (slot : TextSlot) (sent : Text) :
    Prop where
  text : slot.generatedText = textOf tokens
  sentText : slot.nSentText = sent.length
  last : ∃ k, LastSendable words tokens k ∧ sent = textOf (tokens.take k)

section Token

variable {tokens : List Token} {slot : TextSlot} {sent : Text} (result : Token)

theorem Held.sent_prefix (h : Held words tokens slot sent) : sent <+: textOf tokens := by
  obtain ⟨k, _, rfl⟩ := h.last
  exact textOf_take_prefix tokens k

theorem Held.not_begun (h : Held words tokens slot sent) : ¬Begun words sent := by
  obtain ⟨k, hlast, rfl⟩ := h.last
  exact hlast.1.2.2

/-- The text with a token's piece, in what has been sent and what has not. -/
theorem Held.text_eq (h : Held words tokens slot sent) :
    textOf (tokens ++ [result]) = sent ++ (textOf (tokens ++ [result])).drop sent.length := by
  have hprefix : sent <+: textOf (tokens ++ [result]) := by
    rw [textOf_concat]
    exact h.sent_prefix.trans (prefix_append _ _)
  exact (prefix_iff_eq_append.mp hprefix).symm

/-- A stop string ends with the token in the text if it does in what has not been sent. -/
theorem Held.endsFrom_iff (h : Held words tokens slot sent) (i : ℕ) :
    EndsFrom words ((textOf (tokens ++ [result])).drop sent.length)
        (((textOf (tokens ++ [result])).drop sent.length).length - result.piece.length) i ↔
      EndsFrom words (textOf (tokens ++ [result])) (textOf tokens).length (sent.length + i) := by
  have hle := h.sent_prefix.length_le
  have hlo : (textOf tokens).length = sent.length +
        (((textOf (tokens ++ [result])).drop sent.length).length - result.piece.length) := by
    rw [length_drop, textOf_concat, length_append]
    omega
  have happend := @endsFrom_append _ words sent ((textOf (tokens ++ [result])).drop sent.length)
    (((textOf (tokens ++ [result])).drop sent.length).length - result.piece.length) i
  rw [← hlo, ← h.text_eq result] at happend
  exact happend.symm

theorem Held.le_of_endsFrom (h : Held words tokens slot sent)
    (hends : EndsFrom words (textOf (tokens ++ [result])) (textOf tokens).length i) :
    sent.length ≤ i := by
  rw [h.text_eq result] at hends
  exact length_le_of_endsFrom h.not_begun h.sent_prefix.length_le hends

theorem Held.begun_iff (h : Held words tokens slot sent) :
    Begun words ((textOf (tokens ++ [result])).drop sent.length) ↔
      Begun words (textOf (tokens ++ [result])) := by
  conv_rhs => rw [h.text_eq result]
  exact (begun_append h.not_begun).symm

theorem Held.addText_generatedText (h : Held words tokens slot sent) :
    (slot.addText result.piece).generatedText = textOf (tokens ++ [result]) := by
  rw [textOf_concat, ← h.text]
  rfl

/-- What has been sent is still there when the text is searched. -/
theorem Held.pos_eq (h : Held words tokens slot sent) :
    min (slot.addText result.piece).nSentText (textOf (tokens ++ [result])).length =
      sent.length := by
  have hle := (congrArg length (h.text_eq result)).symm.le
  rw [length_append] at hle
  change min slot.nSentText _ = _
  rw [h.sentText]
  exact Nat.min_eq_left (Nat.le_of_add_right_le hle)

theorem processToken_of_not_complete (h : ¬Complete (slot.addText result.piece).generatedText) :
    processToken words slot result = (checkLimits (slot.addText result.piece) result, none) := by
  rw [processToken]
  exact if_pos (not_complete_iff.mp h)

theorem processToken_of_complete (h : Complete (slot.addText result.piece).generatedText) :
    processToken words slot result =
      (checkLimits (sendText words (slot.addText result.piece) result).1 result,
        some (sendText words (slot.addText result.piece) result).2) := by
  rw [processToken]
  exact if_neg (mt not_complete_iff.mpr (not_not_intro h))

theorem Held.full_eq_none (h : Held words tokens slot sent) (hwords : ∀ word ∈ words, word ≠ [])
    (hnone : ∀ i, ¬EndsFrom words (textOf (tokens ++ [result])) (textOf tokens).length i) :
    earliest (findFullStop ((textOf (tokens ++ [result])).drop sent.length) result.piece.length)
      words = none := by
  refine (earliest_full_eq_none_iff hwords).mpr fun i hends => ?_
  exact hnone _ ((h.endsFrom_iff result i).mp hends)

/-- If stop strings end with the token, the text is sent up to the first of these. -/
theorem Held.found (hwords : ∀ word ∈ words, word ≠ []) (h : Held words tokens slot sent)
    (hcomplete : Complete (textOf (tokens ++ [result])))
    (hleast : IsLeast {i | EndsFrom words (textOf (tokens ++ [result])) (textOf tokens).length i}
      i) :
    (processToken words slot result).1.stoppedWord = true ∧
      sent ++ (processToken words slot result).2.getD [] =
        (textOf (tokens ++ [result])).take i := by
  have htext := h.addText_generatedText result
  rw [processToken_of_complete result (by rwa [htext]), sendText, htext, h.pos_eq]
  dsimp only
  have hiff := h.endsFrom_iff result
  cases hfull : earliest (findFullStop ((textOf (tokens ++ [result])).drop sent.length)
    result.piece.length) words with
  | none =>
    have hnone := (earliest_full_eq_none_iff hwords).mp hfull
    obtain ⟨j, rfl⟩ := Nat.exists_eq_add_of_le (h.le_of_endsFrom result hleast.1)
    exact absurd ((hiff j).mpr hleast.1) (hnone j)
  | some stop =>
    obtain ⟨stopPos, word⟩ := stop
    have hstop := isLeast_of_earliest_full hwords hfull
    -- the first in what has not been sent is the first of all
    have hi : sent.length + stopPos = i := by
      refine Nat.le_antisymm ?_ (hleast.2 ((hiff stopPos).mp hstop.1))
      obtain ⟨j, rfl⟩ := Nat.exists_eq_add_of_le (h.le_of_endsFrom result hleast.1)
      exact Nat.add_le_add_left (hstop.2 ((hiff j).mpr hleast.1)) _
    have hprefix : sent <+: (textOf (tokens ++ [result])).take (sent.length + stopPos) := by
      refine prefix_take_iff.mpr ⟨⟨_, (h.text_eq result).symm⟩, ?_⟩
      exact Nat.le_add_right _ _
    have hmin : min (slot.addText result.piece).nSentText
        ((textOf (tokens ++ [result])).take (sent.length + stopPos)).length = sent.length := by
      change min slot.nSentText _ = _
      rw [h.sentText]
      exact Nat.min_eq_left hprefix.length_le
    refine ⟨by rw [checkLimits_stoppedWord], ?_⟩
    dsimp only [getD_some]
    rw [hmin, prefix_iff_eq_append.mp hprefix, hi]

/-- If none does, the text is sent when nothing of a stop string can be at its end. -/
theorem Held.flushed (hwords : ∀ word ∈ words, word ≠ []) (h : Held words tokens slot sent)
    (hcomplete : Complete (textOf (tokens ++ [result])))
    (hnone : ∀ i, ¬EndsFrom words (textOf (tokens ++ [result])) (textOf tokens).length i)
    (hflush : result.isEog ∨ ¬Begun words (textOf (tokens ++ [result]))) :
    (processToken words slot result).1.generatedText = textOf (tokens ++ [result]) ∧
      (processToken words slot result).1.nSentText = (textOf (tokens ++ [result])).length ∧
      sent ++ (processToken words slot result).2.getD [] = textOf (tokens ++ [result]) := by
  have htext := h.addText_generatedText result
  rw [processToken_of_complete result (by rwa [htext]), sendText, htext, h.pos_eq]
  have hpartial : ¬(((slot.addText result.piece).hasNextToken ∧ ¬result.isEog) ∧
      (earliest (findPartialStop ((textOf (tokens ++ [result])).drop sent.length))
        words).isSome) := by
    rintro ⟨⟨_, heog⟩, hsome⟩
    rcases hflush with h' | h'
    · exact heog h'
    · exact h' ((h.begun_iff result).mp (earliest_partial_isSome_iff.mp hsome))
  dsimp only
  rw [h.full_eq_none result hwords hnone]
  dsimp only
  rw [if_neg hpartial, checkLimits_generatedText, checkLimits_nSentText]
  refine ⟨rfl, ?_, (h.text_eq result).symm⟩
  change slot.nSentText + _ = _
  rw [h.sentText, ← length_append, ← h.text_eq]

/-- Otherwise nothing is sent. -/
theorem Held.kept (hwords : ∀ word ∈ words, word ≠ []) (h : Held words tokens slot sent)
    (hkept : ¬Complete (textOf (tokens ++ [result])) ∨
      (∀ i, ¬EndsFrom words (textOf (tokens ++ [result])) (textOf tokens).length i) ∧
        ¬result.isEog ∧ Begun words (textOf (tokens ++ [result]))) :
    (processToken words slot result).1.generatedText = textOf (tokens ++ [result]) ∧
      (processToken words slot result).1.nSentText = sent.length ∧
      (processToken words slot result).2.getD [] = [] := by
  have htext := h.addText_generatedText result
  by_cases hcomplete : Complete (textOf (tokens ++ [result]))
  case neg =>
    rw [processToken_of_not_complete result (by rwa [htext]), checkLimits_generatedText,
      checkLimits_nSentText]
    exact ⟨htext, h.sentText, rfl⟩
  case pos =>
    obtain ⟨hnone, heog, hbegun⟩ := hkept.resolve_left (not_not_intro hcomplete)
    rw [processToken_of_complete result (by rwa [htext]), sendText, htext, h.pos_eq]
    have hpartial : ((slot.addText result.piece).hasNextToken ∧ ¬result.isEog) ∧
        (earliest (findPartialStop ((textOf (tokens ++ [result])).drop sent.length))
          words).isSome :=
      ⟨⟨rfl, heog⟩, earliest_partial_isSome_iff.mpr ((h.begun_iff result).mpr hbegun)⟩
    dsimp only
    rw [h.full_eq_none result hwords hnone]
    dsimp only
    rw [if_pos hpartial, checkLimits_generatedText, checkLimits_nSentText]
    exact ⟨htext, h.sentText, rfl⟩

end Token

/-! ## All tokens before the last -/

theorem lastSendable_concat_of_sendable {tokens : List Token} {result : Token}
    (h : Sendable words (textOf (tokens ++ [result]))) :
    LastSendable words (tokens ++ [result]) (tokens ++ [result]).length := by
  refine ⟨⟨le_rfl, ?_⟩, fun k hk => hk.1⟩
  rwa [take_length]

theorem lastSendable_concat_of_not {tokens : List Token} {result : Token} {k : ℕ}
    (hlast : LastSendable words tokens k) (h : ¬Sendable words (textOf (tokens ++ [result]))) :
    LastSendable words (tokens ++ [result]) k := by
  have hlen : (tokens ++ [result]).length = tokens.length + 1 := length_append
  have htake {j : ℕ} (hj : j ≤ tokens.length) : (tokens ++ [result]).take j = tokens.take j :=
    take_append_of_le_length hj
  obtain ⟨⟨hk, hsendable⟩, hgreatest⟩ := hlast
  refine ⟨⟨hlen ▸ Nat.le_succ_of_le hk, by rwa [htake hk]⟩, fun j ⟨hj, hjSendable⟩ => ?_⟩
  rcases Nat.lt_or_eq_of_le hj with hlt | rfl
  · have hle := Nat.le_of_lt_succ (hlen ▸ hlt)
    exact hgreatest ⟨hle, by rwa [htake hle] at hjSendable⟩
  · rw [take_length] at hjSendable
    exact absurd hjSendable h

theorem held_start : Held words [] {} [] := by
  refine ⟨rfl, rfl, 0, ⟨⟨le_rfl, complete_nil, not_begun_nil⟩, fun k hk => hk.1⟩, rfl⟩

theorem processToken_stoppedEos_of_isEog {result : Token} (slot : TextSlot)
    (h : result.isEog = true) : (processToken words slot result).1.stoppedEos = true := by
  by_cases hcomplete : Complete (slot.addText result.piece).generatedText
  · rw [processToken_of_complete result hcomplete, checkLimits_stoppedEos, h, Bool.or_true]
  · rw [processToken_of_not_complete result hcomplete, checkLimits_stoppedEos, h, Bool.or_true]

/-- Nothing is sent with a text that cannot be sent. -/
theorem Held.step_of_kept {tokens : List Token} {slot : TextSlot} {sent : Text} {result : Token}
    (hwords : ∀ word ∈ words, word ≠ []) (h : Held words tokens slot sent)
    (hnot : ¬Sendable words (textOf (tokens ++ [result])))
    (hkept : ¬Complete (textOf (tokens ++ [result])) ∨
      (∀ i, ¬EndsFrom words (textOf (tokens ++ [result])) (textOf tokens).length i) ∧
        ¬result.isEog ∧ Begun words (textOf (tokens ++ [result]))) :
    Held words (tokens ++ [result]) (processToken words slot result).1
      (sent ++ (processToken words slot result).2.getD []) := by
  obtain ⟨htext, hlen, hnothing⟩ := h.kept result hwords hkept
  obtain ⟨k, hlast, hsent⟩ := h.last
  rw [hnothing, append_nil]
  refine ⟨htext, hlen, k, lastSendable_concat_of_not hlast hnot, ?_⟩
  rwa [take_append_of_le_length hlast.1.1]

/-- A slot that goes on generating has sent what could be sent. -/
theorem Held.step {tokens : List Token} {slot : TextSlot} {sent : Text} {result : Token}
    (hwords : ∀ word ∈ words, word ≠ []) (h : Held words tokens slot sent)
    (hword : ¬(processToken words slot result).1.stoppedWord)
    (heos : ¬(processToken words slot result).1.stoppedEos) :
    Held words (tokens ++ [result]) (processToken words slot result).1
      (sent ++ (processToken words slot result).2.getD []) := by
  have heog : ¬result.isEog := mt (processToken_stoppedEos_of_isEog slot) heos
  by_cases hcomplete : Complete (textOf (tokens ++ [result]))
  case neg => exact h.step_of_kept hwords (fun hsend => hcomplete hsend.1) (.inl hcomplete)
  case pos =>
    by_cases hends : ∃ i, EndsFrom words (textOf (tokens ++ [result])) (textOf tokens).length i
    case pos =>
      obtain ⟨i, hleast⟩ := exists_isLeast hends
      exact absurd (h.found result hwords hcomplete hleast).1 hword
    case neg =>
      have hnone := not_exists.mp hends
      by_cases hbegun : Begun words (textOf (tokens ++ [result]))
      case pos =>
        refine h.step_of_kept hwords (fun hsend => hsend.2 hbegun) (.inr ⟨hnone, heog, hbegun⟩)
      case neg =>
        obtain ⟨htext, hlen, hsent⟩ := h.flushed result hwords hcomplete hnone (.inr hbegun)
        rw [hsent]
        refine ⟨htext, hlen, _, lastSendable_concat_of_sendable ⟨hcomplete, hbegun⟩, ?_⟩
        rw [take_length]

theorem generate_append (slot : TextSlot) (tokens more : List Token) :
    generate words slot (tokens ++ more) = (generate words slot tokens).bind fun before =>
        (generate words before.1 more).map fun after => (after.1, before.2 ++ after.2) := by
  induction tokens generalizing slot with
  | nil => simp [generate]
  | cons result tokens ih =>
    rw [cons_append, generate, generate]
    split
    case isTrue => rfl
    case isFalse =>
      simp only [ih, Option.map_bind, Option.bind_map, Option.map_map, Function.comp_def,
        append_assoc]

/-- The last token of a run is processed after a run of the others. -/
theorem generate_concat {slot after : TextSlot} {tokens : List Token} {last : Token}
    {text : Text} (h : generate words slot (tokens ++ [last]) = some (after, text)) :
    ∃ before sent, generate words slot tokens = some (before, sent) ∧
      ¬before.stoppedWord ∧ ¬before.stoppedEos ∧
      after = (processToken words before last).1 ∧
      text = sent ++ (processToken words before last).2.getD [] := by
  rw [generate_append, bind_eq_some_iff] at h
  obtain ⟨⟨before, sent⟩, hbefore, hafter⟩ := h
  refine ⟨before, sent, hbefore, ?_⟩
  rw [generate] at hafter
  split at hafter
  case isTrue => cases hafter
  case isFalse hrunning =>
    obtain ⟨hword, heos⟩ := not_or.mp hrunning
    simp only [generate, map_some, append_nil, some.injEq,
      Prod.mk.injEq] at hafter
    exact ⟨hword, heos, hafter.1.symm, hafter.2.symm⟩

/-- What has been sent while a slot goes on generating. -/
theorem held_of_generate (hwords : ∀ word ∈ words, word ≠ []) {tokens : List Token}
    {slot : TextSlot} {sent : Text} (h : generate words {} tokens = some (slot, sent))
    (hword : ¬slot.stoppedWord) (heos : ¬slot.stoppedEos) : Held words tokens slot sent := by
  induction tokens using reverseRecOn generalizing slot sent with
  | nil =>
    cases h
    exact held_start
  | append_singleton tokens last ih =>
    obtain ⟨before, text, hbefore, hbeforeWord, hbeforeEos, rfl, rfl⟩ := generate_concat h
    exact (ih hbefore hbeforeWord hbeforeEos).step hwords hword heos

/-! ## The last token -/

theorem cut_length_le (hwords : ∀ word ∈ words, word ≠ []) (h : Occurs words text i) :
    (cut words text).length ≤ i := by
  obtain ⟨first, hfirst⟩ := exists_isLeast (P := Occurs words text) ⟨i, h⟩
  rw [cut_of_isLeast hwords hfirst]
  exact (length_take_le _ _).trans (hfirst.2 h)

theorem expected_length_le (hwords : ∀ word ∈ words, word ≠ []) (h : Occurs words text i) :
    (expected words text).length ≤ i :=
  (length_take_le' _ _).trans (cut_length_le hwords h)

theorem streams_iff (hwords : ∀ word ∈ words, word ≠ []) {sent : Text} :
    Streams words text sent ↔ sent = expected words text := by
  refine ⟨fun h => h.1, fun h => ⟨h, fun i hi => ?_⟩⟩
  rw [h]
  exact expected_length_le hwords hi

/-- A text is all there is to send if no stop string is in it. -/
theorem eq_expected_iff (hwords : ∀ word ∈ words, word ≠ []) (hcomplete : Complete text) :
    text = expected words text ↔ ∀ i < text.length, ¬Occurs words text i := by
  constructor
  · intro h i hi hoccurs
    have hle := expected_length_le hwords hoccurs
    rw [← h] at hle
    exact absurd hi (Nat.not_lt_of_le hle)
  · intro h
    have hcut : cut words text = text :=
      cut_of_forall_not fun i hi => h i (hi.lt_length hwords) hi
    rw [expected, hcut, hcomplete, take_length]

/-- A text up to a stop string is all there is to send if this is the first and follows a
character. -/
theorem take_eq_expected_iff (hwords : ∀ word ∈ words, word ≠ []) (h : Occurs words text i) :
    text.take i = expected words text ↔
      (∀ j < i, ¬Occurs words text j) ∧ Complete (text.take i) := by
  have hi := (h.lt_length hwords).le
  constructor
  · intro htake
    have hlen := congrArg length htake
    rw [expected, length_take_of_le hi, length_take_of_le (validateUtf8_le _)] at hlen
    have hfirst (j : ℕ) (hj : j < i) : ¬Occurs words text j := by
      intro hoccurs
      have hle := (validateUtf8_le _).trans (cut_length_le hwords hoccurs)
      exact absurd (hlen.le.trans hle) (Nat.not_le_of_lt hj)
    refine ⟨hfirst, ?_⟩
    have hcut : cut words text = text.take i :=
      cut_of_isLeast hwords ⟨h, fun j hj => Nat.le_of_not_lt fun hlt => hfirst j hlt hj⟩
    rw [hcut] at hlen
    rw [Complete, ← hlen, length_take_of_le hi]
  · rintro ⟨hfirst, hcomplete⟩
    have hcut : cut words text = text.take i :=
      cut_of_isLeast hwords ⟨h, fun j hj => Nat.le_of_not_lt fun hlt => hfirst j hlt hj⟩
    rw [expected, hcut, hcomplete, take_length]

/-- What has been sent when a slot has processed a last token is exactly what was to be sent if and
only if the text was on time. -/
theorem streams_iff_onTime (hwords : ∀ word ∈ words, word ≠ []) {tokens : List Token}
    {last : Token} {slot : TextSlot} {sent : Text}
    (h : generate words {} (tokens ++ [last]) = some (slot, sent)) :
    Streams words (textOf (tokens ++ [last])) (sent ++ finalContent true slot) ↔
      OnTime words tokens last := by
  obtain ⟨before, text, hbefore, hword, heos, rfl, rfl⟩ := generate_concat h
  have hheld := held_of_generate hwords hbefore hword heos
  have hlt {i : ℕ} (hends : EndsFrom words (textOf (tokens ++ [last])) (textOf tokens).length i) :
      i < (textOf (tokens ++ [last])).length := hends.occurs.lt_length hwords
  rw [streams_iff hwords, finalContent, if_pos rfl, append_nil, OnTime]
  split
  case isTrue hfound =>
    -- the first stop string that ends with the last token stops the slot
    obtain ⟨hcomplete, hends⟩ := hfound
    obtain ⟨i, hleast⟩ := exists_isLeast (hends.imp fun i hi => hi.2)
    rw [(hheld.found last hwords hcomplete hleast).2, take_eq_expected_iff hwords hleast.1.occurs]
    constructor
    · exact fun hfirst => ⟨i, hlt hleast.1, hleast.1, hfirst⟩
    · rintro ⟨j, _, hj, hfirst, hchar⟩
      have hij : i = j :=
        Nat.le_antisymm (hleast.2 hj) (Nat.le_of_not_lt fun hlt => hfirst i hlt hleast.1.occurs)
      exact hij ▸ ⟨hfirst, hchar⟩
  case isFalse hnotFound =>
    have hnone (hcomplete : Complete (textOf (tokens ++ [last]))) (i : ℕ) :
        ¬EndsFrom words (textOf (tokens ++ [last])) (textOf tokens).length i :=
      fun hends => hnotFound ⟨hcomplete, i, hlt hends, hends⟩
    split
    case isTrue hflush =>
      obtain ⟨hcomplete, hflush⟩ := hflush
      rw [(hheld.flushed last hwords hcomplete (hnone hcomplete) hflush).2.2]
      exact eq_expected_iff hwords hcomplete
    case isFalse hkept =>
      have hnothing : (processToken words before last).2.getD [] = [] := by
        refine (hheld.kept last hwords ?_).2.2
        by_cases hcomplete : Complete (textOf (tokens ++ [last]))
        · obtain ⟨heog, hbegun⟩ := not_or.mp (not_and.mp hkept hcomplete)
          exact .inr ⟨hnone hcomplete, heog, not_not.mp hbegun⟩
        · exact .inl hcomplete
      obtain ⟨k, hlast, rfl⟩ := hheld.last
      rw [hnothing, append_nil]
      constructor
      · exact fun hsent => ⟨k, hlast, hsent⟩
      · rintro ⟨j, hj, hsent⟩
        rwa [hlast.unique hj]

/-- "xa" and "b" with the stop string "ab": the "a" is held back, and only "x" is sent. -/
theorem streams_iff_onTime_split : (∀ word ∈ [[0x61, 0x62]], word ≠ ([] : Text)) ∧
      generate [[0x61, 0x62]] {} ([{ piece := [0x78, 0x61] }] ++ [{ piece := [0x62] }]) =
        some ({ generatedText := [0x78], nSentText := 1, hasNextToken := false
                stoppedWord := true, stoppingWord := [0x61, 0x62] }, [0x78]) ∧
      Streams [[0x61, 0x62]] [0x78, 0x61, 0x62] [0x78] := by
  have hwords : ∀ word ∈ [[0x61, 0x62]], word ≠ ([] : Text) := by decide
  have hrun : generate [[0x61, 0x62]] {} ([{ piece := [0x78, 0x61] }] ++ [{ piece := [0x62] }]) =
      some ({ generatedText := [0x78], nSentText := 1, hasNextToken := false
              stoppedWord := true, stoppingWord := [0x61, 0x62] }, [0x78]) := by decide
  refine ⟨hwords, hrun, (streams_iff_onTime hwords hrun).mpr ?_⟩
  rw [OnTime, if_pos (by decide)]
  decide

/-- "abcde" with the first byte of a character and then its second byte, which ends the
generation: the stop string "ab" is out of the window of the second token and is sent. -/
theorem not_streams : ∃ slot sent, generate [[0x61, 0x62]] {}
          [{ piece := [0x61, 0x62, 0x63, 0x64, 0x65, 0xC3] },
            { piece := [0xA9], outOfBudget := true }] = some (slot, sent) ∧
        slot.hasNextToken = false ∧
        ¬Streams [[0x61, 0x62]] [0x61, 0x62, 0x63, 0x64, 0x65, 0xC3, 0xA9]
          (sent ++ finalContent true slot) := by
  refine ⟨_, _, rfl, by decide, fun h => ?_⟩
  exact absurd (h.2 0 (by decide)) (by decide)

end ExpertPin.Server.StreamedText
