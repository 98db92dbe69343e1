import ExpertPin.Peg.Runs

/-!
# Parsers without children on a text that is cut off

What a parser has matched before the end of a prefix of a text, it matches in the whole text, and
where it fails it fails there as well.  For the characters of a class and for delimiters this is
so if what is cut off is not taken for what it is not: an incomplete character ends a run of
characters, and a delimiter that has begun may turn out to be text.
-/

namespace ExpertPin.Peg

variable {s t : Text} {pos startPos startPos' q : ℕ}

def Result.Failed (r : Result) : Prop := ∃ stop, r = .fail stop

def Result.Succeeded (r : Result) : Prop := ∃ stop nodes, r = .success stop nodes

/-- What is parsed in a prefix with `n` bytes is what is parsed in the whole text, or it ends with
the prefix, and then what is parsed goes on from there. -/
def Result.Follows (n : ℕ) (clean : Prop) : Result → Result → Prop
  | .fail _, R => R.Failed
  | .success stop _, R => (stop < n → ∃ nodes, R = .success stop nodes) ∧
      (stop = n → clean → ∃ stop' nodes, n ≤ stop' ∧ R = .success stop' nodes)
  | .needMoreInput _ _, _ => True

namespace Result.Follows

variable {n : ℕ} {clean : Prop}

theorem fail (stop stop' : ℕ) : Follows n clean (.fail stop) (.fail stop') := ⟨stop', rfl⟩

theorem success (stop : ℕ) (nodes nodes' : List Ast) :
    Follows n clean (.success stop nodes) (.success stop nodes') :=
  ⟨fun _ => ⟨nodes', rfl⟩, fun h _ => ⟨stop, nodes', Nat.le_of_eq h.symm, rfl⟩⟩

theorem ended (R : Result) (failStop stop : ℕ) :
    Follows n clean ((⟨t, true⟩ : Context).ended failStop stop) R := trivial

end Result.Follows

/-! ## Characters and delimiters -/

theorem parseUtf8Codepoint_cut (h : t <+: s) (hcomplete : parseUtf8Codepoint t pos ≠ .incomplete) :
    parseUtf8Codepoint s pos = parseUtf8Codepoint t pos := by
  have hdrop : t.drop pos <+: s.drop pos := h.drop pos
  unfold parseUtf8Codepoint at hcomplete ⊢
  obtain ⟨u, hu⟩ := hdrop
  rw [← hu]
  generalize t.drop pos = l at hcomplete ⊢
  cases l with
  | nil => exact absurd rfl hcomplete
  | cons b₀ rest =>
    dsimp only [List.cons_append] at hcomplete ⊢
    by_cases h80 : b₀ &&& 0x80 = 0
    · rw [if_pos h80, if_pos h80]
    · rw [if_neg h80] at hcomplete ⊢
      rw [if_neg h80]
      by_cases h40 : b₀ &&& 0x40 = 0
      · rw [if_pos h40, if_pos h40]
      · rw [if_neg h40] at hcomplete ⊢
        rw [if_neg h40]
        by_cases h20 : b₀ &&& 0x20 = 0
        · rw [if_pos h20] at hcomplete ⊢
          rw [if_pos h20]
          cases rest with
          | nil => exact absurd rfl hcomplete
          | cons b₁ rest => rfl
        · rw [if_neg h20] at hcomplete ⊢
          rw [if_neg h20]
          by_cases h10 : b₀ &&& 0x10 = 0
          · rw [if_pos h10] at hcomplete ⊢
            rw [if_pos h10]
            rcases rest with _ | ⟨b₁, _ | ⟨b₂, rest⟩⟩
            · exact absurd rfl hcomplete
            · exact absurd rfl hcomplete
            · rfl
          · rw [if_neg h10] at hcomplete ⊢
            rw [if_neg h10]
            by_cases h08 : b₀ &&& 0x08 = 0
            · rw [if_pos h08] at hcomplete ⊢
              rw [if_pos h08]
              rcases rest with _ | ⟨b₁, _ | ⟨b₂, _ | ⟨b₃, rest⟩⟩⟩
              · exact absurd rfl hcomplete
              · exact absurd rfl hcomplete
              · exact absurd rfl hcomplete
              · rfl
            · rw [if_neg h08, if_neg h08]

theorem parseUtf8Codepoint_end (h : t.length ≤ pos) : parseUtf8Codepoint t pos = .incomplete := by
  rw [parseUtf8Codepoint, List.drop_of_length_le h]

theorem getElem?_cut {c : UInt8} (h : t <+: s) (hget : t[pos]? = some c) : s[pos]? = some c := by
  obtain ⟨u, rfl⟩ := h
  rw [List.getElem?_append_left (List.getElem?_eq_some_iff.mp hget).1]
  exact hget

variable {steps steps' : ℕ}

/-- What is seen of a delimiter before the end of a prefix is seen in the whole text. -/
theorem check_cut (h : t <+: s) (hsteps : steps ≤ steps') (matcher : WordTrie) {atRoot : Bool}
    (hroot : atRoot = true → parseUtf8Codepoint t pos ≠ .incomplete ∧ 0 < steps)
    (hresult : matcher.check t steps atRoot pos ≠ .partialMatch) :
    matcher.check s steps' atRoot pos = matcher.check t steps atRoot pos := by
  induction steps generalizing matcher pos steps' atRoot with
  | zero =>
    cases atRoot with
    | false => exact absurd rfl hresult
    | true => exact absurd (hroot rfl).2 (Nat.lt_irrefl 0)
  | succ steps ih =>
    obtain ⟨steps', rfl⟩ := Nat.exists_eq_add_of_le'
      (Nat.lt_of_lt_of_le (Nat.succ_pos steps) hsteps)
    unfold WordTrie.check at hresult ⊢
    cases hparse : parseUtf8Codepoint t pos with
    | incomplete =>
      rw [hparse] at hresult
      cases atRoot with
      | false => exact absurd rfl hresult
      | true => exact absurd hparse (hroot rfl).1
    | invalid => rw [parseUtf8Codepoint_cut h (by simp [hparse]), hparse]
    | success codepoint k =>
      rw [hparse] at hresult
      rw [parseUtf8Codepoint_cut h (by simp [hparse]), hparse]
      dsimp only at hresult ⊢
      cases hchild : matcher.children codepoint with
      | none => rfl
      | some child =>
        rw [hchild] at hresult
        dsimp only at hresult ⊢
        by_cases hvalue : child.value
        · rw [if_pos hvalue, if_pos hvalue]
        · rw [if_neg hvalue] at hresult ⊢
          rw [if_neg hvalue]
          exact ih (by omega) child nofun hresult

theorem checkAt_cut (h : t <+: s) (matcher : WordTrie)
    (hcomplete : parseUtf8Codepoint t pos ≠ .incomplete)
    (hresult : matcher.checkAt t pos ≠ .partialMatch) :
    matcher.checkAt s pos = matcher.checkAt t pos := by
  have hlt : pos < t.length := by
    apply Nat.lt_of_not_le
    exact fun hle => hcomplete (parseUtf8Codepoint_end hle)
  exact check_cut h (Nat.sub_le_sub_right h.length_le pos) matcher
    (fun _ => ⟨hcomplete, Nat.sub_pos_of_lt hlt⟩) hresult

/-! ## Results that do not depend on the rest of the text -/

theorem waits_ended (failStop stop : ℕ) : ((⟨t, true⟩ : Context).ended failStop stop).Waits :=
  ⟨stop, [], rfl⟩

theorem Result.Follows.of_waits {n : ℕ} {clean : Prop} {r R : Result} (h : r.Waits ∨ R = r) :
    r.Follows n clean R := by
  rcases h with ⟨stop, nodes, rfl⟩ | rfl
  · trivial
  · cases R with
    | fail stop => exact .fail stop stop
    | success stop nodes => exact .success stop nodes nodes
    | needMoreInput stop nodes => trivial

theorem literalFrom_cut (h : t <+: s) (literal : Text) :
    (literalFrom ⟨t, true⟩ startPos literal pos).Waits ∨
      literalFrom ⟨s, false⟩ startPos literal pos = literalFrom ⟨t, true⟩ startPos literal pos := by
  induction literal generalizing pos with
  | nil => exact .inr rfl
  | cons c literal ih =>
    unfold literalFrom
    cases hget : t[pos]? with
    | none => exact .inl (waits_ended _ _)
    | some d =>
      rw [getElem?_cut h hget]
      dsimp only
      split
      · exact .inr rfl
      · exact ih

theorem anyAt_cut (h : t <+: s) :
    (anyAt ⟨t, true⟩ pos).Waits ∨ anyAt ⟨s, false⟩ pos = anyAt ⟨t, true⟩ pos := by
  unfold anyAt
  dsimp only
  cases hparse : parseUtf8Codepoint t pos with
  | incomplete => exact .inl (waits_ended _ _)
  | invalid | success =>
    rw [parseUtf8Codepoint_cut h (by simp [hparse]), hparse]
    exact .inr rfl

theorem unicodeEscape_cut (h : t <+: s) (digits : ℕ) :
    (unicodeEscape ⟨t, true⟩ startPos digits pos).Waits ∨
      unicodeEscape ⟨s, false⟩ startPos digits pos =
        unicodeEscape ⟨t, true⟩ startPos digits pos := by
  induction digits generalizing pos with
  | zero => exact .inr rfl
  | succ digits ih =>
    unfold unicodeEscape
    cases hget : t[pos]? with
    | none => exact .inl (waits_ended _ _)
    | some c =>
      rw [getElem?_cut h hget]
      dsimp only
      split
      · exact ih
      · exact .inr rfl

theorem escapeSequence_cut (h : t <+: s) (delimiter : UInt8) :
    (escapeSequence ⟨t, true⟩ startPos delimiter pos).Waits ∨
      escapeSequence ⟨s, false⟩ startPos delimiter pos =
        escapeSequence ⟨t, true⟩ startPos delimiter pos := by
  unfold escapeSequence
  cases hget : t[pos + 1]? with
  | none => exact .inl (waits_ended _ _)
  | some c =>
    rw [getElem?_cut h hget]
    dsimp only
    split
    · exact .inr rfl
    · split
      · exact unicodeEscape_cut h 4
      · exact .inr rfl

theorem stringFrom_cut (h : t <+: s) (delimiter : UInt8)
    (hsteps : steps ≤ steps') :
    (stringFrom ⟨t, true⟩ startPos delimiter steps pos).Waits ∨
      stringFrom ⟨s, false⟩ startPos delimiter steps' pos =
        stringFrom ⟨t, true⟩ startPos delimiter steps pos := by
  induction steps generalizing pos steps' with
  | zero => exact .inl (waits_ended _ _)
  | succ steps ih =>
    obtain ⟨steps', rfl⟩ := Nat.exists_eq_add_of_le'
      (Nat.lt_of_lt_of_le (Nat.succ_pos steps) hsteps)
    have hle : steps ≤ steps' := Nat.le_of_succ_le_succ hsteps
    unfold stringFrom
    dsimp only
    cases hget : t[pos]? with
    | none => exact .inl (waits_ended _ _)
    | some c =>
      rw [getElem?_cut h hget]
      dsimp only
      by_cases hc : c = delimiter
      · rw [if_pos hc, if_pos hc]
        exact .inr rfl
      · rw [if_neg hc, if_neg hc]
        by_cases hb : c = 92
        · rw [if_pos hb, if_pos hb]
          have hescape : (escapeSequence ⟨t, true⟩ startPos delimiter pos).Waits ∨
              escapeSequence ⟨s, false⟩ startPos delimiter pos =
                escapeSequence ⟨t, true⟩ startPos delimiter pos :=
                  escapeSequence_cut h delimiter
          rcases hescape with ⟨stop, nodes, hwaits⟩ | heq
          · rw [hwaits]
            exact .inl ⟨stop, nodes, rfl⟩
          · rw [heq]
            cases escapeSequence ⟨t, true⟩ startPos delimiter pos with
            | fail stop => exact .inr rfl
            | success stop nodes => exact ih hle
            | needMoreInput stop nodes => exact .inl ⟨stop, nodes, rfl⟩
        · rw [if_neg hb, if_neg hb]
          cases hparse : parseUtf8Codepoint t pos with
          | incomplete => exact .inl (waits_ended _ _)
          | invalid =>
            rw [parseUtf8Codepoint_cut h (by simp [hparse]), hparse]
            exact .inr rfl
          | success codepoint k =>
            rw [parseUtf8Codepoint_cut h (by simp [hparse]), hparse]
            exact ih hle

theorem follows_spaceFrom {clean : Prop} (h : t <+: s) (hpos : pos ≤ t.length) :
    (spaceFrom ⟨t, true⟩ pos).Follows t.length clean (spaceFrom ⟨s, false⟩ pos) := by
  obtain ⟨u, rfl⟩ := h
  unfold spaceFrom
  have hdrop : (t ++ u).drop pos = t.drop pos ++ u := List.drop_append_of_le_length hpos
  dsimp only
  rw [hdrop, List.takeWhile_append]
  constructor
  · intro hlt
    have hshort : ((t.drop pos).takeWhile isSpace).length ≠ (t.drop pos).length := by
      rw [List.length_drop]
      omega
    rw [if_neg hshort]
    exact ⟨[], rfl⟩
  · intro hend _
    have hall : ((t.drop pos).takeWhile isSpace).length = (t.drop pos).length := by
      rw [List.length_drop]
      omega
    rw [if_pos hall]
    refine ⟨_, [], ?_, rfl⟩
    rw [List.length_append, List.length_drop]
    omega

/-! ## Characters of a class -/

section Chars

variable {ranges : List CharRange} {negated : Bool} {minCount maxCount : ℤ} {matchCount : ℕ}

/-- So many characters of a class. -/
inductive Takes (ranges : List CharRange) (negated : Bool) (bytes : Text) : ℕ → ℕ → ℕ → Prop
  | zero (pos : ℕ) : Takes ranges negated bytes 0 pos pos
  | succ {k pos q codepoint n : ℕ}
      (hparse : parseUtf8Codepoint bytes pos = .success codepoint n)
      (hclass : matchesClass ranges negated codepoint)
      (h : Takes ranges negated bytes k (pos + n) q) :
      Takes ranges negated bytes (k + 1) pos q

/-- Where a prefix cuts off a character behind enough of a class, the character is not of the
class. -/
def CharsKept (t s : Text) (ranges : List CharRange) (negated : Bool) (minCount maxCount : ℤ)
    (matchCount pos : ℕ) : Prop :=
  ∀ k q, Takes ranges negated t k pos q → q < t.length → parseUtf8Codepoint t q = .incomplete →
    minCount ≤ (matchCount + k : ℕ) → mayRepeat maxCount (matchCount + k) →
    ∀ codepoint n, parseUtf8Codepoint s q = .success codepoint n →
      ¬matchesClass ranges negated codepoint

theorem charsDone_succeeded {ctx : Context} (h : minCount ≤ matchCount) :
    charsDone ctx minCount pos matchCount = .success pos [] := if_neg (Int.not_lt.mpr h)

theorem charsFrom_succeeded {ctx : Context} (steps : ℕ) (h : minCount ≤ matchCount) :
    (charsFrom ctx startPos ranges negated minCount maxCount steps pos matchCount).Succeeded := by
  induction steps generalizing pos matchCount with
  | zero => exact ⟨pos, [], charsDone_succeeded h⟩
  | succ steps ih =>
    unfold charsFrom
    split
    · split
      case h_1 => exact ⟨pos, [], rfl⟩
      case h_2 => exact ⟨pos, [], rfl⟩
      case h_3 =>
        split
        · exact ih (by omega)
        · exact ⟨pos, [], charsDone_succeeded h⟩
    · exact ⟨pos, [], charsDone_succeeded h⟩

theorem follows_charsDone {clean : Prop} :
    (charsDone ⟨t, true⟩ minCount pos matchCount).Follows t.length clean
      (charsDone ⟨s, false⟩ minCount pos matchCount) := by
  unfold charsDone
  split
  · split
    · exact .ended _ _ _
    · split
      · exact .fail _ _
      · exact .fail _ _
  · exact .success _ _ _

theorem follows_charsFrom {clean : Prop} (h : t <+: s) (hpos : pos ≤ t.length)
    (hsteps : t.length < steps + pos) (hsteps' : s.length < steps' + pos)
    (hkept : CharsKept t s ranges negated minCount maxCount matchCount pos) :
    (charsFrom ⟨t, true⟩ startPos ranges negated minCount maxCount steps pos matchCount).Follows
      t.length clean
      (charsFrom ⟨s, false⟩ startPos ranges negated minCount maxCount steps' pos matchCount) := by
  have hlength := h.length_le
  induction steps generalizing pos matchCount steps' with
  | zero => omega
  | succ steps ih =>
    obtain ⟨steps', rfl⟩ : ∃ k, steps' = k + 1 := ⟨steps' - 1, by omega⟩
    by_cases hrepeat : mayRepeat maxCount matchCount
    · by_cases hincomplete : parseUtf8Codepoint t pos = .incomplete
      · by_cases hmin : minCount ≤ matchCount
        · have hleft : charsFrom ⟨t, true⟩ startPos ranges negated minCount maxCount (steps + 1) pos
              matchCount = .success pos [] := by
            rw [charsFrom, if_pos hrepeat]
            dsimp only
            rw [hincomplete]
            exact if_pos hmin
          rw [hleft]
          rcases Nat.eq_or_lt_of_le hpos with heq | hlt
          · have hsucceeded : (charsFrom ⟨s, false⟩ startPos ranges negated minCount maxCount
                (steps' + 1) pos matchCount).Succeeded := charsFrom_succeeded _ hmin
            have hspans : (charsFrom ⟨s, false⟩ startPos ranges negated minCount maxCount
                (steps' + 1) pos matchCount).Spans s.length pos (minCount ≤ matchCount) :=
              (proceeds_charsFrom _ matchCount).1
            obtain ⟨stop, nodes, hright⟩ := hsucceeded
            rw [hright] at hspans
            exact ⟨fun hlt => absurd heq (Nat.ne_of_lt hlt), fun _ _ =>
              ⟨stop, nodes, heq ▸ hspans.1, hright⟩⟩
          · have hright : charsFrom ⟨s, false⟩ startPos ranges negated minCount maxCount
                (steps' + 1) pos matchCount = .success pos [] := by
              rw [charsFrom, if_pos hrepeat]
              dsimp only
              cases hparse : parseUtf8Codepoint s pos with
              | incomplete => exact if_pos hmin
              | invalid => exact if_pos hmin
              | success codepoint k =>
                have hclass := hkept 0 pos (.zero pos) hlt hincomplete hmin hrepeat codepoint k
                  hparse
                dsimp only
                rw [if_neg hclass]
                exact charsDone_succeeded hmin
            rw [hright]
            exact .success pos [] []
        · have hleft : charsFrom ⟨t, true⟩ startPos ranges negated minCount maxCount (steps + 1) pos
              matchCount = (⟨t, true⟩ : Context).ended startPos pos := by
            rw [charsFrom, if_pos hrepeat]
            dsimp only
            rw [hincomplete]
            exact if_neg hmin
          rw [hleft]
          exact .ended _ _ _
      · have hsame := parseUtf8Codepoint_cut h hincomplete
        rw [charsFrom, charsFrom, if_pos hrepeat, if_pos hrepeat]
        dsimp only
        rw [hsame]
        cases hparse : parseUtf8Codepoint t pos with
        | incomplete => exact absurd hparse hincomplete
        | invalid =>
          dsimp only
          split
          · exact .success pos [] []
          · exact .fail _ _
        | success codepoint k =>
          dsimp only
          split
          case isTrue hclass =>
            obtain ⟨hk, hle⟩ := parseUtf8Codepoint_bounds hparse
            refine ih hle (by omega) (by omega) fun k' q htakes hq hcut hmin hmay => ?_
            refine hkept (k' + 1) q (.succ hparse hclass htakes) hq hcut ?_ ?_
            · rwa [Nat.add_right_comm, Nat.add_assoc] at hmin
            · rwa [Nat.add_right_comm, Nat.add_assoc] at hmay
          case isFalse => exact follows_charsDone
    · rw [charsFrom, charsFrom, if_neg hrepeat, if_neg hrepeat]
      exact follows_charsDone

end Chars

/-! ## Characters up to a delimiter -/

/-- Where a delimiter has begun at the end of a prefix, the whole text goes on with it. -/
def DelimitersKept (t s : Text) (matcher : WordTrie) (pos : ℕ) : Prop :=
  ∀ q, Scans matcher t pos q → matcher.checkAt t q = .partialMatch → matcher.checkAt s q ≠ .noMatch

theorem follows_untilFrom {clean : Prop} (h : t <+: s) {matcher : WordTrie}
    (hpos : pos ≤ t.length) (hsteps : t.length ≤ steps + pos) (hsteps' : s.length ≤ steps' + pos)
    (hkept : DelimitersKept t s matcher pos) :
    (untilFrom ⟨t, true⟩ startPos matcher steps pos).Follows t.length clean
      (untilFrom ⟨s, false⟩ startPos matcher steps' pos) := by
  have hlength := h.length_le
  have hdone : ∀ {pos : ℕ} {R : Result}, pos = t.length →
      (untilDone ⟨t, true⟩ pos).Follows t.length clean R := by
    intro pos R hend
    rw [untilDone, Bool.and_true, if_pos (decide_eq_true hend)]
    trivial
  induction steps generalizing pos steps' with
  | zero => exact hdone (by omega)
  | succ steps ih =>
    by_cases hlt : pos < t.length
    · obtain ⟨steps', rfl⟩ : ∃ k, steps' = k + 1 := ⟨steps' - 1, by omega⟩
      unfold untilFrom
      dsimp only
      rw [if_pos hlt, if_pos (Nat.lt_of_lt_of_le hlt hlength)]
      by_cases hincomplete : parseUtf8Codepoint t pos = .incomplete
      · rw [hincomplete]
        exact .ended _ _ _
      · rw [parseUtf8Codepoint_cut h hincomplete]
        cases hparse : parseUtf8Codepoint t pos with
        | incomplete => exact absurd hparse hincomplete
        | invalid => exact .fail _ _
        | success codepoint k =>
          obtain ⟨hk, hle⟩ := parseUtf8Codepoint_bounds hparse
          dsimp only
          cases hmatch : matcher.checkAt t pos with
          | completeMatch =>
            rw [checkAt_cut h matcher hincomplete (by simp [hmatch]), hmatch]
            exact .success _ _ _
          | noMatch =>
            rw [checkAt_cut h matcher hincomplete (by simp [hmatch]), hmatch]
            exact ih hle (by omega) (by omega) fun q hscan =>
              hkept q (.step hparse hmatch hscan)
          | partialMatch =>
            have hseen := hkept pos (.refl pos) hmatch
            cases hmatch' : matcher.checkAt s pos with
            | noMatch => exact absurd hmatch' hseen
            | partialMatch => exact .success _ _ _
            | completeMatch => exact .success _ _ _
    · unfold untilFrom
      dsimp only
      rw [if_neg hlt]
      exact hdone (by omega)

end ExpertPin.Peg
