import ExpertPin.Peg.Building
import ExpertPin.Peg.Prefixes

/-!
# Parsing a text as it comes in

The lenient mode parses a text of which only a prefix is there.  Where a text is parsed up to its
end, its prefixes should not fail to be parsed.  They may, where the end of the prefix is taken
for the end of the text: behind an incomplete character, behind a delimiter that has only begun,
and where the end of the input is asked for.

`Steady` says that nothing of this happens in the parse of a prefix.  Then what the parse of the
prefix has matched or failed, that of the whole text has as well (`follows_parse`), until the
prefix is at its end and the whole text goes on from there or behind (`ends_parse`).
-/

namespace ExpertPin.Peg

open Recursion ParsingExpressions
open Nat

/-- What is parsed at the end of a prefix has failed only if it fails in the whole text, wherever
the parser is there. -/
def Result.Ends (clean : Prop) (r R : Result) : Prop :=
  (r.Failed → R.Failed) ∧ (r.Succeeded → clean → R.Succeeded)

namespace Result

variable {clean clean' : Prop} {stop stop' n : ℕ} {nodes nodes' : List Ast} {r R : Result}

theorem not_succeeded_fail : ¬(fail stop).Succeeded := nofun

theorem not_failed_success : ¬(success stop nodes).Failed := nofun

namespace Ends

theorem fail (h : R.Failed) : Ends clean (.fail stop) R :=
  ⟨fun _ => h, fun hsucceeded => absurd hsucceeded not_succeeded_fail⟩

theorem success (h : clean → R.Succeeded) : Ends clean (.success stop nodes) R :=
  ⟨fun hfailed => absurd hfailed not_failed_success, fun _ => h⟩

theorem needMoreInput : Ends clean (.needMoreInput stop nodes) R := ⟨nofun, nofun⟩

theorem of_waits (h : r.Waits) : Ends clean r R := by
  obtain ⟨stop, nodes, rfl⟩ := h
  exact needMoreInput

theorem mono (h : Ends clean r R) (hclean : clean' → clean) : Ends clean' r R :=
  ⟨h.1, fun hsucceeded hclean' => h.2 hsucceeded (hclean hclean')⟩

end Ends

variable {rule tag : Text}

theorem succeeded_wrap {start : ℕ} :
    (r.wrap rule tag start).Succeeded ↔ r.Succeeded := by
  cases r with
  | fail stop => exact iff_of_false nofun nofun
  | success stop nodes => exact iff_of_true ⟨stop, _, rfl⟩ ⟨stop, nodes, rfl⟩
  | needMoreInput stop nodes => exact iff_of_false nofun nofun

theorem failed_wrap {start : ℕ} : (r.wrap rule tag start).Failed ↔ r.Failed := by
  cases r with
  | fail stop => exact Iff.rfl
  | success stop nodes => exact iff_of_false nofun nofun
  | needMoreInput stop nodes => exact iff_of_false nofun nofun

theorem succeeded_clear : r.clear.Succeeded ↔ r.Succeeded := by
  cases r with
  | fail stop => exact Iff.rfl
  | success stop nodes => exact Iff.rfl
  | needMoreInput stop nodes => exact iff_of_false nofun nofun

theorem failed_clear : r.clear.Failed ↔ r.Failed := by
  cases r with
  | fail stop => exact Iff.rfl
  | success stop nodes => exact Iff.rfl
  | needMoreInput stop nodes => exact iff_of_false nofun nofun

namespace Ends

theorem wrap {start start' : ℕ} (h : Ends clean r R) :
    Ends clean (r.wrap rule tag start) (R.wrap rule tag start') :=
  ⟨fun hfailed => failed_wrap.mpr (h.1 (failed_wrap.mp hfailed)), fun hsucceeded hclean =>
    succeeded_wrap.mpr (h.2 (succeeded_wrap.mp hsucceeded) hclean)⟩

theorem clear (h : Ends clean r R) : Ends clean r.clear R.clear :=
  ⟨fun hfailed => failed_clear.mpr (h.1 (failed_clear.mp hfailed)), fun hsucceeded hclean =>
    succeeded_clear.mpr (h.2 (succeeded_clear.mp hsucceeded) hclean)⟩

end Ends

namespace Follows

theorem mono (h : Follows n clean r R) (hclean : clean' → clean) : Follows n clean' r R := by
  cases r with
  | fail stop => exact h
  | success stop nodes => exact ⟨h.1, fun hstop hclean' => h.2 hstop (hclean hclean')⟩
  | needMoreInput stop nodes => trivial

theorem wrap {start : ℕ} (h : Follows n clean r R) :
    Follows n clean (r.wrap rule tag start) (R.wrap rule tag start) := by
  cases r with
  | fail stop => exact failed_wrap.mpr h
  | needMoreInput stop nodes => trivial
  | success stop nodes =>
    refine ⟨fun hlt => ?_, fun hend hclean => ?_⟩
    · obtain ⟨nodes', rfl⟩ := h.1 hlt
      exact ⟨_, rfl⟩
    · obtain ⟨stop', nodes', hle, rfl⟩ := h.2 hend hclean
      exact ⟨stop', _, hle, rfl⟩

theorem clear (h : Follows n clean r R) : Follows n clean r.clear R.clear := by
  cases r with
  | fail stop =>
    obtain ⟨stop', rfl⟩ := h
    exact ⟨stop', rfl⟩
  | needMoreInput stop nodes => trivial
  | success stop nodes =>
    refine ⟨fun hlt => ?_, fun hend hclean => ?_⟩
    · obtain ⟨nodes', rfl⟩ := h.1 hlt
      exact ⟨nodes', rfl⟩
    · obtain ⟨stop', nodes', hle, rfl⟩ := h.2 hend hclean
      exact ⟨stop', nodes', hle, rfl⟩

/-- Where the end of the prefix is not asked for, what has been matched is matched. -/
theorem succeeded (h : Follows n clean (.success stop nodes) R) (hle : stop ≤ n) (hclean : clean) :
    R.Succeeded := by
  rcases eq_or_lt_of_le hle with heq | hlt
  · obtain ⟨stop', nodes', -, rfl⟩ := h.2 heq hclean
    exact ⟨stop', nodes', rfl⟩
  · obtain ⟨nodes', rfl⟩ := h.1 hlt
    exact ⟨stop, nodes', rfl⟩

/-- At the end of the prefix the parse of the whole text may go on. -/
theorem of_ends {l l' p : ℕ} (h : Ends clean r R) (hr : r.Spans l n True)
    (hR : R.Spans l' p True) (hp : clean → n ≤ p) : Follows n clean r R := by
  cases r with
  | fail stop => exact h.1 ⟨stop, rfl⟩
  | needMoreInput stop nodes => trivial
  | success stop nodes =>
    obtain ⟨hle, -, -⟩ := hr
    refine ⟨fun hlt => absurd hle (Nat.not_le_of_lt hlt), fun _ hclean => ?_⟩
    obtain ⟨stop', nodes', rfl⟩ := h.2 ⟨stop, nodes, rfl⟩ hclean
    exact ⟨stop', nodes', Nat.le_trans (hp hclean) hR.1, rfl⟩

end Follows

end Result

/-! ## Loops -/

section Loops

variable {s t : Text} {P : ℕ → Prop} {clean : Prop} {child p pos : ℕ} {children : List ℕ}
variable {nodes nodes' : List Ast} {minCount maxCount : ℤ} {RL RS : ℕ × ℕ → Result → Prop}
  {r R : Result}

theorem proceeds_sequence {ctx : Context} (hL : ∀ c q a, RL (c, q) a → a.Proceeds ctx q True)
    (h : (sequenceFrom children pos nodes).Gives RL r) : r.Proceeds ctx pos True := by
  have hR : ∀ c q a, RL (c, q) a →
      a.Proceeds ctx q (Nullable (fun _ => some (.empty : Expr ℕ)) (.call c)) :=
    fun c q a ha => (hL c q a ha).mono fun _ => .call rfl .empty
  exact (proceeds_sequenceFrom hR h).mono fun _ => trivial

theorem proceeds_repetition {ctx : Context} {steps matchCount : ℕ}
    (hL : ∀ c q a, RL (c, q) a → a.Proceeds ctx q True)
    (h : (repetitionFrom ctx child minCount maxCount steps pos matchCount nodes).Gives RL r) :
    r.Proceeds ctx pos True := by
  have hR : ∀ c q a, RL (c, q) a →
      a.Proceeds ctx q (Nullable (fun _ => some (.empty : Expr ℕ)) (.call c)) :=
    fun c q a ha => (hL c q a ha).mono fun _ => .call rfl .empty
  exact (proceeds_repetitionFrom hR h).mono fun _ => trivial

section Repetition

variable (hwaits : ∀ key a, RS key a → ¬a.Waits)
include hwaits

/-- A repetition that has matched often enough does not fail any more. -/
theorem repetitionFrom_succeeded {steps matchCount : ℕ} (hmin : minCount ≤ matchCount)
    (h : (repetitionFrom ⟨s, false⟩ child minCount maxCount steps p matchCount nodes).Gives RS R) :
    R.Succeeded := by
  have hdone : ∀ {p matchCount : ℕ} {nodes : List Ast}, minCount ≤ matchCount →
      (repetitionDone ⟨s, false⟩ minCount p matchCount nodes).Succeeded := by
    intro p matchCount nodes hmin
    rw [repetitionDone, if_neg fun h => absurd h.2 (Int.not_lt.mpr hmin)]
    exact ⟨p, nodes, rfl⟩
  induction steps generalizing p matchCount nodes with
  | zero =>
    obtain rfl := h
    exact hdone hmin
  | succ steps ih =>
    unfold repetitionFrom at h
    split at h
    · obtain ⟨a, ha, hnext⟩ := h
      cases a with
      | fail stop =>
        obtain rfl := hnext
        exact hdone hmin
      | needMoreInput stop more => exact absurd ⟨stop, more, rfl⟩ (hwaits _ _ ha)
      | success stop more =>
        dsimp only at hnext
        split at hnext
        · obtain rfl := hnext
          exact hdone hmin
        · exact ih (by omega) hnext
    · obtain rfl := h
      exact hdone hmin

end Repetition

section Ends

variable (hL : ∀ c stop nodes, RL (c, t.length) (.success stop nodes) → stop = t.length)
variable (hS : ∀ c p stop nodes, P p → RS (c, p) (.success stop nodes) → P stop)
variable (hwaits : ∀ key a, RS key a → ¬a.Waits)
variable (hend : ∀ c p a a', P p → RL (c, t.length) a → RS (c, p) a' → a.Ends clean a')

include hL hS hwaits hend in
theorem ends_sequenceFrom (hp : P p) (h : (sequenceFrom children t.length nodes).Gives RL r)
    (h' : (sequenceFrom children p nodes').Gives RS R) : r.Ends clean R := by
  induction children generalizing p nodes nodes' with
  | nil =>
    obtain rfl := h
    obtain rfl := h'
    exact .success fun _ => ⟨p, nodes', rfl⟩
  | cons c children ih =>
    obtain ⟨a, ha, hnext⟩ := h
    obtain ⟨a', ha', hnext'⟩ := h'
    have hends := hend c p a a' hp ha ha'
    cases a with
    | needMoreInput stop more =>
      obtain rfl := hnext
      exact .needMoreInput
    | fail stop =>
      obtain rfl := hnext
      obtain ⟨stop', rfl⟩ := hends.1 ⟨stop, rfl⟩
      obtain rfl := hnext'
      exact .fail ⟨stop', rfl⟩
    | success stop more =>
      obtain rfl := hL c stop more ha
      cases a' with
      | needMoreInput stop' more' => exact absurd ⟨stop', more', rfl⟩ (hwaits _ _ ha')
      | success stop' more' => exact ih (hS c p stop' more' hp ha') hnext hnext'
      | fail stop' =>
        obtain rfl := hnext'
        refine ⟨fun _ => ⟨stop', rfl⟩, fun _ hclean => ?_⟩
        exact absurd (hends.2 ⟨_, more, rfl⟩ hclean) Result.not_succeeded_fail

include hend in
theorem ends_choiceFrom (hp : P p) (h : (choiceFrom t.length children).Gives RL r)
    (h' : (choiceFrom p children).Gives RS R) : r.Ends clean R := by
  induction children with
  | nil =>
    obtain rfl := h
    obtain rfl := h'
    exact .fail ⟨p, rfl⟩
  | cons c children ih =>
    obtain ⟨a, ha, hnext⟩ := h
    obtain ⟨a', ha', hnext'⟩ := h'
    have hends := hend c p a a' hp ha ha'
    cases a with
    | needMoreInput stop more =>
      obtain rfl := hnext
      exact .needMoreInput
    | fail stop =>
      obtain ⟨stop', rfl⟩ := hends.1 ⟨stop, rfl⟩
      exact ih hnext hnext'
    | success stop more =>
      obtain rfl := hnext
      refine .success fun hclean => ?_
      obtain ⟨stop', more', rfl⟩ := hends.2 ⟨stop, more, rfl⟩ hclean
      obtain rfl := hnext'
      exact ⟨stop', more', rfl⟩

include hwaits in
omit hend in
theorem ends_repetitionFrom {steps : ℕ}
    (h : (repetitionFrom ⟨t, true⟩ child minCount maxCount 0 t.length 0 nodes).Gives RL r)
    (h' : (repetitionFrom ⟨s, false⟩ child minCount maxCount steps p 0 nodes').Gives RS R) :
    r.Ends clean R := by
  obtain rfl := h
  unfold repetitionDone
  split
  · rw [if_pos ⟨Nat.le_refl _, rfl⟩]
    exact .needMoreInput
  case isFalse hmin =>
    have hle : minCount ≤ (0 : ℕ) := by omega
    exact .success fun _ => repetitionFrom_succeeded hwaits hle h'

end Ends

section Follows

variable (ht : t <+: s)
variable (hfollows : ∀ c q a a', q ≤ t.length → RL (c, q) a → RS (c, q) a' →
  a.Follows t.length clean a')
variable (hL : ∀ c q a, RL (c, q) a → a.Proceeds ⟨t, true⟩ q True)
variable (hS : ∀ c q a, RS (c, q) a → a.Proceeds ⟨s, false⟩ q True)

include hfollows in
theorem follows_choiceFrom (hpos : pos ≤ t.length) (h : (choiceFrom pos children).Gives RL r)
    (h' : (choiceFrom pos children).Gives RS R) : r.Follows t.length clean R := by
  induction children with
  | nil =>
    obtain rfl := h
    obtain rfl := h'
    exact .fail pos pos
  | cons c children ih =>
    obtain ⟨a, ha, hnext⟩ := h
    obtain ⟨a', ha', hnext'⟩ := h'
    have hchild := hfollows c pos a a' hpos ha ha'
    cases a with
    | needMoreInput stop more =>
      obtain rfl := hnext
      trivial
    | fail stop =>
      obtain ⟨stop', rfl⟩ := hchild
      exact ih hnext hnext'
    | success stop more =>
      obtain rfl := hnext
      refine ⟨fun hlt => ?_, fun heq hclean => ?_⟩
      · obtain ⟨more', rfl⟩ := hchild.1 hlt
        obtain rfl := hnext'
        exact ⟨more', rfl⟩
      · obtain ⟨stop', more', hle, rfl⟩ := hchild.2 heq hclean
        obtain rfl := hnext'
        exact ⟨stop', more', hle, rfl⟩

include hfollows hL hS ht in
/-- A sequence follows the whole text up to the end of the prefix, and from there on it does not
fail of itself. -/
theorem follows_sequenceFrom
    (hend : ∀ c p a a', P p → RL (c, t.length) a → RS (c, p) a' → a.Ends clean a')
    (hmove : ∀ c p stop nodes, P p → RS (c, p) (.success stop nodes) → P stop)
    (hreached : (∀ p, P p) ∨ clean ∧ ∀ p, t.length ≤ p → p ≤ s.length → P p)
    (hpos : pos ≤ t.length) (h : (sequenceFrom children pos nodes).Gives RL r)
    (h' : (sequenceFrom children pos nodes').Gives RS R) : r.Follows t.length clean R := by
  have hwaits : ∀ key a, RS key a → ¬a.Waits := fun key a ha => (hS key.1 key.2 a ha).not_waits
  induction children generalizing pos nodes nodes' with
  | nil =>
    obtain rfl := h
    obtain rfl := h'
    exact .success pos nodes nodes'
  | cons c children ih =>
    obtain ⟨a, ha, hnext⟩ := h
    obtain ⟨a', ha', hnext'⟩ := h'
    have hchild := hfollows c pos a a' hpos ha ha'
    have hspans := (hL c pos a ha).1
    have hspans' := (hS c pos a' ha').1
    cases a with
    | needMoreInput stop more =>
      obtain rfl := hnext
      trivial
    | fail stop =>
      obtain rfl := hnext
      obtain ⟨stop', rfl⟩ := hchild
      obtain rfl := hnext'
      exact .fail stop stop'
    | success stop more =>
      obtain ⟨hle, hmax, -⟩ := hspans
      rw [Nat.max_eq_right hpos] at hmax
      rcases Nat.eq_or_lt_of_le hmax with rfl | hlt
      · -- The prefix is at its end, and the whole text goes on behind it if the end has not
        -- been asked for.
        have hr : r.Spans t.length t.length True := (proceeds_sequence hL hnext).1
        cases a' with
        | needMoreInput stop' more' => exact absurd ⟨stop', more', rfl⟩ (hwaits _ _ ha')
        | fail stop' =>
          obtain rfl := hnext'
          have hspans : (Result.fail stop').Spans s.length t.length True := trivial
          refine .of_ends ⟨fun _ => ⟨stop', rfl⟩, fun _ hclean => ?_⟩ hr hspans
            fun _ => Nat.le_refl _
          obtain ⟨_, _, -, heq⟩ := hchild.2 rfl hclean
          cases heq
        | success stop' more' =>
          have hbehind : clean → t.length ≤ stop' := fun hclean => by
            obtain ⟨_, _, hbehind, heq⟩ := hchild.2 rfl hclean
            cases heq
            exact hbehind
          have hp : P stop' := by
            rcases hreached with hall | ⟨hclean, hreached⟩
            · exact hall stop'
            · have hsize := hspans'.2.1
              rw [Nat.max_eq_right (Nat.le_trans hpos ht.length_le)] at hsize
              exact hreached stop' (hbehind hclean) hsize
          have hstay : ∀ c stop nodes, RL (c, t.length) (.success stop nodes) →
              stop = t.length := fun c stop nodes ha => by
            obtain ⟨⟨hle, hmax, -⟩, -⟩ := hL c _ _ ha
            rw [Nat.max_self] at hmax
            exact Nat.le_antisymm hmax hle
          exact .of_ends (ends_sequenceFrom hstay hmove hwaits hend hp hnext hnext') hr
            (proceeds_sequence hS hnext').1 hbehind
      · obtain ⟨more', rfl⟩ := hchild.1 hlt
        exact ih hmax hnext hnext'

omit hfollows hL hS ht in
theorem follows_repetitionDone {q matchCount : ℕ} (hlt : q < t.length) :
    (repetitionDone ⟨t, true⟩ minCount q matchCount nodes).Follows t.length clean
      (repetitionDone ⟨s, false⟩ minCount q matchCount nodes') := by
  unfold repetitionDone
  split
  · rw [if_neg fun h => absurd h.1 (Nat.not_le_of_lt hlt), if_neg fun h => Bool.false_ne_true h.2]
    exact .fail q q
  · exact .success q nodes nodes'

omit hfollows hL hS ht in
theorem repetitionFrom_end {ctx : Context} {steps matchCount : ℕ} (h : ctx.input.length ≤ pos) :
    repetitionFrom ctx child minCount maxCount steps pos matchCount nodes =
      .returns (repetitionDone ctx minCount pos matchCount nodes) := by
  cases steps with
  | zero => rfl
  | succ steps => exact if_neg fun hand => absurd h (Nat.not_le_of_lt hand.2)

include hfollows hL hS ht in
theorem follows_repetitionFrom {steps steps' matchCount : ℕ} (hlt : pos < t.length)
    (hsteps : t.length ≤ steps + pos) (hsteps' : s.length ≤ steps' + pos)
    (h : (repetitionFrom ⟨t, true⟩ child minCount maxCount steps pos matchCount nodes).Gives RL r)
    (h' : (repetitionFrom ⟨s, false⟩ child minCount maxCount steps' pos matchCount nodes').Gives
      RS R) : r.Follows t.length clean R := by
  have hlength := ht.length_le
  induction steps generalizing pos matchCount nodes nodes' steps' with
  | zero => omega
  | succ steps ih =>
    obtain ⟨steps', rfl⟩ : ∃ k, steps' = k + 1 := ⟨steps' - 1, by omega⟩
    unfold repetitionFrom at h h'
    by_cases hrepeat : mayRepeat maxCount matchCount
    · rw [if_pos ⟨hrepeat, hlt⟩] at h
      rw [if_pos ⟨hrepeat, Nat.lt_of_lt_of_le hlt hlength⟩] at h'
      obtain ⟨a, ha, hnext⟩ := h
      obtain ⟨a', ha', hnext'⟩ := h'
      have hchild := hfollows child pos a a' (Nat.le_of_lt hlt) ha ha'
      have hspans := (hL child pos a ha).1
      cases a with
      | needMoreInput stop more =>
        obtain rfl := hnext
        trivial
      | fail stop =>
        obtain rfl := hnext
        obtain ⟨stop', rfl⟩ := hchild
        obtain rfl := hnext'
        exact follows_repetitionDone hlt
      | success stop more =>
        obtain ⟨hle, hmax, -⟩ := hspans
        rw [Nat.max_eq_right (Nat.le_of_lt hlt)] at hmax
        dsimp only at hnext
        rcases Nat.eq_or_lt_of_le hmax with rfl | hstop
        · rw [if_neg (Nat.ne_of_gt hlt), repetitionFrom_end (Nat.le_refl _)] at hnext
          obtain rfl := hnext
          unfold repetitionDone
          split
          · rw [if_pos ⟨Nat.le_refl _, rfl⟩]
            trivial
          case isFalse hmin =>
            refine ⟨fun h => absurd h (Nat.lt_irrefl _), fun _ hclean => ?_⟩
            obtain ⟨stop', more', hbehind, rfl⟩ := hchild.2 rfl hclean
            dsimp only at hnext'
            rw [if_neg (Nat.ne_of_gt (Nat.lt_of_lt_of_le hlt hbehind))] at hnext'
            have hspans := (proceeds_repetition hS hnext').1
            obtain ⟨stop, more, rfl⟩ := repetitionFrom_succeeded
              (fun key a ha => (hS key.1 key.2 a ha).not_waits) (by omega) hnext'
            exact ⟨stop, more, Nat.le_trans hbehind hspans.1, rfl⟩
        · obtain ⟨more', rfl⟩ := hchild.1 hstop
          dsimp only at hnext'
          by_cases heq : stop = pos
          · rw [if_pos heq] at hnext hnext'
            obtain rfl := hnext
            obtain rfl := hnext'
            exact follows_repetitionDone hlt
          · rw [if_neg heq] at hnext hnext'
            exact ih hstop (by omega) (by omega) hnext hnext'
    · rw [if_neg fun h => hrepeat h.1] at h h'
      obtain rfl := h
      obtain rfl := h'
      exact follows_repetitionDone hlt

end Follows

end Loops

/-! ## The end of the prefix -/

section Prefix

variable (A : Arena) (t s : Text)

/-- A parser that is tried where the prefix ends. -/
def TriedAtEnd (key : ℕ × ℕ) (node : Node) : Prop :=
  ∃ id, Tries (A.body ⟨t, true⟩) key (id, t.length) ∧ A.get id = some node

/-- Nothing that is tried at the end of a prefix matches only because it is the end.  The start of
the text is the end of an empty prefix. -/
def Clean (key : ℕ × ℕ) : Prop :=
  t ≠ s → ¬TriedAtEnd A t key .end_ ∧ (t = [] → ¬TriedAtEnd A t key .start)

/-- What is cut off at a parser does not change what it matches before the end of the prefix. -/
def Node.Steady (pos : ℕ) : Node → Prop
  | .chars ranges negated minCount maxCount =>
    CharsKept t s ranges negated minCount maxCount 0 pos
  | .untilOneOf delimiters => DelimitersKept t s (.ofWords delimiters) pos
  | .and child => Clean A t s (child, pos)
  | .not child => Clean A t s (child, pos)
  | _ => True

/-- Nothing that is tried in the parse of a prefix takes its end for the end of the text, at least
not where something is then made of it. -/
structure Steady (key : ℕ × ℕ) : Prop where
  nodes : ∀ key' node, Tries (A.body ⟨t, true⟩) key key' → A.get key'.1 = some node →
    node.Steady A t s key'.2
  ends : t = s ∨ t = [] ∨ ¬TriedAtEnd A t key .end_ ∨ ¬TriedAtEnd A t key .start

/-- The positions where the parse of the whole text can be when that of the prefix is at its end. -/
structure Reaches (key : ℕ × ℕ) (P : ℕ → Prop) : Prop where
  goesOn : ∀ {p q}, P p → p ≤ q → q ≤ max p s.length → P q
  same : t = s → ∀ {p}, P p → p = s.length
  start : TriedAtEnd A t key .start → t ≠ [] → ¬P 0
  reached : (∀ p, P p) ∨ Clean A t s key ∧ ∀ p, t.length ≤ p → p ≤ s.length → P p

variable {A t s} {key key' : ℕ × ℕ} {node : Node}

theorem TriedAtEnd.of_tries (h : TriedAtEnd A t key' node)
    (htries : Tries (A.body ⟨t, true⟩) key key') :
    TriedAtEnd A t key node := by
  obtain ⟨id, hid, hget⟩ := h
  exact ⟨id, htries.trans hid, hget⟩

theorem Clean.of_tries (h : Clean A t s key) (htries : Tries (A.body ⟨t, true⟩) key key') :
    Clean A t s key' := by
  intro hne
  obtain ⟨hend, hstart⟩ := h hne
  exact ⟨fun htried => hend (htried.of_tries htries), fun hempty htried =>
    hstart hempty (htried.of_tries htries)⟩

/-- Where nothing is made of the end of the prefix, the whole text goes on from there. -/
theorem Steady.exists_reaches (h : Steady A t s key) (ht : t <+: s) : ∃ P, Reaches A t s key P := by
  have hlength := ht.length_le
  by_cases hsame : t = s
  · refine ⟨(· = s.length), ⟨?_, fun _ _ hp => hp, ?_, .inr ⟨fun hne => absurd hsame hne, ?_⟩⟩⟩
    · rintro p q rfl hle hmax
      rw [max_self] at hmax
      exact le_antisymm hmax hle
    · rintro - hne hzero
      exact hne (List.length_eq_zero_iff.mp (hsame ▸ hzero.symm))
    · rintro p hle hmax
      exact le_antisymm hmax (hsame ▸ hle)
  · rcases h.ends with heq | hempty | hend | hstart
    · exact absurd heq hsame
    · exact ⟨fun _ => True, ⟨fun _ _ _ => trivial, fun heq => absurd heq hsame,
        fun _ hne => absurd hempty hne, .inl fun _ => trivial⟩⟩
    · by_cases hempty : t = []
      · exact ⟨fun _ => True, ⟨fun _ _ _ => trivial, fun heq => absurd heq hsame,
          fun _ hne => absurd hempty hne, .inl fun _ => trivial⟩⟩
      · refine ⟨(t.length ≤ ·), ⟨fun hp hle _ => le_trans hp hle, fun heq => absurd heq hsame,
          fun _ hne hzero => hne ?_, .inr ⟨fun _ => ⟨hend, fun heq => absurd heq hempty⟩,
          fun p hle _ => hle⟩⟩⟩
        exact List.length_eq_zero_iff.mp (le_zero.mp hzero)
    · exact ⟨fun _ => True, ⟨fun _ _ _ => trivial, fun heq => absurd heq hsame,
        fun htried => absurd htried hstart, .inl fun _ => trivial⟩⟩

theorem proceeds_evaluates {ctx : Context} {r : Result} (h : Evaluates (A.body ctx) key r) :
    r.Proceeds ctx key.2 True := (proceeds_parse h).mono fun _ => trivial

/-- The characters of a class have not failed at the end of the prefix. -/
theorem ends_charsFrom {clean : Prop} {p steps : ℕ} {ranges : List CharRange} {negated : Bool}
    {minCount maxCount : ℤ} :
    (charsFrom ⟨t, true⟩ t.length ranges negated minCount maxCount
      (t.length + 1 - t.length) t.length
      0).Ends clean (charsFrom ⟨s, false⟩ p ranges negated minCount maxCount steps p 0) := by
  by_cases hmin : minCount ≤ (0 : ℕ)
  · obtain ⟨stop, nodes, heq⟩ : (charsFrom ⟨t, true⟩ t.length ranges negated minCount maxCount
        (t.length + 1 - t.length) t.length 0).Succeeded := charsFrom_succeeded _ hmin
    rw [heq]
    exact .success fun _ => charsFrom_succeeded steps hmin
  · have hdone : (charsDone ⟨t, true⟩ minCount t.length 0).Waits := by
      rw [charsDone, if_pos (Int.not_le.mp hmin), if_pos (Nat.le_refl _)]
      exact waits_ended _ _
    rw [Nat.add_sub_cancel_left, charsFrom]
    split
    · dsimp only
      rw [parseUtf8Codepoint_end (Nat.le_refl _)]
      exact .of_waits (waits_ended _ _)
    · exact .of_waits hdone

variable {P : ℕ → Prop} {root : ℕ × ℕ} {p : ℕ} {r R : Result}

/-- At the end of the prefix a parser fails only if it fails wherever the whole text goes on. -/
theorem ends_parse (hsteady : Steady A t s root) (hreaches : Reaches A t s root P)
    (htries : Tries (A.body ⟨t, true⟩) root key) (hkey : key.2 = t.length)
    (h : Evaluates (A.body ⟨t, true⟩) key r) (hp : P p)
    (h' : Evaluates (A.body ⟨s, false⟩) (key.1, p) R) : r.Ends (Clean A t s key) R := by
  refine Evaluates.induct (P := fun key r => Tries (A.body ⟨t, true⟩) root key → key.2 = t.length →
    ∀ p R, P p → Evaluates (A.body ⟨s, false⟩) (key.1, p) R → r.Ends (Clean A t s key) R) ?_ h
    htries hkey p R hp h'
  rintro ⟨id, _⟩ r hgives htries rfl p R hp h'
  rw [evaluates_iff] at h'
  unfold Arena.body at h' hgives
  dsimp only at h' hgives
  cases hget : A.get id with
  | none =>
    rw [hget] at hgives
    exact False.elim hgives
  | some node =>
    rw [hget] at hgives h'
    have hnode := hsteady.nodes _ node htries hget
    have htried : TriedAtEnd A t root node := ⟨id, htries, hget⟩
    have hend : ∀ c p a a', P p → (Calls (A.body ⟨t, true⟩) (id, t.length) (c, t.length) ∧
        Evaluates (A.body ⟨t, true⟩) (c, t.length) a ∧
          (Tries (A.body ⟨t, true⟩) root (c, t.length) →
          t.length = t.length → ∀ p R, P p → Evaluates (A.body ⟨s, false⟩) (c, p) R →
            a.Ends (Clean A t s (c, t.length)) R)) →
        Evaluates (A.body ⟨s, false⟩) (c, p) a' → a.Ends (Clean A t s (c, t.length)) a' :=
      fun c p a a' hp ha ha' => ha.2.2 (htries.tail ha.1) rfl p a' hp ha'
    have hclean : ∀ c, Calls (A.body ⟨t, true⟩) (id, t.length) (c, t.length) →
        Clean A t s (id, t.length) → Clean A t s (c, t.length) :=
      fun c hcalls h => h.of_tries (.single hcalls)
    have hmove : ∀ c p stop nodes, P p →
        Evaluates (A.body ⟨s, false⟩) (c, p) (.success stop nodes) →
        P stop := fun c p stop nodes hp h => by
      obtain ⟨⟨hle, hmax, -⟩, -⟩ := proceeds_evaluates h
      exact hreaches.goesOn hp hle hmax
    cases node with
    | epsilon =>
      obtain rfl := hgives
      obtain rfl := h'
      exact .success fun _ => ⟨p, [], rfl⟩
    | start =>
      obtain rfl := hgives
      obtain rfl := h'
      by_cases hzero : t.length = 0
      · rw [if_pos hzero]
        refine .success fun hclean => ?_
        have hempty : t = [] := List.length_eq_zero_iff.mp hzero
        have hsame : t = s := by
          by_contra hne
          exact (hclean hne).2 hempty ⟨id, .refl, hget⟩
        rw [if_pos (by rw [hreaches.same hsame hp, ← hsame, hzero])]
        exact ⟨p, [], rfl⟩
      · rw [if_neg hzero]
        have hp : p ≠ 0 := by
          rintro rfl
          exact hreaches.start htried (fun hempty => hzero (hempty ▸ rfl)) hp
        rw [if_neg hp]
        exact .fail ⟨p, rfl⟩
    | end_ =>
      obtain rfl := hgives
      obtain rfl := h'
      rw [if_pos (Nat.le_refl _)]
      refine .success fun hclean => ?_
      have hsame : t = s := by
        by_contra hne
        exact (hclean hne).1 ⟨id, .refl, hget⟩
      rw [if_pos (Nat.le_of_eq (hreaches.same hsame hp).symm)]
      exact ⟨p, [], rfl⟩
    | literal word =>
      obtain rfl := hgives
      obtain rfl := h'
      cases word with
      | nil => exact .success fun _ => ⟨p, [], rfl⟩
      | cons c word =>
        rw [literalFrom, List.getElem?_eq_none (Nat.le_refl _)]
        exact .of_waits (waits_ended _ _)
    | sequence children =>
      have hstay : ∀ {c stop nodes}, Evaluates (A.body ⟨t, true⟩) (c, t.length)
          (.success stop nodes) → stop = t.length := fun h => by
        obtain ⟨⟨hle, hmax, -⟩, -⟩ := proceeds_evaluates h
        rw [Nat.max_self] at hmax
        exact Nat.le_antisymm hmax hle
      exact ends_sequenceFrom (fun c stop nodes ha => hstay ha.2.1) hmove
        (fun key a => not_waits_parse)
        (fun c p a a' hp ha ha' => (hend c p a a' hp ha ha').mono (hclean c ha.1)) hp hgives h'
    | choice children =>
      exact ends_choiceFrom
        (fun c p a a' hp ha ha' => (hend c p a a' hp ha ha').mono (hclean c ha.1)) hp hgives h'
    | repetition child minCount maxCount =>
      simp only [Node.exec, Nat.sub_self] at hgives
      exact ends_repetitionFrom (fun key a => not_waits_parse) hgives h'
    | and child =>
      obtain ⟨a, ha, rfl⟩ := hgives
      obtain ⟨a', ha', rfl⟩ := h'
      have hchild := hend child p a a' hp ha ha'
      cases a with
      | needMoreInput stop nodes => exact .needMoreInput
      | fail stop =>
        obtain ⟨stop', rfl⟩ := hchild.1 ⟨stop, rfl⟩
        exact .fail ⟨p, rfl⟩
      | success stop nodes =>
        obtain ⟨stop', nodes', rfl⟩ := hchild.2 ⟨stop, nodes, rfl⟩ hnode
        exact .success fun _ => ⟨p, [], rfl⟩
    | not child =>
      obtain ⟨a, ha, rfl⟩ := hgives
      obtain ⟨a', ha', rfl⟩ := h'
      have hchild := hend child p a a' hp ha ha'
      cases a with
      | needMoreInput stop nodes => exact .needMoreInput
      | fail stop =>
        obtain ⟨stop', rfl⟩ := hchild.1 ⟨stop, rfl⟩
        exact .success fun _ => ⟨p, [], rfl⟩
      | success stop nodes =>
        obtain ⟨stop', nodes', rfl⟩ := hchild.2 ⟨stop, nodes, rfl⟩ hnode
        exact .fail ⟨p, rfl⟩
    | any =>
      obtain rfl := hgives
      rw [anyAt, parseUtf8Codepoint_end (Nat.le_refl _)]
      exact .of_waits (waits_ended _ _)
    | space =>
      obtain rfl := hgives
      obtain rfl := h'
      exact .success fun _ => ⟨_, [], rfl⟩
    | chars ranges negated minCount maxCount =>
      obtain rfl := hgives
      obtain rfl := h'
      exact ends_charsFrom
    | string delimiter =>
      obtain rfl := hgives
      rw [Nat.sub_self]
      exact .of_waits (waits_ended _ _)
    | untilOneOf delimiters =>
      obtain rfl := hgives
      rw [Nat.sub_self, untilFrom, untilDone, Bool.and_true, if_pos (decide_eq_true rfl)]
      exact .needMoreInput
    | schema child _ | gbnf child =>
      obtain ⟨a, ha, rfl⟩ := hgives
      obtain ⟨a', ha', rfl⟩ := h'
      exact (hend child p _ _ hp ha ha').mono (hclean child ha.1)
    | rule _ child | tag child _ =>
      obtain ⟨a, ha, rfl⟩ := hgives
      obtain ⟨a', ha', rfl⟩ := h'
      exact ((hend child p a a' hp ha ha').mono (hclean child ha.1)).wrap
    | atomic child =>
      obtain ⟨a, ha, rfl⟩ := hgives
      obtain ⟨a', ha', rfl⟩ := h'
      exact ((hend child p a a' hp ha ha').mono (hclean child ha.1)).clear
    | ref name =>
      cases hrule : A.rules name with
      | none =>
        simp only [Node.exec, hrule] at hgives
        exact False.elim hgives
      | some child =>
        simp only [Node.exec, hrule] at hgives h'
        obtain ⟨a, ha, rfl⟩ := hgives
        obtain ⟨a', ha', rfl⟩ := h'
        exact (hend child p _ _ hp ha ha').mono (hclean child ha.1)

/-- The parse of the prefix follows that of the whole text. -/
theorem follows_parse (ht : t <+: s) (hsteady : Steady A t s root) (hreaches : Reaches A t s root P)
    (htries : Tries (A.body ⟨t, true⟩) root key) (hkey : key.2 ≤ t.length)
    (h : Evaluates (A.body ⟨t, true⟩) key r) (h' : Evaluates (A.body ⟨s, false⟩) key R) :
    r.Follows t.length (Clean A t s key) R := by
  refine Evaluates.induct (P := fun key r => Tries (A.body ⟨t, true⟩) root key → key.2 ≤ t.length →
    ∀ R, Evaluates (A.body ⟨s, false⟩) key R → r.Follows t.length (Clean A t s key) R) ?_ h
    htries hkey R h'
  rintro ⟨id, pos⟩ r hgives htries hpos R h'
  have hreturns : Evaluates (A.body ⟨t, true⟩) (id, pos) r :=
    evaluates_iff.mpr (hgives.mono fun key a _ ha => ha.2.1)
  have hends : ∀ {c p r R}, Tries (A.body ⟨t, true⟩) root (c, t.length) → P p →
      Evaluates (A.body ⟨t, true⟩) (c, t.length) r → Evaluates (A.body ⟨s, false⟩) (c, p) R →
      r.Ends (Clean A t s (c, t.length)) R :=
    fun htries hp hr hR => ends_parse hsteady hreaches htries rfl hr hp hR
  rcases Nat.eq_or_lt_of_le hpos with rfl | hlt
  · have hp : P t.length := by
      rcases hreaches.reached with hall | ⟨-, hreached⟩
      · exact hall t.length
      · exact hreached t.length (Nat.le_refl _) ht.length_le
    exact .of_ends (hends htries hp hreturns h') (proceeds_evaluates hreturns).1
      (proceeds_evaluates h').1
      fun _ => Nat.le_refl _
  · rw [evaluates_iff] at h'
    unfold Arena.body at h' hgives
    dsimp only at h' hgives
    cases hget : A.get id with
    | none =>
      rw [hget] at hgives
      exact False.elim hgives
    | some node =>
      rw [hget] at hgives h'
      have hnode := hsteady.nodes _ node htries hget
      have hfollows : ∀ c q a a', q ≤ t.length → (Calls (A.body ⟨t, true⟩) (id, pos) (c, q) ∧
          Evaluates (A.body ⟨t, true⟩) (c, q) a ∧ (Tries (A.body ⟨t, true⟩) root (c, q) →
            q ≤ t.length → ∀ R, Evaluates (A.body ⟨s, false⟩) (c, q) R →
              a.Follows t.length (Clean A t s (c, q)) R)) →
          Evaluates (A.body ⟨s, false⟩) (c, q) a' → a.Follows t.length (Clean A t s (c, q)) a' :=
        fun c q a a' hq ha ha' => ha.2.2 (htries.tail ha.1) hq a' ha'
      have hclean : ∀ {c q}, Calls (A.body ⟨t, true⟩) (id, pos) (c, q) →
          Clean A t s (id, pos) → Clean A t s (c, q) := fun hcalls h => h.of_tries (.single hcalls)
      have hlength := ht.length_le
      cases node with
      | epsilon =>
        obtain rfl := hgives
        obtain rfl := h'
        exact .success pos [] []
      | start =>
        obtain rfl := hgives
        obtain rfl := h'
        split
        · exact .success pos [] []
        · exact .fail pos pos
      | end_ =>
        obtain rfl := hgives
        obtain rfl := h'
        rw [if_neg (Nat.not_le_of_lt hlt),
          if_neg (Nat.not_le_of_lt (Nat.lt_of_lt_of_le hlt hlength))]
        exact .fail pos pos
      | literal word =>
        obtain rfl := hgives
        obtain rfl := h'
        exact .of_waits (literalFrom_cut ht word)
      | sequence children =>
        refine follows_sequenceFrom (P := P) ht
          (fun c q a a' hq ha ha' => (hfollows c q a a' hq ha ha').mono (hclean ha.1))
          (fun c q a ha => proceeds_evaluates ha.2.1) (fun c q a ha => proceeds_evaluates ha)
          (fun c p a a' hp ha ha' => ?_) (fun c p stop nodes hp ha => ?_) ?_ hpos hgives h'
        · exact (hends (htries.tail ha.1) hp ha.2.1 ha').mono (hclean ha.1)
        · obtain ⟨⟨hle, hmax, -⟩, -⟩ := proceeds_evaluates ha
          exact hreaches.goesOn hp hle hmax
        · exact hreaches.reached.imp (fun h => h) (And.imp_left fun h => h.of_tries htries)
      | choice children =>
        exact follows_choiceFrom
          (fun c q a a' hq ha ha' => (hfollows c q a a' hq ha ha').mono (hclean ha.1))
          hpos hgives h'
      | repetition child minCount maxCount =>
        exact follows_repetitionFrom ht
          (fun c q a a' hq ha ha' => (hfollows c q a a' hq ha ha').mono (hclean ha.1))
          (fun c q a ha => proceeds_evaluates ha.2.1) (fun c q a ha => proceeds_evaluates ha) hlt
          (Nat.le_of_eq (Nat.sub_add_cancel hpos).symm)
          (Nat.le_of_eq (Nat.sub_add_cancel (Nat.le_trans hpos hlength)).symm) hgives h'
      | and child =>
        obtain ⟨a, ha, rfl⟩ := hgives
        obtain ⟨a', ha', rfl⟩ := h'
        have hchild := hfollows child pos a a' hpos ha ha'
        cases a with
        | needMoreInput stop nodes => trivial
        | fail stop =>
          obtain ⟨stop', rfl⟩ := hchild
          exact .fail pos pos
        | success stop nodes =>
          obtain ⟨⟨-, hmax, -⟩, -⟩ := proceeds_evaluates ha.2.1
          rw [Nat.max_eq_right hpos] at hmax
          obtain ⟨stop', nodes', rfl⟩ := hchild.succeeded hmax hnode
          exact .success pos [] []
      | not child =>
        obtain ⟨a, ha, rfl⟩ := hgives
        obtain ⟨a', ha', rfl⟩ := h'
        have hchild := hfollows child pos a a' hpos ha ha'
        cases a with
        | needMoreInput stop nodes => trivial
        | fail stop =>
          obtain ⟨stop', rfl⟩ := hchild
          exact .success pos [] []
        | success stop nodes =>
          obtain ⟨⟨-, hmax, -⟩, -⟩ := proceeds_evaluates ha.2.1
          rw [Nat.max_eq_right hpos] at hmax
          obtain ⟨stop', nodes', rfl⟩ := hchild.succeeded hmax hnode
          exact .fail pos pos
      | any =>
        obtain rfl := hgives
        obtain rfl := h'
        exact .of_waits (anyAt_cut ht)
      | space =>
        obtain rfl := hgives
        obtain rfl := h'
        exact follows_spaceFrom ht hpos
      | chars ranges negated minCount maxCount =>
        obtain rfl := hgives
        obtain rfl := h'
        have hsteps : ∀ {n : ℕ}, pos ≤ n → n < n + 1 - pos + pos := by omega
        exact follows_charsFrom ht hpos (hsteps hpos) (hsteps (Nat.le_trans hpos hlength)) hnode
      | string delimiter =>
        obtain rfl := hgives
        obtain rfl := h'
        exact .of_waits (stringFrom_cut ht delimiter (Nat.sub_le_sub_right hlength pos))
      | untilOneOf delimiters =>
        obtain rfl := hgives
        obtain rfl := h'
        exact follows_untilFrom ht hpos (Nat.le_of_eq (Nat.sub_add_cancel hpos).symm)
          (Nat.le_of_eq (Nat.sub_add_cancel (Nat.le_trans hpos hlength)).symm) hnode
      | schema child _ | gbnf child =>
        obtain ⟨a, ha, rfl⟩ := hgives
        obtain ⟨a', ha', rfl⟩ := h'
        exact (hfollows child pos _ _ hpos ha ha').mono (hclean ha.1)
      | rule _ child | tag child _ =>
        obtain ⟨a, ha, rfl⟩ := hgives
        obtain ⟨a', ha', rfl⟩ := h'
        exact ((hfollows child pos a a' hpos ha ha').mono (hclean ha.1)).wrap
      | atomic child =>
        obtain ⟨a, ha, rfl⟩ := hgives
        obtain ⟨a', ha', rfl⟩ := h'
        exact ((hfollows child pos a a' hpos ha ha').mono (hclean ha.1)).clear
      | ref name =>
        cases hrule : A.rules name with
        | none =>
          simp only [Node.exec, hrule] at hgives
          exact False.elim hgives
        | some child =>
          simp only [Node.exec, hrule] at hgives h'
          obtain ⟨a, ha, rfl⟩ := hgives
          obtain ⟨a', ha', rfl⟩ := h'
          exact (hfollows child pos _ _ hpos ha ha').mono (hclean ha.1)

/-- Where a text is parsed up to its end, its prefixes do not fail if the parse does not take their
end for that of the text. -/
theorem streaming_of_steady (hclosed : A.Closed) (hrec : A.NotLeftRecursive) {id : ℕ}
    (hid : A.Defines id) {fuel : ℕ} {nodes : List Ast}
    (hstrict : A.parse ⟨s, false⟩ fuel id 0 = some (.success s.length nodes)) (ht : t <+: s)
    (hsteady : Steady A t s (id, 0)) :
    ∃ fuel r, A.parse ⟨t, true⟩ fuel id 0 = some r ∧ ¬r.Failed := by
  obtain ⟨r, hr⟩ := exists_parse hclosed hrec ⟨t, true⟩ hid 0
  obtain ⟨P, hreaches⟩ := hsteady.exists_reaches ht
  have hfollows := follows_parse ht hsteady hreaches .refl (zero_le _) hr ⟨fuel, hstrict⟩
  obtain ⟨fuel', hfuel'⟩ := hr
  refine ⟨fuel', r, hfuel', ?_⟩
  rintro ⟨stop, rfl⟩
  exact Result.not_failed_success hfollows

end Prefix

/-! ## A character that is cut off -/

/-- Text up to a tag: what is not a `<`, and then a `<`. -/
def textAndTag : Arena :=
  (((Arena.empty.addParser (.chars [⟨60, 60⟩] true 0 (-1))).addParser (.literal [60])).addParser
    (.sequence [0, 1])).setRoot 2

theorem closed_textAndTag : textAndTag.Closed where
  children := by
    intro id c node hid hc
    have hdefines : textAndTag.Defines 0 ∧ textAndTag.Defines 1 :=
      ⟨⟨_, rfl, nofun⟩, ⟨_, rfl, nofun⟩⟩
    rcases id with _ | _ | _ | id
    · cases hid
      cases hc
    · cases hid
      cases hc
    · cases hid
      rcases List.mem_pair.mp hc with rfl | rfl
      · exact hdefines.1
      · exact hdefines.2
    · cases hid
  rules h := absurd h nofun

theorem lt_of_leftCalls_textAndTag {text : Text} {i j : ℕ}
    (h : LeftCalls (textAndTag.grammar text) i j) : j < i := by
  obtain ⟨e, he, hleft⟩ := h
  rcases i with _ | _ | _ | i
  · cases he
    rcases hleft with hfalse | ⟨-, hfalse⟩
    · exact False.elim hfalse
    · exact False.elim hfalse
  · cases he
    exact False.elim hleft
  · cases he
    rcases hleft with rfl | ⟨-, rfl | ⟨-, hfalse⟩⟩
    · exact Nat.zero_lt_two
    · exact Nat.one_lt_two
    · exact False.elim hfalse
  · cases he

theorem notLeftRecursive_textAndTag : textAndTag.NotLeftRecursive := by
  intro text id h
  have hlt : ∀ {i j}, Relation.TransGen (LeftCalls (textAndTag.grammar text)) i j → j < i := by
    intro i j h
    induction h with
    | single hcalls => exact lt_of_leftCalls_textAndTag hcalls
    | tail _ hcalls ih => exact lt_trans (lt_of_leftCalls_textAndTag hcalls) ih
  exact lt_irrefl id (hlt h)

theorem defines_textAndTag : textAndTag.Defines 2 := ⟨_, rfl, nofun⟩

theorem parse_textAndTag :
    textAndTag.parse ⟨[97, 0xC3, 0xA9, 60], false⟩ 2 2 0 = some (.success 4 []) := rfl

/-- With its first character alone, the text `aé<` is still parsed. -/
theorem streaming_of_steady_textAndTag :
    ∃ fuel r, textAndTag.parse ⟨[97], true⟩ fuel 2 0 = some r ∧ ¬r.Failed := by
  have ht : [97] <+: ([97, 0xC3, 0xA9, 60] : Text) := ⟨[0xC3, 0xA9, 60], rfl⟩
  refine streaming_of_steady closed_textAndTag notLeftRecursive_textAndTag defines_textAndTag
    parse_textAndTag ht ⟨?_, .inr (.inr (.inl ?_))⟩
  · rintro ⟨id, pos⟩ node - hget
    rcases id with _ | _ | _ | id
    · cases hget
      intro k q _ hq hincomplete
      rw [lt_one_iff.mp hq] at hincomplete
      cases hincomplete
    · cases hget
      trivial
    · cases hget
      trivial
    · cases hget
  · rintro ⟨id, -, hget⟩
    rcases id with _ | _ | _ | id
    · cases hget
    · cases hget
    · cases hget
    · cases hget

/-- Where the prefix ends in the middle of the `é`, the rest of it is taken for what is behind the
text, and the parse fails. -/
theorem not_streaming : textAndTag.Closed ∧ textAndTag.NotLeftRecursive ∧ textAndTag.Defines 2 ∧
    Utf8.encode ['a', 'é', '<'] = [97, 0xC3, 0xA9, 60] ∧
    textAndTag.parse ⟨[97, 0xC3, 0xA9, 60], false⟩ 2 2 0 = some (.success 4 []) ∧
    [97, 0xC3] <+: ([97, 0xC3, 0xA9, 60] : Text) ∧
    textAndTag.parse ⟨[97, 0xC3], true⟩ 2 2 0 = some (.fail 1) :=
  ⟨closed_textAndTag, notLeftRecursive_textAndTag, defines_textAndTag, by decide,
    parse_textAndTag, ⟨[0xA9, 60], rfl⟩, rfl⟩

end ExpertPin.Peg
