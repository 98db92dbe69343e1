import ExpertPin.Draft.DraftModel

/-!
# The mirror of the draft context

After each call the cells of the draft context are those of `promptDft`, and what was sampled is
the draft model's continuation of the prompt's window and the last token.  What an earlier call
drafted is handed back after one token was compared, which is right only where the window is all of
what is reused and the drafts begin right after it (`draft_spec`).
-/

namespace ExpertPin.Draft.DraftModel

open List
open Option
open Nat

/-! ## The cells of consecutive tokens -/

theorem consecutive_append (pos : ℤ) (a b : List Token) :
    consecutive pos (a ++ b) = consecutive pos a ++ consecutive (pos + a.length) b := by
  induction a generalizing pos with
  | nil => rw [length_nil, cast_zero, add_zero]; rfl
  | cons t a ih =>
    rw [cons_append, consecutive, ih, consecutive, length_cons, cast_succ,
      add_assoc, add_comm (1 : ℤ)]
    rfl

theorem mem_consecutive {pos : ℤ} {tokens : List Token} {cell : Cell}
    (h : cell ∈ consecutive pos tokens) : pos ≤ cell.pos ∧ cell.pos < pos + tokens.length := by
  induction tokens generalizing pos with
  | nil => cases h
  | cons t tokens ih =>
    rw [length_cons, cast_succ]
    rcases mem_cons.mp h with rfl | h
    · exact ⟨le_rfl, by dsimp only; omega⟩
    · obtain ⟨hlo, hhi⟩ := ih h
      exact ⟨by omega, by omega⟩

theorem seqRm_of_forall_not {cells : List Cell} {p0 p1 : ℤ}
    (h : ∀ cell ∈ cells, ¬posIn cell.pos p0 p1) : seqRm cells p0 p1 = cells :=
  filter_eq_self.mpr fun cell hcell => decide_eq_true (h cell hcell)

theorem seqRm_of_forall {cells : List Cell} {p0 p1 : ℤ} (h : ∀ cell ∈ cells, posIn cell.pos p0 p1) :
    seqRm cells p0 p1 = [] :=
  filter_eq_nil_iff.mpr fun cell hcell hnot => of_decide_eq_true hnot (h cell hcell)

theorem seqRm_append (a b : List Cell) (p0 p1 : ℤ) :
    seqRm (a ++ b) p0 p1 = seqRm a p0 p1 ++ seqRm b p0 p1 := filter_append a b

/-- Removing from a position on leaves the tokens before it. -/
theorem seqRm_from (tokens : List Token) (n : ℕ) :
    seqRm (consecutive 0 tokens) n (-1) = consecutive 0 (tokens.take n) := by
  rw [← take_append_drop n tokens, consecutive_append, seqRm_append, zero_add,
    take_append_drop]
  have hlen := length_take_le n tokens
  have hbefore : ∀ cell ∈ consecutive 0 (tokens.take n), ¬posIn cell.pos n (-1) := by
    rintro cell hcell ⟨hlo, _⟩
    have hhi := (mem_consecutive hcell).2
    omega
  have hafter : ∀ cell ∈ consecutive ((tokens.take n).length : ℤ) (tokens.drop n),
      posIn cell.pos n (-1) := by
    intro cell hcell
    refine ⟨?_, .inl (by omega)⟩
    rcases le_total n tokens.length with hle | hle
    · rw [length_take_of_le hle] at hcell
      exact (mem_consecutive hcell).1
    · rw [drop_eq_nil_of_le hle] at hcell
      cases hcell
  rw [seqRm_of_forall_not hbefore, seqRm_of_forall hafter, append_nil]

/-- Moving consecutive tokens moves each of them. -/
theorem seqAdd_consecutive {pos delta : ℤ} (hpos : 0 ≤ pos + delta) {p0 : ℤ} (h : p0 ≤ pos)
    (tokens : List Token) :
    seqAdd (consecutive pos tokens) p0 (-1) delta = consecutive (pos + delta) tokens := by
  induction tokens generalizing pos with
  | nil => rfl
  | cons t tokens ih =>
    have hin : posIn pos p0 (-1) := ⟨h, .inl (by omega)⟩
    have hrest := @ih (pos + 1) (by omega) (by omega)
    rw [seqAdd] at hrest ⊢
    rw [consecutive, map_cons, if_pos hin, filter_cons_of_pos, hrest, consecutive,
      add_right_comm]
    exact decide_eq_true hpos

/-- Removing the first tokens and moving the others to the beginning. -/
theorem shift_consecutive {tokens : List Token} {i : ℕ} (h : i ≤ tokens.length) :
    seqAdd (seqRm (consecutive 0 tokens) 0 i) i (-1) (-i) = consecutive 0 (tokens.drop i) := by
  have hlen := length_take_of_le h
  have hrm : seqRm (consecutive 0 tokens) 0 i = consecutive i (tokens.drop i) := by
    rw [← take_append_drop i tokens, consecutive_append, seqRm_append, zero_add, hlen,
      take_append_drop]
    rw [seqRm_of_forall, seqRm_of_forall_not, nil_append]
    · rintro cell hcell ⟨_, hhi⟩
      have hlo := (mem_consecutive hcell).1
      omega
    · intro cell hcell
      obtain ⟨hlo, hhi⟩ := mem_consecutive hcell
      exact ⟨hlo, .inr (by omega)⟩
  rw [hrm, seqAdd_consecutive (by omega) le_rfl, add_neg_cancel]

/-! ## What is reused -/

theorem matchLength_spec (a b : List Token) :
    a.take (matchLength a b) = b.take (matchLength a b) ∧ matchLength a b ≤ a.length ∧
      matchLength a b ≤ b.length := by
  fun_induction matchLength a b with
  | case1 as x bs ih =>
    obtain ⟨htake, hle, hle'⟩ := ih
    exact ⟨congrArg (x :: ·) htake, succ_le_succ hle, succ_le_succ hle'⟩
  | case2 => exact ⟨rfl, zero_le _, zero_le _⟩
  | case3 => exact ⟨rfl, zero_le _, zero_le _⟩

theorem reuse_spec (nCtx : ℤ) (promptSize : ℕ) (window promptDft : List Token) :
    (reuse nCtx promptSize window promptDft).2 = 0 ∨ (reuse nCtx promptSize window promptDft).2 =
        matchLength window (promptDft.drop (reuse nCtx promptSize window promptDft).1) := by
  rw [reuse]
  generalize range promptDft.length = offsets
  have hstart : ((0, 0) : ℕ × ℕ).2 = 0 ∨
      ((0, 0) : ℕ × ℕ).2 = matchLength window (promptDft.drop ((0, 0) : ℕ × ℕ).1) := .inl rfl
  generalize ((0, 0) : ℕ × ℕ) = best at hstart ⊢
  induction offsets generalizing best with
  | nil => exact hstart
  | cons i offsets ih =>
    rw [foldl_cons]
    apply ih
    dsimp only
    split
    case isTrue => exact .inr rfl
    case isFalse => exact hstart

/-- The cells are those of the tokens, at the positions from 0 on. -/
def State.Mirrored (s : State) : Prop := s.cells = consecutive 0 s.promptDft

/-- What is kept is a stretch of the tokens. -/
theorem keep_spec {s : State} (hs : s.Mirrored) {i n : ℕ} (hi : i ≤ s.promptDft.length) :
    (keep s i n).Mirrored ∧ (keep s i n).promptDft = (s.promptDft.drop i).take n := by
  have hdrop : ∀ t : State, t.Mirrored → t.promptDft = s.promptDft.drop i →
      let kept := if n < t.promptDft.length then
          { cells := seqRm t.cells n (-1), promptDft := t.promptDft.take n : State }
        else t
      kept.Mirrored ∧ kept.promptDft = (s.promptDft.drop i).take n := by
    intro t ht htokens
    rw [← htokens]
    dsimp only
    split
    case isTrue =>
      refine ⟨?_, rfl⟩
      rw [State.Mirrored, ht, seqRm_from]
    case isFalse hle => exact ⟨ht, (take_of_length_le (not_lt.mp hle)).symm⟩
  rw [keep]
  refine hdrop _ ?_ ?_
  · split
    case isTrue => rw [State.Mirrored, hs, shift_consecutive hi]
    case isFalse => exact hs
  · split
    case isTrue => rfl
    case isFalse hzero => rw [Nat.eq_zero_of_not_pos hzero, drop_zero]

/-! ## Continuations -/

section Continuations

variable (C : Contexts)

/-- Each of the tokens is what the draft model finds most probable after those before it. -/
def Continues (tokens : List Token) : List Token → Prop
  | [] => True
  | draft :: drafts =>
    (C.top (consecutive 0 tokens)).id = draft ∧ Continues (tokens ++ [draft]) drafts

variable {C} {tokens drafts more : List Token}

theorem continues_append_iff : Continues C tokens (drafts ++ more) ↔
      Continues C tokens drafts ∧ Continues C (tokens ++ drafts) more := by
  induction drafts generalizing tokens with
  | nil => rw [append_nil]; exact (and_iff_right trivial).symm
  | cons draft drafts ih =>
    rw [cons_append, Continues, ih, Continues, and_assoc, append_assoc]
    rfl

theorem Continues.take (h : Continues C tokens drafts) (n : ℕ) :
    Continues C tokens (drafts.take n) := by
  rw [← take_append_drop n drafts, continues_append_iff] at h
  exact h.1

theorem Continues.lt (h : Continues C tokens drafts) : ∀ draft ∈ drafts, draft < C.nVocabDft := by
  induction drafts generalizing tokens with
  | nil => exact fun draft hdraft => absurd hdraft not_mem_nil
  | cons draft drafts ih =>
    obtain ⟨rfl, hrest⟩ := h
    exact forall_mem_cons.mpr ⟨C.top_lt _, ih hrest⟩

/-! ## Sampling -/

/-- What is sampled is a continuation, of which a beginning goes to the context. -/
theorem sample_spec {call : Call} {nPast i n : ℕ} {s s' : State} {result result' : List Token}
    (hs : s.Mirrored) (hpast : s.promptDft.length = nPast + i + 1)
    (h : sample C call nPast i n s result = (s', result')) :
    s'.Mirrored ∧ ∃ drafts, result' = result ++ drafts ∧ drafts.length ≤ n ∧
      Continues C s.promptDft drafts ∧
      ∃ kept, kept <+: drafts ∧ s'.promptDft = s.promptDft ++ kept := by
  have hbest : Continues C s.promptDft [(C.top s.cells).id] := by
    rw [hs]
    exact ⟨rfl, trivial⟩
  induction n generalizing i s result with
  | zero =>
    cases h
    exact ⟨hs, [], (append_nil _).symm, le_rfl, trivial, [], nil_prefix,
      (append_nil _).symm⟩
  | succ n ih =>
    rw [sample] at h
    dsimp only at h
    -- the sample is collected, and the loop ends or goes on
    split at h
    case isTrue =>
      cases h
      refine ⟨hs, ?_⟩
      split
      case isTrue =>
        exact ⟨_, rfl, by simp, hbest, [], nil_prefix, (append_nil _).symm⟩
      case isFalse =>
        exact ⟨[], (append_nil _).symm, zero_le _, trivial, [], nil_prefix,
          (append_nil _).symm⟩
    case isFalse =>
      split at h
      case isTrue =>
        cases h
        exact ⟨hs, _, rfl, by simp, hbest, [], nil_prefix, (append_nil _).symm⟩
      case isFalse =>
        have hnext : State.Mirrored
            { cells := s.cells ++ consecutive (nPast + i + 1) [(C.top s.cells).id]
              promptDft := s.promptDft ++ [(C.top s.cells).id] } := by
          rw [State.Mirrored, consecutive_append, zero_add, hpast, ← hs]
          push_cast
          rfl
        obtain ⟨hs', drafts, rfl, hlen, hcont, kept, hkept, htokens⟩ :=
          ih hnext (by simp [hpast]; omega) h (by rw [hnext]; exact ⟨rfl, trivial⟩)
        refine ⟨hs', (C.top s.cells).id :: drafts, by simp, succ_le_succ hlen, ?_,
          (C.top s.cells).id :: kept, ?_, by simp [htokens]⟩
        · exact (@continues_append_iff C s.promptDft [_] drafts).mpr ⟨hbest, hcont⟩
        · exact cons_prefix_cons.mpr ⟨rfl, hkept⟩

/-- The prompt and the last token are decoded, and their continuation is sampled. -/
theorem decodeAndSample_spec {call : Call} {window : List Token} {idLast : Token} {reuseN : ℕ}
    {s s' : State} {result : List Token} (hs : s.Mirrored)
    (hreused : s.promptDft = window.take reuseN) (hle : reuseN ≤ window.length)
    (h : decodeAndSample C call window idLast reuseN s = some (s', result)) :
    s'.Mirrored ∧ ∃ drafts, toTarget C call drafts = some result ∧ drafts.length ≤ call.nMax ∧
      Continues C (window ++ [idLast]) drafts ∧
      ∃ kept, kept <+: drafts ∧ s'.promptDft = window ++ [idLast] ++ kept := by
  rw [decodeAndSample] at h
  dsimp only at h
  split at h
  case isFalse => cases h
  case isTrue =>
    have hlength : s.promptDft.length = reuseN := by rw [hreused, length_take_of_le hle]
    have hwindow : s.promptDft ++ window.drop reuseN = window := by
      rw [hreused, take_append_drop]
    have htotal : s.promptDft.length + (window.drop reuseN).length = window.length := by
      rw [← length_append, hwindow]
    rw [hwindow, htotal] at h
    have hcells : s.cells ++ consecutive reuseN (window.drop reuseN) = consecutive 0 window := by
      conv_rhs => rw [← hwindow, consecutive_append, zero_add, hlength, ← hs]
    have hstart : State.Mirrored
        { cells := consecutive 0 window ++ consecutive window.length [idLast]
          promptDft := window ++ [idLast] } := by
      rw [State.Mirrored, consecutive_append, zero_add]
    rw [hcells] at h
    obtain ⟨⟨s'', sampled⟩, hsampled, h⟩ : ∃ p, sample C call window.length 0 call.nMax
        { cells := consecutive 0 window ++ consecutive window.length [idLast]
          promptDft := window ++ [idLast] } [] = p ∧
        (toTarget C call p.2).map (fun result => (p.1, result)) = some (s', result) := ⟨_, rfl, h⟩
    obtain ⟨hs', drafts, hsample, hlen, hcont, kept, hkept, htokens⟩ :=
      sample_spec hstart (by simp) hsampled
    rw [nil_append] at hsample
    obtain ⟨target, htarget, heq⟩ := map_eq_some_iff.mp h
    cases heq
    exact ⟨hs', drafts, hsample ▸ htarget, hlen, hcont, kept, hkept, htokens⟩

/-! ## Calls -/

theorem found_spec (call : Call) (promptCur : List Token) (s : State) :
    (call.found C promptCur s).2 = 0 ∨
      (call.found C promptCur s).2 = matchLength (call.window C promptCur)
        (s.promptDft.drop (call.found C promptCur s).1) := reuse_spec _ _ _ _

/-- A call hands back what the old draft goes on with, or samples after what it decoded. -/
theorem draft_cases {s s' : State} {call : Call} {result : List Token} (hs : s.Mirrored)
    (h : draft C s call = some (s', result)) :
    ∃ promptCur idLast more, call.promptCur C = some promptCur ∧
      call.lastTokens C = some (idLast :: more) ∧
      (passesBack (call.found C promptCur s) idLast s.promptDft ∧ s' = s ∧
          result = (s.promptDft.drop ((call.found C promptCur s).1 +
            (call.found C promptCur s).2 + 1)).take call.nMax ∨
        ¬passesBack (call.found C promptCur s) idLast s.promptDft ∧ s'.Mirrored ∧
          ∃ drafts, toTarget C call drafts = some result ∧ drafts.length ≤ call.nMax ∧
            Continues C (call.window C promptCur ++ [idLast]) drafts ∧
            ∃ kept, kept <+: drafts ∧
              s'.promptDft = call.window C promptCur ++ [idLast] ++ kept) := by
  rw [draft] at h
  dsimp only [bind_eq_bind] at h
  obtain ⟨promptCur, hprompt, hcall⟩ := bind_eq_some_iff.mp h
  obtain ⟨last, hlast, hrest⟩ := bind_eq_some_iff.mp hcall
  obtain ⟨idLast, hhead, hbranch⟩ := bind_eq_some_iff.mp hrest
  clear h hcall hrest
  obtain ⟨more, rfl⟩ := head?_eq_some_iff.mp hhead
  refine ⟨promptCur, idLast, more, hprompt, hlast, ?_⟩
  split at hbranch
  case isTrue hzero =>
    have hempty : State.Mirrored { promptDft := [], cells := [] } := rfl
    refine .inr ⟨fun hpass => ?_,
      decodeAndSample_spec hempty take_zero.symm (zero_le _) hbranch⟩
    exact absurd hzero hpass.1.ne'
  case isFalse hpos =>
    split at hbranch
    case isTrue hpass =>
      cases hbranch
      exact .inl ⟨hpass, rfl, rfl⟩
    case isFalse hnot =>
      have hmatch := (found_spec call promptCur s).resolve_left hpos
      obtain ⟨htake, hle, hle'⟩ := matchLength_spec (call.window C promptCur)
        (s.promptDft.drop (call.found C promptCur s).1)
      rw [← hmatch] at htake hle hle'
      have hi : (call.found C promptCur s).1 ≤ s.promptDft.length := by
        rw [length_drop] at hle'
        omega
      obtain ⟨hkept, htokens⟩ := @keep_spec s hs _ (call.found C promptCur s).2 hi
      exact .inr ⟨hnot, decodeAndSample_spec hkept (htokens.trans htake.symm) hle hbranch⟩

end Continuations

/-! ## Runs -/

section Runs

variable (C : Contexts)

/-- Sequences of calls, with the number of tokens at the beginning of the draft context that were
decoded before anything was drafted. -/
inductive Run : State → ℕ → Prop
  | start : Run { promptDft := [], cells := [] } 0
  | handBack {s s' : State} {given : ℕ} {call : Call} {result promptCur more : List Token}
      {idLast : Token} : Run s given → draft C s call = some (s', result) →
      call.promptCur C = some promptCur → call.lastTokens C = some (idLast :: more) →
      passesBack (call.found C promptCur s) idLast s.promptDft → Run s' given
  | decode {s s' : State} {given : ℕ} {call : Call} {result promptCur more : List Token}
      {idLast : Token} : Run s given → draft C s call = some (s', result) →
      call.promptCur C = some promptCur → call.lastTokens C = some (idLast :: more) →
      ¬passesBack (call.found C promptCur s) idLast s.promptDft →
      Run s' ((call.window C promptCur).length + 1)

variable {C}

/-- What follows the tokens that were given is what was drafted. -/
structure Drafted (C : Contexts) (s : State) (given : ℕ) : Prop where
  mirrored : s.Mirrored
  continues : Continues C (s.promptDft.take given) (s.promptDft.drop given)

theorem Run.drafted {s : State} {given : ℕ} (h : Run C s given) : Drafted C s given := by
  induction h with
  | start => exact ⟨rfl, trivial⟩
  | handBack _ hdraft hprompt hlast hpass ih =>
    obtain ⟨_, _, _, hprompt', hlast', hcases⟩ := draft_cases ih.mirrored hdraft
    cases hprompt.symm.trans hprompt'
    cases hlast.symm.trans hlast'
    rcases hcases with ⟨_, rfl, _⟩ | ⟨hnot, _⟩
    · exact ih
    · exact absurd hpass hnot
  | decode _ hdraft hprompt hlast hnot ih =>
    obtain ⟨_, _, _, hprompt', hlast', hcases⟩ := draft_cases ih.mirrored hdraft
    cases hprompt.symm.trans hprompt'
    cases hlast.symm.trans hlast'
    rcases hcases with
      ⟨hpass, _⟩ | ⟨_, hmirrored, drafts, _, _, hcont, kept, ⟨rest, rfl⟩, htokens⟩
    · exact absurd hpass hnot
    · refine ⟨hmirrored, ?_⟩
      rw [htokens, take_left' (by simp), drop_left' (by simp)]
      exact (continues_append_iff.mp hcont).1

/-- The result is at most so many tokens of the target vocabulary, the translation of what the
draft model finds most probable after the window of the prompt and the last token. -/
structure Translates (C : Contexts) (call : Call) (promptCur last result : List Token) : Prop where
  length : result.length ≤ call.nMax
  target : ∀ token ∈ result, token < C.nVocabTgt
  translated : ∃ drafts, Continues C (call.window C promptCur ++ last) drafts ∧
    drafts.length ≤ call.nMax ∧ toTarget C call drafts = some result

/-- What is handed back begins right after the window and the last token, was drafted, and needs no
translation; what is sampled is in the target vocabulary, and goes on from the whole last token. -/
def Meets (C : Contexts) (s : State) (given : ℕ) (call : Call) : Prop :=
  ∀ promptCur idLast more, call.promptCur C = some promptCur →
    call.lastTokens C = some (idLast :: more) →
    if passesBack (call.found C promptCur s) idLast s.promptDft then
      s.promptDft.length ≤ (call.found C promptCur s).1 + (call.found C promptCur s).2 + 1 ∨
        C.vocabCmpt ∧ C.nVocabDft ≤ C.nVocabTgt ∧ (call.found C promptCur s).1 = 0 ∧
          (call.found C promptCur s).2 = (call.window C promptCur).length ∧
          given ≤ (call.found C promptCur s).2 + 1
    else if C.vocabCmpt then C.nVocabDft ≤ C.nVocabTgt else more = []

/-- One token of a compatible vocabulary is one token. -/
theorem lastTokens_of_compatible {call : Call} {idLast : Token} {more : List Token}
    (hcompatible : C.vocabCmpt) (h : call.lastTokens C = some (idLast :: more)) : more = [] := by
  rw [Call.lastTokens, if_pos hcompatible] at h
  cases h
  rfl

theorem toTarget_spec {call : Call} {drafts result : List Token}
    (h : toTarget C call drafts = some result) (hlen : drafts.length ≤ call.nMax) :
    result.length ≤ call.nMax ∧ ((C.vocabCmpt → ∀ draft ∈ drafts, draft < C.nVocabTgt) →
        ∀ token ∈ result, token < C.nVocabTgt) := by
  rw [toTarget] at h
  split at h
  case isTrue hcompatible =>
    cases h
    exact ⟨hlen, fun htarget => htarget hcompatible⟩
  case isFalse =>
    obtain ⟨text, _, rfl⟩ := map_eq_some_iff.mp h
    refine ⟨length_take_le _ _, fun _ token htoken => ?_⟩
    exact C.tokenizeTgt_lt text token (mem_of_mem_take htoken)

/-- What is handed back right after the window goes on from it. -/
theorem Drafted.handedBack {s : State} {given : ℕ} (h : Drafted C s given)
    {window : List Token} {idLast : Token} (hwindow : s.promptDft.take window.length = window)
    (hlast : s.promptDft[window.length]? = some idLast) (hgiven : given ≤ window.length + 1) :
    Continues C (window ++ [idLast]) (s.promptDft.drop (window.length + 1)) := by
  have htake : s.promptDft.take (window.length + 1) = window ++ [idLast] := by
    rw [take_add_one, hwindow, hlast]
    rfl
  have hcont := h.continues
  have hadd : given + (window.length + 1 - given) = window.length + 1 := Nat.add_sub_cancel' hgiven
  rw [← take_append_drop (window.length + 1 - given) (s.promptDft.drop given),
    drop_drop, hadd, continues_append_iff, ← take_add, hadd, htake] at hcont
  exact hcont.2

/-- After each call the cells are those of the mirror, and what was sampled or handed back is the
translation of the draft model's continuation where the call meets the condition. -/
theorem draft_spec {s s' : State} {given : ℕ} {call : Call} {result : List Token}
    (h : Run C s given) (hdraft : draft C s call = some (s', result)) :
    s'.Mirrored ∧ (Meets C s given call → result ≠ [] →
      ∃ promptCur last, call.promptCur C = some promptCur ∧ call.lastTokens C = some last ∧
        Translates C call promptCur last result) := by
  obtain ⟨promptCur, idLast, more, hprompt, hlast, hcases⟩ := draft_cases h.drafted.mirrored hdraft
  have hmeets : Meets C s given call → _ := fun hmeets => hmeets promptCur idLast more hprompt hlast
  rcases hcases with ⟨hpass, hsame, rfl⟩ | ⟨hnot, hmirrored, drafts, htarget, hlen, hcont, _⟩
  · rw [hsame]
    refine ⟨h.drafted.mirrored, fun hcall hne => ⟨promptCur, _, hprompt, hlast, ?_⟩⟩
    have hcondition := hmeets hcall
    rw [if_pos hpass] at hcondition
    rcases hcondition with hend | ⟨hcompatible, hvocab, hoffset, hwhole, hgiven⟩
    · rw [drop_eq_nil_of_le hend] at hne
      exact absurd take_nil hne
    · obtain ⟨hpos, hnext⟩ := hpass
      have hmatch := (found_spec call promptCur s).resolve_left hpos.ne'
      have hprefix := (matchLength_spec (call.window C promptCur)
        (s.promptDft.drop (call.found C promptCur s).1)).1
      rw [← hmatch, hwhole, hoffset, take_length, drop_zero] at hprefix
      rw [hoffset, hwhole, Nat.zero_add] at hnext ⊢
      rw [hwhole] at hgiven
      have hcont := (h.drafted.handedBack hprefix.symm hnext hgiven).take call.nMax
      rw [lastTokens_of_compatible hcompatible hlast]
      refine ⟨length_take_le _ _, fun token htoken => (hcont.lt token htoken).trans_le hvocab,
        _, hcont, length_take_le _ _, ?_⟩
      rw [toTarget, if_pos hcompatible]
  · refine ⟨hmirrored, fun hcall _ => ⟨promptCur, _, hprompt, hlast, ?_⟩⟩
    have hcondition := hmeets hcall
    rw [if_neg hnot] at hcondition
    obtain ⟨hlength, htokens⟩ := toTarget_spec htarget hlen
    refine ⟨hlength, htokens fun hcompatible draft hdraft => ?_, drafts, ?_, hlen, htarget⟩
    · rw [if_pos hcompatible] at hcondition
      exact (hcont.lt draft hdraft).trans_le hcondition
    · have hmore : more = [] := by
        split at hcondition
        case isTrue hcompatible => exact lastTokens_of_compatible hcompatible hlast
        case isFalse => exact hcondition
      rw [hmore]
      exact hcont

/-- A draft model that always goes on with the same token, in the target's vocabulary. -/
def contexts : Contexts where
  nCtx := 16
  nBatch := 16
  vocabCmpt := true
  vocabMap := []
  nVocabTgt := 10
  nVocabDft := 10
  top _ := { id := 9, p := 1 }
  detokenizeTgt _ := []
  plainTgt _ := []
  detokenizeDft _ := []
  tokenizeTgt _ := []
  tokenizeDft _ := []
  top_lt _ := by decide
  tokenizeTgt_lt _ _ h := absurd h List.not_mem_nil

def firstCall : Call := { nMax := 3, pMin := 0, promptTgt := [1, 2, 3], idLast := 4 }

/-- The state after the first call. -/
def drafted : State :=
  { promptDft := [1, 2, 3, 4, 9, 9], cells := consecutive 0 [1, 2, 3, 4, 9, 9] }

theorem draft_firstCall :
    draft contexts { promptDft := [], cells := [] } firstCall = some (drafted, [9, 9, 9]) := by
  decide

theorem run_firstCall : Run contexts drafted 4 :=
  @Run.decode contexts _ _ _ firstCall _ [1, 2, 3] [] 4 .start draft_firstCall rfl rfl (by decide)

/-- The target agreed with the first of the drafts, and the next call gets what is left of them. -/
def nextCall : Call := { nMax := 3, pMin := 0, promptTgt := [1, 2, 3, 4], idLast := 9 }

theorem draft_nextCall : draft contexts drafted nextCall = some (drafted, [9]) := by
  decide

theorem meets_nextCall : Meets contexts drafted 4 nextCall := by
  intro promptCur idLast more hprompt hlast
  cases hprompt
  cases hlast
  decide

theorem draft_spec_nextCall : drafted.Mirrored ∧
    ∃ promptCur last, nextCall.promptCur contexts = some promptCur ∧
      nextCall.lastTokens contexts = some last ∧
      Translates contexts nextCall promptCur last [9] := by
  obtain ⟨hmirrored, hright⟩ := draft_spec run_firstCall draft_nextCall
  exact ⟨hmirrored, hright meets_nextCall (cons_ne_nil _ _)⟩

/-- The prompt was cut back to its first token, after which the second is the last. -/
def rewoundCall : Call := { nMax := 3, pMin := 0, promptTgt := [1], idLast := 2 }

/-- What is left of the old prompt is handed back as a draft. -/
theorem not_translates : ∃ s given s' result, Run contexts s given ∧
      draft contexts s rewoundCall = some (s', result) ∧ result ≠ [] ∧
      ¬∃ promptCur last, rewoundCall.promptCur contexts = some promptCur ∧
        rewoundCall.lastTokens contexts = some last ∧
        Translates contexts rewoundCall promptCur last result := by
  have hdraft : draft contexts drafted rewoundCall = some (drafted, [3, 4, 9]) := by decide
  refine ⟨_, _, _, _, run_firstCall, hdraft, cons_ne_nil _ _, ?_⟩
  rintro ⟨promptCur, last, hprompt, hlast, htranslates⟩
  obtain ⟨drafts, hcont, _, htarget⟩ := htranslates.translated
  cases hprompt
  cases hlast
  cases htarget
  -- the draft model goes on with 9, not with 3
  exact absurd hcont.1 (by decide)

end Runs

end ExpertPin.Draft.DraftModel
