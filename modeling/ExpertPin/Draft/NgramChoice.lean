import ExpertPin.Draft.NgramCache
import Mathlib.Data.List.MinMax

/-!
# The token that is drafted

`try_draft` means to find the token with the greatest product of its count and its static weight
among those after the longest n-gram that passes two thresholds.  Products and sums are of `int`:
it does so exactly if those that it forms for the n-grams it visits fit, and `LLAMA_TOKEN_NULL`
is not counted as the best token of an n-gram (`chooses_iff`).
-/

namespace ExpertPin.Draft

open List
open Option

/-- The number is one of `int`. -/
def InInt (x : ℤ) : Prop := -2 ^ 31 ≤ x ∧ x < 2 ^ 31

instance decidableInInt (x : ℤ) : Decidable (InInt x) := inferInstanceAs (Decidable (_ ∧ _))

theorem checked_eq_some {x : ℤ} (h : InInt x) : checked x = some x := if_pos h

theorem checked_eq_none {x : ℤ} (h : ¬InInt x) : checked x = none := if_neg h

def PositiveCounts (part : NgramCachePart) : Prop := ∀ e ∈ part.entries, 0 < e.2.toInt

/-! ## What is meant -/

/-- The static weight of a token. -/
def weight (partStatic : NgramCachePart) (token : Token) : ℤ :=
  match partStatic.lookup token with
  | some count => 100 * count.toInt
  | none => 1

/-- The product of the count of a token and its static weight. -/
def score (partStatic : NgramCachePart) (e : TokenCount) : ℤ := e.2.toInt * weight partStatic e.1

/-- The sample size. -/
def total : List TokenCount → ℤ
  | [] => 0
  | e :: entries => e.2.toInt + total entries

/-- The first of the tokens with the greatest product. -/
def best (partStatic : NgramCachePart) (entries : List TokenCount) : Option TokenCount :=
  @List.argmax _ ℤ instLatticeInt.toSemilatticeInf.toPartialOrder.toPreorder Int.decLt
    (score partStatic) entries

def bestToken (partStatic part : NgramCachePart) : Token :=
  (best partStatic part.entries).elim tokenNull Sigma.fst

def bestCount (partStatic part : NgramCachePart) : ℤ :=
  (best partStatic part.entries).elim 0 fun e => e.2.toInt

/-- The two thresholds. -/
def Passes (partStatic part : NgramCachePart) (minSampleSize minPercent : ℤ) : Prop :=
  minSampleSize ≤ total part.entries ∧
    minPercent * total part.entries ≤ 100 * bestCount partStatic part

instance decidablePasses (partStatic part : NgramCachePart) (minSampleSize minPercent : ℤ) :
    Decidable (Passes partStatic part minSampleSize minPercent) :=
  inferInstanceAs (Decidable (_ ∧ _))

/-- The products and the sum of a loop over these entries fit. -/
def LoopFits (partStatic : NgramCachePart) (entries : List TokenCount) : Prop :=
  (∀ e ∈ entries, InInt (score partStatic e)) ∧ InInt (total entries)

instance decidableLoopFits (partStatic : NgramCachePart) (entries : List TokenCount) :
    Decidable (LoopFits partStatic entries) := inferInstanceAs (Decidable (_ ∧ _))

/-- So do the percentages, if the sample is large enough. -/
def PartFits (partStatic part : NgramCachePart) (minSampleSize minPercent : ℤ) : Prop :=
  LoopFits partStatic part.entries ∧ (minSampleSize ≤ total part.entries →
    InInt (100 * bestCount partStatic part) ∧ InInt (minPercent * total part.entries))

instance decidablePartFits (partStatic part : NgramCachePart) (minSampleSize minPercent : ℤ) :
    Decidable (PartFits partStatic part minSampleSize minPercent) :=
  inferInstanceAs (Decidable (_ ∧ _))

/-! ## One n-gram -/

variable {partStatic part : NgramCachePart} {entries : List TokenCount} {e : TokenCount}
  {minSampleSize minPercent : ℤ}

theorem total_append (l m : List TokenCount) : total (l ++ m) = total l + total m := by
  induction l with
  | nil => exact (Int.zero_add _).symm
  | cons e l ih => rw [cons_append, total, total, ih, Int.add_assoc]

theorem total_nonneg (h : ∀ e ∈ entries, 0 < e.2.toInt) : 0 ≤ total entries := by
  induction entries with
  | nil => exact le_rfl
  | cons e entries ih =>
    have hrest := ih fun f hf => h f (mem_cons_of_mem e hf)
    exact Int.add_nonneg (h e mem_cons_self).le hrest

theorem weight_pos (h : PositiveCounts partStatic) (token : Token) :
    0 < weight partStatic token := by
  rw [weight]
  split
  case h_1 count hcount =>
    have hpos := h ⟨token, count⟩ (AList.mem_lookup_iff.mp hcount)
    exact Int.mul_pos (by decide) hpos
  case h_2 => exact Int.one_pos

theorem score_pos (h : PositiveCounts partStatic) (he : 0 < e.2.toInt) : 0 < score partStatic e :=
  Int.mul_pos he (weight_pos h e.1)

theorem countStatic_eq (partStatic : NgramCachePart) (token : Token) :
    countStatic partStatic token = checked (weight partStatic token) := by
  rw [countStatic, weight]
  cases partStatic.lookup token with
  | none => rfl
  | some count => rfl

/-- The weight is not more than the product. -/
theorem inInt_weight (h : PositiveCounts partStatic) (he : 0 < e.2.toInt)
    (hfits : InInt (score partStatic e)) : InInt (weight partStatic e.1) := by
  have hpos := weight_pos h e.1
  have hle : 1 * weight partStatic e.1 ≤ score partStatic e :=
    Int.mul_le_mul_of_nonneg_right he hpos.le
  rw [Int.one_mul] at hle
  exact ⟨by omega, hle.trans_lt hfits.2⟩

/-- What the loop has after these entries. -/
def tallyOf (partStatic : NgramCachePart) (entries : List TokenCount) : Tally where
  maxToken := (best partStatic entries).elim tokenNull Sigma.fst
  maxCountPrimary := (best partStatic entries).elim 0 fun e => e.2.toInt
  maxCountStatic := (best partStatic entries).elim 0 fun e => weight partStatic e.1
  sumCountPrimary := total entries

/-- The greatest product so far. -/
def bestScore (partStatic : NgramCachePart) (entries : List TokenCount) : ℤ :=
  (best partStatic entries).elim 0 (score partStatic)

theorem product_tallyOf : (tallyOf partStatic entries).maxCountPrimary *
    (tallyOf partStatic entries).maxCountStatic = bestScore partStatic entries := by
  rw [tallyOf, bestScore]
  cases best partStatic entries with
  | none => rfl
  | some m => rfl

theorem inInt_bestScore (h : LoopFits partStatic entries) :
    InInt (bestScore partStatic entries) := by
  rw [bestScore]
  cases hbest : best partStatic entries with
  | none => exact (by decide : InInt 0)
  | some m => exact h.1 m (argmax_mem hbest)

theorem total_append_singleton : total (entries ++ [e]) = total entries + e.2.toInt := by
  rw [total_append]
  exact congrArg (total entries + ·) (Int.add_zero _)

/-- The loop up to one more entry. -/
theorem loopFits_append_singleton (hpos : ∀ f ∈ entries ++ [e], 0 < f.2.toInt) :
    LoopFits partStatic (entries ++ [e]) ↔ LoopFits partStatic entries ∧
      InInt (score partStatic e) ∧ InInt (total entries + e.2.toInt) := by
  have he : 0 < e.2.toInt := hpos e (mem_append_right _ (mem_singleton_self e))
  have hnonneg := total_nonneg fun f hf => hpos f (mem_append_left _ hf)
  rw [LoopFits, total_append_singleton]
  constructor
  · rintro ⟨hscores, hsum⟩
    refine ⟨⟨fun f hf => hscores f (mem_append_left _ hf), by omega, ?_⟩,
      hscores e (mem_append_right _ (mem_singleton_self e)), hsum⟩
    have hlt := hsum.2
    omega
  · rintro ⟨⟨hscores, -⟩, hscore, hsum⟩
    refine ⟨fun f hf => ?_, hsum⟩
    rcases mem_append.mp hf with hf | hf
    · exact hscores f hf
    · exact mem_singleton.mp hf ▸ hscore

/-- A later token is better only with a greater product. -/
theorem best_append_singleton (h : 0 < score partStatic e) : best partStatic (entries ++ [e]) =
      if score partStatic e > bestScore partStatic entries then some e
      else best partStatic entries := by
  rw [best, argmax_concat, ← best, bestScore]
  cases best partStatic entries with
  | none => exact (if_pos h).symm
  | some m => rfl

/-- One more entry. -/
theorem count_tallyOf (hstatic : PositiveCounts partStatic) (he : 0 < e.2.toInt)
    (hloop : LoopFits partStatic entries) :
    (tallyOf partStatic entries).count partStatic e =
      if InInt (score partStatic e) ∧ InInt (total entries + e.2.toInt) then
        some (tallyOf partStatic (entries ++ [e])) else none := by
  rw [Tally.count, countStatic_eq]
  by_cases hscore : InInt (score partStatic e)
  · have hproduct : checked (e.2.toInt * weight partStatic e.1) = some (score partStatic e) :=
      checked_eq_some hscore
    rw [checked_eq_some (inInt_weight hstatic he hscore)]
    simp only [bind_eq_bind, bind_some]
    rw [product_tallyOf, checked_eq_some (inInt_bestScore hloop), hproduct]
    simp only [bind_some]
    by_cases hsum : InInt (total entries + e.2.toInt)
    · have hsum' : checked ((tallyOf partStatic entries).sumCountPrimary + e.2.toInt) =
          some (total (entries ++ [e])) := by
        rw [total_append_singleton]
        exact checked_eq_some hsum
      rw [if_pos ⟨hscore, hsum⟩, hsum', bind_some, tallyOf, tallyOf,
        best_append_singleton (score_pos hstatic he)]
      by_cases hbetter : score partStatic e > bestScore partStatic entries
      · rw [if_pos hbetter, if_pos hbetter]
        rfl
      · rw [if_neg hbetter, if_neg hbetter]
    · have hsum' : checked ((tallyOf partStatic entries).sumCountPrimary + e.2.toInt) = none :=
        checked_eq_none hsum
      rw [if_neg fun h => hsum h.2, hsum', bind_none]
  · have hproduct : checked (e.2.toInt * weight partStatic e.1) = none := checked_eq_none hscore
    rw [if_neg fun h => hscore h.1]
    cases hweight : checked (weight partStatic e.1) with
    | none => rfl
    | some w =>
      obtain rfl : weight partStatic e.1 = w := by
        rw [checked] at hweight
        split at hweight
        · exact some.inj hweight
        · cases hweight
      simp only [bind_eq_bind, bind_some, hproduct, bind_none]

/-- The loop over the tokens after an n-gram. -/
theorem foldlM_count (hstatic : PositiveCounts partStatic) (hpos : ∀ e ∈ entries, 0 < e.2.toInt) :
    entries.foldlM (Tally.count partStatic) {} =
      if LoopFits partStatic entries then some (tallyOf partStatic entries) else none := by
  induction entries using reverseRecOn with
  | nil =>
    have hnil : LoopFits partStatic [] :=
      ⟨fun e he => absurd he not_mem_nil, (by decide : InInt 0)⟩
    rw [if_pos hnil]
    rfl
  | append_singleton entries e ih =>
    have he : 0 < e.2.toInt := hpos e (mem_append_right _ (mem_singleton_self e))
    rw [foldlM_append, ih fun f hf => hpos f (mem_append_left _ hf)]
    by_cases hloop : LoopFits partStatic entries
    · have hone : [e].foldlM (Tally.count partStatic) (tallyOf partStatic entries) =
          (tallyOf partStatic entries).count partStatic e := bind_pure _
      rw [if_pos hloop]
      refine (hone.trans (count_tallyOf hstatic he hloop)).trans (if_congr ?_ rfl rfl)
      rw [loopFits_append_singleton hpos, and_iff_right hloop]
    · rw [if_neg hloop, if_neg fun h => hloop ((loopFits_append_singleton hpos).mp h).1]
      rfl

/-- `try_draft` for one n-gram. -/
theorem tryPart_eq (hstatic : PositiveCounts partStatic) (hpos : PositiveCounts part) :
    tryPart part partStatic minSampleSize minPercent =
      if PartFits partStatic part minSampleSize minPercent then
        some (if Passes partStatic part minSampleSize minPercent then bestToken partStatic part
          else tokenNull)
      else none := by
  rw [tryPart, foldlM_count hstatic hpos]
  by_cases hloop : LoopFits partStatic part.entries
  · rw [if_pos hloop, bind_eq_bind, bind_some]
    by_cases hsample : minSampleSize ≤ total part.entries
    · have hnot : ¬(tallyOf partStatic part.entries).sumCountPrimary < minSampleSize :=
        not_lt.mpr hsample
      rw [if_neg hnot]
      change ((checked (100 * bestCount partStatic part)).bind fun percent =>
        (checked (minPercent * total part.entries)).bind fun bound =>
          some (if percent < bound then tokenNull else bestToken partStatic part)) = _
      by_cases hpercent : InInt (100 * bestCount partStatic part)
      · rw [checked_eq_some hpercent, bind_some]
        by_cases hbound : InInt (minPercent * total part.entries)
        · have hpart : PartFits partStatic part minSampleSize minPercent :=
            ⟨hloop, fun _ => ⟨hpercent, hbound⟩⟩
          rw [checked_eq_some hbound, bind_some, if_pos hpart]
          by_cases hlt : 100 * bestCount partStatic part < minPercent * total part.entries
          · rw [if_pos hlt, if_neg fun h => h.2.not_gt hlt]
          · rw [if_neg hlt, if_pos ⟨hsample, not_lt.mp hlt⟩]
        · rw [checked_eq_none hbound, bind_none, if_neg fun h => hbound (h.2 hsample).2]
      · rw [checked_eq_none hpercent, bind_none, if_neg fun h => hpercent (h.2 hsample).1]
    · have hlt : (tallyOf partStatic part.entries).sumCountPrimary < minSampleSize :=
        not_le.mp hsample
      rw [if_pos hlt, if_pos ⟨hloop, fun h => absurd h hsample⟩, if_neg fun h => hsample h.1]
  · rw [if_neg hloop, if_neg fun h => hloop h.1]
    rfl

theorem exists_best (hne : bestToken partStatic part ≠ tokenNull) :
    ∃ e ∈ part.entries, e.1 = bestToken partStatic part ∧
      ∀ e' ∈ part.entries, score partStatic e' ≤ score partStatic e := by
  rw [bestToken] at hne ⊢
  cases hbest : best partStatic part.entries with
  | none =>
    rw [hbest] at hne
    exact absurd rfl hne
  | some e =>
    exact ⟨e, argmax_mem hbest, rfl, fun e' he' => le_of_mem_argmax he' hbest⟩

/-! ## The static cache alone -/

/-- The variables of the loop without a static cache. -/
def Tally.toStatic (t : Tally) : StaticTally where
  maxToken := t.maxToken
  maxCountStatic := t.maxCountPrimary
  sumCountStatic := t.sumCountPrimary

/-- The best product is the best count. -/
def Tally.Unweighted (t : Tally) : Prop :=
  t.maxCountPrimary * t.maxCountStatic = t.maxCountPrimary ∧ InInt t.maxCountPrimary

theorem inInt_toInt (x : Int32) : InInt x.toInt := ⟨x.le_toInt, x.toInt_lt⟩

theorem count_unweighted {t : Tally} (h : t.Unweighted) (e : TokenCount) :
    (t.count ∅ e).map Tally.toStatic = t.toStatic.count e ∧
      ∀ t', t.count ∅ e = some t' → t'.Unweighted := by
  have hweight : countStatic ∅ e.1 = some 1 := by
    rw [countStatic, AList.lookup_empty]
  rw [Tally.count, StaticTally.count, hweight]
  simp only [bind_eq_bind, bind_some, Int.mul_one, h.1,
    checked_eq_some (inInt_toInt e.2), checked_eq_some h.2]
  cases hsum : checked (t.sumCountPrimary + e.2.toInt) with
  | none =>
    have hsum' : checked (t.toStatic.sumCountStatic + e.2.toInt) = none := hsum
    rw [hsum', bind_none, bind_none]
    exact ⟨rfl, fun t' ht' => absurd ht' (some_ne_none t').symm⟩
  | some sum =>
    have hsum' : checked (t.toStatic.sumCountStatic + e.2.toInt) = some sum := hsum
    rw [hsum', bind_some, bind_some]
    by_cases hbetter : e.2.toInt > t.maxCountPrimary
    · have hbetter' : e.2.toInt > t.toStatic.maxCountStatic := hbetter
      rw [if_pos hbetter, if_pos hbetter']
      refine ⟨rfl, fun t' ht' => ?_⟩
      obtain rfl := some.inj ht'
      exact ⟨Int.mul_one _, inInt_toInt e.2⟩
    · have hbetter' : ¬e.2.toInt > t.toStatic.maxCountStatic := hbetter
      rw [if_neg hbetter, if_neg hbetter']
      refine ⟨rfl, fun t' ht' => ?_⟩
      obtain rfl := some.inj ht'
      exact h

theorem foldlM_unweighted {t : Tally} (h : t.Unweighted) (entries : List TokenCount) :
    (entries.foldlM (Tally.count ∅) t).map Tally.toStatic =
      entries.foldlM StaticTally.count t.toStatic := by
  induction entries generalizing t with
  | nil => rfl
  | cons e entries ih =>
    obtain ⟨hcount, hkeeps⟩ := count_unweighted h e
    rw [foldlM_cons, foldlM_cons, ← hcount]
    cases hnext : t.count ∅ e with
    | none => rfl
    | some t' => exact ih (hkeeps t' hnext)

/-- With the static cache alone each token weighs the same. -/
theorem tryDraftStatic_eq {ncStatic : NgramCache} {ngram : Ngram}
    (h : ncStatic.lookup ngram = some part) :
    tryDraftStatic ncStatic ngram = tryPart part ∅ (draftMinSampleSizeLax staticPlace)
      (draftMinPercentLax staticPlace) := by
  have hstart : Tally.Unweighted {} := ⟨rfl, (by decide : InInt 0)⟩
  have hloop : part.entries.foldlM StaticTally.count {} =
      (part.entries.foldlM (Tally.count ∅) {}).map Tally.toStatic :=
    (foldlM_unweighted hstart part.entries).symm
  rw [tryDraftStatic, h, tryPart]
  simp only [hloop]
  cases part.entries.foldlM (Tally.count ∅) {} with
  | none => rfl
  | some t => rfl

theorem tryDraftStatic_of_none {ncStatic : NgramCache} {ngram : Ngram}
    (h : ncStatic.lookup ngram = none) : tryDraftStatic ncStatic ngram = some tokenNull := by
  rw [tryDraftStatic, h]

/-! ## The n-grams from the longest one on -/

/-- What `try_draft` is called with. -/
structure Trial where
  ncPrimary : NgramCache
  ngramsPrimary : List Ngram
  partStatic : NgramCachePart
  minSampleSize : PerSize
  minPercent : PerSize

/-- The tokens after an n-gram and the thresholds for it. -/
structure Place where
  part : NgramCachePart
  minSampleSize : ℤ
  minPercent : ℤ

namespace Trial

variable (c : Trial)

def run (n : ℕ) : Option Token :=
  tryDraft c.ncPrimary c.ngramsPrimary c.partStatic c.minSampleSize c.minPercent n

/-- The n-gram at a place, if the primary cache has it. -/
def place (i : ℕ) : Option Place := do
  let ngram ← c.ngramsPrimary[i]?
  let part ← c.ncPrimary.lookup ngram
  if h : i < ngramMax then
    some { part, minSampleSize := c.minSampleSize ⟨i, h⟩, minPercent := c.minPercent ⟨i, h⟩ }
  else none

def Passes (p : Place) : Prop := Draft.Passes c.partStatic p.part p.minSampleSize p.minPercent

def Fits (p : Place) : Prop := PartFits c.partStatic p.part p.minSampleSize p.minPercent

def token (p : Place) : Token := bestToken c.partStatic p.part

instance decidablePasses (p : Place) : Decidable (c.Passes p) :=
  inferInstanceAs (Decidable (Draft.Passes _ _ _ _))

instance decidableFits (p : Place) : Decidable (c.Fits p) :=
  inferInstanceAs (Decidable (PartFits _ _ _ _))

/-- What one turn finds. -/
def found (i : ℕ) : Option Token :=
  match c.place i with
  | none => some tokenNull
  | some p => if c.Fits p then some (if c.Passes p then c.token p else tokenNull) else none

/-- An n-gram that passes and has a best token. -/
def Drafts (i : ℕ) : Prop := ∃ p, c.place i = some p ∧ c.Passes p ∧ c.token p ≠ tokenNull

/-- No longer one drafts a token. -/
def Visited (n i : ℕ) : Prop := i < n ∧ ∀ j, i < j → j < n → ¬c.Drafts j

/-- The counts are positive, and there are no more n-grams than thresholds. -/
structure WellFormed : Prop where
  length_le : c.ngramsPrimary.length ≤ ngramMax
  primary : ∀ ngram part, c.ncPrimary.lookup ngram = some part → PositiveCounts part
  partStatic : PositiveCounts c.partStatic

variable {c} {n i : ℕ} {p : Place}

theorem run_succ (h : c.WellFormed) (hi : i < c.ngramsPrimary.length) :
    c.run (i + 1) = (c.found i).bind fun token =>
      if token = tokenNull then c.run i else some token := by
  have hmax : i < ngramMax := hi.trans_le h.length_le
  have hfound : c.found i = tryNgram c.ncPrimary c.ngramsPrimary[i] c.partStatic
      c.minSampleSize c.minPercent i := by
    rw [tryNgram]
    cases hpart : c.ncPrimary.lookup c.ngramsPrimary[i] with
    | none =>
      have hplace : c.place i = none := by
        rw [place, getElem?_eq_getElem hi, bind_eq_bind, bind_some, hpart]
        rfl
      rw [found, hplace]
    | some part =>
      have hplace : c.place i = some ⟨part, c.minSampleSize ⟨i, hmax⟩, c.minPercent ⟨i, hmax⟩⟩ := by
        rw [place, getElem?_eq_getElem hi, bind_eq_bind, bind_some, hpart]
        exact dif_pos hmax
      rw [found, hplace]
      dsimp only
      rw [dif_pos hmax, tryPart_eq h.partStatic (h.primary _ part hpart)]
      rfl
  rw [run, tryDraft, getElem?_eq_getElem hi, hfound]
  rfl

theorem found_of_not_drafts (hfits : ∀ p, c.place i = some p → c.Fits p) (h : ¬c.Drafts i) :
    c.found i = some tokenNull := by
  rw [found]
  cases hp : c.place i with
  | none => rfl
  | some p =>
    dsimp only
    rw [if_pos (hfits p hp), some_inj]
    split
    case isTrue hpasses => exact not_not.mp fun hne => h ⟨p, hp, hpasses, hne⟩
    case isFalse => rfl

theorem found_of_drafts (hp : c.place i = some p) (hfits : c.Fits p) (hpasses : c.Passes p) :
    c.found i = some (c.token p) := by
  rw [found, hp]
  dsimp only
  rw [if_pos hfits, if_pos hpasses]

theorem found_of_not_fits (hp : c.place i = some p) (hfits : ¬c.Fits p) : c.found i = none := by
  rw [found, hp]
  exact if_neg hfits

theorem visited_self : c.Visited (n + 1) n :=
  ⟨Nat.lt_succ_self n, fun _ hlt hle => absurd (Nat.le_of_lt_succ hle) (not_le.mpr hlt)⟩

/-- The turn after one that drafts nothing. -/
theorem visited_succ (h : ¬c.Drafts n) (hi : i < n) : c.Visited (n + 1) i ↔ c.Visited n i := by
  constructor
  · exact fun hvisited => ⟨hi, fun j hij hjn => hvisited.2 j hij (Nat.lt_succ_of_lt hjn)⟩
  · refine fun hvisited => ⟨Nat.lt_succ_of_lt hi, fun j hij hjn => ?_⟩
    rcases Nat.lt_succ_iff_lt_or_eq.mp hjn with hlt | rfl
    · exact hvisited.2 j hij hlt
    · exact h

/-- If everything fits that is visited, the result is the token of the first n-gram that drafts. -/
theorem run_of_fits (h : c.WellFormed) (hn : n ≤ c.ngramsPrimary.length)
    (hfits : ∀ i p, c.Visited n i → c.place i = some p → c.Fits p) :
    (c.run n = some tokenNull ∧ ∀ i < n, ¬c.Drafts i) ∨
      ∃ i p, c.Visited n i ∧ c.place i = some p ∧ c.Passes p ∧ c.token p ≠ tokenNull ∧
        c.run n = some (c.token p) := by
  induction n with
  | zero => exact .inl ⟨rfl, fun i hi => absurd hi (Nat.not_lt_zero i)⟩
  | succ n ih =>
    rw [run_succ h hn]
    by_cases hdrafts : c.Drafts n
    · obtain ⟨p, hp, hpasses, hne⟩ := hdrafts
      refine .inr ⟨n, p, visited_self, hp, hpasses, hne, ?_⟩
      rw [found_of_drafts hp (hfits n p visited_self hp) hpasses, bind_some, if_neg hne]
    · have hrest := ih (Nat.le_of_succ_le hn) fun i p hvisited =>
        hfits i p ((visited_succ hdrafts hvisited.1).mpr hvisited)
      rw [found_of_not_drafts (fun p => hfits n p visited_self) hdrafts, bind_some,
        if_pos rfl]
      rcases hrest with ⟨hrun, hnone⟩ | ⟨i, p, hvisited, hp, hpasses, hne, hrun⟩
      · refine .inl ⟨hrun, fun i hi => ?_⟩
        rcases Nat.lt_succ_iff_lt_or_eq.mp hi with hlt | rfl
        · exact hnone i hlt
        · exact hdrafts
      · exact .inr ⟨i, p, (visited_succ hdrafts hvisited.1).mpr hvisited, hp, hpasses, hne, hrun⟩

/-- Something that does not fit is met when it is visited. -/
theorem run_of_not_fits (h : c.WellFormed) (hn : n ≤ c.ngramsPrimary.length)
    (hvisited : c.Visited n i) (hp : c.place i = some p) (hfits : ¬c.Fits p) : c.run n = none := by
  induction n with
  | zero => exact absurd hvisited.1 (Nat.not_lt_zero i)
  | succ n ih =>
    rw [run_succ h hn]
    rcases Nat.lt_succ_iff_lt_or_eq.mp hvisited.1 with hlt | rfl
    · have hdrafts : ¬c.Drafts n := hvisited.2 n hlt (Nat.lt_succ_self n)
      by_cases hlast : ∀ q, c.place n = some q → c.Fits q
      · rw [found_of_not_drafts hlast hdrafts, bind_some, if_pos rfl]
        exact ih (Nat.le_of_succ_le hn) ((visited_succ hdrafts hlt).mp hvisited)
      · obtain ⟨q, hq⟩ := not_forall.mp hlast
        obtain ⟨hq, hnot⟩ := Classical.not_imp.mp hq
        rw [found_of_not_fits hq hnot, bind_none]
    · rw [found_of_not_fits hp hfits, bind_none]

/-! ## The longest n-gram that passes -/

variable (c)

/-- No n-gram after this one passes. -/
def Longest (i : ℕ) (p : Place) : Prop :=
  c.place i = some p ∧ c.Passes p ∧
    ∀ j, i < j → j < c.ngramsPrimary.length → ∀ q, c.place j = some q → ¬c.Passes q

/-- The token comes after the n-gram, and no other one has a greater product. -/
def Maximises (p : Place) (token : Token) : Prop :=
  ∃ e ∈ p.part.entries, e.1 = token ∧
    ∀ e' ∈ p.part.entries, score c.partStatic e' ≤ score c.partStatic e

/-- `try_draft` returns, and what it drafts is a best token of the longest n-gram that passes. -/
def Chooses : Prop :=
  ∃ token, c.run c.ngramsPrimary.length = some token ∧
    (token ≠ tokenNull → ∃ i p, c.Longest i p ∧ c.Maximises p token)

/-- If `LLAMA_TOKEN_NULL` is the first best token of the longest n-gram that passes, then what is
drafted for a shorter one is another best token of it. -/
def NullHarmless : Prop :=
  ∀ i p, c.Longest i p → c.token p = tokenNull → ∀ j q, c.Visited c.ngramsPrimary.length j →
    c.place j = some q → c.Passes q → c.token q ≠ tokenNull → c.Maximises p (c.token q)

variable {c}

theorem maximises_token (hne : c.token p ≠ tokenNull) : c.Maximises p (c.token p) :=
  exists_best hne

theorem lt_of_place (hp : c.place i = some p) : i < c.ngramsPrimary.length := by
  obtain ⟨ngram, hngram, _⟩ := bind_eq_some_iff.mp hp
  exact (List.getElem?_eq_some_iff.mp hngram).1

theorem Longest.unique {j : ℕ} {q : Place} (h : c.Longest i p) (h' : c.Longest j q) :
    i = j ∧ p = q := by
  obtain rfl : i = j := by
    rcases Nat.lt_trichotomy i j with hlt | heq | hgt
    · exact absurd h'.2.1 (h.2.2 j hlt (lt_of_place h'.1) q h'.1)
    · exact heq
    · exact absurd h.2.1 (h'.2.2 i hgt (lt_of_place h.1) p h.1)
  exact ⟨rfl, some.inj (h.1.symm.trans h'.1)⟩

/-- Of the n-grams that pass there is a longest one. -/
theorem exists_longest (hp : c.place i = some p) (hpasses : c.Passes p) :
    ∃ j q, i ≤ j ∧ c.Longest j q := by
  induction hleft : c.ngramsPrimary.length - i using Nat.strongRecOn generalizing i p with
  | ind left ih =>
    by_cases hlonger : ∃ j q, i < j ∧ c.place j = some q ∧ c.Passes q
    · obtain ⟨j, q, hij, hq, hpasses'⟩ := hlonger
      have hj := lt_of_place hq
      obtain ⟨k, r, hjk, hlongest⟩ := ih _ (by omega) hq hpasses' rfl
      exact ⟨k, r, hij.le.trans hjk, hlongest⟩
    · refine ⟨i, p, le_rfl, hp, hpasses, fun j hij _ q hq hpasses' => ?_⟩
      exact hlonger ⟨j, q, hij, hq, hpasses'⟩

/-- Only one n-gram drafts that is visited. -/
theorem Visited.eq_of_drafts {j : ℕ} (h : c.Visited n i) (h' : c.Visited n j) (hi : c.Drafts i)
    (hj : c.Drafts j) : i = j := by
  rcases Nat.lt_trichotomy i j with hlt | heq | hgt
  · exact absurd hj (h.2 j hlt h'.1)
  · exact heq
  · exact absurd hi (h'.2 i hgt h.1)

/-- `try_draft` keeps its promise exactly if the numbers fit for the n-grams that it visits, and
`LLAMA_TOKEN_NULL` does no harm. -/
theorem chooses_iff (h : c.WellFormed) :
    c.Chooses ↔ (∀ i p, c.Visited c.ngramsPrimary.length i → c.place i = some p → c.Fits p) ∧
      c.NullHarmless := by
  constructor
  · rintro ⟨token, hrun, hchosen⟩
    have hfits : ∀ i p, c.Visited c.ngramsPrimary.length i → c.place i = some p → c.Fits p := by
      intro i p hvisited hp
      by_contra hnot
      exact some_ne_none token (hrun.symm.trans (run_of_not_fits h le_rfl hvisited hp hnot))
    refine ⟨hfits, fun i p hlongest _ j q hvisited hq hpasses hne => ?_⟩
    rcases run_of_fits h le_rfl hfits with ⟨_, hnone⟩ | ⟨k, r, hvisited', hr, hpasses', hne', hrun'⟩
    · exact absurd ⟨q, hq, hpasses, hne⟩ (hnone j hvisited.1)
    · obtain rfl : j = k :=
        hvisited.eq_of_drafts hvisited' ⟨q, hq, hpasses, hne⟩ ⟨r, hr, hpasses', hne'⟩
      obtain rfl : q = r := some.inj (hq.symm.trans hr)
      obtain rfl : token = c.token q := some.inj (hrun.symm.trans hrun')
      obtain ⟨k, r, hlongest', hmax⟩ := hchosen hne
      obtain ⟨rfl, rfl⟩ := hlongest.unique hlongest'
      exact hmax
  · rintro ⟨hfits, hnull⟩
    rcases run_of_fits h le_rfl hfits with ⟨hrun, _⟩ | ⟨i, p, hvisited, hp, hpasses, hne, hrun⟩
    · exact ⟨tokenNull, hrun, fun hne => absurd rfl hne⟩
    · refine ⟨c.token p, hrun, fun _ => ?_⟩
      obtain ⟨j, q, hij, hlongest⟩ := exists_longest hp hpasses
      rcases hij.eq_or_lt with rfl | hlt
      · obtain rfl : p = q := some.inj (hp.symm.trans hlongest.1)
        exact ⟨i, p, hlongest, maximises_token hne⟩
      · -- a longer n-gram passes, so its best token is none
        have htoken : c.token q = tokenNull := by
          by_contra hother
          exact hvisited.2 j hlt (lt_of_place hlongest.1) ⟨q, hlongest.1, hlongest.2.1, hother⟩
        exact ⟨j, q, hlongest, hnull j q hlongest htoken i p hvisited hp hpasses hne⟩

end Trial

/-! ## Both forms -/

/-- With the static cache alone, the token has the greatest count. -/
def ChoosesStatic (ncStatic : NgramCache) (ngram : Ngram) : Prop :=
  ∃ token, tryDraftStatic ncStatic ngram = some token ∧
    (token ≠ tokenNull → ∃ part, ncStatic.lookup ngram = some part ∧
      Passes ∅ part (draftMinSampleSizeLax staticPlace) (draftMinPercentLax staticPlace) ∧
      ∃ e ∈ part.entries, e.1 = token ∧ ∀ e' ∈ part.entries, e'.2.toInt ≤ e.2.toInt)

theorem positiveCounts_empty : PositiveCounts ∅ := fun _ he => absurd he not_mem_nil

theorem score_empty (e : TokenCount) : score ∅ e = e.2.toInt := by
  rw [score, weight, AList.lookup_empty, Int.mul_one]

theorem choosesStatic_iff {ncStatic : NgramCache} {ngram : Ngram}
    (h : ∀ part, ncStatic.lookup ngram = some part → PositiveCounts part) :
    ChoosesStatic ncStatic ngram ↔ ∀ part, ncStatic.lookup ngram = some part →
      PartFits ∅ part (draftMinSampleSizeLax staticPlace) (draftMinPercentLax staticPlace) := by
  cases hpart : ncStatic.lookup ngram with
  | none =>
    refine iff_of_true ⟨tokenNull, tryDraftStatic_of_none hpart, fun hne => absurd rfl hne⟩ ?_
    exact fun part hsome => absurd hsome (some_ne_none part).symm
  | some part =>
    have heq := (tryDraftStatic_eq hpart).trans (tryPart_eq positiveCounts_empty (h part hpart))
    constructor
    · rintro ⟨token, htoken, _⟩ part' hpart'
      obtain rfl := some.inj hpart'
      by_contra hnot
      rw [if_neg hnot] at heq
      exact some_ne_none token (htoken.symm.trans heq)
    · intro hfits
      rw [if_pos (hfits part rfl)] at heq
      refine ⟨_, heq, fun hne => ⟨part, hpart, ?_⟩⟩
      have hpasses : Passes ∅ part (draftMinSampleSizeLax staticPlace)
          (draftMinPercentLax staticPlace) := by
        by_contra hnot
        exact hne (if_neg hnot)
      rw [if_pos hpasses] at hne ⊢
      obtain ⟨e, he, htoken, hmax⟩ := exists_best hne
      refine ⟨hpasses, e, he, htoken, fun e' he' => ?_⟩
      rw [← score_empty e, ← score_empty e']
      exact hmax e' he'

/-- `try_draft` in both its forms. -/
theorem tryDraft_iff {c : Trial} (h : c.WellFormed) {ncStatic : NgramCache} {ngram : Ngram}
    (hstatic : ∀ part, ncStatic.lookup ngram = some part → PositiveCounts part) :
    (c.Chooses ↔ (∀ i p, c.Visited c.ngramsPrimary.length i → c.place i = some p → c.Fits p) ∧
      c.NullHarmless) ∧
    (ChoosesStatic ncStatic ngram ↔ ∀ part, ncStatic.lookup ngram = some part →
      PartFits ∅ part (draftMinSampleSizeLax staticPlace) (draftMinPercentLax staticPlace)) :=
  ⟨Trial.chooses_iff h, choosesStatic_iff hstatic⟩

/-- The token 5 twice after the token 1, and so often in the static cache. -/
def fiveTrial (count : Int32) : Trial where
  ncPrimary := AList.singleton (.make [1] 1) (AList.singleton 5 2)
  ngramsPrimary := [.make [1] 1]
  partStatic := AList.singleton 5 count
  minSampleSize := draftMinSampleSizeLax
  minPercent := draftMinPercentLax

theorem wellFormed_fiveTrial {count : Int32} (h : 0 < count.toInt) :
    (fiveTrial count).WellFormed where
  length_le := (by decide : 1 ≤ ngramMax)
  primary ngram part hpart e he := by
    have hmem := mem_singleton.mp (AList.mem_lookup_iff.mp hpart)
    cases hmem
    obtain rfl := mem_singleton.mp he
    decide
  partStatic e he := by
    obtain rfl := mem_singleton.mp he
    exact h

theorem tryDraft_iff_fiveTrial :
    ((fiveTrial 3).Chooses ↔ (∀ i p, (fiveTrial 3).Visited (fiveTrial 3).ngramsPrimary.length i →
        (fiveTrial 3).place i = some p → (fiveTrial 3).Fits p) ∧ (fiveTrial 3).NullHarmless) ∧
      (ChoosesStatic ∅ (.make [1] 1) ↔ ∀ part, (∅ : NgramCache).lookup (.make [1] 1) = some part →
        PartFits ∅ part (draftMinSampleSizeLax staticPlace) (draftMinPercentLax staticPlace)) :=
  tryDraft_iff (wellFormed_fiveTrial (by decide)) fun part hpart => by
    rw [AList.lookup_empty] at hpart
    cases hpart

/-- A hundred times a static count of 21474837 is no `int`. -/
theorem not_chooses : (fiveTrial 21474837).WellFormed ∧ ¬(fiveTrial 21474837).Chooses := by
  have hrun : (fiveTrial 21474837).run 1 = none := by decide
  refine ⟨wellFormed_fiveTrial (by decide), fun ⟨token, htoken, _⟩ => ?_⟩
  exact some_ne_none token (htoken.symm.trans hrun)

end ExpertPin.Draft
