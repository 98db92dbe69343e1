import Mathlib.Algebra.Order.BigOperators.Group.List
import ExpertPin.Lib.Fuel
import ExpertPin.Lib.Runs
import ExpertPin.Sampling.ExpiringBias

/-!
# What expiring biases leave in the parameters

In a run of the sampler each parameter is the value of the request and what the phrases of the
current stage that are switched on add to it, if three things are avoided.  A stage is among the
parameters that the sampler has copied, which the lines of the same request are not.  A token is
not sampled again where an entry begins or ends with its duration, since that is told from the
number of tokens and not from the flag.  And `true` is not added to `true`.
-/

namespace ExpertPin.ExpiringBias

open Draft (Token)
open StringSearch (find count)
open List
open Option
open Nat

/-! ## Values of parameters -/

namespace ParamType

def toRat : (t : ParamType) → t.Carrier → ℚ
  | int32, a => ((a : ℤ) : ℚ)
  | float, a => a
  | bool, a => if a then 1 else 0

/-- Whether a value can be added without loss. -/
def Room : (t : ParamType) → t.Carrier → t.Carrier → Prop
  | int32, _, _ => True
  | float, _, _ => True
  | bool, a, b => ¬(a = true ∧ b = true)

theorem toRat_bool_nonneg (a : bool.Carrier) : 0 ≤ bool.toRat a := by
  cases a with
  | false => exact le_refl 0
  | true => exact zero_le_one

theorem toRat_plus {t : ParamType} {a b : t.Carrier} (h : t.Room a b) :
    t.toRat (t.plus a b) = t.toRat a + t.toRat b := by
  cases t with
  | int32 => exact Int.cast_add _ _
  | float => rfl
  | bool =>
    cases a with
    | false => exact (zero_add _).symm
    | true =>
      cases b with
      | false => exact (add_zero _).symm
      | true => exact absurd ⟨rfl, rfl⟩ h

theorem toRat_minus {t : ParamType} {a b : t.Carrier} (h : t = bool → t.toRat b ≤ t.toRat a) :
    t.toRat (t.minus a b) = t.toRat a - t.toRat b := by
  cases t with
  | int32 => exact Int.cast_sub _ _
  | float => rfl
  | bool =>
    cases b with
    | false => cases a <;> exact (sub_zero _).symm
    | true =>
      cases a with
      | false => exact absurd (h rfl) (not_le.mpr zero_lt_one)
      | true => exact (sub_self _).symm

end ParamType

/-- What an entry adds to a parameter. -/
def amount (addsubs : Member → ℚ) (m : Member) : ℚ := m.type.toRat (m.type.cast (addsubs m))

variable {m : Member}

theorem amount_nonneg (addsubs : Member → ℚ) (hm : m.type = .bool) :
    0 ≤ amount addsubs m := by
  unfold amount
  generalize m.type.cast (addsubs m) = a
  revert a
  rw [hm]
  exact ParamType.toRat_bool_nonneg

/-- The values of parameters. -/
def Params.value (sparams : Params) (m : Member) : ℚ := m.type.toRat (sparams m)

theorem Params.value_nonneg (sparams : Params) (hm : m.type = .bool) :
    0 ≤ sparams.value m := by
  unfold Params.value
  generalize sparams m = a
  revert a
  rw [hm]
  exact ParamType.toRat_bool_nonneg

/-- An entry can be added to parameters without loss. -/
def HasRoom (sparams : Params) (addsubs : Member → ℚ) : Prop :=
  ∀ m : Member, m.type.Room (sparams m) (m.type.cast (addsubs m))

variable {addsubs : Member → ℚ}

theorem value_elbAdd {sparams : Params} (h : HasRoom sparams addsubs)
    (m : Member) : (elbAdd sparams addsubs).value m = sparams.value m + amount addsubs m :=
  ParamType.toRat_plus (h m)

theorem value_elbSub {sparams : Params} {base : Member → ℚ}
    (hbase : ∀ m : Member, m.type = .bool → 0 ≤ base m)
    (h : ∀ m, sparams.value m = base m + amount addsubs m) (m : Member) :
    (elbSub sparams addsubs).value m = base m := by
  have hle : m.type = .bool → amount addsubs m ≤ sparams.value m := by
    intro hm
    rw [h m]
    exact le_add_of_nonneg_left (hbase m hm)
  calc (elbSub sparams addsubs).value m
    _ = sparams.value m - amount addsubs m := ParamType.toRat_minus hle
    _ = base m := by rw [h m, add_sub_cancel_right]

/-! ## What is switched on -/

def Phrase.on (addsubs : Member → ℚ) (m : Member) (phrase : Phrase) : ℚ :=
  if phrase.addflag then amount addsubs m else 0

/-- What the phrases of an entry that are switched on add to a parameter. -/
def ElbEntry.on (m : Member) (entry : ElbEntry) : ℚ :=
  (entry.phrases.map (Phrase.on entry.addsubs m)).sum

def ElbParam.on (m : Member) (param : ElbParam) : ℚ := (param.entries.map (ElbEntry.on m)).sum

/-- The current stage. -/
def Sampler.on (s : Sampler) (m : Member) : ℚ :=
  (s.elbParams[s.elbIdx]?).elim 0 (ElbParam.on m)

/-- Each parameter is the value of the request and what the current stage adds to it. -/
def Sampler.Balanced (sparams : Params) (s : Sampler) : Prop :=
  ∀ m, s.params.value m = sparams.value m + s.on m

theorem Phrase.on_nonneg (addsubs : Member → ℚ) (hm : m.type = .bool)
    (phrase : Phrase) : 0 ≤ phrase.on addsubs m := by
  unfold Phrase.on
  split
  case isTrue => exact amount_nonneg addsubs hm
  case isFalse => exact le_refl 0

theorem sum_on_nonneg (hm : m.type = .bool)
    (phrases : List Phrase) : 0 ≤ (phrases.map (Phrase.on addsubs m)).sum := by
  apply sum_nonneg
  intro r hr
  obtain ⟨phrase, -, rfl⟩ := mem_map.mp hr
  exact phrase.on_nonneg addsubs hm

theorem ElbEntry.on_nonneg (hm : m.type = .bool) (entry : ElbEntry) :
    0 ≤ entry.on m := sum_on_nonneg hm entry.phrases

theorem sum_entries_nonneg (hm : m.type = .bool) (entries : List ElbEntry) :
    0 ≤ (entries.map (ElbEntry.on m)).sum := by
  apply sum_nonneg
  intro r hr
  obtain ⟨entry, -, rfl⟩ := mem_map.mp hr
  exact entry.on_nonneg hm

/-! ## One sampled token -/

/-- An entry that changes no parameter. -/
def ElbEntry.Neutral (entry : ElbEntry) : Prop := ∀ m, amount entry.addsubs m = 0

/-- Whether a phrase is switched on by the next token that is sampled. -/
def Phrase.isAdded (phrase : Phrase) (countup : ℕ) (text : Text) : Prop :=
  if phrase.text = [] then countup = 0
  else count text phrase.text phrase.posi % 2 = 1 ∧ phrase.addflag = false

/-- What a phrase needs when a token is sampled, again if `applied`. -/
def Phrase.Meets (applied : Bool) (countup : ℕ) (text : Text) (entry : ElbEntry) (sparams : Params)
    (phrase : Phrase) : Prop :=
  (phrase.text = [] → applied = true → countup = 0 ∨ countup = toSize entry.duration →
    entry.Neutral) ∧
  (phrase.isAdded countup text → HasRoom sparams entry.addsubs)

def PhrasesMeet (applied : Bool) (countup : ℕ) (text : Text) (entry : ElbEntry) :
    Params → List Phrase → Prop
  | _, [] => True
  | sparams, phrase :: phrases =>
    phrase.Meets applied countup text entry sparams ∧
      ∀ r, applyPhrase countup (some text) entry sparams phrase = some r →
        PhrasesMeet applied countup text entry r.1 phrases

def EntriesMeet (applied : Bool) (countup : ℕ) (text : Text) : Params → List ElbEntry → Prop
  | _, [] => True
  | sparams, entry :: entries =>
    (entry.biases = [] → PhrasesMeet applied countup text entry sparams entry.phrases) ∧
      ∀ r, applyEntry countup (some text) sparams entry = some r →
        EntriesMeet applied countup text r.1 entries

/-- Whether the empty phrase of an entry is on after `countup` tokens of the stage. -/
def live (countup : ℕ) (applied : Bool) (duration : ℕ) : Bool :=
  (decide (0 < countup) || applied) &&
    (decide (countup < duration) || decide (countup = duration) && !applied)

/-- The flag of the empty phrase follows from the number of tokens. -/
def Phrase.Live (countup : ℕ) (applied : Bool) (entry : ElbEntry) (phrase : Phrase) : Prop :=
  phrase.text = [] → phrase.addflag = live countup applied (toSize entry.duration)

variable {applied : Bool} {countup : ℕ} {text : Text} {sparams : Params} {entry : ElbEntry}
  {base : Member → ℚ}

theorem live_accept (duration : ℕ) :
    live (countup + 1) false duration = live countup true duration := by
  simp only [live, zero_lt_succ, decide_true, Bool.true_and, Bool.or_true, Bool.not_false,
    Bool.not_true, Bool.and_true, Bool.and_false, Bool.or_false, ← Bool.decide_or]
  exact decide_eq_decide.mpr le_iff_lt_or_eq.symm

theorem live_zero {duration : ℕ} (h : 0 < duration) : live 0 true duration = true := by
  simp [live, h]

theorem live_end (duration : ℕ) : live duration true duration = false := by
  simp [live]

theorem live_ends {duration : ℕ} (h : 0 < duration) : live duration false duration = true := by
  simp [live, h]

theorem live_middle {duration : ℕ} (h0 : countup ≠ 0) (hd : countup ≠ duration) (applied : Bool) :
    live countup applied duration = live countup true duration := by
  simp [live, hd, pos_of_ne_zero h0]

theorem Phrase.on_of_neutral (h : entry.Neutral) (phrase : Phrase) (m : Member) :
    phrase.on entry.addsubs m = 0 := by
  rw [Phrase.on, h m, ite_self]

theorem applyPhrase_spec {phrase : Phrase} (hduration : 0 < toSize entry.duration)
    (hbase : ∀ m : Member, m.type = .bool → 0 ≤ base m)
    (hmeets : phrase.Meets applied countup text entry sparams)
    (hlive : phrase.Live countup applied entry)
    (h : ∀ m, sparams.value m = base m + phrase.on entry.addsubs m) :
    ∃ sparams' phrase', applyPhrase countup (some text) entry sparams phrase =
        some (sparams', phrase') ∧
      (∀ m, sparams'.value m = base m + phrase'.on entry.addsubs m) ∧
      phrase'.Live countup true entry := by
  unfold applyPhrase
  by_cases htext : phrase.text = []
  · rw [if_pos htext]
    have hflag := hlive htext
    by_cases h0 : countup = 0
    · rw [if_pos h0]
      have hroom : HasRoom sparams entry.addsubs := by
        refine hmeets.2 ?_
        rw [Phrase.isAdded, if_pos htext]
        exact h0
      refine ⟨_, _, rfl, fun m => ?_, fun _ => ?_⟩
      · rw [value_elbAdd hroom, h m, Phrase.on, Phrase.on, if_pos rfl]
        cases applied with
        | false => rw [hflag, h0, if_neg (Bool.not_eq_true _ ▸ rfl), add_zero]
        | true => rw [hmeets.1 htext rfl (.inl h0) m, ite_self, add_zero, add_zero]
      · rw [h0, live_zero hduration]
    · rw [if_neg h0]
      by_cases hd : countup = toSize entry.duration
      · rw [if_pos hd]
        have hamount : ∀ m, phrase.on entry.addsubs m = amount entry.addsubs m := by
          intro m
          cases applied with
          | false => rw [Phrase.on, hflag, hd, live_ends hduration, if_pos rfl]
          | true =>
            have hneutral := hmeets.1 htext rfl (.inr hd)
            rw [Phrase.on_of_neutral hneutral, hneutral m]
        refine ⟨_, _, rfl, fun m => ?_, fun _ => ?_⟩
        · rw [value_elbSub hbase (fun m => (h m).trans (by rw [hamount])), Phrase.on,
            if_neg Bool.false_ne_true, add_zero]
        · rw [hd, live_end]
      · rw [if_neg hd]
        exact ⟨_, _, rfl, h, fun _ => hflag.trans (live_middle h0 hd applied)⟩
  · rw [if_neg htext, map_some]
    dsimp only
    by_cases hodd : count text phrase.text phrase.posi % 2 = 1
    · rw [if_pos hodd]
      refine ⟨_, _, rfl, fun m => ?_, fun hnil => absurd hnil htext⟩
      cases hflag : phrase.addflag with
      | false =>
        have hroom : HasRoom sparams entry.addsubs := by
          refine hmeets.2 ?_
          rw [Phrase.isAdded, if_neg htext]
          exact ⟨hodd, hflag⟩
        rw [if_neg Bool.false_ne_true, value_elbAdd hroom, h m, Phrase.on, hflag,
          if_neg Bool.false_ne_true, add_zero]
        rfl
      | true =>
        rw [if_pos rfl, value_elbSub hbase fun m => (h m).trans (by rw [Phrase.on, if_pos hflag])]
        exact (add_zero _).symm
    · rw [if_neg hodd]
      exact ⟨_, _, rfl, h, fun hnil => absurd hnil htext⟩

theorem applyPhrases_spec {phrases : List Phrase} (hduration : 0 < toSize entry.duration)
    (hbase : ∀ m : Member, m.type = .bool → 0 ≤ base m)
    (hmeets : PhrasesMeet applied countup text entry sparams phrases)
    (hlive : ∀ phrase ∈ phrases, phrase.Live countup applied entry)
    (h : ∀ m, sparams.value m = base m + (phrases.map (Phrase.on entry.addsubs m)).sum) :
    ∃ sparams' phrases', applyPhrases countup (some text) entry sparams phrases =
        some (sparams', phrases') ∧
      (∀ m, sparams'.value m = base m + (phrases'.map (Phrase.on entry.addsubs m)).sum) ∧
      ∀ phrase ∈ phrases', phrase.Live countup true entry := by
  induction phrases generalizing sparams base with
  | nil => exact ⟨sparams, [], rfl, h, forall_mem_nil _⟩
  | cons phrase phrases ih =>
    obtain ⟨hfirst, hrest⟩ := hmeets
    obtain ⟨hlive₀, hlive⟩ := forall_mem_cons.mp hlive
    let others (m : Member) : ℚ := base m + (phrases.map (Phrase.on entry.addsubs m)).sum
    have hothers : ∀ m : Member, m.type = .bool → 0 ≤ others m := fun m hm =>
      add_nonneg (hbase m hm) (sum_on_nonneg hm phrases)
    obtain ⟨sparams₁, phrase₁, heq₁, h₁, hlive₁⟩ := applyPhrase_spec hduration hothers hfirst
      hlive₀ fun m => by rw [h m, map_cons, sum_cons, add_right_comm, ← add_assoc]
    let before (m : Member) : ℚ := base m + phrase₁.on entry.addsubs m
    have hbefore : ∀ m : Member, m.type = .bool → 0 ≤ before m := fun m hm =>
      add_nonneg (hbase m hm) (phrase₁.on_nonneg entry.addsubs hm)
    obtain ⟨sparams₂, phrases₂, heq₂, h₂, hlive₂⟩ := ih hbefore (hrest _ heq₁) hlive
      fun m => by rw [h₁ m, add_right_comm]
    refine ⟨sparams₂, phrase₁ :: phrases₂, ?_, fun m => ?_, ?_⟩
    · rw [applyPhrases, heq₁, bind_eq_bind, bind_some, heq₂]
      rfl
    · rw [h₂ m, map_cons, sum_cons, ← add_assoc]
    · exact forall_mem_cons.mpr ⟨hlive₁, hlive₂⟩

/-- What holds of each entry of the current stage. -/
def ElbEntry.Live (countup : ℕ) (applied : Bool) (entry : ElbEntry) : Prop :=
  0 < toSize entry.duration ∧
    (entry.biases = [] → ∀ phrase ∈ entry.phrases, phrase.Live countup applied entry)

theorem applyEntry_spec (hbase : ∀ m : Member, m.type = .bool → 0 ≤ base m)
    (hmeets : entry.biases = [] → PhrasesMeet applied countup text entry sparams entry.phrases)
    (hlive : entry.Live countup applied) (h : ∀ m, sparams.value m = base m + entry.on m) :
    ∃ sparams' entry', applyEntry countup (some text) sparams entry = some (sparams', entry') ∧
      (∀ m, sparams'.value m = base m + entry'.on m) ∧ entry'.Live countup true := by
  unfold applyEntry
  by_cases hbiases : entry.biases = []
  · rw [if_neg (not_not_intro hbiases)]
    obtain ⟨sparams', phrases', heq, hvalue, hlive'⟩ :=
      applyPhrases_spec hlive.1 hbase (hmeets hbiases) (hlive.2 hbiases) h
    rw [heq]
    exact ⟨_, _, rfl, hvalue, hlive.1, fun _ => hlive'⟩
  · rw [if_pos hbiases]
    exact ⟨sparams, entry, rfl, h, hlive.1, fun hnil => absurd hnil hbiases⟩

variable {entries : List ElbEntry}

theorem applyEntries_spec
    (hbase : ∀ m : Member, m.type = .bool → 0 ≤ base m)
    (hmeets : EntriesMeet applied countup text sparams entries)
    (hlive : ∀ entry ∈ entries, entry.Live countup applied)
    (h : ∀ m, sparams.value m = base m + (entries.map (ElbEntry.on m)).sum) :
    ∃ sparams' entries', applyEntries countup (some text) sparams entries =
        some (sparams', entries') ∧
      (∀ m, sparams'.value m = base m + (entries'.map (ElbEntry.on m)).sum) ∧
      ∀ entry ∈ entries', entry.Live countup true := by
  induction entries generalizing sparams base with
  | nil => exact ⟨sparams, [], rfl, h, forall_mem_nil _⟩
  | cons entry entries ih =>
    obtain ⟨hfirst, hrest⟩ := hmeets
    obtain ⟨hlive₀, hlive⟩ := forall_mem_cons.mp hlive
    let others (m : Member) : ℚ := base m + (entries.map (ElbEntry.on m)).sum
    have hothers : ∀ m : Member, m.type = .bool → 0 ≤ others m := fun m hm =>
      add_nonneg (hbase m hm) (sum_entries_nonneg hm entries)
    obtain ⟨sparams₁, entry₁, heq₁, h₁, hlive₁⟩ := applyEntry_spec hothers hfirst hlive₀
      fun m => by rw [h m, map_cons, sum_cons, add_right_comm, ← add_assoc]
    let before (m : Member) : ℚ := base m + entry₁.on m
    have hbefore : ∀ m : Member, m.type = .bool → 0 ≤ before m := fun m hm =>
      add_nonneg (hbase m hm) (entry₁.on_nonneg hm)
    obtain ⟨sparams₂, entries₂, heq₂, h₂, hlive₂⟩ := ih hbefore (hrest _ heq₁) hlive
      fun m => by rw [h₁ m, add_right_comm]
    refine ⟨sparams₂, entry₁ :: entries₂, ?_, fun m => ?_, ?_⟩
    · rw [applyEntries, heq₁, bind_eq_bind, bind_some, heq₂]
      rfl
    · rw [h₂ m, map_cons, sum_cons, ← add_assoc]
    · exact forall_mem_cons.mpr ⟨hlive₁, hlive₂⟩

/-! ## The end of a stage -/

theorem undoPhrases_value {phrases : List Phrase}
    (hbase : ∀ m : Member, m.type = .bool → 0 ≤ base m)
    (h : ∀ m, sparams.value m = base m + (phrases.map (Phrase.on addsubs m)).sum) (m : Member) :
    Params.value ((phrases.filter Phrase.addflag).foldl (fun sparams _ => elbSub sparams addsubs)
      sparams) m = base m := by
  induction phrases generalizing sparams with
  | nil => exact (h m).trans (add_zero _)
  | cons phrase phrases ih =>
    rw [filter_cons]
    cases hflag : phrase.addflag with
    | false =>
      refine ih fun m => ?_
      rw [h m, map_cons, sum_cons, Phrase.on, hflag, if_neg Bool.false_ne_true, zero_add]
    | true =>
      rw [if_pos rfl, foldl_cons]
      have hrest : ∀ m : Member, m.type = .bool →
          0 ≤ base m + (phrases.map (Phrase.on addsubs m)).sum := fun m hm =>
        add_nonneg (hbase m hm) (sum_on_nonneg hm phrases)
      refine ih fun m => value_elbSub hrest (fun m => ?_) m
      rw [h m, map_cons, sum_cons, Phrase.on, hflag, if_pos rfl,
        add_comm (amount addsubs m), add_assoc]

theorem undo_value (hbase : ∀ m : Member, m.type = .bool → 0 ≤ base m)
    (h : ∀ m, sparams.value m = base m + (entries.map (ElbEntry.on m)).sum) (m : Member) :
    (undo sparams entries).value m = base m := by
  induction entries generalizing sparams with
  | nil => rw [undo, foldl_nil, h m, map_nil, sum_nil, add_zero]
  | cons entry entries ih =>
    have hrest : ∀ m : Member, m.type = .bool →
        0 ≤ base m + (entries.map (ElbEntry.on m)).sum := fun m hm =>
      add_nonneg (hbase m hm) (sum_entries_nonneg hm entries)
    refine ih fun m => undoPhrases_value hrest (fun m => ?_) m
    rw [h m, map_cons, sum_cons, ElbEntry.on, add_right_comm, add_assoc]

/-- No phrase of a stage is switched on. -/
def ElbParam.Off (param : ElbParam) : Prop :=
  ∀ entry ∈ param.entries, 0 < toSize entry.duration ∧
    ∀ phrase ∈ entry.phrases, phrase.addflag = false

variable {param : ElbParam}

theorem ElbParam.Off.on (h : param.Off) (m : Member) : param.on m = 0 := by
  refine sum_eq_zero fun r hr => ?_
  obtain ⟨entry, hentry, rfl⟩ := mem_map.mp hr
  refine sum_eq_zero fun r hr => ?_
  obtain ⟨phrase, hphrase, rfl⟩ := mem_map.mp hr
  rw [Phrase.on, (h entry hentry).2 phrase hphrase, if_neg Bool.false_ne_true]

theorem ElbParam.Off.live (h : param.Off) :
    ∀ entry ∈ param.entries, entry.Live 0 false :=
  fun entry hentry => ⟨(h entry hentry).1,
    fun _ phrase hphrase _ => (h entry hentry).2 phrase hphrase⟩

theorem ElbParam.Off.search (h : param.Off) (posi : ℕ) :
    (param.search posi).Off := by
  intro entry hentry
  obtain ⟨entry, hmem, rfl⟩ := mem_map.mp hentry
  refine ⟨(h entry hmem).1, fun phrase hphrase => ?_⟩
  obtain ⟨before, hbefore, rfl⟩ := mem_map.mp hphrase
  exact (h entry hmem).2 before hbefore

/-! ## Runs of the sampler -/

/-- A token is sampled, with the text that the server has generated and what is drafted, or the
token with a piece is accepted. -/
inductive Event where
  | sample (text drafted : Text) (logits : Logits)
  | accept (text drafted piece : Text)

/-- `llama_sampling_prepare_impl` and `common_sampler_accept` call for a stage that there is. -/
def step (s : Sampler) : Event → Option Sampler
  | .sample text drafted logits =>
    let s := { s with toGeneratedText := some text, draftedText := drafted }
    if s.elbIdx < s.elbStates.length then (apply s logits).map Prod.fst else some s
  | .accept text drafted piece =>
    let s := { s with toGeneratedText := some text, draftedText := drafted }
    if s.elbIdx < s.elbStates.length then accept s piece else some s

/-- A token is accepted after it was sampled once or more often. -/
def Event.Allowed (applied : Bool) : Event → Prop
  | .sample .. => True
  | .accept .. => applied = true

/-- Whether a token has been sampled that is not accepted yet. -/
def Event.after : Event → Bool
  | .sample .. => true
  | .accept .. => false

/-- A step of the sampler under a condition, and whether a token is sampled that is not accepted. -/
def Takes (meets : Sampler → Bool → Event → Prop) (x : Sampler × Bool) (e : Event)
    (y : Sampler × Bool) : Prop :=
  e.Allowed x.2 ∧ meets x.1 x.2 e ∧ step x.1 e = some y.1 ∧ y.2 = e.after

/-- The stage is among the parameters that the sampler has copied, an entry that begins or ends
with its duration is not applied again, and `true` is not added to `true`. -/
def Sampler.Meets (s : Sampler) (applied : Bool) : Event → Prop
  | .sample text _ _ => ∀ elb, s.elbStates[s.elbIdx]? = some elb →
      ∃ param, s.elbParams[s.elbIdx]? = some param ∧
        EntriesMeet applied elb.countup text s.params param.entries
  | .accept text drafted piece => ∀ elb pos next, s.elbStates[s.elbIdx]? = some elb →
      leaving { s with toGeneratedText := some text, draftedText := drafted } elb text piece =
        some (pos, next) → s.elbIdx < s.elbParams.length ∧ next < s.elbParams.length

/-- A stage leads to a later one, and the last one to none. -/
def Leads (states : List ElbState) : Prop :=
  ∀ i elb, states[i]? = some elb → (elb.exitword ≠ [] → i + 1 < states.length) ∧
      (elb.jumpword ≠ [] → i < elb.jumpIdx ∧ elb.jumpIdx < states.length)

structure Sampler.Inv (sparams : Params) (s : Sampler) (applied : Bool) : Prop where
  balanced : s.Balanced sparams
  leads : Leads s.elbStates
  live : ∀ elb param, s.elbStates[s.elbIdx]? = some elb → s.elbParams[s.elbIdx]? = some param →
    ∀ entry ∈ param.entries, entry.Live elb.countup applied
  countup : ∀ i elb, s.elbIdx < i → s.elbStates[i]? = some elb → elb.countup = 0
  off : ∀ i param, s.elbIdx < i → s.elbParams[i]? = some param → param.Off

theorem leaves_cases {elb : ElbState} {idx pos next : ℕ} {window : Text}
    (h : leaves elb idx window = some (pos, next)) :
    (elb.jumpword ≠ [] ∧ next = elb.jumpIdx) ∨ (elb.exitword ≠ [] ∧ next = idx + 1) := by
  have hfound : ∀ {word : Text} {p : ℕ},
      (if word = [] then none else find window word 0) = some p → word ≠ [] := by
    intro word p hp hnil
    rw [if_pos hnil] at hp
    cases hp
  unfold leaves at h
  dsimp only at h
  split at h
  case h_1 p hjump => exact .inl ⟨hfound hjump, (congrArg Prod.snd (some.inj h)).symm⟩
  case h_2 =>
    obtain ⟨p, hexit, heq⟩ := map_eq_some_iff.mp h
    exact .inr ⟨hfound hexit, (congrArg Prod.snd heq).symm⟩

theorem leaves_of_leaving {s : Sampler} {elb : ElbState} {piece : Text} {r : ℕ × ℕ}
    (h : leaving s elb text piece = some r) :
    leaves elb s.elbIdx (acceptWindow s text piece) = some r := by
  unfold leaving at h
  by_cases hearly : elb.countup + 1 < elb.delay ∨ elb.searchWordLen = 0
  · rw [if_pos hearly] at h
    cases h
  · rwa [if_neg hearly] at h

namespace Sampler

variable {s : Sampler} {elb : ElbState} {piece : Text}

theorem accept_of_stays (htext : s.toGeneratedText = some text)
    (helb : s.elbStates[s.elbIdx]? = some elb) (h : leaving s elb text piece = none) :
    ∃ pos, accept s piece = some { s with
      elbStates := s.elbStates.set s.elbIdx { elb with countup := elb.countup + 1 }
      elbSearchPos := pos } := by
  unfold leaving at h
  unfold ExpiringBias.accept
  rw [htext]
  simp only [helb, bind_eq_bind, bind_some]
  by_cases hearly : elb.countup + 1 < elb.delay ∨ elb.searchWordLen = 0
  · rw [if_pos hearly]
    exact ⟨s.elbSearchPos, rfl⟩
  · rw [if_neg hearly] at h ⊢
    rw [h]
    exact ⟨_, rfl⟩

theorem accept_of_leaves {pos next : ℕ} {old new : ElbParam}
    (htext : s.toGeneratedText = some text) (helb : s.elbStates[s.elbIdx]? = some elb)
    (h : leaving s elb text piece = some (pos, next)) (hold : s.elbParams[s.elbIdx]? = some old)
    (hnew : s.elbParams[next]? = some new) :
    accept s piece = some { s with
      elbStates := s.elbStates.set s.elbIdx { elb with countup := elb.countup + 1 }
      params := undo s.params old.entries
      elbParams := s.elbParams.set next (new.search (pos + s.elbSearchPos))
      elbIdx := next
      elbSearchPos := pos + s.elbSearchPos + 1 } := by
  unfold leaving at h
  unfold ExpiringBias.accept
  rw [htext]
  simp only [helb, bind_eq_bind, bind_some]
  by_cases hearly : elb.countup + 1 < elb.delay ∨ elb.searchWordLen = 0
  · rw [if_pos hearly] at h
    cases h
  · rw [if_neg hearly] at h ⊢
    rw [h]
    simp only [hold, hnew, bind_some]

/-- What the parameters are, seen from the stage. -/
theorem Balanced.value (h : s.Balanced sparams)
    (hparam : s.elbParams[s.elbIdx]? = some param) (m : Member) :
    s.params.value m = sparams.value m + (param.entries.map (ElbEntry.on m)).sum := by
  rw [h m, Sampler.on, hparam]
  rfl

theorem balanced_of (hparam : s.elbParams[s.elbIdx]? = some param)
    (h : ∀ m, s.params.value m = sparams.value m + (param.entries.map (ElbEntry.on m)).sum) :
    s.Balanced sparams := by
  intro m
  rw [h m, Sampler.on, hparam]
  rfl

theorem apply_eq {r : Params × List ElbEntry} (logits : Logits)
    (helb : s.elbStates[s.elbIdx]? = some elb) (hparam : s.elbParams[s.elbIdx]? = some param)
    (h : applyEntries elb.countup s.toGeneratedText s.params param.entries = some r) :
    apply s logits = some ({ s with
      params := r.1
      elbParams := s.elbParams.set s.elbIdx { param with entries := r.2 } },
      biasLogits elb (searchWindow s elb) logits) := by
  unfold apply
  simp only [helb, hparam, h, bind_eq_bind, bind_some]

theorem Inv.sample (h : s.Inv sparams applied) {drafted : Text} {logits : Logits}
    (hmeets : s.Meets applied (.sample text drafted logits)) :
    ∃ s', step s (.sample text drafted logits) = some s' ∧ s'.Inv sparams true := by
  unfold step
  dsimp only
  by_cases hidx : s.elbIdx < s.elbStates.length
  · rw [if_pos hidx]
    have helb := List.getElem?_eq_getElem hidx
    obtain ⟨param, hparam, hentries⟩ := hmeets _ helb
    have hlt : s.elbIdx < s.elbParams.length := (List.getElem?_eq_some_iff.mp hparam).1
    obtain ⟨params, entries, heq, hvalue, hlive⟩ := applyEntries_spec
      (fun m hm => sparams.value_nonneg hm) hentries (h.live _ _ helb hparam)
      (h.balanced.value hparam)
    let s₁ : Sampler := { s with toGeneratedText := some text, draftedText := drafted }
    refine ⟨_, congrArg (Option.map Prod.fst) (s₁.apply_eq logits helb hparam heq), ?_⟩
    have hset : (s.elbParams.set s.elbIdx { param with entries })[s.elbIdx]? =
        some { param with entries } := List.getElem?_set_self hlt
    refine ⟨balanced_of hset hvalue, h.leads, ?_, h.countup, ?_⟩
    · intro elb param helb' hparam'
      cases helb.symm.trans helb'
      cases hset.symm.trans hparam'
      exact hlive
    · intro i later hi hlater
      have hne : (s.elbParams.set s.elbIdx { param with entries })[i]? = s.elbParams[i]? :=
        List.getElem?_set_ne (Nat.ne_of_lt hi)
      exact h.off i later hi (hne.symm.trans hlater)
  · rw [if_neg hidx]
    refine ⟨_, rfl, h.balanced, h.leads, fun elb param helb => ?_, h.countup, h.off⟩
    exact absurd (List.getElem?_eq_some_iff.mp helb).1 hidx

/-- The numbers of tokens of the stages that are not the current one stay. -/
theorem leads_set {states : List ElbState} {i : ℕ} {elb : ElbState} (h : Leads states)
    (helb : states[i]? = some elb) (countup : ℕ) : Leads (states.set i { elb with countup }) := by
  intro j elb' helb'
  rw [List.length_set]
  by_cases hij : i = j
  · subst hij
    rw [List.getElem?_set_self (List.getElem?_eq_some_iff.mp helb).1] at helb'
    cases helb'
    exact h i elb helb
  · rw [List.getElem?_set_ne hij] at helb'
    exact h j elb' helb'

theorem Inv.accept (h : s.Inv sparams true) {drafted : Text}
    (hmeets : s.Meets true (.accept text drafted piece)) :
    ∃ s', step s (.accept text drafted piece) = some s' ∧ s'.Inv sparams false := by
  unfold step
  dsimp only
  by_cases hidx : s.elbIdx < s.elbStates.length
  · rw [if_pos hidx]
    have helb := List.getElem?_eq_getElem hidx
    generalize hgen : s.elbStates[s.elbIdx] = elb at helb
    let s₁ : Sampler := { s with toGeneratedText := some text, draftedText := drafted }
    have hleads := leads_set h.leads helb (elb.countup + 1)
    have hlater : ∀ i elb', s.elbIdx < i →
        (s.elbStates.set s.elbIdx { elb with countup := elb.countup + 1 })[i]? = some elb' →
        elb'.countup = 0 := by
      intro i elb' hi helb'
      rw [List.getElem?_set_ne (Nat.ne_of_lt hi)] at helb'
      exact h.countup i elb' hi helb'
    cases hleaving : leaving s₁ elb text piece with
    | none =>
      obtain ⟨pos, heq⟩ := s₁.accept_of_stays rfl helb hleaving
      refine ⟨_, heq, h.balanced, hleads, ?_, hlater, h.off⟩
      intro elb' param helb' hparam entry hentry
      have hset : (s.elbStates.set s.elbIdx { elb with countup := elb.countup + 1 })[s.elbIdx]? =
          some { elb with countup := elb.countup + 1 } := List.getElem?_set_self hidx
      cases hset.symm.trans helb'
      obtain ⟨hduration, hlive⟩ := h.live elb param helb hparam entry hentry
      exact ⟨hduration, fun hbiases phrase hphrase hnil =>
        (hlive hbiases phrase hphrase hnil).trans (live_accept _).symm⟩
    | some r =>
      obtain ⟨pos, next⟩ := r
      obtain ⟨hold, hnew⟩ := hmeets elb pos next helb hleaving
      have hold := List.getElem?_eq_getElem hold
      have hnew := List.getElem?_eq_getElem hnew
      generalize s.elbParams[s.elbIdx] = old at hold
      generalize s.elbParams[next] = new at hnew
      have hlt : s.elbIdx < next := by
        rcases leaves_cases (leaves_of_leaving hleaving) with ⟨hjump, rfl⟩ | ⟨-, rfl⟩
        · exact ((h.leads s.elbIdx elb helb).2 hjump).1
        · exact Nat.lt_succ_self s.elbIdx
      have heq := s₁.accept_of_leaves rfl helb hleaving hold hnew
      have hoff : new.Off := h.off next new hlt hnew
      have hset : (s.elbParams.set next (new.search (pos + s.elbSearchPos)))[next]? =
          some (new.search (pos + s.elbSearchPos)) :=
        List.getElem?_set_self (List.getElem?_eq_some_iff.mp hnew).1
      refine ⟨_, heq, balanced_of hset fun m => ?_, hleads, ?_, ?_, ?_⟩
      · have hzero := (hoff.search (pos + s.elbSearchPos)).on m
        rw [ElbParam.on] at hzero
        rw [hzero, add_zero]
        exact undo_value (fun m hm => sparams.value_nonneg hm) (h.balanced.value hold) m
      · intro elb' param helb' hparam
        cases hset.symm.trans hparam
        rw [hlater next elb' hlt helb']
        exact (hoff.search _).live
      · exact fun i elb' hi => hlater i elb' (hlt.trans hi)
      · intro i param hi hparam
        have hne : (s.elbParams.set next (new.search (pos + s.elbSearchPos)))[i]? =
            s.elbParams[i]? := List.getElem?_set_ne (Nat.ne_of_lt hi)
        exact h.off i param (hlt.trans hi) (hne.symm.trans hparam)
  · rw [if_neg hidx]
    refine ⟨_, rfl, h.balanced, h.leads, fun elb param helb => ?_, h.countup, h.off⟩
    exact absurd (List.getElem?_eq_some_iff.mp helb).1 hidx

theorem Inv.step (h : s.Inv sparams applied) {e : Event} (hallowed : e.Allowed applied)
    (hmeets : s.Meets applied e) :
    ∃ s', ExpiringBias.step s e = some s' ∧ s'.Inv sparams e.after := by
  cases e with
  | sample text drafted logits => exact h.sample hmeets
  | accept text drafted piece =>
    cases hallowed
    exact h.accept hmeets

theorem Inv.steps (h : s.Inv sparams applied) {tr : List Event} {t : Sampler × Bool}
    (hrun : Runs.Steps (Takes Sampler.Meets) (s, applied) tr t) : t.1.Inv sparams t.2 := by
  refine hrun.invariant (P := fun x => x.1.Inv sparams x.2) (fun x e y hx hstep => ?_) h
  obtain ⟨hallowed, hmeets, heq, hafter⟩ := hstep
  obtain ⟨s', heq', hinv⟩ := hx.step hallowed hmeets
  cases heq.symm.trans heq'
  rw [hafter]
  exact hinv

end Sampler

/-! ## What a request begins with -/

theorem toSize_pos {duration : Int32} (h : duration ≠ 0) : 0 < toSize duration := by
  have hne : duration.toInt ≠ 0 := fun hzero => h (Int32.toInt_inj.mp hzero)
  have hlo := duration.le_toInt
  have hhi := duration.toInt_lt
  unfold toSize
  omega

theorem EntryLine.off (line : EntryLine) :
    0 < toSize line.entry.duration ∧ ∀ phrase ∈ line.entry.phrases, phrase.addflag = false := by
  refine ⟨toSize_pos line.duration_ne, fun phrase hphrase => ?_⟩
  obtain ⟨text, -, rfl⟩ := mem_map.mp hphrase
  rfl

/-- Nothing is switched on by what is read. -/
structure Parse.Off (s : Parse) : Prop where
  before : ∀ param ∈ s.before, param.Off
  entries : ElbParam.Off ⟨s.entries, [], []⟩
  persistent : ElbParam.Off ⟨s.persistent, [], []⟩

theorem ElbParam.Off.concat (h : ElbParam.Off ⟨entries, [], []⟩)
    (line : EntryLine) : ElbParam.Off ⟨entries ++ [line.entry], [], []⟩ := by
  intro entry hentry
  rcases mem_append.mp hentry with hentry | hentry
  · exact h entry hentry
  · cases mem_singleton.mp hentry
    exact line.off

theorem Parse.Off.line {s : Parse} (h : s.Off) (l : Line) : (s.line l).Off := by
  cases l with
  | clear => exact ⟨h.before, h.entries, fun _ hentry => absurd hentry not_mem_nil⟩
  | entry line =>
    refine ⟨h.before, h.entries.concat line, ?_⟩
    cases hnested : line.isNested with
    | true => simpa [Parse.line, hnested] using h.persistent.concat line
    | false => simpa [Parse.line, hnested] using h.persistent
  | exitword word op =>
    refine ⟨fun param hparam => ?_, h.persistent, h.persistent⟩
    rcases mem_append.mp hparam with hparam | hparam
    · exact h.before param hparam
    · cases mem_singleton.mp hparam
      exact h.entries

theorem Parse.Off.lines {s : Parse} (h : s.Off) (lines : List Line) :
    (lines.foldl Parse.line s).Off := by
  induction lines generalizing s with
  | nil => exact h
  | cons l lines ih => exact ih (h.line l)

theorem off_nil : ElbParam.Off ⟨[], [], []⟩ := fun _ h => absurd h not_mem_nil

variable {elbParams : List ElbParam}

theorem off_argparse (h : ∀ param ∈ elbParams, param.Off)
    (lines : List Line) : ∀ param ∈ argparse elbParams lines, param.Off := by
  have hstart : Parse.Off (Parse.mk elbParams []
      (((elbParams ++ [ElbParam.mk [] [] []]).head?.map ElbParam.entries).getD [])) := by
    refine ⟨h, off_nil, ?_⟩
    cases elbParams with
    | nil => exact off_nil
    | cons param elbParams => exact h param mem_cons_self
  have hend := hstart.lines lines
  intro param hparam
  rcases mem_append.mp hparam with hparam | hparam
  · exact hend.before param hparam
  · cases mem_singleton.mp hparam
    exact hend.entries

/-- Only the last stage has neither an exit word nor an operator for sure. -/
def Closed (elbParams : List ElbParam) : Prop :=
  ∀ i param, elbParams[i]? = some param → param.exitword ≠ [] ∨ param.op ≠ [] →
    i + 1 < elbParams.length

theorem closed_argparse (elbParams : List ElbParam) (lines : List Line) :
    Closed (argparse elbParams lines) := by
  intro i param hparam hwords
  unfold argparse Parse.elbParams at hparam ⊢
  dsimp only at hparam ⊢
  generalize lines.foldl Parse.line _ = s at hparam ⊢
  rw [length_append, length_singleton]
  by_cases hlt : i < s.before.length
  · exact succ_lt_succ hlt
  · rw [getElem?_append_right (not_lt.mp hlt)] at hparam
    cases mem_singleton.mp (mem_of_getElem? hparam)
    rcases hwords with hwords | hwords
    · exact absurd rfl hwords
    · exact absurd rfl hwords

/-! ## What a request's stages lead to -/

/-- What the tokens of phrases leave alone. -/
structure ElbState.Same (st st' : ElbState) : Prop where
  exitword : st'.exitword = st.exitword
  jumpword : st'.jumpword = st.jumpword
  countup : st'.countup = st.countup

theorem ElbState.Same.refl (st : ElbState) : st.Same st := ⟨rfl, rfl, rfl⟩

theorem ElbState.Same.trans {st₁ st₂ st₃ : ElbState} (h : st₁.Same st₂) (h' : st₂.Same st₃) :
    st₁.Same st₃ :=
  ⟨h'.exitword.trans h.exitword, h'.jumpword.trans h.jumpword, h'.countup.trans h.countup⟩

theorem same_otherTokens (v : Vocab) (m duration : Int32) (ids : List Token) (biases : List ℚ)
    (j : ℕ) (cond : Text) (st : ElbState) :
    st.Same (otherTokens v m duration ids biases j cond st) := by
  induction ids generalizing biases j cond st with
  | nil => exact ⟨rfl, rfl, rfl⟩
  | cons id₀ ids ih =>
    cases ids with
    | nil => exact ⟨rfl, rfl, rfl⟩
    | cons id ids =>
      cases biases with
      | nil => exact ⟨rfl, rfl, rfl⟩
      | cons bias biases =>
        refine ElbState.Same.trans ?_ (ih biases _ _ _)
        split
        case isTrue => exact .refl st
        case isFalse => exact ⟨rfl, rfl, rfl⟩

variable {v : Vocab}

theorem same_addPhrase {biases : List ℚ} {st : ElbState} {phrase : Phrase}
    {r : List ℚ × ElbState} (h : addPhrase v entry biases st phrase = some r) : st.Same r.2 := by
  unfold addPhrase at h
  split at h
  case h_1 => cases h
  case h_2 id ids =>
    cases h
    refine ElbState.Same.trans ?_ (same_otherTokens ..)
    split
    case isTrue => exact .refl st
    case isFalse => exact ⟨rfl, rfl, rfl⟩

theorem same_addEntry {st st' : ElbState} (h : addEntry v st entry = some st') :
    st.Same st' := by
  unfold addEntry at h
  by_cases hbiases : entry.biases = []
  · rw [if_pos hbiases] at h
    cases h
    exact .refl st
  · rw [if_neg hbiases] at h
    obtain ⟨r, hfold, rfl⟩ := map_eq_some_iff.mp h
    exact foldlM_invariant (P := fun r : List ℚ × ElbState => st.Same r.2)
      (fun _ _ _ hsame hadd => hsame.trans (same_addPhrase hadd)) hfold (.refl st)

/-- The `i`-th of `n` stages leads to a later one, and no token of it is accepted. -/
structure ElbState.LeadsFrom (n i : ℕ) (st : ElbState) : Prop where
  exits : st.exitword ≠ [] → i + 1 < n
  jumps : st.jumpword ≠ [] → i < st.jumpIdx ∧ st.jumpIdx < n
  countup : st.countup = 0

def Built (n : ℕ) (states : List ElbState) : Prop :=
  ∀ (i : ℕ) (st : ElbState), states[i]? = some st → st.LeadsFrom n i

theorem ElbState.LeadsFrom.setJump {n i k : ℕ} {st : ElbState} (h : st.LeadsFrom n i) (hik : i < k)
    (hop : param.op ≠ [] → k + 1 < n) :
    (setJump k param st).LeadsFrom n i := by
  unfold ExpiringBias.setJump
  split
  case isTrue hjump =>
    have hne : param.op ≠ [] := by
      rw [hjump.1]
      exact cons_ne_nil _ _
    exact ⟨h.exits, fun _ => ⟨lt_succ_of_lt hik, hop hne⟩, h.countup⟩
  case isFalse => exact h

theorem Built.addState {n : ℕ} {states states' : List ElbState}
    (h : Built n states)
    (hclosed : param.exitword ≠ [] ∨ param.op ≠ [] → states.length + 1 < n)
    (hadd : addState v states param = some states') :
    Built n states' ∧ states'.length = states.length + 1 := by
  unfold ExpiringBias.addState at hadd
  obtain ⟨st, hst, hadd⟩ := bind_eq_some_iff.mp hadd
  cases hadd
  have hsame := foldlM_invariant (P := ElbState.Same _)
    (fun _ _ _ hsame hadd => hsame.trans (same_addEntry hadd)) hst (.refl _)
  have hlength : (states.map (setJump states.length param)).length = states.length :=
    List.length_map _
  refine ⟨fun i st' hget => ?_, ?_⟩
  · by_cases hi : i < states.length
    · rw [List.getElem?_append_left (hlength.symm ▸ hi), List.getElem?_map] at hget
      obtain ⟨st₀, hst₀, rfl⟩ := map_eq_some_iff.mp hget
      exact (h i st₀ hst₀).setJump hi fun hop => hclosed (.inr hop)
    · rw [List.getElem?_append_right (hlength.symm ▸ Nat.not_lt.mp hi), hlength] at hget
      have hzero : i - states.length = 0 := by
        have hlt := (List.getElem?_eq_some_iff.mp hget).1
        exact Nat.lt_one_iff.mp hlt
      cases List.mem_singleton.mp (List.mem_of_getElem? hget)
      have hi : i = states.length := Nat.le_antisymm (Nat.sub_eq_zero_iff_le.mp hzero)
        (Nat.not_lt.mp hi)
      rw [hi]
      refine ⟨fun hexit => hclosed (.inl ?_), fun hjump => absurd hsame.jumpword hjump,
        hsame.countup⟩
      rwa [hsame.exitword] at hexit
  · rw [List.length_append, hlength, List.length_singleton]

theorem built_foldlM {before after : List ElbParam} {states states' : List ElbState}
    (hclosed : Closed (before ++ after)) (hlength : states.length = before.length)
    (h : Built (before ++ after).length states)
    (hfold : after.foldlM (addState v) states = some states') :
    Built (before ++ after).length states' ∧ states'.length = (before ++ after).length := by
  induction after generalizing before states with
  | nil =>
    cases hfold
    rw [append_nil] at h ⊢
    exact ⟨h, hlength⟩
  | cons param after ih =>
    rw [foldlM_cons] at hfold
    obtain ⟨states₁, hone, hrest⟩ := bind_eq_some_iff.mp hfold
    have hsplit : before ++ param :: after = (before ++ [param]) ++ after := by
      rw [append_assoc, singleton_append]
    have hget : (before ++ param :: after)[states.length]? = some param := by
      rw [hlength, getElem?_append_right (Nat.le_refl _), Nat.sub_self]
      rfl
    obtain ⟨hbuilt, hlength₁⟩ := h.addState (hclosed states.length param hget) hone
    rw [hsplit] at hclosed hbuilt ⊢
    refine ih hclosed ?_ hbuilt hrest
    rw [hlength₁, hlength, length_append, length_singleton]

theorem built_buildStates {states : List ElbState}
    (hclosed : Closed elbParams) (h : buildStates v elbParams = some states) :
    Built elbParams.length states ∧ states.length = elbParams.length := by
  obtain ⟨states₀, hfold, rfl⟩ := map_eq_some_iff.mp h
  have hnil : Built ([] ++ elbParams).length [] := fun i st hget => by cases hget
  have hclosed' : Closed ([] ++ elbParams) := hclosed
  obtain ⟨hbuilt, hlength⟩ := built_foldlM hclosed' rfl hnil hfold
  refine ⟨fun i st hget => ?_, (length_map _).trans hlength⟩
  rw [getElem?_map] at hget
  obtain ⟨st₀, hst₀, rfl⟩ := map_eq_some_iff.mp hget
  exact ⟨(hbuilt i st₀ hst₀).exits, (hbuilt i st₀ hst₀).jumps, (hbuilt i st₀ hst₀).countup⟩

/-! ## Slots -/

/-- The slots of a server that has been started with files and has launched requests. -/
inductive Reached (v : Vocab) : Slot → Prop
  | start (files : List (List Line)) : Reached v ⟨files.foldl argparse [], []⟩
  | launch {slot slot' : Slot} {sparams : Params} {request : Option (List Line)} {s : Sampler} :
      Reached v slot → launch v slot sparams request = some (slot', s) → Reached v slot'

structure Slot.Wf (slot : Slot) : Prop where
  off : ∀ param ∈ slot.elbParams, param.Off
  closed : Closed slot.elbParams
  prev : slot.prevElbStates ≠ [] → Built slot.elbParams.length slot.prevElbStates ∧
      slot.prevElbStates.length = slot.elbParams.length

theorem Built.leads {n : ℕ} {states : List ElbState} (h : Built n states)
    (hlength : states.length = n) : Leads states := by
  intro i st hget
  rw [hlength]
  exact ⟨(h i st hget).exits, (h i st hget).jumps⟩

/-- A sampler that begins with a slot's parameters. -/
theorem Sampler.Inv.init {n : ℕ} {states : List ElbState}
    (hoff : ∀ param ∈ elbParams, param.Off) (hbuilt : Built n states)
    (hlength : states.length = n) (sparams : Params) :
    Sampler.Inv sparams { params := sparams, elbParams, elbStates := states } false := by
  refine ⟨fun m => ?_, hbuilt.leads hlength, ?_, ?_, ?_⟩
  · have hzero : Sampler.on { params := sparams, elbParams, elbStates := states } m = 0 := by
      unfold Sampler.on
      dsimp only
      cases hparam : elbParams[0]? with
      | none => rfl
      | some param => exact (hoff param (mem_of_getElem? hparam)).on m
    rw [hzero, add_zero]
  · intro elb param helb hparam
    rw [(hbuilt 0 elb helb).countup]
    exact (hoff param (mem_of_getElem? hparam)).live
  · exact fun i elb _ helb => (hbuilt i elb helb).countup
  · exact fun i param _ hparam => hoff param (mem_of_getElem? hparam)

theorem Slot.Wf.launch {slot slot' : Slot} {request : Option (List Line)} {s : Sampler}
    (h : slot.Wf) (hlaunch : launch v slot sparams request = some (slot', s)) :
    slot'.Wf ∧ s.Inv sparams false := by
  have hparams : (∀ param ∈ (request.map (argparse slot.elbParams)).getD slot.elbParams,
      param.Off) ∧ Closed ((request.map (argparse slot.elbParams)).getD slot.elbParams) := by
    cases request with
    | none => exact ⟨h.off, h.closed⟩
    | some lines => exact ⟨off_argparse h.off lines, closed_argparse slot.elbParams lines⟩
  unfold ExpiringBias.launch at hlaunch
  dsimp only at hlaunch
  generalize (request.map (argparse slot.elbParams)).getD slot.elbParams = elbParams at *
  obtain ⟨states, hstates, heq⟩ := map_eq_some_iff.mp hlaunch
  cases heq
  unfold launchStates at hstates
  have hbuilt : Built elbParams.length states ∧ states.length = elbParams.length := by
    by_cases hnil : elbParams = []
    · rw [if_pos hnil] at hstates
      cases hstates
      rw [hnil]
      exact ⟨fun i st hget => (by cases hget), rfl⟩
    · rw [if_neg hnil] at hstates
      by_cases hsame : slot.prevElbStates ≠ [] ∧ elbParams = slot.elbParams
      · rw [if_pos hsame] at hstates
        cases hstates
        obtain ⟨hprev, hlength⟩ := h.prev hsame.1
        rw [hsame.2]
        refine ⟨fun i st hget => ?_, (length_map _).trans hlength⟩
        rw [getElem?_map] at hget
        obtain ⟨st₀, hst₀, rfl⟩ := map_eq_some_iff.mp hget
        exact ⟨(hprev i st₀ hst₀).exits, (hprev i st₀ hst₀).jumps, rfl⟩
      · rw [if_neg hsame] at hstates
        exact built_buildStates hparams.2 hstates
  exact ⟨⟨hparams.1, hparams.2, fun _ => hbuilt⟩, .init h.off hbuilt.1 hbuilt.2 sparams⟩

theorem Slot.Wf.start (files : List (List Line)) : Slot.Wf ⟨files.foldl argparse [], []⟩ := by
  have hfiles : ∀ elbParams : List ElbParam, (∀ param ∈ elbParams, param.Off) →
      Closed elbParams → (∀ param ∈ files.foldl argparse elbParams, param.Off) ∧
        Closed (files.foldl argparse elbParams) := by
    induction files with
    | nil => exact fun _ hoff hclosed => ⟨hoff, hclosed⟩
    | cons lines files ih =>
      exact fun elbParams hoff _ =>
        ih _ (off_argparse hoff lines) (closed_argparse elbParams lines)
  obtain ⟨hoff, hclosed⟩ := hfiles [] (fun _ h => absurd h not_mem_nil)
    fun i param hget => by cases hget
  exact ⟨hoff, hclosed, fun hne => absurd rfl hne⟩

theorem Reached.wf {slot : Slot} (h : Reached v slot) : slot.Wf := by
  induction h with
  | start files => exact .start files
  | launch _ hlaunch ih => exact (ih.launch hlaunch).1

/-! ## What a generation keeps -/

/-- `(2 : temp ~0.5)`: the temperature is higher for two tokens. -/
def warmer : EntryLine where
  isNested := false
  phrases := [[]]
  addsubs m := if m = .temp then 1 / 2 else 0
  biases := []
  duration := 2
  isRange := false
  duration_ne := by decide

def noVocab : Vocab := ⟨fun _ => [], fun _ => []⟩

/-- The sampler of a slot that was started with the line in a file. -/
def warmed : Sampler :=
  { params := .defaults
    elbParams := [⟨[warmer.entry], [], []⟩]
    elbStates := [{ exitword := [], searchWordLen := 0 }] }

theorem launch_warmed : launch noVocab ⟨[[.entry warmer]].foldl argparse [], []⟩ .defaults none =
      some (⟨warmed.elbParams, warmed.elbStates⟩, warmed) := by
  rfl

theorem room_warmer : HasRoom .defaults warmer.addsubs := by
  intro m
  cases m
  case adaptiveUpdtWCur => exact fun h => absurd h.1 Bool.false_ne_true
  all_goals trivial

theorem warmed_meets : warmed.Meets false (.sample [] [] fun _ => 0) := by
  intro elb helb
  cases helb
  exact ⟨_, rfl, fun _ => ⟨⟨fun _ h => absurd h Bool.false_ne_true, fun _ => room_warmer⟩,
    fun _ _ => trivial⟩, fun _ _ => trivial⟩

/-- The temperature is added once more when the first token is sampled again. -/
example : ((step warmed (.sample [] [] fun _ => 0)).bind fun s =>
    step s (.sample [] [] fun _ => 0)).map
    (fun s => (s.params.value .temp, s.on .temp)) = some (80 / 100 + 1 / 2 + 1 / 2, 1 / 2) := by
  decide +kernel

end ExpertPin.ExpiringBias
