import ExpertPin.Sampling.ExpiringBias

/-!
# Verifying a draft

The tokens of a draft are compared with tokens that are sampled where they stand.  The text that
the server has generated grows only after that, so that the sampler keeps the pieces of the tokens
it has accepted as drafted text.  The expiring biases read texts: their conditions read the end of
the generated text without the drafted one, the phrases that change parameters and the words that
end a stage read the generated text only.  Where nothing that they read differs, a draft changes
nothing.  What does not read texts is a parameter here: penalties, the grammar, the reasoning
budget, the random generator.
-/

namespace ExpertPin.ExpiringBias

open Draft (Token)
open StringSearch (find count countFrom)
open Option

/-! ## The sampler -/

/-- What a sampler does besides reading texts: `draw` gets the parameters from before and from
after the expiring biases. -/
structure Core (σ : Type) where
  logitBias : σ → Logits → Logits
  draw (before after : Params) (rest : σ) (logits : Logits) (grammarFirst : Bool) : Token × σ
  grammarShouldApply : σ → Bool
  allows : σ → Logits → Token → Bool
  accept : σ → Token → Option σ

structure CommonSampler (σ : Type) where
  elb : Sampler
  rest : σ

variable {σ : Type}

/-- `llama_sampling_prepare_impl` and a draw from the candidates, with the row that it leaves. -/
def pass (core : Core σ) (s : CommonSampler σ) (row : Logits) (grammarFirst : Bool) :
    Option (Token × CommonSampler σ × Logits) := do
  let biased := core.logitBias s.rest row
  let r ← if s.elb.elbIdx < s.elb.elbStates.length then apply s.elb biased else some (s.elb, biased)
  let drawn := core.draw s.elb.params r.1.params s.rest r.2 grammarFirst
  some (drawn.1, ⟨r.1, drawn.2⟩, r.2)

/-- `llama_sampling_sample_impl`: a token that the grammar does not allow is drawn again from the
row as it was. -/
def sample (core : Core σ) (s : CommonSampler σ) (row : Logits) (grammarFirst : Bool) :
    Option (Token × CommonSampler σ) := do
  let r ← pass core s row grammarFirst
  if grammarFirst ∨ core.grammarShouldApply r.2.1.rest = false ∨
      core.allows r.2.1.rest r.2.2 r.1 = true then
    some (r.1, r.2.1)
  else
    let r ← pass core r.2.1 row true
    some (r.1, r.2.1)

/-- `common_sampler_accept`. -/
def acceptToken (core : Core σ) (v : Vocab) (s : CommonSampler σ) (id : Token) :
    Option (CommonSampler σ) := do
  let rest ← core.accept s.rest id
  let elb ←
    if s.elb.elbIdx < s.elb.elbStates.length then accept s.elb (v.tokenToPiece id) else some s.elb
  some ⟨elb, rest⟩

/-- The piece of a token is spliced in. -/
def addDrafted (v : Vocab) (s : CommonSampler σ) (id : Token) : CommonSampler σ :=
  { s with elb := { s.elb with draftedText := s.elb.draftedText ++ v.tokenToPiece id } }

/-- `common_sampler_sample_and_accept_n` without `dists`, for the rows of the output. -/
def sampleAndAcceptN (core : Core σ) (v : Vocab) (grammarFirst : Bool) :
    CommonSampler σ → List Logits → List Token → Option (List Token × CommonSampler σ)
  | s, row :: rows, draft => do
      let r ← sample core s row grammarFirst
      let s ← acceptToken core v (addDrafted v r.2 r.1) r.1
      match draft with
      | id :: draft =>
        if id = r.1 then
          let rs ← sampleAndAcceptN core v grammarFirst s rows draft
          some (r.1 :: rs.1, rs.2)
        else some ([r.1], s)
      | [] => some ([r.1], s)
  | _, [], _ => none

/-- The text that the server has generated. -/
def setText (text : Text) (s : CommonSampler σ) : CommonSampler σ :=
  { s with elb := { s.elb with toGeneratedText := some text } }

/-- The server without drafts: a token is sampled and accepted, and then what is sent of it is
added to the text. -/
def sequential (core : Core σ) (v : Vocab) (textToSend : Token → Text) (grammarFirst : Bool)
    (logitsAt : List Token → Logits) :
    ℕ → List Token → Text → CommonSampler σ → Option (List Token × CommonSampler σ)
  | 0, _, text, s => some ([], setText text s)
  | n + 1, before, text, s => do
      let r ← sample core (setText text s) (logitsAt before) grammarFirst
      let s ← acceptToken core v r.2 r.1
      let rs ← sequential core v textToSend grammarFirst logitsAt n (before ++ [r.1])
        (text ++ textToSend r.1) s
      some (r.1 :: rs.1, rs.2)

/-! ## What is read of a text -/

/-- The sampler as it would be with another text and without drafted text. -/
def Sampler.undrafted (text : Text) (s : Sampler) : Sampler :=
  { s with draftedText := [], toGeneratedText := some text }

def CommonSampler.undrafted (text : Text) (s : CommonSampler σ) : CommonSampler σ :=
  { s with elb := s.elb.undrafted text }

/-- No phrase that changes parameters fits into a text. -/
def Short (text : Text) (entries : List ElbEntry) : Prop :=
  ∀ entry ∈ entries, entry.biases = [] → ∀ phrase ∈ entry.phrases, phrase.text ≠ [] →
    text.length < phrase.text.length

/-- What is read of a text when a token is sampled is what would be read of another one, in which
the drafted text is not missing. -/
structure Sampler.ReadsAlike (s : Sampler) (text text' : Text) : Prop where
  other : ∀ elb, s.elbStates[s.elbIdx]? = some elb → ∀ token ∈ active elb.countup elb.otherTokens,
      biasesOther (searchWindow s elb) token = biasesOther text' token
  first : ∀ elb, s.elbStates[s.elbIdx]? = some elb → ∀ token ∈ active elb.countup elb.firstTokens,
      biasesFirst (searchWindow s elb) token = biasesFirst text' token
  phrases : text = text' ∨ text.length ≤ text'.length ∧ ∀ elb param,
    s.elbStates[s.elbIdx]? = some elb → s.elbParams[s.elbIdx]? = some param →
      Short text' param.entries

/-- Where a stage ends is what it would be, and so is where the search goes on. -/
def Sampler.SearchesAlike (s : Sampler) (text text' piece : Text) : Prop :=
  ∀ elb, s.elbStates[s.elbIdx]? = some elb →
    ¬(elb.countup + 1 < elb.delay ∨ elb.searchWordLen = 0) →
      leaves elb s.elbIdx (acceptWindow s text piece) =
        leaves elb s.elbIdx (acceptWindow s text' piece) ∧
      (leaves elb s.elbIdx (acceptWindow s text piece) = none →
        (acceptWindow s text piece).length + 1 - elb.searchWordLen =
          (acceptWindow s text' piece).length + 1 - elb.searchWordLen)

variable {text text' : Text} {s : Sampler}

theorem count_of_short {word : Text} (h : text.length < word.length) (pos : ℕ) :
    count text word pos = 0 := by
  have hnone : find text word pos = none := by
    rw [StringSearch.find_eq_none_iff]
    intro i _ _ hbegins
    have hle := hbegins.length_le
    rw [List.length_drop] at hle
    omega
  unfold count
  cases text with
  | nil => rfl
  | cons c text =>
    rw [List.length_cons, countFrom, hnone]

variable {countup : ℕ} {entry : ElbEntry} {sparams : Params}

theorem applyPhrase_congr {phrase : Phrase}
    (hle : text.length ≤ text'.length)
    (h : phrase.text ≠ [] → text'.length < phrase.text.length) :
    applyPhrase countup (some text) entry sparams phrase =
      applyPhrase countup (some text') entry sparams phrase := by
  unfold applyPhrase
  by_cases hnil : phrase.text = []
  · rw [if_pos hnil, if_pos hnil]
  · have hshort' := h hnil
    have hshort : text.length < phrase.text.length := Nat.lt_of_le_of_lt hle hshort'
    have hzero : text.length + 1 - phrase.text.length = 0 := Nat.sub_eq_zero_of_le hshort
    have hzero' : text'.length + 1 - phrase.text.length = 0 := Nat.sub_eq_zero_of_le hshort'
    rw [if_neg hnil, if_neg hnil, map_some, map_some]
    simp only [count_of_short hshort, count_of_short hshort', hzero, hzero']

theorem applyPhrases_congr {phrases : List Phrase}
    (hle : text.length ≤ text'.length)
    (h : ∀ phrase ∈ phrases, phrase.text ≠ [] → text'.length < phrase.text.length)
    (sparams : Params) :
    applyPhrases countup (some text) entry sparams phrases =
      applyPhrases countup (some text') entry sparams phrases := by
  induction phrases generalizing sparams with
  | nil => rfl
  | cons phrase phrases ih =>
    obtain ⟨hphrase, hphrases⟩ := List.forall_mem_cons.mp h
    simp only [applyPhrases, applyPhrase_congr hle hphrase, ih hphrases]

theorem applyEntries_congr {entries : List ElbEntry}
    (hle : text.length ≤ text'.length) (h : Short text' entries) (sparams : Params) :
    applyEntries countup (some text) sparams entries =
      applyEntries countup (some text') sparams entries := by
  induction entries generalizing sparams with
  | nil => rfl
  | cons entry entries ih =>
    obtain ⟨hentry, hentries⟩ := List.forall_mem_cons.mp h
    have hone : ∀ sparams, applyEntry countup (some text) sparams entry =
        applyEntry countup (some text') sparams entry := by
      intro sparams
      unfold applyEntry
      by_cases hbiases : entry.biases = []
      · rw [if_neg (not_not_intro hbiases), if_neg (not_not_intro hbiases),
          applyPhrases_congr hle (hentry hbiases)]
      · rw [if_pos hbiases, if_pos hbiases]
    simp only [applyEntries, hone, ih hentries]

theorem biasLogits_congr {elb : ElbState} {window window' : Text}
    (hother : ∀ token ∈ active elb.countup elb.otherTokens,
      biasesOther window token = biasesOther window' token)
    (hfirst : ∀ token ∈ active elb.countup elb.firstTokens,
      biasesFirst window token = biasesFirst window' token) (logits : Logits) :
    biasLogits elb window logits = biasLogits elb window' logits := by
  unfold biasLogits
  rw [List.filter_congr hother, List.filter_congr hfirst]

/-! ## One token -/

theorem applyPhrase_text {read : Option Text}
    {phrase : Phrase} {r : Params × Phrase}
    (h : applyPhrase countup read entry sparams phrase = some r) : r.2.text = phrase.text := by
  unfold applyPhrase at h
  by_cases hnil : phrase.text = []
  · rw [if_pos hnil] at h
    by_cases h0 : countup = 0
    · rw [if_pos h0] at h
      cases h
      rfl
    · rw [if_neg h0] at h
      by_cases hd : countup = toSize entry.duration
      · rw [if_pos hd] at h
        cases h
        rfl
      · rw [if_neg hd] at h
        cases h
        rfl
  · rw [if_neg hnil] at h
    obtain ⟨t, -, ht⟩ := map_eq_some_iff.mp h
    dsimp only at ht
    by_cases hodd : count t phrase.text phrase.posi % 2 = 1
    · rw [if_pos hodd] at ht
      cases ht
      rfl
    · rw [if_neg hodd] at ht
      cases ht
      rfl

theorem applyPhrases_text {read : Option Text}
    {phrases : List Phrase} {r : Params × List Phrase}
    (h : applyPhrases countup read entry sparams phrases = some r) :
    r.2.map Phrase.text = phrases.map Phrase.text := by
  induction phrases generalizing sparams r with
  | nil =>
    cases h
    rfl
  | cons phrase phrases ih =>
    obtain ⟨r₁, h₁, h⟩ := bind_eq_some_iff.mp h
    obtain ⟨r₂, h₂, h⟩ := bind_eq_some_iff.mp h
    cases h
    rw [List.map_cons, List.map_cons, applyPhrase_text h₁, ih h₂]

/-- What applying the biases leaves as it is. -/
theorem applyEntries_short {read : Option Text} {entries : List ElbEntry}
    {r : Params × List ElbEntry} (h : Short text entries)
    (happly : applyEntries countup read sparams entries = some r) : Short text r.2 := by
  induction entries generalizing sparams r with
  | nil =>
    cases happly
    exact h
  | cons entry entries ih =>
    obtain ⟨hentry, hentries⟩ := List.forall_mem_cons.mp h
    obtain ⟨r₁, h₁, happly⟩ := bind_eq_some_iff.mp happly
    obtain ⟨r₂, h₂, happly⟩ := bind_eq_some_iff.mp happly
    cases happly
    refine List.forall_mem_cons.mpr ⟨fun hbiases => ?_, ih hentries h₂⟩
    unfold applyEntry at h₁
    by_cases hne : entry.biases = []
    · rw [if_neg (not_not_intro hne)] at h₁
      obtain ⟨r₀, h₀, rfl⟩ := map_eq_some_iff.mp h₁
      have htexts : ∀ t ∈ entry.phrases.map Phrase.text, t ≠ [] → text.length < t.length :=
        List.forall_mem_map.mpr (hentry hne)
      rw [← applyPhrases_text h₀] at htexts
      exact List.forall_mem_map.mp htexts
    · rw [if_pos hne] at h₁
      cases h₁
      exact hentry hbiases

theorem apply_undrafted (htext : s.toGeneratedText = some text) (h : s.ReadsAlike text text')
    (logits : Logits) :
    apply (s.undrafted text') logits =
      (apply s logits).map fun r => (r.1.undrafted text', r.2) := by
  have hwindow : ∀ elb, searchWindow (s.undrafted text') elb = text' := fun _ => rfl
  unfold apply
  show (s.elbStates[s.elbIdx]? >>= _) = Option.map _ (s.elbStates[s.elbIdx]? >>= _)
  cases helb : s.elbStates[s.elbIdx]? with
  | none => rfl
  | some elb =>
    simp only [Option.bind_eq_bind, Option.bind_some]
    show (s.elbParams[s.elbIdx]? >>= _) = Option.map _ (s.elbParams[s.elbIdx]? >>= _)
    cases hparam : s.elbParams[s.elbIdx]? with
    | none => rfl
    | some param =>
      have hentries : applyEntries elb.countup (some text') s.params param.entries =
          applyEntries elb.countup s.toGeneratedText s.params param.entries := by
        rw [htext]
        rcases h.phrases with rfl | ⟨hle, hshort⟩
        · rfl
        · exact (applyEntries_congr hle (hshort elb param helb hparam) s.params).symm
      have hlogits : biasLogits elb text' logits = biasLogits elb (searchWindow s elb) logits :=
        (biasLogits_congr (h.other elb helb) (h.first elb helb) logits).symm
      show (applyEntries elb.countup (some text') s.params param.entries >>= _) =
        Option.map _ (applyEntries elb.countup s.toGeneratedText s.params param.entries >>= _)
      rw [hentries, hwindow, hlogits]
      cases applyEntries elb.countup s.toGeneratedText s.params param.entries with
      | none => rfl
      | some r => rfl

theorem apply_readsAlike (htext : s.toGeneratedText = some text) (h : s.ReadsAlike text text')
    {logits : Logits} {r : Sampler × Logits} (happly : apply s logits = some r) :
    r.1.toGeneratedText = some text ∧ r.1.ReadsAlike text text' := by
  unfold apply at happly
  obtain ⟨elb, helb, happly⟩ := bind_eq_some_iff.mp happly
  obtain ⟨param, hparam, happly⟩ := bind_eq_some_iff.mp happly
  obtain ⟨rs, hrs, happly⟩ := bind_eq_some_iff.mp happly
  cases happly
  refine ⟨htext, h.other, h.first, h.phrases.imp_right fun ⟨hle, hshort⟩ => ⟨hle, ?_⟩⟩
  intro elb' param' helb' hparam'
  rw [List.getElem?_set_self (List.getElem?_eq_some_iff.mp hparam).1] at hparam'
  cases hparam'
  exact applyEntries_short (hshort elb param helb hparam) hrs

theorem accept_undrafted {piece : Text} (htext : s.toGeneratedText = some text)
    (h : s.SearchesAlike text text' piece) :
    accept (s.undrafted text') piece = (accept s piece).map (Sampler.undrafted text') := by
  unfold accept
  rw [htext]
  show (s.elbStates[s.elbIdx]? >>= _) = Option.map _ (s.elbStates[s.elbIdx]? >>= _)
  cases helb : s.elbStates[s.elbIdx]? with
  | none => rfl
  | some elb =>
    simp only [Option.bind_eq_bind, Option.bind_some]
    by_cases hearly : elb.countup + 1 < elb.delay ∨ elb.searchWordLen = 0
    · rw [if_pos hearly, if_pos hearly]
      rfl
    · rw [if_neg hearly, if_neg hearly]
      obtain ⟨hleaves, hadvance⟩ := h elb helb hearly
      have hwindow : leaves elb (s.undrafted text').elbIdx
          (acceptWindow (s.undrafted text') text' piece) =
            leaves elb s.elbIdx (acceptWindow s text piece) := hleaves.symm
      rw [hwindow]
      cases hfound : leaves elb s.elbIdx (acceptWindow s text piece) with
      | none =>
        have hsame : (acceptWindow (s.undrafted text') text' piece).length + 1 - elb.searchWordLen =
              (acceptWindow s text piece).length + 1 - elb.searchWordLen :=
          (hadvance hfound).symm
        dsimp only [Option.map_some]
        rw [hsame]
        rfl
      | some r =>
        dsimp only
        show (s.elbParams[s.elbIdx]? >>= _) = Option.map _ (s.elbParams[s.elbIdx]? >>= _)
        cases s.elbParams[s.elbIdx]? with
        | none => rfl
        | some old =>
          simp only [Option.bind_eq_bind, Option.bind_some]
          show (s.elbParams[r.2]? >>= _) = Option.map _ (s.elbParams[r.2]? >>= _)
          cases s.elbParams[r.2]? with
          | none => rfl
          | some new => rfl

theorem accept_text {piece : Text} {s' : Sampler} (haccept : accept s piece = some s') :
    s'.toGeneratedText = s.toGeneratedText ∧ s'.draftedText = s.draftedText := by
  unfold accept at haccept
  cases htext : s.toGeneratedText with
  | none =>
    rw [htext] at haccept
    cases haccept
    exact ⟨htext, rfl⟩
  | some text =>
    rw [htext] at haccept
    obtain ⟨elb, helb, haccept⟩ := bind_eq_some_iff.mp haccept
    dsimp only at haccept
    split at haccept
    case isTrue =>
      cases haccept
      exact ⟨rfl, rfl⟩
    case isFalse =>
      split at haccept
      case h_1 =>
        cases haccept
        exact ⟨rfl, rfl⟩
      case h_2 =>
        obtain ⟨old, -, haccept⟩ := bind_eq_some_iff.mp haccept
        obtain ⟨new, -, haccept⟩ := bind_eq_some_iff.mp haccept
        cases haccept
        exact ⟨rfl, rfl⟩

theorem pass_undrafted {core : Core σ} {s : CommonSampler σ} {grammarFirst : Bool}
    (htext : s.elb.toGeneratedText = some text) (h : s.elb.ReadsAlike text text') (row : Logits) :
    pass core (s.undrafted text') row grammarFirst =
      (pass core s row grammarFirst).map fun r => (r.1, r.2.1.undrafted text', r.2.2) := by
  unfold pass
  by_cases hidx : s.elb.elbIdx < s.elb.elbStates.length
  · have hidx' : (s.undrafted text').elb.elbIdx < (s.undrafted text').elb.elbStates.length := hidx
    rw [if_pos hidx, if_pos hidx']
    have happly := apply_undrafted htext h (core.logitBias s.rest row)
    show (apply (s.elb.undrafted text') (core.logitBias s.rest row) >>= _) = _
    rw [happly]
    cases apply s.elb (core.logitBias s.rest row) with
    | none => rfl
    | some r => rfl
  · have hidx' : ¬(s.undrafted text').elb.elbIdx < (s.undrafted text').elb.elbStates.length := hidx
    rw [if_neg hidx, if_neg hidx']
    rfl

theorem pass_readsAlike {core : Core σ} {s : CommonSampler σ} {grammarFirst : Bool} {row : Logits}
    {r : Token × CommonSampler σ × Logits} (htext : s.elb.toGeneratedText = some text)
    (h : s.elb.ReadsAlike text text') (hpass : pass core s row grammarFirst = some r) :
    r.2.1.elb.toGeneratedText = some text ∧ r.2.1.elb.ReadsAlike text text' := by
  unfold pass at hpass
  by_cases hidx : s.elb.elbIdx < s.elb.elbStates.length
  · rw [if_pos hidx] at hpass
    obtain ⟨rs, happly, hpass⟩ := bind_eq_some_iff.mp hpass
    cases hpass
    exact apply_readsAlike htext h happly
  · rw [if_neg hidx] at hpass
    cases hpass
    exact ⟨htext, h⟩

theorem sample_undrafted {core : Core σ} {s : CommonSampler σ} {grammarFirst : Bool}
    (htext : s.elb.toGeneratedText = some text) (h : s.elb.ReadsAlike text text') (row : Logits) :
    sample core (s.undrafted text') row grammarFirst =
      (sample core s row grammarFirst).map fun r => (r.1, r.2.undrafted text') := by
  unfold sample
  rw [pass_undrafted htext h]
  cases hpass : pass core s row grammarFirst with
  | none => rfl
  | some r =>
    obtain ⟨htext₁, h₁⟩ := pass_readsAlike htext h hpass
    simp only [map_some, bind_eq_bind, bind_some]
    by_cases hkept : grammarFirst ∨ core.grammarShouldApply r.2.1.rest = false ∨
        core.allows r.2.1.rest r.2.2 r.1 = true
    · rw [if_pos hkept]
      exact if_pos hkept
    · rw [if_neg hkept]
      refine (if_neg hkept).trans ?_
      rw [pass_undrafted htext₁ h₁]
      cases pass core r.2.1 row true with
      | none => rfl
      | some r => rfl

variable {r : Token × CommonSampler σ}

theorem sample_text {core : Core σ} {s : CommonSampler σ} {grammarFirst : Bool} {row : Logits}
    (htext : s.elb.toGeneratedText = some text)
    (h : s.elb.ReadsAlike text text') (hsample : sample core s row grammarFirst = some r) :
    r.2.elb.toGeneratedText = some text := by
  unfold sample at hsample
  obtain ⟨r₁, hpass, hsample⟩ := bind_eq_some_iff.mp hsample
  obtain ⟨htext₁, h₁⟩ := pass_readsAlike htext h hpass
  split at hsample
  case isTrue =>
    cases hsample
    exact htext₁
  case isFalse =>
    obtain ⟨r₂, hpass₂, hsample⟩ := bind_eq_some_iff.mp hsample
    cases hsample
    exact (pass_readsAlike htext₁ h₁ hpass₂).1

theorem acceptToken_undrafted {core : Core σ} {v : Vocab} {s : CommonSampler σ} {id : Token}
    (htext : s.elb.toGeneratedText = some text)
    (h : s.elb.SearchesAlike text text' (v.tokenToPiece id)) :
    acceptToken core v (s.undrafted text') id =
      (acceptToken core v (addDrafted v s id) id).map (CommonSampler.undrafted text') := by
  unfold acceptToken
  show (core.accept s.rest id >>= _) = Option.map _ (core.accept s.rest id >>= _)
  cases core.accept s.rest id with
  | none => rfl
  | some rest =>
    simp only [Option.bind_eq_bind, Option.bind_some]
    by_cases hidx : s.elb.elbIdx < s.elb.elbStates.length
    · refine (if_pos hidx).trans ?_
      refine Eq.trans ?_ (congrArg _ (if_pos hidx)).symm
      have haccept := accept_undrafted (s := (addDrafted v s id).elb) htext h
      show (accept ((addDrafted v s id).elb.undrafted text') (v.tokenToPiece id) >>= _) = _
      rw [haccept]
      show _ = Option.map _ (accept (addDrafted v s id).elb (v.tokenToPiece id) >>= _)
      cases accept (addDrafted v s id).elb (v.tokenToPiece id) with
      | none => rfl
      | some elb => rfl
    · refine (if_neg hidx).trans ?_
      refine Eq.trans ?_ (congrArg _ (if_neg hidx)).symm
      rfl

theorem acceptToken_text {core : Core σ} {v : Vocab} {s s' : CommonSampler σ} {id : Token}
    (haccept : acceptToken core v s id = some s') :
    s'.elb.toGeneratedText = s.elb.toGeneratedText := by
  unfold acceptToken at haccept
  obtain ⟨rest, -, haccept⟩ := bind_eq_some_iff.mp haccept
  split at haccept
  case isTrue =>
    obtain ⟨elb, helb, haccept⟩ := bind_eq_some_iff.mp haccept
    cases haccept
    exact (accept_text helb).1
  case isFalse =>
    cases haccept
    rfl

/-! ## A draft -/

/-- The rows that a decoder gives for a draft: each for the tokens before it. -/
def rowsAt (logitsAt : List Token → Logits) : List Token → List Token → List Logits
  | before, [] => [logitsAt before]
  | before, id :: draft => logitsAt before :: rowsAt logitsAt (before ++ [id]) draft

/-- While the tokens of a draft are verified, the generated text is read as if it had grown. -/
def VerifiesAlike (core : Core σ) (v : Vocab) (textToSend : Token → Text) (grammarFirst : Bool)
    (text : Text) : Text → CommonSampler σ → List Logits → List Token → Prop
  | text', s, row :: rows, draft =>
    s.elb.ReadsAlike text text' ∧ ∀ r, sample core s row grammarFirst = some r →
        r.2.elb.SearchesAlike text text' (v.tokenToPiece r.1) ∧
          ∀ s', acceptToken core v (addDrafted v r.2 r.1) r.1 = some s' →
            ∀ draft', draft = r.1 :: draft' →
              VerifiesAlike core v textToSend grammarFirst text (text' ++ textToSend r.1) s' rows
                draft'
  | _, _, [], _ => True

variable {core : Core σ} {v : Vocab} {textToSend : Token → Text} {grammarFirst : Bool}
  {logitsAt : List Token → Logits}

/-- A run without drafts puts its text in the place of the sampler's. -/
theorem sequential_undrafted (n : ℕ) (before : List Token) (s : CommonSampler σ) :
    sequential core v textToSend grammarFirst logitsAt n before text' (s.undrafted text) =
      sequential core v textToSend grammarFirst logitsAt n before text' (s.undrafted text') := by
  cases n with
  | zero => rfl
  | succ n => rfl

/-- A token that is verified is the token that is sampled without a draft. -/
theorem sequential_succ (textToSend : Token → Text) {before : List Token} {s s' : CommonSampler σ}
    (htext : s.elb.toGeneratedText = some text)
    (hreads : s.elb.ReadsAlike text text')
    (hsample : sample core s (logitsAt before) grammarFirst = some r)
    (hsearches : r.2.elb.SearchesAlike text text' (v.tokenToPiece r.1))
    (haccept : acceptToken core v (addDrafted v r.2 r.1) r.1 = some s') (n : ℕ) :
    sequential core v textToSend grammarFirst logitsAt (n + 1) before text' (s.undrafted text') =
      (sequential core v textToSend grammarFirst logitsAt n (before ++ [r.1])
        (text' ++ textToSend r.1) (s'.undrafted (text' ++ textToSend r.1))).map fun rs =>
          (r.1 :: rs.1, rs.2) := by
  have hsample' : sample core (s.undrafted text') (logitsAt before) grammarFirst =
      some (r.1, r.2.undrafted text') := by
    rw [sample_undrafted htext hreads, hsample, map_some]
  have haccept' : acceptToken core v (r.2.undrafted text') r.1 = some (s'.undrafted text') := by
    rw [acceptToken_undrafted (sample_text htext hreads hsample) hsearches, haccept,
      map_some]
  rw [sequential]
  show (sample core (s.undrafted text') (logitsAt before) grammarFirst >>= _) = _
  rw [hsample', bind_eq_bind, bind_some]
  show (acceptToken core v (r.2.undrafted text') r.1 >>= _) = _
  rw [haccept', bind_eq_bind, bind_some, sequential_undrafted]
  cases sequential core v textToSend grammarFirst logitsAt n (before ++ [r.1])
    (text' ++ textToSend r.1) (s'.undrafted (text' ++ textToSend r.1)) with
  | none => rfl
  | some rs => rfl

theorem sequential_of_verified {before draft ids : List Token} {s s' : CommonSampler σ}
    (htext : s.elb.toGeneratedText = some text)
    (halike : VerifiesAlike core v textToSend grammarFirst text text' s
      (rowsAt logitsAt before draft) draft)
    (h : sampleAndAcceptN core v grammarFirst s (rowsAt logitsAt before draft) draft =
      some (ids, s')) :
    sequential core v textToSend grammarFirst logitsAt ids.length before text' (s.undrafted text') =
      some (ids, s'.undrafted (text' ++ ids.flatMap textToSend)) := by
  induction draft generalizing before text' s ids with
  | nil =>
    obtain ⟨hreads, hrest⟩ := halike
    obtain ⟨r, hsample, h⟩ := bind_eq_some_iff.mp h
    obtain ⟨s₁, haccept, h⟩ := bind_eq_some_iff.mp h
    cases h
    rw [List.length_singleton,
      sequential_succ textToSend htext hreads hsample (hrest r hsample).1 haccept 0,
      List.flatMap_singleton]
    rfl
  | cons id draft ih =>
    obtain ⟨hreads, hrest⟩ := halike
    obtain ⟨r, hsample, h⟩ := bind_eq_some_iff.mp h
    obtain ⟨s₁, haccept, h⟩ := bind_eq_some_iff.mp h
    dsimp only at h
    have hstep := sequential_succ textToSend htext hreads hsample (hrest r hsample).1 haccept
    by_cases hid : id = r.1
    · rw [if_pos hid] at h
      subst hid
      obtain ⟨rs, hverified, h⟩ := bind_eq_some_iff.mp h
      cases h
      have htext₁ : s₁.elb.toGeneratedText = some text :=
        (acceptToken_text haccept).trans (sample_text htext hreads hsample)
      rw [List.length_cons, hstep, ih htext₁ ((hrest r hsample).2 s₁ haccept draft rfl) hverified,
        map_some, List.flatMap_cons, List.append_assoc]
    · rw [if_neg hid] at h
      cases h
      rw [List.length_singleton, hstep, List.flatMap_singleton]
      rfl

/-- What is verified, and the sampler after it, is what is sampled one token at a time, if what is
read of the generated text is what would be read of the text as it grows. -/
theorem sampleAndAcceptN_eq_sequential {σ : Type} (core : Core σ) (v : Vocab)
    (textToSend : Token → Text) (grammarFirst : Bool) (logitsAt : List Token → Logits)
    {s s' : CommonSampler σ} {text : Text} {draft ids : List Token}
    (htext : s.elb.toGeneratedText = some text) (hdrafted : s.elb.draftedText = [])
    (halike : VerifiesAlike core v textToSend grammarFirst text text s (rowsAt logitsAt [] draft)
      draft)
    (h : sampleAndAcceptN core v grammarFirst s (rowsAt logitsAt [] draft) draft = some (ids, s')) :
    sequential core v textToSend grammarFirst logitsAt ids.length [] text s =
      some (ids, s'.undrafted (text ++ ids.flatMap textToSend)) := by
  have hself : s.undrafted text = s := by
    unfold CommonSampler.undrafted Sampler.undrafted
    rw [← htext, ← hdrafted]
  rw [← sequential_of_verified htext halike h, hself]

/-! ## Samplers without expiring biases -/

theorem searchesAlike_of_nil (h : s.elbStates = []) (text text' piece : Text) :
    s.SearchesAlike text text' piece := by
  intro elb helb
  rw [h] at helb
  cases helb

theorem readsAlike_of_nil (h : s.elbStates = []) (text text' : Text)
    (hle : text.length ≤ text'.length) : s.ReadsAlike text text' := by
  have hnone : ∀ elb, s.elbStates[s.elbIdx]? ≠ some elb := by
    intro elb helb
    rw [h] at helb
    cases helb
  exact ⟨fun elb helb => absurd helb (hnone elb), fun elb helb => absurd helb (hnone elb),
    .inr ⟨hle, fun elb _ helb => absurd helb (hnone elb)⟩⟩

theorem sample_of_nil {s : CommonSampler σ} {row : Logits}
    (hnil : s.elb.elbStates = []) (h : sample core s row grammarFirst = some r) :
    r.2.elb = s.elb := by
  have hpass : ∀ {s : CommonSampler σ} {grammarFirst : Bool} {r : Token × CommonSampler σ × Logits},
      s.elb.elbStates = [] → pass core s row grammarFirst = some r → r.2.1.elb = s.elb := by
    intro s grammarFirst r hnil h
    unfold pass at h
    have hidx : ¬s.elb.elbIdx < s.elb.elbStates.length := by
      rw [hnil]
      exact Nat.not_lt_zero _
    rw [if_neg hidx] at h
    cases h
    rfl
  unfold sample at h
  obtain ⟨r₁, h₁, h⟩ := bind_eq_some_iff.mp h
  have hsame := hpass hnil h₁
  split at h
  case isTrue =>
    cases h
    exact hsame
  case isFalse =>
    obtain ⟨r₂, h₂, h⟩ := bind_eq_some_iff.mp h
    cases h
    exact (hpass (hsame ▸ hnil) h₂).trans hsame

theorem acceptToken_of_nil {s s' : CommonSampler σ} {id : Token} (hnil : s.elb.elbStates = [])
    (h : acceptToken core v s id = some s') : s'.elb = s.elb := by
  unfold acceptToken at h
  obtain ⟨rest, -, h⟩ := bind_eq_some_iff.mp h
  have hidx : ¬s.elb.elbIdx < s.elb.elbStates.length := by
    rw [hnil]
    exact Nat.not_lt_zero _
  rw [if_neg hidx] at h
  cases h
  rfl

theorem verifiesAlike_of_nil {before draft : List Token} {s : CommonSampler σ}
    (hnil : s.elb.elbStates = []) (hle : text.length ≤ text'.length) :
    VerifiesAlike core v textToSend grammarFirst text text' s (rowsAt logitsAt before draft)
      draft := by
  induction draft generalizing before text' s with
  | nil =>
    refine ⟨readsAlike_of_nil hnil text text' hle, fun r hsample => ⟨?_, ?_⟩⟩
    · exact searchesAlike_of_nil (sample_of_nil hnil hsample ▸ hnil) _ _ _
    · intro s' _ draft' hdraft
      cases hdraft
  | cons id draft ih =>
    refine ⟨readsAlike_of_nil hnil text text' hle, fun r hsample => ⟨?_, ?_⟩⟩
    · exact searchesAlike_of_nil (sample_of_nil hnil hsample ▸ hnil) _ _ _
    · intro s' haccept draft' hdraft
      cases hdraft
      have hnil₁ : (addDrafted v r.2 r.1).elb.elbStates = [] :=
        (congrArg Sampler.elbStates (sample_of_nil hnil hsample)).trans hnil
      have hnil₂ : s'.elb.elbStates = [] := acceptToken_of_nil hnil₁ haccept ▸ hnil₁
      refine ih hnil₂ ?_
      rw [List.length_append]
      exact Nat.le_add_right_of_le hle

/-! ## A drafted beginning of a phrase -/

/-- A sampler that takes the best of three tokens. -/
def greedy : Core Unit where
  logitBias _ logits := logits
  draw _ _ _ logits _ :=
    (if logits 2 ≤ logits 1 ∧ logits 3 ≤ logits 1 then 1
      else if logits 3 ≤ logits 2 then 2 else 3, ())
  grammarShouldApply _ := false
  allows _ _ _ := true
  accept _ _ := some ()

/-- The pieces `a`, `b` and `c`. -/
def letters : Vocab where
  tokenize text := text.map fun c => .ofNat (c.toNat - 96)
  tokenToPiece id := [.ofNat (96 + id.toInt.toNat)]

/-- `(5 : "ab" : 0, 10)`: after an `a` the `b` is preferred. -/
def preferred : EntryLine where
  isNested := false
  phrases := [[97, 98]]
  addsubs _ := 0
  biases := [0, 10]
  duration := 5
  isRange := false
  duration_ne := by decide

/-- First an `a` is likely, and then a `c`. -/
def likely (before : List Token) : Logits :=
  fun id => if id = if before = [] then 1 else 3 then 5 else 0

/-- The sampler of a slot that was started with the line in a file. -/
def preferring : CommonSampler Unit where
  elb :=
    { params := .defaults
      elbParams := [⟨[preferred.entry], [], []⟩]
      elbStates :=
        [{ otherTokens := [⟨2, 10, 6, [97]⟩]
           exitword := []
           delay := 6
           maxCondLen := 1
           searchWordLen := 0 }]
      toGeneratedText := some [] }
  rest := ()

example : (launch letters ⟨[[.entry preferred]].foldl argparse [], []⟩ .defaults none).map
    (fun r => (r.2.elbParams, r.2.elbStates)) =
      some (preferring.elb.elbParams, preferring.elb.elbStates) := by
  decide +kernel

theorem verified_preferring :
    (sampleAndAcceptN greedy letters false preferring (rowsAt likely [] [1]) [1]).map Prod.fst =
      some [1, 3] := by
  decide +kernel

theorem sequential_preferring :
    (sequential greedy letters letters.tokenToPiece false likely 2 [] [] preferring).map Prod.fst =
      some [1, 2] := by
  decide +kernel

/-- The `a` of a draft is not there when the next token is sampled. -/
theorem not_lossless : ¬∀ (σ : Type) (core : Core σ) (v : Vocab) (textToSend : Token → Text)
    (grammarFirst : Bool) (logitsAt : List Token → Logits) (s s' : CommonSampler σ) (text : Text)
    (draft ids : List Token), s.elb.toGeneratedText = some text → s.elb.draftedText = [] →
    sampleAndAcceptN core v grammarFirst s (rowsAt logitsAt [] draft) draft = some (ids, s') →
    sequential core v textToSend grammarFirst logitsAt ids.length [] text s =
      some (ids, s'.undrafted (text ++ ids.flatMap textToSend)) := by
  intro h
  obtain ⟨r, hr, hids⟩ := Option.map_eq_some_iff.mp verified_preferring
  have heq := h Unit greedy letters letters.tokenToPiece false likely preferring r.2 [] [1] r.1 rfl
    rfl hr
  rw [hids] at heq
  cases sequential_preferring.symm.trans (congrArg (Option.map Prod.fst) heq)

/-- Without expiring biases the `a` makes no difference. -/
theorem lossless_greedy : ∃ s', sequential greedy letters letters.tokenToPiece false likely 2 [] []
        ⟨{ preferring.elb with elbStates := [] }, ()⟩ =
      some ([1, 3], CommonSampler.undrafted [97, 99] s') := by
  obtain ⟨r, hr, hids⟩ := map_eq_some_iff.mp
    (show (sampleAndAcceptN greedy letters false ⟨{ preferring.elb with elbStates := [] }, ()⟩
      (rowsAt likely [] [1]) [1]).map Prod.fst = some [1, 3] by decide +kernel)
  obtain ⟨ids, s'⟩ := r
  cases hids
  exact ⟨s', sampleAndAcceptN_eq_sequential greedy letters letters.tokenToPiece false likely rfl rfl
    (verifiesAlike_of_nil rfl (Nat.le_refl _)) hr⟩

end ExpertPin.ExpiringBias
