import ExpertPin.Draft.NgramBounds

/-!
# Calls of the n-gram map

A draft returns and leaves the positions in the history when they are in it before; what it
enters is in the history.  A refresh keeps the number of values of a key.
-/

namespace ExpertPin.Draft

open List
open Nat

namespace NgramMap

variable {map map' : NgramMap} {inp key : List Token}

/-- The n-grams and the m-grams that the map knows end in a history of some length. -/
def Fits (map : NgramMap) (len : ℕ) : Prop :=
  ∀ key ∈ map.keys, key.keyIdx + map.n ≤ len ∧ ∀ value ∈ key.values, value.Fits len map.m

/-- What holds of a map after each call. -/
structure Sound (map : NgramMap) : Prop where
  pos : 0 < map.n
  slots : ∀ key ∈ map.keys, key.values.length = maxValues

/-- The last draft is from one of the values. -/
structure Drafted (map : NgramMap) : Prop where
  key : map.lastDraftCreated = true → map.lastDraftKeyIdx < map.keys.length
  value : map.lastDraftCreated = true → map.lastDraftValueIdx < maxValues

/-- What a draft leaves as it is. -/
structure Kept (map map' : NgramMap) : Prop where
  sizeKey : map'.sizeKey = map.sizeKey
  sizeValue : map'.sizeValue = map.sizeValue
  sizeLastBegin : map'.sizeLastBegin = map.sizeLastBegin
  idxLastCheck : map'.idxLastCheck = map.idxLastCheck

/-- What a draft from a history leaves. -/
structure After (map map' : NgramMap) (inp : List Token) : Prop where
  kept : map.Kept map'
  sound : map'.Sound
  drafted : map'.Drafted
  fits : map'.Fits inp.length

/-- The keys with one of them changed. -/
theorem forall_mem_set {P : NgramKey → Prop} {keys : List NgramKey} {curr : NgramKey}
    (h : ∀ key ∈ keys, P key) (hcurr : P curr) (offset : ℕ) :
    ∀ key ∈ keys.set offset curr, P key := by
  intro key hkey
  rcases mem_or_eq_of_mem_set hkey with hold | rfl
  · exact h key hold
  · exact hcurr

/-- One key gets other statistics, and a draft may be from it. -/
theorem after_set {offset : ℕ} {curr : NgramKey} (hsound : map.Sound) (hfits : map.Fits inp.length)
    (hoffset : offset < map.keys.length) (hslots : curr.values.length = maxValues)
    (hcurr : curr.keyIdx + map.n ≤ inp.length ∧ ∀ value ∈ curr.values, value.Fits inp.length map.m)
    {created : Bool} {idx slot : ℕ} (hidx : created = true → idx = offset)
    (hslot : created = true → slot < maxValues) :
    map.After { map with
      keys := map.keys.set offset curr
      lastDraftCreated := created
      lastDraftKeyIdx := idx
      lastDraftValueIdx := slot } inp where
  kept := ⟨rfl, rfl, rfl, rfl⟩
  sound := ⟨hsound.pos, forall_mem_set hsound.slots hslots offset⟩
  drafted := by
    refine ⟨fun hcreated => ?_, hslot⟩
    rw [length_set, hidx hcreated]
    exact hoffset
  fits := forall_mem_set hfits hcurr offset

theorem returns_draftKey (log : Bool) {matchPos offset : ℕ} (hsound : map.Sound)
    (hfits : map.Fits inp.length) (hkey : key.length = map.n)
    (hmatch : matchPos + map.n + map.m + 1 ≤ inp.length) (hoffset : offset < map.keys.length)
    (hfresh : map.lastDraftCreated = false) :
    Returns (map.draftKey log inp key matchPos offset) fun p => map.After p.1 inp := by
  have hnone : ∀ P : Prop, map.lastDraftCreated = true → P := fun P hcreated =>
    absurd (hfresh.symm.trans hcreated) Bool.false_ne_true
  refine .bind (returns_at hoffset) fun curr hcurr => ?_
  have hslots := hsound.slots curr hcurr
  obtain ⟨hidx, hvalues⟩ := hfits curr hcurr
  have hdraft : ∀ value : NgramValue,
      Returns (map.draftTokens inp matchPos value.nAccepted) fun _ => True :=
    fun value => returns_draftTokens (le_of_succ_le hmatch) value.nAccepted
  refine .ite (fun _ => ?_) fun _ => .ite (fun _ => ?_) fun _ => ?_
  · have hfirst : 0 < curr.values.length := hslots ▸ (by decide)
    refine .bind (returns_at hfirst) fun value _ => .bind (hdraft value) fun draft _ => .pure ?_
    refine after_set hsound hfits hoffset ?_ ?_ (fun _ => rfl) fun _ => ?_
    · exact hslots
    · exact ⟨hidx, hvalues⟩
    · exact zero_lt_succ 3
  · refine .pure (after_set hsound hfits hoffset ?_ ?_ (hnone _) (hnone _))
    · exact hslots
    · exact ⟨hidx, hvalues⟩
  · refine .bind (returns_countValues hkey (fun hlen => ?_) hvalues) fun values hvalues' => ?_
    · dsimp only at hlen ⊢
      omega
    have hslots' : values.length = maxValues := hvalues'.1.trans hslots
    have hslot : (slotMax values).2 < values.length :=
      slotMax_lt (length_pos_iff.mp (hslots' ▸ zero_lt_succ 3))
    refine .bind (returns_logValues log hvalues'.2) fun _ _ => .ite (fun _ => .pure ?_) fun _ => ?_
    · refine after_set hsound hfits hoffset ?_ ?_ (hnone _) (hnone _)
      · exact hslots'
      · exact ⟨hidx, hvalues'.2⟩
    · refine .bind (returns_at hslot) fun value _ => .bind (hdraft value) fun draft _ => .pure ?_
      refine after_set hsound hfits hoffset ?_ ?_ (fun _ => rfl) fun _ => ?_
      · exact hslots'
      · exact ⟨hidx, hvalues'.2⟩
      · exact hslots' ▸ hslot

/-! ## Calls -/

/-- A new key has its m-grams to come. -/
theorem fits_newKey {len matchPos : ℕ} (h : matchPos + map.n ≤ len) :
    (map.newKey matchPos).keyIdx + map.n ≤ len ∧
      ∀ value ∈ (map.newKey matchPos).values, value.Fits len map.m := by
  refine ⟨h, fun value hvalue hidx => ?_⟩
  rw [eq_of_mem_replicate hvalue] at hidx
  exact absurd rfl hidx

theorem After.of_kept {map'' : NgramMap} (h' : map'.After map'' inp) (h : map.Kept map') :
    map.After map'' inp where
  kept := ⟨h'.kept.sizeKey.trans h.sizeKey, h'.kept.sizeValue.trans h.sizeValue,
    h'.kept.sizeLastBegin.trans h.sizeLastBegin, h'.kept.idxLastCheck.trans h.idxLastCheck⟩
  sound := h'.sound
  drafted := h'.drafted
  fits := h'.fits

/-- The key that a draft goes on with is one of the map. -/
theorem returns_draftKey_addKey (log : Bool) {matchPos offset : ℕ} (hsound : map.Sound)
    (hfits : map.Fits inp.length) (hkey : key.length = map.n)
    (hmatch : matchPos + map.n + map.m + 1 ≤ inp.length) (hoffset : offset ≤ map.keys.length)
    (hfresh : map.lastDraftCreated = false) :
    Returns ((map.addKey matchPos offset).draftKey log inp key matchPos offset) fun p =>
      map.After p.1 inp := by
  by_cases hnew : offset = map.keys.length
  · have hadd : map.addKey matchPos offset =
        { map with keys := map.keys ++ [map.newKey matchPos] } :=
      if_pos hnew
    have hmatch' : matchPos + map.n ≤ inp.length := by omega
    have hsound' : (map.addKey matchPos offset).Sound := by
      rw [hadd]
      exact ⟨hsound.pos, forall_mem_append.mpr
        ⟨hsound.slots, forall_mem_singleton.mpr length_replicate⟩⟩
    have hfits' : (map.addKey matchPos offset).Fits inp.length := by
      rw [hadd]
      exact forall_mem_append.mpr ⟨hfits, forall_mem_singleton.mpr (fits_newKey hmatch')⟩
    have hoffset' : offset < (map.addKey matchPos offset).keys.length := by
      rw [hadd, hnew, length_append]
      exact lt_succ_self _
    rw [hadd] at hsound' hfits' hoffset' ⊢
    exact (returns_draftKey log hsound' hfits' hkey hmatch hoffset' hfresh).mono fun p hp =>
      hp.of_kept ⟨rfl, rfl, rfl, rfl⟩
  · rw [addKey, if_neg hnew]
    exact returns_draftKey log hsound hfits hkey hmatch (lt_of_le_of_ne hoffset hnew) hfresh

theorem returns_draftFrom (log : Bool) (h : map.Searchable inp) (hsound : map.Sound)
    (hfits : map.Fits inp.length) (hfresh : map.lastDraftCreated = false) (sampled : Token) :
    Returns (map.draftFrom log inp sampled) fun p => map.After p.1 inp := by
  have hlong := h.long
  have hpos := h.pos
  have hnone : ∀ P : Prop, map.lastDraftCreated = true → P := fun P hcreated =>
    absurd (hfresh.symm.trans hcreated) Bool.false_ne_true
  refine .bind (returns_readTokens (by omega)) fun before hbefore => ?_
  have hkey : (before ++ [sampled]).length = map.n := by
    rw [length_append, hbefore, length_singleton]
    exact Nat.sub_add_cancel hpos
  refine .bind (returns_findMatch h hkey) fun matchPos hmatch => ?_
  refine .bind (returns_addNgrams h) fun map' hmap' => ?_
  obtain ⟨keyMap, last, rfl⟩ := hmap'
  refine .ite (fun _ => .pure ?_) fun _ => ?_
  · exact ⟨⟨rfl, rfl, rfl, rfl⟩, ⟨hsound.pos, hsound.slots⟩, ⟨hnone _, hnone _⟩, hfits⟩
  refine .bind (returns_findKey fun entry hentry => ?_) fun offset hoffset => ?_
  · exact hkey.symm ▸ (hfits entry hentry).1
  have hle : offset ≤ map.keys.length := Nat.le_trans hoffset.2 (Nat.le_of_eq (Nat.zero_add _))
  have hdraft : Returns
      ((addKey { map with keyMap, keyMapLastIdx := last } matchPos offset).draftKey log inp
        (before ++ [sampled]) matchPos offset) fun p =>
      After { map with keyMap, keyMapLastIdx := last } p.1 inp :=
    returns_draftKey_addKey log ⟨hsound.pos, hsound.slots⟩ hfits hkey hmatch hle hfresh
  exact hdraft.mono fun p hp => hp.of_kept ⟨rfl, rfl, rfl, rfl⟩

/-! ## What a call computes -/

theorem at_mod_length {keyMap : List ℕ} {h e : ℕ} (he : keyMap[h]? = some e) :
    at' keyMap (h % keyMap.length) = .ok e := by
  have hlt : h < keyMap.length := (List.getElem?_eq_some_iff.mp he).1
  rw [mod_eq_of_lt hlt, at', he]

theorem addHashes_succ {n last j e : ℕ} {keyMap : List ℕ} {hash : UInt32}
    (hj : last < j + 1) (hhash : NgramMap.hash inp 0 (j + 1) n = .ok hash)
    (he : keyMap[hash.toNat]? = some e) :
    addHashes inp n last keyMap (j + 1) =
      addHashes inp n last (if e = 0 then keyMap.set hash.toNat (j + 1) else keyMap) j := by
  have hlt : hash.toNat < keyMap.length := (List.getElem?_eq_some_iff.mp he).1
  have hentry := at_mod_length he
  rw [mod_eq_of_lt hlt] at hentry
  rw [addHashes, if_neg (not_le.mpr hj), hhash]
  show (at' keyMap (hash.toNat % keyMap.length) >>= _) = _
  simp only [mod_eq_of_lt hlt, hentry]
  rfl

theorem lookup_eq {e : ℕ} {hash : UInt32} (hhash : NgramMap.hash key 0 0 map.n = .ok hash)
    (he : map.keyMap[hash.toNat]? = some e) : map.lookup inp key =
      if e ≠ 0 ∧ e < inp.length - map.n - map.m - 1 then
        matchesAt inp e key >>= fun found => if found then pure e else pure 0
      else .ok 0 := by
  have hlt : hash.toNat < map.keyMap.length := (List.getElem?_eq_some_iff.mp he).1
  have hne : map.keyMap ≠ [] := List.ne_nil_of_length_pos (zero_lt_of_lt hlt)
  rw [lookup, if_neg hne, hhash]
  show (at' map.keyMap (hash.toNat % map.keyMap.length) >>= _) = _
  rw [at_mod_length he]
  rfl

theorem draftFrom_eq {log : Bool} {before : List Token} {sampled : Token} {p : ℕ}
    (hread : readTokens inp (inp.length - map.n + 1) (map.n - 1) = .ok before)
    (hmatch : map.findMatch inp (before ++ [sampled]) = .ok p) (hadd : map.addNgrams inp = .ok map')
    (hp : p ≠ 0) : map.draftFrom log inp sampled =
      findKey inp (before ++ [sampled]) 0 map'.keys >>= fun offset =>
        (map'.addKey p offset).draftKey log inp (before ++ [sampled]) p offset := by
  rw [draftFrom, hread]
  show (map.findMatch inp (before ++ [sampled]) >>= _) = _
  rw [hmatch]
  show (map.addNgrams inp >>= _) = _
  rw [hadd]
  exact if_neg hp

theorem draft_of_long {log : Bool} {sampled : Token} (hshort : ¬inp.length < 2 * map.n + map.m)
    (hlong : ¬2 ^ 32 - 1 ≤ inp.length) :
    map.draft log inp sampled = draftFrom log { map with
      lastDraftCreated := false, lastDraftKeyIdx := 0, lastDraftValueIdx := 0
      idxLastCheck := inp.length } inp sampled :=
  (if_neg hshort).trans (if_neg hlong)

theorem returns_draft (log : Bool) (hsound : map.Sound) (hbegun : map.sizeLastBegin ≤ inp.length)
    (hfits : 2 * map.n + map.m ≤ inp.length → map.Fits inp.length) (sampled : Token) :
    map.draft log inp sampled = .error .abort ∨ Returns (map.draft log inp sampled) fun p =>
      p.1.Sound ∧ p.1.Drafted ∧ p.1.sizeLastBegin = map.sizeLastBegin ∧
        (p.1.Fits inp.length ∧ p.1.idxLastCheck = inp.length ∨
          (∀ len, map.Fits len → p.1.Fits len) ∧ p.1.idxLastCheck = map.idxLastCheck) := by
  by_cases hshort : inp.length < 2 * map.n + map.m
  · right
    have hdraft : map.draft log inp sampled = .ok ({ map with
        lastDraftCreated := false, lastDraftKeyIdx := 0, lastDraftValueIdx := 0 }, []) :=
      if_pos hshort
    rw [hdraft]
    refine .ok ⟨⟨hsound.pos, hsound.slots⟩, ⟨nofun, nofun⟩, rfl, .inr ⟨?_, rfl⟩⟩
    exact fun len hlen => hlen
  by_cases hlong : 2 ^ 32 - 1 ≤ inp.length
  · left
    exact (if_neg hshort).trans (if_pos hlong)
  · right
    have hle : 2 * map.n + map.m ≤ inp.length := Nat.le_of_not_lt hshort
    rw [draft_of_long hshort hlong]
    refine (returns_draftFrom log ?_ ?_ ?_ rfl sampled).mono fun p hp =>
      ⟨hp.sound, hp.drafted, hp.kept.sizeLastBegin, .inl ⟨hp.fits, hp.kept.idxLastCheck⟩⟩
    · exact ⟨hsound.pos, hle, hbegun⟩
    · exact ⟨hsound.pos, hsound.slots⟩
    · exact hfits hle

/-- The values of a key are as many after a refresh. -/
theorem length_refreshValues {bound : ℕ} {values : List NgramValue}
    (h : values.length = maxValues) (j : ℕ) :
    (refreshValues bound values j).length = maxValues := by
  induction j generalizing values with
  | zero => exact h
  | succ j ih =>
    unfold refreshValues
    split
    · exact ih h
    case h_2 value hvalue =>
      split
      · refine ih ?_
        have hj : j < values.length := (List.getElem?_eq_some_iff.mp hvalue).1
        rw [List.length_append, List.length_eraseIdx_of_lt hj, List.length_map, List.length_drop, h]
        rfl
      · exact ih h

theorem slots_refreshKey {bound : ℕ} {keyOnly : Bool} {key key' : NgramKey}
    (h : key.values.length = maxValues) (hkey : refreshKey bound keyOnly key = some key') :
    key'.values.length = maxValues := by
  unfold refreshKey at hkey
  split at hkey
  · cases hkey
  split at hkey
  · cases hkey
    exact h
  dsimp only at hkey
  split at hkey
  · cases hkey
  · cases hkey
    exact length_refreshValues h maxValues

theorem slots_refreshKeys {bound : ℕ} {keyOnly : Bool} {keys : List NgramKey}
    (h : ∀ key ∈ keys, key.values.length = maxValues) :
    ∀ key ∈ refreshKeys bound keyOnly keys, key.values.length = maxValues := by
  intro key hkey
  rcases mem_append.mp hkey with hfirst | hrest
  · obtain ⟨key', hmem, hrefresh⟩ := mem_filterMap.mp hfirst
    exact slots_refreshKey (h key' (mem_of_mem_take hmem)) hrefresh
  · exact h key (mem_of_mem_drop hrest)

theorem Sound.of_eq (hsound : map.Sound) (hsize : map'.sizeKey = map.sizeKey)
    (hslots : ∀ key ∈ map'.keys, key.values.length = maxValues) : map'.Sound := by
  refine ⟨?_, hslots⟩
  rw [n, hsize]
  exact hsound.pos

theorem sound_clearHashes (hsound : map.Sound) (sizeBegin : ℕ) :
    (map.clearHashes sizeBegin).Sound := by
  unfold clearHashes
  split
  · exact hsound.of_eq rfl hsound.slots
  · exact hsound

theorem sound_clearKeys (hsound : map.Sound) (sizeBegin : ℕ) : (map.clearKeys sizeBegin).Sound := by
  unfold clearKeys
  split
  · exact hsound.of_eq rfl (slots_refreshKeys hsound.slots)
  · exact hsound

theorem sound_begin (hsound : map.Sound) (tokens : List Token) : (map.begin' tokens).Sound := by
  have hcleared := sound_clearKeys (sound_clearHashes hsound tokens.length) tokens.length
  exact hcleared.of_eq rfl hcleared.slots

/-- A prompt that is not shorter than the last history leaves the map. -/
theorem begin_of_le {tokens : List Token} (h : map.idxLastCheck ≤ tokens.length) :
    map.begin' tokens =
      { map with idxLastCheck := tokens.length, sizeLastBegin := tokens.length } := by
  have hhashes : map.clearHashes tokens.length = map :=
    if_neg fun hshorter => not_lt.mpr h hshorter.2
  have hkeys : map.clearKeys tokens.length = map :=
    if_neg fun hshorter => not_lt.mpr h hshorter.1
  rw [begin', hhashes, hkeys]

/-- The slot of the last draft takes a number of accepted tokens. -/
theorem returns_accept (hsound : map.Sound) (hdrafted : map.Drafted) (nAccepted : UInt16) :
    Returns (map.accept nAccepted) fun map' => map'.Sound ∧ map'.Drafted ∧
      map'.sizeLastBegin = map.sizeLastBegin ∧ map'.idxLastCheck = map.idxLastCheck ∧
      ∀ len, map.Fits len → map'.Fits len := by
  refine .ite (fun _ => .ok ?_) fun hcreated => ?_
  · exact ⟨hsound, hdrafted, rfl, rfl, fun len hlen => hlen⟩
  have hcreated : map.lastDraftCreated = true := by simpa using hcreated
  refine .bind (returns_at (hdrafted.key hcreated)) fun curr hcurr => ?_
  have hslots := hsound.slots curr hcurr
  refine .bind (returns_at (hslots.symm ▸ hdrafted.value hcreated)) fun value hvalue => .pure ?_
  refine ⟨⟨hsound.pos, ?_⟩, ⟨fun _ => ?_, hdrafted.value⟩, rfl, rfl, fun len hlen => ?_⟩
  · refine forall_mem_set hsound.slots ?_ _
    exact (length_set ..).trans hslots
  · rw [length_set]
    exact hdrafted.key hcreated
  · intro key hkey
    refine forall_mem_set hlen ?_ _ key hkey
    refine ⟨(hlen curr hcurr).1, fun value' hvalue' => ?_⟩
    rcases mem_or_eq_of_mem_set hvalue' with hold | rfl
    · exact (hlen curr hcurr).2 value' hold
    · exact (hlen curr hcurr).2 value hvalue

end NgramMap

end ExpertPin.Draft
