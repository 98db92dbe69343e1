import ExpertPin.Draft.NgramMap
import ExpertPin.Lib.Returns

/-!
# The positions of the n-gram map

A draft looks for the last n-gram only where a whole n-gram and m-gram fit behind it, so that
all it reads there is in the history.  What it reads at the positions that the map has kept is
in the history when they are (`Fits`), and this is what the requests before have to grant.
-/

namespace ExpertPin.Draft

open List
open Nat

/-- The m-gram of a value ends in a history of some length. -/
def NgramValue.Fits (len m : ℕ) (value : NgramValue) : Prop :=
  value.valueIdx ≠ 0 → value.valueIdx + m ≤ len

theorem returns_at {α : Type} {xs : List α} {i : ℕ} (h : i < xs.length) :
    Returns (at' xs i) (· ∈ xs) := by
  rw [at', getElem?_eq_getElem h]
  exact .ok (getElem_mem h)

namespace NgramMap

/-! ## Reading the history -/

variable {inp key : List Token}

theorem returns_hash (acc : UInt32) {start len : ℕ} (h : start + len ≤ inp.length) :
    Returns (hash inp acc start len) fun _ => True := by
  induction len generalizing acc start with
  | zero => exact .ok trivial
  | succ len ih =>
    refine .bind (returns_at (Nat.lt_of_lt_of_le (Nat.lt_add_of_pos_right len.succ_pos) h))
      fun token _ => ih _ ?_
    rwa [Nat.add_right_comm]

theorem returns_matchesAt {start : ℕ} {tokens : List Token}
    (h : start + tokens.length ≤ inp.length) :
    Returns (matchesAt inp start tokens) fun _ => True := by
  induction tokens generalizing start with
  | nil => exact .ok trivial
  | cons token tokens ih =>
    rw [length_cons] at h
    refine .bind (returns_at (Nat.lt_of_lt_of_le
      (Nat.lt_add_of_pos_right (Nat.succ_pos _)) h)) fun token' _ => .ite ?_ ?_
    · exact fun _ => .pure trivial
    · exact fun _ => ih (by rwa [Nat.add_right_comm])

theorem returns_sameAt {start start' len : ℕ} (h : start + len ≤ inp.length)
    (h' : start' + len ≤ inp.length) : Returns (sameAt inp start start' len) fun _ => True := by
  induction len generalizing start start' with
  | zero => exact .ok trivial
  | succ len ih =>
    refine .bind (returns_at (Nat.lt_of_lt_of_le (Nat.lt_add_of_pos_right len.succ_pos) h))
      fun token _ => ?_
    refine .bind (returns_at (Nat.lt_of_lt_of_le (Nat.lt_add_of_pos_right len.succ_pos) h'))
      fun token' _ => .ite ?_ ?_
    · exact fun _ => .pure trivial
    · exact fun _ => ih (by rwa [Nat.add_right_comm]) (by rwa [Nat.add_right_comm])

theorem returns_readTokens {start len : ℕ} (h : start + len ≤ inp.length) :
    Returns (readTokens inp start len) fun tokens => tokens.length = len := by
  induction len generalizing start with
  | zero => exact .ok rfl
  | succ len ih =>
    refine .bind (returns_at (Nat.lt_of_lt_of_le (Nat.lt_add_of_pos_right len.succ_pos) h))
      fun token _ => ?_
    refine .bind (ih (by rwa [Nat.add_right_comm])) fun tokens htokens => ?_
    exact .pure (congrArg Nat.succ htokens)

/-! ## Looking for the last n-gram -/

theorem returns_searchDown {last j : ℕ} (h : j + key.length ≤ inp.length) :
    Returns (searchDown inp key last j) (· ≤ j) := by
  induction j with
  | zero => exact .ok (Nat.le_refl 0)
  | succ j ih =>
    have hrest : j + key.length ≤ inp.length :=
      Nat.le_trans (Nat.add_le_add_right (Nat.le_succ j) _) h
    refine .ite (fun _ => .ok (Nat.zero_le _)) fun _ => ?_
    refine .bind (returns_matchesAt h) fun found _ => .ite ?_ ?_
    · exact fun _ => .pure (Nat.le_refl _)
    · exact fun _ => (ih hrest).mono fun p hp => Nat.le_succ_of_le hp

theorem returns_addHashes {n last j : ℕ} {keyMap : List ℕ} (hkeyMap : keyMap ≠ [])
    (h : j + n ≤ inp.length) :
    Returns (addHashes inp n last keyMap j) fun keyMap' => keyMap'.length = keyMap.length := by
  induction j generalizing keyMap with
  | zero => exact .ok rfl
  | succ j ih =>
    have hrest : j + n ≤ inp.length := Nat.le_trans (Nat.add_le_add_right (Nat.le_succ j) _) h
    refine .ite (fun _ => .ok rfl) fun _ => ?_
    refine .bind (returns_hash 0 h) fun hash _ => ?_
    have hlt : hash.toNat % keyMap.length < keyMap.length :=
      Nat.mod_lt _ (length_pos_iff.mpr hkeyMap)
    refine .bind (returns_at hlt) fun entry _ => ?_
    by_cases hentry : entry = 0
    · rw [if_pos hentry]
      refine (ih ?_ hrest).mono fun keyMap' hlength => hlength.trans (length_set ..)
      rw [← length_pos_iff, length_set]
      exact length_pos_iff.mpr hkeyMap
    · rw [if_neg hentry]
      exact ih hkeyMap hrest

variable {map : NgramMap}

/-- The history is long enough to look for an n-gram in it. -/
structure Searchable (map : NgramMap) (inp : List Token) : Prop where
  pos : 0 < map.n
  long : 2 * map.n + map.m ≤ inp.length
  begun : map.sizeLastBegin ≤ inp.length

theorem returns_lookup (h : map.Searchable inp) (hkey : key.length = map.n) :
    Returns (map.lookup inp key) fun p => p + map.n + map.m + 1 ≤ inp.length := by
  have hlong := h.long
  have hpos := h.pos
  refine .ite (fun _ => .ok (by omega)) fun hkeyMap => ?_
  refine .bind (returns_hash 0 (by omega)) fun hash _ => ?_
  refine .bind (returns_at (mod_lt _ (length_pos_iff.mpr hkeyMap))) fun idxKey _ => ?_
  refine .ite (fun hidx => ?_) fun _ => .pure (by omega)
  refine .bind (returns_matchesAt (by omega)) fun found _ => .ite ?_ ?_
  · exact fun _ => .pure (by omega)
  · exact fun _ => .pure (by omega)

theorem returns_findMatch (h : map.Searchable inp) (hkey : key.length = map.n) :
    Returns (map.findMatch inp key) fun p => p + map.n + map.m + 1 ≤ inp.length := by
  have hlong := h.long
  have hpos := h.pos
  have hbegun := h.begun
  refine .bind (returns_lookup h hkey) fun p hp => ?_
  have hbegun' : Returns (map.searchBegun inp key p) fun p =>
      p + map.n + map.m + 1 ≤ inp.length := by
    refine .ite (fun hrest => ?_) fun _ => .ok hp
    exact (returns_searchDown (by omega)).mono fun q hq => by omega
  refine .bind hbegun' fun p hp => .ite (fun _ => ?_) fun _ => .ok hp
  exact (returns_searchDown (by omega)).mono fun q hq => by omega

theorem returns_addNgrams (h : map.Searchable inp) : Returns (map.addNgrams inp) fun map' =>
      ∃ keyMap last, map' = { map with keyMap, keyMapLastIdx := last } := by
  have hlong := h.long
  have hpos := h.pos
  have hbegun := h.begun
  refine .ite (fun _ => .ok ⟨map.keyMap, map.keyMapLastIdx, rfl⟩) fun hkeyMap => ?_
  have hbegun' : Returns (map.addBegun inp) fun keyMap => keyMap.length = map.keyMap.length :=
    .ite (fun _ => returns_addHashes hkeyMap (by omega)) fun _ => .ok rfl
  refine .bind hbegun' fun keyMap hlength => ?_
  have hkeyMap' : keyMap ≠ [] := by
    rw [← length_pos_iff, hlength]
    exact length_pos_iff.mpr hkeyMap
  exact .bind (returns_addHashes hkeyMap' (by omega)) fun keyMap' _ => .pure ⟨_, _, rfl⟩

/-! ## The statistics of a key -/

theorem returns_findKey {offset : ℕ} {entries : List NgramKey}
    (h : ∀ entry ∈ entries, entry.keyIdx + key.length ≤ inp.length) :
    Returns (findKey inp key offset entries) fun o =>
      offset ≤ o ∧ o ≤ offset + entries.length := by
  induction entries generalizing offset with
  | nil => exact .ok ⟨le_refl _, le_refl _⟩
  | cons entry entries ih =>
    obtain ⟨hentry, hentries⟩ := forall_mem_cons.mp h
    refine .bind (returns_matchesAt hentry) fun found _ => .ite ?_ ?_
    · exact fun _ => .pure ⟨le_refl _, le_add_right _ _⟩
    · refine fun _ => (ih hentries).mono fun o ho => ⟨le_of_succ_le ho.1, ?_⟩
      rw [length_cons]
      exact le_trans ho.2 (le_of_eq (succ_add_eq_add_succ _ _))

variable {values : List NgramValue}

theorem returns_findValue {start v : ℕ}
    (h : start + map.m ≤ inp.length) (hvalues : ∀ value ∈ values, value.Fits inp.length map.m) :
    Returns (map.findValue inp start v values) fun p =>
      p.2.length = values.length ∧ ∀ value ∈ p.2, value.Fits inp.length map.m := by
  induction values generalizing v with
  | nil => exact .ok ⟨rfl, fun _ hvalue => nomatch hvalue⟩
  | cons value values ih =>
    obtain ⟨hvalue, hrest⟩ := forall_mem_cons.mp hvalues
    refine .ite (fun _ => .ok ⟨rfl, forall_mem_cons.mpr ⟨fun _ => h, hrest⟩⟩) fun hidx => ?_
    refine .bind (returns_sameAt h (hvalue hidx)) fun same _ => .ite ?_ ?_
    · exact fun _ => .pure ⟨rfl, hvalues⟩
    · refine fun _ => .bind (ih hrest) fun p hp => .pure ⟨congrArg succ hp.1, ?_⟩
      exact forall_mem_cons.mpr ⟨hvalue, hp.2⟩

/-- A hit does not move a value. -/
theorem fits_modify {m : ℕ} (v : ℕ)
    (h : ∀ value ∈ values, value.Fits inp.length m) :
    ∀ value ∈ values.modify v hit, value.Fits inp.length m := by
  intro value hvalue
  obtain ⟨i, hi, rfl⟩ := getElem_of_mem hvalue
  rw [getElem_modify]
  have hi' : i < values.length := by rwa [length_modify] at hi
  have hfits : values[i].Fits inp.length m := h _ (getElem_mem hi')
  split
  · exact hfits
  · exact hfits

theorem returns_countValues {i len : ℕ} (hkey : key.length = map.n)
    (h : len ≠ 0 → i + len + map.n + map.m ≤ inp.length + 1)
    (hvalues : ∀ value ∈ values, value.Fits inp.length map.m) :
    Returns (map.countValues inp key values i len) fun values' =>
      values'.length = values.length ∧ ∀ value ∈ values', value.Fits inp.length map.m := by
  induction len generalizing values i with
  | zero => exact .ok ⟨rfl, hvalues⟩
  | succ len ih =>
    have hend := h len.succ_ne_zero
    refine .bind (returns_matchesAt (by omega)) fun found _ => .ite (fun _ => ?_) fun _ => ?_
    · refine .bind (returns_findValue (by omega) hvalues) fun p hp => ?_
      cases hslot : p.1 with
      | none =>
        refine (ih (fun _ => by omega) hp.2).mono fun values' hvalues' => ?_
        exact ⟨hvalues'.1.trans hp.1, hvalues'.2⟩
      | some v =>
        refine (ih (fun _ => by omega) (fits_modify v hp.2)).mono fun values' hvalues' => ?_
        exact ⟨hvalues'.1.trans ((length_modify ..).trans hp.1), hvalues'.2⟩
    · exact ih (fun _ => by omega) hvalues

theorem returns_logValues {m : ℕ} (log : Bool)
    (h : ∀ value ∈ values, value.Fits inp.length m) :
    Returns (logValues log inp m values) fun _ => True := by
  induction values with
  | nil => exact .ok trivial
  | cons value values ih =>
    obtain ⟨hvalue, hrest⟩ := forall_mem_cons.mp h
    refine .ite (fun hlog => ?_) fun _ => ih hrest
    exact .bind (returns_readTokens (hvalue hlog.2)) fun tokens _ => ih hrest

theorem returns_draftTokens {matchPos : ℕ} (h : matchPos + map.n + map.m ≤ inp.length)
    (nAccepted : Int16) : Returns (map.draftTokens inp matchPos nAccepted) fun _ => True := by
  refine (returns_readTokens ?_).mono fun _ _ => trivial
  omega

/-- The slot is one of the values. -/
theorem slotMax_lt (h : values ≠ []) :
    (slotMax values).2 < values.length := by
  have hfold : ∀ (ps : List (NgramValue × ℕ)) (best : ℕ × ℕ), best.2 < values.length →
      (∀ p ∈ ps, p.2 < values.length) →
      (ps.foldl (fun best p => if best.1 < p.1.valueNum then (p.1.valueNum, p.2) else best)
        best).2 < values.length := by
    intro ps
    induction ps with
    | nil => exact fun best hbest _ => hbest
    | cons p ps ih =>
      intro best hbest hps
      obtain ⟨hp, hps⟩ := forall_mem_cons.mp hps
      refine ih _ ?_ hps
      dsimp only
      split
      · exact hp
      · exact hbest
  refine hfold values.zipIdx (0, 0) (length_pos_iff.mpr h) fun p hp => ?_
  exact (mem_zipIdx' hp).1

end NgramMap

end ExpertPin.Draft
