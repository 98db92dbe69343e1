import ExpertPin.Draft.NgramCalls
import ExpertPin.Lib.Runs

/-!
# Requests to the n-gram map

A request begins with a prompt, and each history that it drafts from continues the prompt.
All indices are in range as long as the n-grams and the m-grams that the map knows end in the
history of a draft (`inRange_run`), and they do when no history is shorter than the one before
(`fits_of_grown`).  What `begin` keeps from a longer history need not.
-/

namespace ExpertPin.Draft

/-! ## Requests -/

inductive Call where
  | begin (prompt : List Token)
  | draft (inp : List Token) (sampled : Token)
  | accept (nAccepted : UInt16)

/-- The map with the prompt of the request, and whether the request has drafted. -/
structure Session where
  map : NgramMap
  prompt : Option (List Token) := none
  drafted : Bool := false

namespace Session

variable {s t s₀ : Session} {c : Call} {calls : List Call}

/-- The histories continue the prompt, and what is accepted has been drafted. -/
def Valid (s : Session) : Call → Prop
  | .begin _ => True
  | .draft inp _ => ∃ prompt, s.prompt = some prompt ∧ prompt <+: inp
  | .accept _ => s.drafted = true

def call (log : Bool) (s : Session) : Call → Except Fault Session
  | .begin prompt =>
    .ok { map := s.map.begin' prompt, prompt := some prompt, drafted := false }
  | .draft inp sampled => do
      let p ← s.map.draft log inp sampled
      return { s with map := p.1, drafted := true }
  | .accept nAccepted => do
      let map ← s.map.accept nAccepted
      return { s with map }

/-- The steps of a session. -/
def Step (log : Bool) (s : Session) (c : Call) (t : Session) : Prop :=
  s.Valid c ∧ s.call log c = .ok t

/-- Every index is in range, in every call of a session. -/
def InRange (log : Bool) (s₀ : Session) : Prop :=
  ∀ calls s c, Runs.Steps (Step log) s₀ calls s → s.Valid c → s.call log c ≠ .error .outOfRange

/-- The positions that the map knows end in the history of a draft that is long enough to look
at them. -/
def Fits (s : Session) : Call → Prop
  | .draft inp _ => 2 * s.map.n + s.map.m ≤ inp.length → s.map.Fits inp.length
  | _ => True

/-- What holds between the calls. -/
structure Sound (s : Session) : Prop where
  map : s.map.Sound
  begun : ∀ prompt, s.prompt = some prompt → s.map.sizeLastBegin = prompt.length
  drafted : s.drafted = true → s.map.Drafted

/-- One call on a map whose positions fit. -/
theorem returns_call (log : Bool) (h : s.Sound) (hc : s.Valid c) (hfits : s.Fits c) :
    s.call log c = .error .abort ∨ Returns (s.call log c) Sound := by
  cases c with
  | begin prompt =>
    right
    refine .ok ⟨NgramMap.sound_begin h.map prompt, fun prompt' hprompt => ?_, nofun⟩
    cases hprompt
    rfl
  | draft inp sampled =>
    obtain ⟨prompt, hprompt, hcontinues⟩ := hc
    have hbegun : s.map.sizeLastBegin ≤ inp.length :=
      (h.begun prompt hprompt).trans_le hcontinues.length_le
    rcases NgramMap.returns_draft log h.map hbegun hfits sampled with habort | hreturns
    · left
      rw [call, habort]
      rfl
    · right
      refine hreturns.bind fun p ⟨hsound, hdrafted, hlast, _⟩ =>
        .pure ⟨hsound, ?_, fun _ => hdrafted⟩
      exact fun prompt' hprompt' => hlast.trans (h.begun prompt' hprompt')
  | accept nAccepted =>
    right
    refine (NgramMap.returns_accept h.map (h.drafted hc) nAccepted).bind
      fun map ⟨hsound, hdrafted, hlast, _⟩ => .pure ⟨hsound, ?_, fun _ => hdrafted⟩
    exact fun prompt' hprompt' => hlast.trans (h.begun prompt' hprompt')

theorem sound_create {szKey szValue minHits : UInt16} {onlyKeys : Bool} (h : 1 ≤ szKey) :
    Sound ⟨.create szKey szValue onlyKeys minHits, none, false⟩ where
  map := ⟨UInt16.le_iff_toNat_le.mp h, nofun⟩
  begun := nofun
  drafted := nofun

theorem sound_step {log : Bool} (h : s.Sound) (hstep : s.Step log c t) (hfits : s.Fits c) :
    t.Sound := by
  obtain ⟨hvalid, hcall⟩ := hstep
  rcases returns_call log h hvalid hfits with habort | hreturns
  · rw [habort] at hcall
    cases hcall
  · exact hreturns.of_eq_ok hcall

/-! ## A history that is shorter -/

def longHistory : List Token := [0, 1, 0, 0, 0, 2, 0, 0]

def shortHistory : List Token := [0, 1, 0, 0, 0]

/-- The map at the begin of the long history. -/
def begunLong (minHits : UInt16) (rest : List ℕ) : NgramMap where
  sizeKey := 1
  sizeValue := 1
  keyOnly := true
  minHits := minHits
  sizeLastBegin := 8
  idxLastCheck := 8
  keyMap := 0 :: 0 :: 0 :: rest

/-- The map after a draft of `2` from it. -/
def entered (minHits : UInt16) (rest : List ℕ) : NgramMap where
  sizeKey := 1
  sizeValue := 1
  keyOnly := true
  keys := [⟨5, 0, 1, List.replicate maxValues { nAccepted := 1 }⟩]
  minHits := minHits
  sizeLastBegin := 8
  lastDraftCreated := true
  idxLastCheck := 8
  keyMap := 4 :: 1 :: 5 :: rest
  keyMapLastIdx := 5

section

open NgramMap

theorem addHashes_longHistory (rest : List ℕ) :
    addHashes longHistory 1 0 (0 :: 0 :: 0 :: rest) 5 = .ok (4 :: 1 :: 5 :: rest) := by
  have h5 : NgramMap.hash longHistory 0 5 1 = .ok 2 := rfl
  have h4 : NgramMap.hash longHistory 0 4 1 = .ok 0 := rfl
  have h3 : NgramMap.hash longHistory 0 3 1 = .ok 0 := rfl
  have h2 : NgramMap.hash longHistory 0 2 1 = .ok 0 := rfl
  have h1 : NgramMap.hash longHistory 0 1 1 = .ok 1 := rfl
  rw [addHashes_succ (Nat.succ_pos _) h5 rfl, addHashes_succ (Nat.succ_pos _) h4 rfl,
    addHashes_succ (Nat.succ_pos _) h3 rfl, addHashes_succ (Nat.succ_pos _) h2 rfl,
    addHashes_succ (Nat.succ_pos _) h1 rfl]
  rfl

theorem draft_longHistory (log : Bool) (minHits : UInt16) (rest : List ℕ) :
    (begunLong minHits rest).draft log longHistory 2 = .ok (entered minHits rest, [0]) := by
  let map := begunLong minHits rest
  have hhash : NgramMap.hash [2] 0 0 map.n = .ok 2 := rfl
  have hlookup : map.lookup longHistory [2] = .ok 0 := by
    rw [lookup_eq hhash rfl]
    rfl
  have hmatch : map.findMatch longHistory [2] = .ok 5 := by
    rw [findMatch, hlookup]
    rfl
  have hadd : map.addNgrams longHistory =
      .ok { map with keyMap := 4 :: 1 :: 5 :: rest, keyMapLastIdx := 5 } := by
    have hbegun : map.addBegun longHistory = .ok (4 :: 1 :: 5 :: rest) := addHashes_longHistory rest
    have hne : map.keyMap ≠ [] := List.cons_ne_nil _ _
    rw [addNgrams, if_neg hne, hbegun]
    rfl
  have hshort : ¬longHistory.length < 2 * map.n + map.m := by
    show ¬8 < 3
    decide
  have hlong : ¬2 ^ 32 - 1 ≤ longHistory.length := by
    show ¬2 ^ 32 - 1 ≤ 8
    decide
  rw [draft_of_long hshort hlong]
  exact draftFrom_eq rfl hmatch hadd (by decide)

theorem draft_shortHistory (log : Bool) (minHits : UInt16) (rest : List ℕ) :
    ((entered minHits rest).begin' shortHistory).draft log shortHistory 1 = .error .outOfRange := by
  let cleared : NgramMap := { entered minHits rest with
    keyMap := (entered minHits rest).keyMap.map fun keyIdx => if 8 ≤ keyIdx then 0 else keyIdx
    keyMapLastIdx := (8 - 1) % 2 ^ 32 }
  let map : NgramMap := { cleared with
    lastDraftCreated := false, idxLastCheck := 5, sizeLastBegin := 5 }
  have hbegin : (entered minHits rest).begin' shortHistory =
      { map with lastDraftCreated := true } := by
    have hshorter : 5 < (entered minHits rest).idxLastCheck := Nat.lt_of_sub_eq_succ rfl
    have hcleared : (entered minHits rest).clearHashes 5 = cleared :=
      if_pos ⟨List.cons_ne_nil _ _, hshorter⟩
    have hrefresh : refreshKeys 8 true [⟨5, 0, 1, List.replicate maxValues { nAccepted := 1 }⟩] =
      [⟨5, 0, 1, List.replicate maxValues { nAccepted := 1 }⟩] := by decide
    have hkeys : cleared.clearKeys 5 =
        { cleared with keys := [⟨5, 0, 1, List.replicate maxValues { nAccepted := 1 }⟩] } := by
      rw [clearKeys, if_pos ⟨hshorter, List.cons_ne_nil _ _⟩, ← hrefresh]
      rfl
    show ({ ((entered minHits rest).clearHashes 5).clearKeys 5 with
      idxLastCheck := 5, sizeLastBegin := 5 } : NgramMap) = _
    rw [hcleared, hkeys]
    rfl
  have hhash : NgramMap.hash [1] 0 0 map.n = .ok 1 := rfl
  have hlookup : map.lookup shortHistory [1] = .ok 1 := by
    rw [lookup_eq hhash rfl]
    rfl
  have hmatch : map.findMatch shortHistory [1] = .ok 1 := by
    rw [findMatch, hlookup]
    rfl
  have hadd : map.addNgrams shortHistory = .ok map := by
    have hne : map.keyMap ≠ [] := List.cons_ne_nil _ _
    rw [addNgrams, if_neg hne]
    rfl
  have hshort : ¬shortHistory.length < 2 * map.n + map.m := by
    show ¬5 < 3
    decide
  have hlong : ¬2 ^ 32 - 1 ≤ shortHistory.length := by
    show ¬2 ^ 32 - 1 ≤ 5
    decide
  have hfrom : map.draftFrom log shortHistory 1 = .error .outOfRange :=
    draftFrom_eq rfl hmatch hadd (by decide)
  rw [hbegin]
  exact (draft_of_long hshort hlong).trans hfrom

end

/-- The hashes of a new map behind the first three. -/
def noHashes : List ℕ := List.replicate (hashMapSize - 3) 0

theorem step_begin_longHistory (minHits : UInt16) :
    Step false ⟨.create 1 1 true minHits, none, false⟩ (.begin longHistory)
      ⟨begunLong minHits noHashes, some longHistory, false⟩ := by
  refine ⟨trivial, ?_⟩
  rw [call, NgramMap.begin_of_le (Nat.zero_le _)]
  rfl

theorem step_draft_longHistory (minHits : UInt16) :
    Step false ⟨begunLong minHits noHashes, some longHistory, false⟩ (.draft longHistory 2)
      ⟨entered minHits noHashes, some longHistory, true⟩ := by
  refine ⟨⟨longHistory, rfl, List.prefix_refl _⟩, ?_⟩
  rw [call, draft_longHistory]
  rfl

/-- In a session where the positions of the map fit at each draft all indices are in range. -/
theorem inRange_run {szKey szValue minHits : UInt16} {onlyKeys : Bool} (log : Bool)
    (hkey : 1 ≤ szKey)
    (hrun : Runs.Steps (fun s c t => s.Step log c t ∧ s.Fits c)
      ⟨.create szKey szValue onlyKeys minHits, none, false⟩ calls s)
    (hc : s.Valid c) (hfits : s.Fits c) : s.call log c ≠ .error .outOfRange := by
  have hsound : s.Sound :=
    hrun.invariant (fun s c t h hstep => sound_step h hstep.1 hstep.2) (sound_create hkey)
  intro herror
  rcases returns_call log hsound hc hfits with habort | hreturns
  · rw [habort] at herror
    cases herror
  · obtain ⟨t, ht, _⟩ := hreturns
    rw [ht] at herror
    cases herror

theorem inRange_run_longHistory :
    call false ⟨entered 1 noHashes, some longHistory, true⟩ (.accept 1) ≠ .error .outOfRange :=
  inRange_run false (Nat.le_refl 1) (.snoc (.snoc .refl ⟨step_begin_longHistory 1, trivial⟩)
      ⟨step_draft_longHistory 1, fun _ => nofun⟩) rfl trivial

/-- The key at `5` is kept when the short history begins, which ends there. -/
theorem not_inRange : ¬∀ (szKey szValue minHits : UInt16) (onlyKeys log : Bool),
    1 ≤ szKey → 1 ≤ szValue →
      InRange log ⟨.create szKey szValue onlyKeys minHits, none, false⟩ := by
  intro hinRange
  let s : Session :=
    ⟨(entered 1 noHashes).begin' shortHistory, some shortHistory, false⟩
  have hshorter : Step false ⟨entered 1 noHashes, some longHistory, true⟩ (.begin shortHistory) s :=
    ⟨trivial, rfl⟩
  have hrun : Runs.Steps (Step false) ⟨.create 1 1 true 1, none, false⟩
      [.begin longHistory, .draft longHistory 2, .begin shortHistory] s :=
    .snoc (.snoc (.snoc .refl (step_begin_longHistory 1)) (step_draft_longHistory 1)) hshorter
  have hvalid : s.Valid (.draft shortHistory 1) := ⟨shortHistory, rfl, List.prefix_refl _⟩
  have herror : s.call false (.draft shortHistory 1) = .error .outOfRange := by
    rw [call, draft_shortHistory]
    rfl
  exact hinRange 1 1 1 true false (Nat.le_refl 1) (Nat.le_refl 1) _ s _ hrun hvalid herror

end Session

end ExpertPin.Draft
