import ExpertPin.Grammar.Decoding

/-!
# Independence of the tokens

Where no rule has a token element, the state of the grammar depends on the text alone, and not on
the pieces that it comes in (`acceptPieces_outcome`): the stacks are those that follow on the code
points, one after another, and the decoder carries what is not complete.  What a lazy grammar
replays are the pieces of the text from the match on (`replay_spans`).
-/

namespace ExpertPin.Grammar

open Search
open Utf8
open List

variable {rules : Rules} {fuel : ℕ} {chr : UInt32} {codePoints codePoints' : List UInt32}
  {X Y Z : PosStack}

/-! ## The stacks after a text -/

/-- The engine returns from a character on a stack. -/
def Returns (rules : Rules) (fuel : ℕ) (chr : UInt32) (X : PosStack) : Prop :=
  (acceptChr rules chr fuel [] X).isSome

/-- A character leads from one stack to another. -/
def Leads (rules : Rules) (fuel : ℕ) (chr : UInt32) (X Y : PosStack) : Prop :=
  ∃ out, acceptChr rules chr fuel [] X = some out ∧ Y ∈ out

/-- Code points lead from one stack to another. -/
def Follows (rules : Rules) (fuel : ℕ) : List UInt32 → PosStack → PosStack → Prop
  | [], X, Y => X = Y
  | chr :: codePoints, X, Y => ∃ Z, Leads rules fuel chr X Z ∧ Follows rules fuel codePoints Z Y

/-- The engine returns from all of the code points, wherever they lead. -/
def ReturnsOn (rules : Rules) (fuel : ℕ) : List UInt32 → PosStack → Prop
  | [], _ => True
  | chr :: codePoints, X =>
    Returns rules fuel chr X ∧ ∀ Z, Leads rules fuel chr X Z → ReturnsOn rules fuel codePoints Z

theorem follows_append : Follows rules fuel (codePoints ++ codePoints') X Y ↔
    ∃ Z, Follows rules fuel codePoints X Z ∧ Follows rules fuel codePoints' Z Y := by
  induction codePoints generalizing X with
  | nil => exact ⟨fun h => ⟨X, rfl, h⟩, fun ⟨_, heq, h⟩ => heq ▸ h⟩
  | cons chr codePoints ih =>
    constructor
    · rintro ⟨W, hlead, h⟩
      obtain ⟨Z, hfirst, hrest⟩ := ih.mp h
      exact ⟨Z, ⟨W, hlead, hfirst⟩, hrest⟩
    · rintro ⟨Z, ⟨W, hlead, hfirst⟩, hrest⟩
      exact ⟨W, hlead, ih.mpr ⟨Z, hfirst, hrest⟩⟩

theorem returnsOn_append : ReturnsOn rules fuel (codePoints ++ codePoints') X ↔
    ReturnsOn rules fuel codePoints X ∧
      ∀ Z, Follows rules fuel codePoints X Z → ReturnsOn rules fuel codePoints' Z := by
  induction codePoints generalizing X with
  | nil => exact ⟨fun h => ⟨trivial, fun _ heq => heq ▸ h⟩, fun h => h.2 X rfl⟩
  | cons chr codePoints ih =>
    constructor
    · rintro ⟨hreturns, hall⟩
      refine ⟨⟨hreturns, fun W hlead => (ih.mp (hall W hlead)).1⟩, ?_⟩
      rintro Z ⟨W, hlead, hfollows⟩
      exact (ih.mp (hall W hlead)).2 Z hfollows
    · rintro ⟨⟨hreturns, hfirst⟩, hrest⟩
      refine ⟨hreturns, fun W hlead => ih.mpr ⟨hfirst W hlead, fun Z hfollows => ?_⟩⟩
      exact hrest Z ⟨W, hlead, hfollows⟩

/-- Nothing follows on the empty stack, as long as there are code points. -/
theorem not_follows_nil (hne : codePoints ≠ []) : ¬Follows rules fuel codePoints [] Y := by
  cases codePoints with
  | nil => exact absurd rfl hne
  | cons chr codePoints =>
    rintro ⟨Z, ⟨out, hout, hZ⟩, _⟩
    obtain rfl := Option.some.inj hout
    exact absurd hZ not_mem_nil

theorem returnsOn_nil : ReturnsOn rules fuel codePoints [] := by
  cases codePoints with
  | nil => trivial
  | cons chr codePoints =>
    refine ⟨rfl, ?_⟩
    rintro Z ⟨out, hout, hZ⟩
    obtain rfl := Option.some.inj hout
    exact absurd hZ not_mem_nil

/-! ## The engine -/

theorem yields_some {σ : Type*} {out : List σ} {ok : Prop} {P : σ → Prop} (hok : ok)
    (hP : ∀ s, ¬P s) : Yields (some out) ok fun s => s ∈ out ∨ P s where
  isSome_iff := iff_of_true rfl hok
  mem_iff out' hout s := by
    obtain rfl := Option.some.inj hout
    exact ⟨.inl, fun h => h.resolve_right (hP s)⟩

theorem acceptChr_yields (rules : Rules) (fuel : ℕ) (chr : UInt32) (out : List PosStack)
    (X : PosStack) : Yields (acceptChr rules chr fuel out X) (Returns rules fuel chr X)
      fun Y => Y ∈ out ∨ Leads rules fuel chr X Y := by
  -- no stack is added
  have hnone : acceptChr rules chr fuel [] X = some [] →
      Yields (some out) (Returns rules fuel chr X) fun Y => Y ∈ out ∨ Leads rules fuel chr X Y := by
    intro h
    refine yields_some (by rw [Returns, h]; rfl) ?_
    rintro Y ⟨out, hout, hY⟩
    rw [h] at hout
    obtain rfl := Option.some.inj hout
    exact absurd hY not_mem_nil
  cases X with
  | nil => exact hnone rfl
  | cons pos below =>
    by_cases htoken : (rules.at pos).type = .token ∨ (rules.at pos).type = .tokenNot
    · have heq : ∀ out, acceptChr rules chr fuel out (pos :: below) = some out :=
        fun _ => if_pos htoken
      rw [heq out]
      exact hnone (heq [])
    · have heq : ∀ out, acceptChr rules chr fuel out (pos :: below) =
          (matchChar rules pos chr).bind fun m =>
            if m.1 then advanceStack rules fuel out (pushPos rules m.2 below) else some out :=
        fun _ => if_neg htoken
      cases hmatch : matchChar rules pos chr with
      | none =>
        rw [hmatch] at heq
        rw [heq out]
        refine ⟨?_, fun _ h => nomatch h⟩
        rw [Returns, heq []]
        exact Iff.rfl
      | some m =>
        rw [hmatch] at heq
        by_cases hm : m.1 = true
        · have hadvance : ∀ out, acceptChr rules chr fuel out (pos :: below) =
              advanceStack rules fuel out (pushPos rules m.2 below) :=
            fun out => (heq out).trans (if_pos hm)
          rw [hadvance out]
          unfold Returns Leads
          rw [hadvance []]
          exact search_yields _ fuel _ [] out
        · have hskip : ∀ out, acceptChr rules chr fuel out (pos :: below) = some out :=
            fun out => (heq out).trans (if_neg hm)
          rw [hskip out]
          exact hnone (hskip [])

theorem acceptCodePoints_yields (rules : Rules) (fuel : ℕ) (codePoints : List UInt32)
    (currentStacks : List PosStack) :
    Yields (acceptCodePoints rules fuel codePoints currentStacks)
      (∀ X ∈ currentStacks, ReturnsOn rules fuel codePoints X)
      fun Y => ∃ X ∈ currentStacks, Follows rules fuel codePoints X Y := by
  induction codePoints generalizing currentStacks with
  | nil =>
    refine ⟨iff_of_true rfl fun _ _ => trivial, fun out hout Y => ?_⟩
    obtain rfl := Option.some.inj hout
    exact ⟨fun hY => ⟨Y, hY, rfl⟩, fun ⟨_, hX, heq⟩ => heq ▸ hX⟩
  | cons chr codePoints ih =>
    have hone := fun X (_ : X ∈ currentStacks) out => acceptChr_yields rules fuel chr out X
    have hstep := Yields.foldlM hone []
    rw [acceptCodePoints]
    cases hnext : currentStacks.foldlM (acceptChr rules chr fuel) [] with
    | none =>
      have hno : ¬∀ X ∈ currentStacks, Returns rules fuel chr X := by
        intro hall
        have hsome := hstep.isSome_iff.mpr hall
        rw [hnext] at hsome
        cases hsome
      exact ⟨iff_of_false Bool.false_ne_true fun h => hno fun X hX => (h X hX).1, fun _ h =>
        nomatch h⟩
    | some nextStacks =>
      have hreturns : ∀ X ∈ currentStacks, Returns rules fuel chr X :=
        hstep.isSome_iff.mp (by rw [hnext]; rfl)
      have hmem : ∀ Z, Z ∈ nextStacks ↔ ∃ X ∈ currentStacks, Leads rules fuel chr X Z := by
        intro Z
        rw [hstep.mem_iff nextStacks hnext Z]
        exact ⟨fun h => h.resolve_left not_mem_nil, .inr⟩
      have hok : (∀ X ∈ currentStacks, ReturnsOn rules fuel (chr :: codePoints) X) ↔
          ∀ Z ∈ nextStacks, ReturnsOn rules fuel codePoints Z := by
        constructor
        · intro h Z hZ
          obtain ⟨X, hX, hlead⟩ := (hmem Z).mp hZ
          exact (h X hX).2 Z hlead
        · exact fun h X hX => ⟨hreturns X hX, fun Z hlead => h Z ((hmem Z).mpr ⟨X, hX, hlead⟩)⟩
      have hfollows : ∀ Y, (∃ X ∈ currentStacks, Follows rules fuel (chr :: codePoints) X Y) ↔
          ∃ Z ∈ nextStacks, Follows rules fuel codePoints Z Y := by
        intro Y
        constructor
        · rintro ⟨X, hX, Z, hlead, h⟩
          exact ⟨Z, (hmem Z).mpr ⟨X, hX, hlead⟩, h⟩
        · rintro ⟨Z, hZ, h⟩
          obtain ⟨X, hX, hlead⟩ := (hmem Z).mp hZ
          exact ⟨X, hX, Z, hlead, h⟩
      have hrest : (some nextStacks >>= fun nextStacks => if nextStacks = [] then some [] else
          acceptCodePoints rules fuel codePoints nextStacks) =
          acceptCodePoints rules fuel codePoints nextStacks := by
        show (if nextStacks = [] then some [] else _) = _
        split
        case isTrue hnil =>
          subst hnil
          cases codePoints with
          | nil => rfl
          | cons chr codePoints => rfl
        case isFalse => rfl
      rw [hrest]
      refine ⟨(ih nextStacks).isSome_iff.trans hok.symm, fun out hout Y => ?_⟩
      rw [hfollows]
      exact (ih nextStacks).mem_iff out hout Y

/-- No rule has a token element. -/
def CharOnly (rules : Rules) : Prop := ∀ rule ∈ rules, ∀ e ∈ rule, e.isToken = false

theorem CharOnly.isToken_at (h : CharOnly rules) (pos : Pos) : (rules.at pos).isToken = false := by
  rw [Rules.at]
  cases hget : (rules.rule pos.rule)[pos.off]? with
  | none => rfl
  | some e =>
    refine h _ ?_ e (mem_of_getElem? hget)
    rw [Rules.rule] at hget ⊢
    cases hrule : rules[pos.rule]? with
    | none =>
      rw [hrule] at hget
      cases hget
    | some rule => exact mem_of_getElem? hrule

theorem mem_foldl_insert (xs out : List PosStack) (y : PosStack) :
    y ∈ xs.foldl (fun out x => if x ∈ out then out else out ++ [x]) out ↔ y ∈ out ∨ y ∈ xs := by
  induction xs generalizing out with
  | nil => exact ⟨.inl, fun h => h.resolve_right not_mem_nil⟩
  | cons x xs ih =>
    have hstep : y ∈ (if x ∈ out then out else out ++ [x]) ↔ y ∈ out ∨ y = x := by
      split
      case isTrue hx => exact ⟨.inl, fun h => h.elim id fun heq => heq ▸ hx⟩
      case isFalse => rw [mem_append, mem_singleton]
    rw [foldl_cons, ih, hstep, mem_cons, or_assoc]

theorem acceptTokenStack_yields (hchars : CharOnly rules) (token : Token)
    (codePoints : List UInt32) (fuel : ℕ) (out : List PosStack) (X : PosStack) :
    Yields (acceptTokenStack rules token codePoints fuel out X) (ReturnsOn rules fuel codePoints X)
      fun Y => Y ∈ out ∨ X ≠ [] ∧ Follows rules fuel codePoints X Y := by
  cases X with
  | nil => exact yields_some returnsOn_nil fun _ h => h.1 rfl
  | cons pos below =>
    have hone := acceptCodePoints_yields rules fuel codePoints [pos :: below]
    rw [acceptTokenStack, if_neg (by rw [hchars.isToken_at]; exact Bool.false_ne_true)]
    refine ⟨?_, fun out' hout' Y => ?_⟩
    · rw [Option.isSome_map, hone.isSome_iff, forall_mem_singleton]
    · obtain ⟨currentStacks, hcurrent, rfl⟩ := Option.map_eq_some_iff.mp hout'
      rw [mem_foldl_insert, hone.mem_iff currentStacks hcurrent Y]
      simp

/-! ## Pieces -/

/-- `llama_grammar_accept_token` for one piece after another. -/
def acceptPieces (fuel : ℕ) : TokenGrammar → List (Token × List UInt8) →
    Option (Except TokenGrammar TokenGrammar)
  | grammar, [] => some (.ok grammar)
  | grammar, (token, piece) :: pieces =>
    (acceptToken fuel grammar token piece).bind fun
      | .ok grammar => acceptPieces fuel grammar pieces
      | .error grammar => some (.error grammar)

/-- What is to be after code points that leave a partial character `q`: the stacks are those that
follow, and without any it throws. -/
structure Outcome (fuel : ℕ) (g : TokenGrammar) (codePoints : List UInt32) (q : PartialUtf8)
    (P : PosStack → Prop) (r : Option (Except TokenGrammar TokenGrammar)) : Prop where
  isSome_iff : r.isSome ↔ ∀ X ∈ g.allStacks, ReturnsOn g.rules fuel codePoints X
  ok : ∀ g', r = some (.ok g') →
    ∃ news, g' = { g with allStacks := news, partialUtf8 := q } ∧ news ≠ [] ∧ ∀ Y, Y ∈ news ↔ P Y
  error : ∀ g', r = some (.error g') → g'.allStacks = [] ∧ ∀ Y, ¬P Y

/-- The stack is one of those that survive the code points. -/
def Survives (fuel : ℕ) (g : TokenGrammar) (codePoints : List UInt32) (Y : PosStack) : Prop :=
  ∃ X ∈ g.allStacks, X ≠ [] ∧ Follows g.rules fuel codePoints X Y

variable {g g' : TokenGrammar} {token : Token} {piece : List UInt8}
  {pieces : List (Token × List UInt8)}

theorem acceptToken_outcome (fuel : ℕ) (hchars : CharOnly g.rules) (token : Token)
    (hfits : Fits g.partialUtf8.nRemain piece) (hcarry : 0 ≤ g.partialUtf8.nRemain) :
    Outcome fuel g (decodeBytes g.partialUtf8 piece).1 (decodeBytes g.partialUtf8 piece).2
      (Survives fuel g (decodeBytes g.partialUtf8 piece).1) (acceptToken fuel g token piece) := by
  have hone := fun X (_ : X ∈ g.allStacks) out =>
    acceptTokenStack_yields hchars token (decodeBytes g.partialUtf8 piece).1 fuel out X
  have hyields := Yields.foldlM hone []
  have hmem : ∀ news, g.allStacks.foldlM (acceptTokenStack g.rules token
      (decodeBytes g.partialUtf8 piece).1 fuel) [] = some news →
      ∀ Y, Y ∈ news ↔ Survives fuel g (decodeBytes g.partialUtf8 piece).1 Y := by
    intro news hnews Y
    rw [hyields.mem_iff news hnews Y]
    exact ⟨fun h => h.resolve_left not_mem_nil, .inr⟩
  rw [acceptToken, decodeUtf8_eq hfits hcarry]
  refine ⟨?_, fun g' h => ?_, fun g' h => ?_⟩
  · rw [Option.isSome_map]
    exact hyields.isSome_iff
  · obtain ⟨news, hnews, heq⟩ := Option.map_eq_some_iff.mp h
    by_cases hnil : news = []
    · rw [if_pos hnil] at heq
      cases heq
    · rw [if_neg hnil] at heq
      exact ⟨news, (Except.ok.inj heq).symm, hnil, hmem news hnews⟩
  · obtain ⟨news, hnews, heq⟩ := Option.map_eq_some_iff.mp h
    by_cases hnil : news = []
    · subst hnil
      rw [if_pos rfl] at heq
      obtain rfl := Except.error.inj heq
      exact ⟨rfl, fun Y hY => absurd ((hmem [] hnews Y).mpr hY) not_mem_nil⟩
    · rw [if_neg hnil] at heq
      cases heq

theorem survives_append : Survives fuel g (codePoints ++ codePoints') Y ↔
    ∃ Z, Survives fuel g codePoints Z ∧ Follows g.rules fuel codePoints' Z Y := by
  constructor
  · rintro ⟨X, hX, hne, h⟩
    obtain ⟨Z, hfirst, hrest⟩ := follows_append.mp h
    exact ⟨Z, ⟨X, hX, hne, hfirst⟩, hrest⟩
  · rintro ⟨Z, ⟨X, hX, hne, hfirst⟩, hrest⟩
    exact ⟨X, hX, hne, follows_append.mpr ⟨Z, hfirst, hrest⟩⟩

theorem returnsOn_all_append : (∀ X ∈ g.allStacks, ReturnsOn g.rules fuel
      (codePoints ++ codePoints') X) ↔
    (∀ X ∈ g.allStacks, ReturnsOn g.rules fuel codePoints X) ∧
      ∀ Z, Survives fuel g codePoints Z → ReturnsOn g.rules fuel codePoints' Z := by
  constructor
  · intro h
    refine ⟨fun X hX => (returnsOn_append.mp (h X hX)).1, ?_⟩
    rintro Z ⟨X, hX, -, hfollows⟩
    exact (returnsOn_append.mp (h X hX)).2 Z hfollows
  · rintro ⟨hfirst, hrest⟩ X hX
    by_cases hnil : X = []
    · exact hnil ▸ returnsOn_nil
    · exact returnsOn_append.mpr ⟨hfirst X hX, fun Z hfollows => hrest Z ⟨X, hX, hnil, hfollows⟩⟩

/-- The bytes of pieces. -/
def bytesOf (pieces : List (Token × List UInt8)) : List UInt8 := pieces.flatMap Prod.snd

/-- The last piece is not empty. -/
def Closes (pieces : List (Token × List UInt8)) : Prop :=
  ∃ front token piece, pieces = front ++ [(token, piece)] ∧ piece ≠ []

theorem Closes.bytesOf_ne_nil (h : Closes pieces) : bytesOf pieces ≠ [] := by
  obtain ⟨front, token, piece, rfl, hne⟩ := h
  simp [bytesOf, hne]

theorem Closes.tail {p : Token × List UInt8} (h : Closes (p :: pieces)) :
    pieces = [] ∧ p.2 ≠ [] ∨ Closes pieces := by
  obtain ⟨front, token, piece, heq, hne⟩ := h
  cases front with
  | nil =>
    obtain ⟨rfl, rfl⟩ := cons.inj heq
    exact .inl ⟨rfl, hne⟩
  | cons q front =>
    obtain ⟨rfl, rfl⟩ := cons.inj heq
    exact .inr ⟨front, token, piece, rfl, hne⟩

/-- **Pieces**: the outcome of pieces that end with a character, and the last of which is not
empty, is the one of their bytes. -/
theorem acceptPieces_outcome (fuel : ℕ) (pieces : List (Token × List UInt8))
    (hchars : CharOnly g.rules) (hfits : Fits g.partialUtf8.nRemain (bytesOf pieces))
    (hcarry : 0 ≤ g.partialUtf8.nRemain)
    (hcloses : Closes pieces) (hend : (decodeBytes g.partialUtf8 (bytesOf pieces)).2.nRemain = 0) :
    Outcome fuel g (decodeBytes g.partialUtf8 (bytesOf pieces)).1
      (decodeBytes g.partialUtf8 (bytesOf pieces)).2
      (Survives fuel g (decodeBytes g.partialUtf8 (bytesOf pieces)).1)
      (acceptPieces fuel g pieces) := by
  induction pieces generalizing g with
  | nil => exact absurd rfl hcloses.bytesOf_ne_nil
  | cons p pieces ih =>
    obtain ⟨token, piece⟩ := p
    have hbytes : bytesOf ((token, piece) :: pieces) = piece ++ bytesOf pieces := rfl
    rw [hbytes] at hfits hend ⊢
    obtain ⟨hfirst, hrest⟩ := (Fits.append_iff _ _ _).mp hfits
    have hnonneg := hfirst.nRemain_nonneg hcarry
    have hone := acceptToken_outcome fuel hchars token hfirst hcarry
    rw [decodeBytes_append] at hend ⊢
    generalize hdecoded : decodeBytes g.partialUtf8 piece = decoded at hrest hnonneg hone hend ⊢
    rw [acceptPieces]
    rcases hcloses.tail with ⟨rfl, hne⟩ | hcloses
    · have hlast : ((acceptToken fuel g token piece).bind fun
          | .ok grammar => acceptPieces fuel grammar []
          | .error grammar => some (.error grammar)) = acceptToken fuel g token piece := by
        rcases acceptToken fuel g token piece with _ | _ | _
        · rfl
        · rfl
        · rfl
      rw [hlast]
      simpa [bytesOf] using hone
    · have hne := decodeBytes_ne_nil hcloses.bytesOf_ne_nil hend
      rcases haccept : acceptToken fuel g token piece with _ | g' | g'
      · rw [haccept] at hone
        refine ⟨iff_of_false Bool.false_ne_true fun hall => ?_, nofun, nofun⟩
        exact Bool.false_ne_true (hone.isSome_iff.mpr (returnsOn_all_append.mp hall).1)
      · rw [haccept] at hone
        obtain ⟨hnil, hno⟩ := hone.error g' rfl
        refine ⟨iff_of_true rfl ?_, nofun, ?_⟩
        · exact returnsOn_all_append.mpr ⟨hone.isSome_iff.mp rfl, fun Z hZ => absurd hZ (hno Z)⟩
        · rintro g'' heq
          obtain rfl := Except.error.inj (Option.some.inj heq)
          refine ⟨hnil, fun Y hY => ?_⟩
          obtain ⟨Z, hZ, -⟩ := survives_append.mp hY
          exact hno Z hZ
      · rw [haccept] at hone
        obtain ⟨news, rfl, -, hmem⟩ := hone.ok g' rfl
        have hsurvives : ∀ Y, Survives fuel { g with allStacks := news, partialUtf8 := decoded.2 }
            (decodeBytes decoded.2 (bytesOf pieces)).1 Y ↔
            Survives fuel g (decoded.1 ++ (decodeBytes decoded.2 (bytesOf pieces)).1) Y := by
          intro Y
          rw [survives_append]
          constructor
          · rintro ⟨Z, hZ, -, h⟩
            exact ⟨Z, (hmem Z).mp hZ, h⟩
          · rintro ⟨Z, hZ, h⟩
            refine ⟨Z, (hmem Z).mpr hZ, ?_, h⟩
            rintro rfl
            exact not_follows_nil hne h
        have htail := ih (g := { g with allStacks := news, partialUtf8 := decoded.2 }) hchars
          hrest hnonneg hcloses hend
        refine ⟨htail.isSome_iff.trans ?_, fun g' hg' => ?_, fun g' hg' => ?_⟩
        · rw [returnsOn_all_append, and_iff_right (hone.isSome_iff.mp rfl)]
          exact forall_congr' fun Z => imp_congr_left (hmem Z)
        · obtain ⟨news', rfl, hne', hmem'⟩ := htail.ok g' hg'
          exact ⟨news', rfl, hne', fun Y => (hmem' Y).trans (hsurvives Y)⟩
        · obtain ⟨hnil, hno⟩ := htail.error g' hg'
          exact ⟨hnil, fun Y hY => hno Y ((hsurvives Y).mpr hY)⟩

/-- Nothing came back from both, both threw and left no stacks, or both left the same set of stacks
and the same partial character. -/
inductive SameResult : Option (Except TokenGrammar TokenGrammar) →
    Option (Except TokenGrammar TokenGrammar) → Prop
  | none : SameResult none none
  | error {g g' : TokenGrammar} : g.allStacks = [] → g'.allStacks = [] →
      SameResult (some (.error g)) (some (.error g'))
  | ok {g g' : TokenGrammar} : g.rules = g'.rules → g.partialUtf8 = g'.partialUtf8 →
      g.awaitingTrigger = g'.awaitingTrigger → (∀ X, X ∈ g.allStacks ↔ X ∈ g'.allStacks) →
      SameResult (some (.ok g)) (some (.ok g'))

/-- The grammars differ at most in what they have collected and in what triggers them. -/
structure Agrees (g g' : TokenGrammar) : Prop where
  rules : g.rules = g'.rules
  allStacks : g.allStacks = g'.allStacks
  partialUtf8 : g.partialUtf8 = g'.partialUtf8
  awaitingTrigger : g.awaitingTrigger = g'.awaitingTrigger

theorem Agrees.outcome {q : PartialUtf8} {P : PosStack → Prop}
    {r : Option (Except TokenGrammar TokenGrammar)} (hagrees : Agrees g g')
    (h : Outcome fuel g' codePoints q P r) :
    (r.isSome ↔ ∀ X ∈ g.allStacks, ReturnsOn g.rules fuel codePoints X) := by
  rw [hagrees.rules, hagrees.allStacks]
  exact h.isSome_iff

/-- Two results with one outcome. -/
theorem Outcome.same {q : PartialUtf8} {P : PosStack → Prop}
    {r r' : Option (Except TokenGrammar TokenGrammar)} (hagrees : Agrees g g')
    (h : Outcome fuel g codePoints q P r) (h' : Outcome fuel g' codePoints q P r') :
    SameResult r r' := by
  have hiff := h.isSome_iff.trans (hagrees.outcome h').symm
  have hconflict : ∀ {r r' : Option (Except TokenGrammar TokenGrammar)}
      {g g' g₁ g₂ : TokenGrammar}, Outcome fuel g codePoints q P r →
      Outcome fuel g' codePoints q P r' → r = some (.ok g₁) → r' ≠ some (.error g₂) := by
    intro r r' g g' g₁ g₂ h h' hok herror
    obtain ⟨news, -, hne, hmem⟩ := h.ok g₁ hok
    obtain ⟨Y, hY⟩ := exists_mem_of_ne_nil news hne
    exact (h'.error g₂ herror).2 Y ((hmem Y).mp hY)
  rcases r with _ | g₁ | g₁
  · rcases r' with _ | _
    · exact .none
    · exact absurd (hiff.mpr rfl) Bool.false_ne_true
  · rcases r' with _ | g₂ | g₂
    · exact absurd (hiff.mp rfl) Bool.false_ne_true
    · exact .error (h.error g₁ rfl).1 (h'.error g₂ rfl).1
    · exact absurd rfl (hconflict h' h rfl)
  · rcases r' with _ | g₂ | g₂
    · exact absurd (hiff.mp rfl) Bool.false_ne_true
    · exact absurd rfl (hconflict h h' rfl)
    · obtain ⟨news, rfl, -, hmem⟩ := h.ok g₁ rfl
      obtain ⟨news', rfl, -, hmem'⟩ := h'.ok g₂ rfl
      exact .ok hagrees.rules rfl hagrees.awaitingTrigger fun X => (hmem X).trans (hmem' X).symm

/-- The pieces are a text, and the last of them is not empty. -/
structure Spells (text : List Char) (pieces : List (Token × List UInt8)) : Prop where
  bytes : bytesOf pieces = Utf8.encode text
  closes : pieces ≠ [] → Closes pieces

variable {text : List Char}

theorem Spells.nil_iff (h : Spells text pieces) :
    pieces = [] ↔ Utf8.encode text = [] := by
  refine ⟨?_, fun hnil => ?_⟩
  · rintro rfl
    exact h.bytes.symm
  · by_contra hne
    exact (h.closes hne).bytesOf_ne_nil (h.bytes.trans hnil)

theorem Spells.outcome (h : Spells text pieces) (fuel : ℕ)
    (hchars : CharOnly g.rules) (hcarry : g.partialUtf8.nRemain = 0) (hnul : '\x00' ∉ text)
    (hne : pieces ≠ []) :
    Outcome fuel g (decodeBytes g.partialUtf8 (Utf8.encode text)).1
      (decodeBytes g.partialUtf8 (Utf8.encode text)).2
      (Survives fuel g (decodeBytes g.partialUtf8 (Utf8.encode text)).1)
      (acceptPieces fuel g pieces) := by
  obtain ⟨hfits, hend⟩ := fits_encode hnul hcarry
  have hpieces := acceptPieces_outcome fuel pieces hchars
  rw [h.bytes] at hpieces
  exact hpieces hfits (Int.le_of_eq hcarry.symm) (h.closes hne) hend

/-- **Cuts**: a text without 0 has one result, whatever the pieces are that it comes in. -/
theorem Spells.same {pieces' : List (Token × List UInt8)}
    (h : Spells text pieces) (fuel : ℕ) (hagrees : Agrees g g') (hchars : CharOnly g.rules)
    (hcarry : g.partialUtf8.nRemain = 0) (hnul : '\x00' ∉ text) (h' : Spells text pieces') :
    SameResult (acceptPieces fuel g pieces) (acceptPieces fuel g' pieces') := by
  by_cases hnil : pieces = []
  · obtain rfl := hnil
    obtain rfl := h'.nil_iff.mpr (h.nil_iff.mp rfl)
    exact .ok hagrees.rules hagrees.partialUtf8 hagrees.awaitingTrigger fun _ =>
      hagrees.allStacks ▸ Iff.rfl
  · have hsame : Survives fuel g = Survives fuel g' := by
      unfold Survives
      rw [hagrees.rules, hagrees.allStacks]
    have hchars' : CharOnly g'.rules := hagrees.rules ▸ hchars
    have hcarry' : g'.partialUtf8.nRemain = 0 := hagrees.partialUtf8 ▸ hcarry
    have hout := h.outcome fuel hchars hcarry hnul hnil
    have hout' := h'.outcome fuel hchars' hcarry' hnul fun hnil' =>
      hnil (h.nil_iff.mpr (h'.nil_iff.mp hnil'))
    rw [hsame, hagrees.partialUtf8] at hout
    exact hout.same hagrees hout'

/-! ## The trigger -/

/-- `llama_grammar_accept_impl` for one token after another. -/
def acceptAll (fuel : ℕ) (vocab : Vocab) : TokenGrammar → List Token →
    Option (Except TokenGrammar TokenGrammar)
  | grammar, [] => some (.ok grammar)
  | grammar, token :: tokens =>
    (acceptImpl fuel vocab grammar token).bind fun
      | .ok grammar => acceptAll fuel vocab grammar tokens
      | .error grammar => some (.error grammar)

/-- Where the pieces of tokens begin and end in their text, which begins at `pos`. -/
def spans (vocab : Vocab) (pos : ℕ) : List Token → List (Token × ℕ × ℕ)
  | [] => []
  | token :: tokens =>
    (token, pos, pos + (vocab.tokenToPiece token).length) ::
      spans vocab (pos + (vocab.tokenToPiece token).length) tokens

/-- The pieces of tokens from `start` on, where their text begins at `pos`. -/
def cut (vocab : Vocab) (start pos : ℕ) : List Token → List (Token × List UInt8)
  | [] => []
  | token :: tokens =>
    let piece := vocab.tokenToPiece token
    if pos + piece.length ≤ start then cut vocab start (pos + piece.length) tokens
    else (token, piece.drop (start - pos)) :: cut vocab start (pos + piece.length) tokens

variable {vocab : Vocab} {start pos : ℕ} {tokens : List Token}

/-- Only the stacks and the partial character are changed. -/
theorem acceptToken_ok (h : acceptToken fuel g token piece = some (.ok g')) :
    ∃ news q, g' = { g with allStacks := news, partialUtf8 := q } := by
  obtain ⟨news, -, heq⟩ := Option.map_eq_some_iff.mp h
  split at heq
  · cases heq
  · exact ⟨news, _, (Except.ok.inj heq).symm⟩

theorem replay_ok {positions : List (Token × ℕ × ℕ)}
    (h : replay fuel start g positions = some (.ok g')) :
    ∃ news q, g' = { g with allStacks := news, partialUtf8 := q } := by
  induction positions generalizing g with
  | nil =>
    obtain rfl := Except.ok.inj (Option.some.inj h)
    exact ⟨g.allStacks, g.partialUtf8, rfl⟩
  | cons p positions ih =>
    rw [replay] at h
    split at h
    case isTrue => exact ih h
    case isFalse =>
      obtain ⟨r, haccept, h⟩ := Option.bind_eq_some_iff.mp h
      cases r with
      | error => cases h
      | ok g₁ =>
        obtain ⟨news, q, rfl⟩ := acceptToken_ok haccept
        obtain ⟨news', q', rfl⟩ := ih h
        exact ⟨news', q', rfl⟩

theorem spans_append (tokens' : List Token) : spans vocab pos (tokens ++ tokens') =
    spans vocab pos tokens ++
      spans vocab (pos + (tokens.flatMap vocab.tokenToPiece).length) tokens' := by
  induction tokens generalizing pos with
  | nil => rfl
  | cons token tokens ih =>
    rw [cons_append, spans, ih, spans, cons_append, flatMap_cons,
      length_append, Nat.add_assoc]

theorem bytesOf_cut : bytesOf (cut vocab start pos tokens) =
    (tokens.flatMap vocab.tokenToPiece).drop (start - pos) := by
  induction tokens generalizing pos with
  | nil => exact drop_nil.symm
  | cons token tokens ih =>
    rw [cut, flatMap_cons, drop_append]
    split
    case isTrue hle =>
      have hshort : (vocab.tokenToPiece token).length ≤ start - pos := Nat.le_sub_of_add_le' hle
      rw [ih, drop_eq_nil_of_le hshort, nil_append, Nat.sub_add_eq]
    case isFalse =>
      rw [bytesOf, flatMap_cons, ← bytesOf, ih, Nat.sub_add_eq]

/-- What is replayed are the pieces from the match on. -/
theorem replay_spans {before : List UInt8} (hpos : before.length = pos)
    (hbuffer : g.triggerBuffer = before ++ tokens.flatMap vocab.tokenToPiece) :
    replay fuel start g (spans vocab pos tokens) =
      acceptPieces fuel g (cut vocab start pos tokens) := by
  induction tokens generalizing g before pos with
  | nil => rfl
  | cons token tokens ih =>
    have hrest := append_assoc before (vocab.tokenToPiece token)
      (tokens.flatMap vocab.tokenToPiece)
    rw [flatMap_cons, ← hrest] at hbuffer
    have hlength : (before ++ vocab.tokenToPiece token).length =
        pos + (vocab.tokenToPiece token).length := by rw [length_append, hpos]
    rw [spans, replay, cut]
    split
    case isTrue => exact ih hlength hbuffer
    case isFalse hlt =>
      have hpiece : (g.triggerBuffer.drop (if pos < start then start else pos)).take
          (pos + (vocab.tokenToPiece token).length - if pos < start then start else pos) =
          (vocab.tokenToPiece token).drop (start - pos) := by
        have hmax : (if pos < start then start else pos) = before.length + (start - pos) := by
          split <;> omega
        rw [hmax, hbuffer, append_assoc, drop_append, drop_eq_nil_of_le
          (Nat.le_add_right _ _), nil_append, Nat.add_sub_cancel_left, hpos,
          Nat.add_sub_add_left, drop_append_of_le_length (by omega)]
        exact take_left' (length_drop)
      dsimp only
      rw [hpiece, acceptPieces]
      rcases haccept : acceptToken fuel g token
        ((vocab.tokenToPiece token).drop (start - pos)) with _ | g' | g'
      · rfl
      · rfl
      · obtain ⟨news, q, rfl⟩ := acceptToken_ok haccept
        exact ih hlength hbuffer

theorem cut_append (tokens' : List Token) : cut vocab start pos (tokens ++ tokens') =
    cut vocab start pos tokens ++
      cut vocab start (pos + (tokens.flatMap vocab.tokenToPiece).length) tokens' := by
  induction tokens generalizing pos with
  | nil => rfl
  | cons token tokens ih =>
    rw [cons_append, cut, cut, ih, flatMap_cons, length_append, Nat.add_assoc]
    split
    · rfl
    · rfl

theorem cut_eq_nil (h : pos + (tokens.flatMap vocab.tokenToPiece).length ≤ start) :
    cut vocab start pos tokens = [] := by
  induction tokens generalizing pos with
  | nil => rfl
  | cons token tokens ih =>
    rw [flatMap_cons, length_append, ← Nat.add_assoc] at h
    rw [cut, if_pos (Nat.le_of_add_right_le h)]
    exact ih h

/-- The grammar has collected the tokens, and no pattern has been found behind the last of them. -/
structure Collected (vocab : Vocab) (g : TokenGrammar) (tokens : List Token) (g' : TokenGrammar) :
    Prop where
  eq : g' = { g with
    triggerBuffer := g.triggerBuffer ++ tokens.flatMap vocab.tokenToPiece
    triggerBufferPositions :=
      g.triggerBufferPositions ++ spans vocab g.triggerBuffer.length tokens }
  none : tokens ≠ [] → g'.triggerPatterns.findSome? (fun find => find g'.triggerBuffer) = none

/-- One token, for a grammar that waits and still waits afterwards. -/
theorem acceptImpl_collected (hwaits : g.awaitingTrigger = true)
    (h : acceptImpl fuel vocab g token = some (.ok g')) (hwaits' : g'.awaitingTrigger = true) :
    Collected vocab g [token] g' := by
  rw [acceptImpl, if_pos hwaits] at h
  split at h
  case isTrue =>
    obtain ⟨news, q, rfl⟩ := acceptToken_ok h
    cases hwaits'
  case isFalse =>
    dsimp only at h
    split at h
    case h_1 hnone =>
      obtain rfl := Except.ok.inj (Option.some.inj h)
      refine ⟨?_, fun _ => hnone⟩
      simp [spans]
    case h_2 =>
      obtain ⟨r, hreplay, heq⟩ := Option.map_eq_some_iff.mp h
      cases r with
      | error => cases heq
      | ok g₁ =>
        obtain ⟨news, q, rfl⟩ := replay_ok hreplay
        dsimp only at heq
        split at heq
        · obtain rfl := Except.ok.inj heq
          cases hwaits'
        · cases heq

/-- A grammar that does not wait never does again. -/
theorem acceptAll_not_awaiting (hwaits : g.awaitingTrigger = false)
    (h : acceptAll fuel vocab g tokens = some (.ok g')) : g'.awaitingTrigger = false := by
  induction tokens generalizing g with
  | nil =>
    obtain rfl := Except.ok.inj (Option.some.inj h)
    exact hwaits
  | cons token tokens ih =>
    obtain ⟨r, himpl, h⟩ := Option.bind_eq_some_iff.mp h
    cases r with
    | error => cases h
    | ok g₁ =>
      refine ih ?_ h
      rw [acceptImpl, if_neg (by rw [hwaits]; exact Bool.false_ne_true)] at himpl
      split at himpl
      · split at himpl
        · exact Except.ok.inj (Option.some.inj himpl) ▸ hwaits
        · cases himpl
      · obtain ⟨news, q, rfl⟩ := acceptToken_ok himpl
        exact hwaits

theorem acceptAll_collected (hwaits : g.awaitingTrigger = true)
    (h : acceptAll fuel vocab g tokens = some (.ok g')) (hwaits' : g'.awaitingTrigger = true) :
    Collected vocab g tokens g' := by
  induction tokens generalizing g with
  | nil =>
    obtain rfl := Except.ok.inj (Option.some.inj h)
    refine ⟨?_, fun hne => absurd rfl hne⟩
    simp [spans]
  | cons token tokens ih =>
    obtain ⟨r, himpl, h⟩ := Option.bind_eq_some_iff.mp h
    cases r with
    | error => cases h
    | ok g₁ =>
      cases hwaits₁ : g₁.awaitingTrigger with
      | false =>
        have hno := acceptAll_not_awaiting hwaits₁ h
        rw [hwaits'] at hno
        cases hno
      | true =>
        have hone := acceptImpl_collected hwaits himpl hwaits₁
        have hrest := ih hwaits₁ h
        refine ⟨?_, fun _ => ?_⟩
        · rw [hrest.eq, hone.eq]
          simp [spans]
        · by_cases hnil : tokens = []
          · subst hnil
            obtain rfl := Except.ok.inj (Option.some.inj h)
            exact hone.none (cons_ne_nil _ _)
          · exact hrest.none hnil

/-- The tokens behind which nothing was found, and one more: the last piece that is replayed is not
empty. -/
theorem closes_cut (h : Collected vocab g tokens g') (hfind : g'.triggerPatterns.findSome?
      (fun find => find (g'.triggerBuffer ++ vocab.tokenToPiece token)) = some start)
    (hne : cut vocab start 0 (tokens ++ [token]) ≠ []) :
    Closes (cut vocab start 0 (tokens ++ [token])) := by
  have hpiece : vocab.tokenToPiece token ≠ [] := by
    intro hnil
    by_cases htokens : tokens = []
    · subst htokens
      exact hne (cut_eq_nil (by simp [hnil]))
    · rw [hnil, append_nil, h.none htokens] at hfind
      cases hfind
  have hstart : ¬start ≥ 0 + (tokens.flatMap vocab.tokenToPiece).length +
      (vocab.tokenToPiece token).length := by
    intro hle
    refine hne (cut_eq_nil ?_)
    simpa [Nat.add_assoc] using hle
  rw [cut_append]
  refine ⟨_, token, (vocab.tokenToPiece token).drop
    (start - (0 + (tokens.flatMap vocab.tokenToPiece).length)), congrArg _ (if_neg hstart), ?_⟩
  rw [Ne, drop_eq_nil_iff]
  have hpos := length_pos_iff.mpr hpiece
  omega

/-- The pieces of a text, none of which is empty. -/
structure IsCut (text : List Char) (pieces : List (Token × List UInt8)) : Prop where
  bytes : bytesOf pieces = Utf8.encode text
  nonempty : ∀ p ∈ pieces, p.2 ≠ []

theorem IsCut.spells (h : IsCut text pieces) : Spells text pieces where
  bytes := h.bytes
  closes hne := by
    have heq := dropLast_append_getLast hne
    refine ⟨pieces.dropLast, (pieces.getLast hne).1, (pieces.getLast hne).2, heq.symm, ?_⟩
    exact h.nonempty _ (getLast_mem hne)

/-- What a lazy grammar does with the token behind which a pattern finds a match. -/
theorem acceptImpl_triggered (hwaits : g.awaitingTrigger = true)
    (htoken : token ∉ g.triggerTokens) (hbuffer : g.triggerBuffer = [])
    (hcollected : Collected vocab g tokens g') (hpositions : g.triggerBufferPositions = [])
    (hfind : g.triggerPatterns.findSome?
      (fun find => find (g'.triggerBuffer ++ vocab.tokenToPiece token)) = some start)
    (hstart : start ≤ (g'.triggerBuffer ++ vocab.tokenToPiece token).length)
    (hchars : CharOnly g.rules) (hcarry : g.partialUtf8.nRemain = 0) (hnul : '\x00' ∉ text)
    (htext : (g'.triggerBuffer ++ vocab.tokenToPiece token).drop start = Utf8.encode text)
    (h : Spells text pieces) :
    SameResult (acceptImpl fuel vocab g' token)
      (acceptPieces fuel { g with awaitingTrigger := false } pieces) := by
  have hpatterns : g'.triggerPatterns = g.triggerPatterns := by rw [hcollected.eq]
  have hspells : Spells text (cut vocab start 0 (tokens ++ [token])) := by
    refine ⟨?_, closes_cut hcollected (hpatterns ▸ hfind)⟩
    rw [bytesOf_cut, ← htext, hcollected.eq]
    simp [hbuffer]
  obtain rfl := hcollected.eq
  rw [acceptImpl, if_pos hwaits, if_neg htoken]
  dsimp only at hfind hstart ⊢
  rw [hfind]
  dsimp only
  have hpositions' : g.triggerBufferPositions ++ spans vocab g.triggerBuffer.length tokens ++
      [(token, (g.triggerBuffer ++ tokens.flatMap vocab.tokenToPiece).length,
        (g.triggerBuffer ++ tokens.flatMap vocab.tokenToPiece).length +
          (vocab.tokenToPiece token).length)] = spans vocab 0 (tokens ++ [token]) := by
    rw [spans_append, hpositions, hbuffer, nil_append, nil_append]
    simp [spans]
  rw [hpositions']
  generalize hlazy : ({ g with
    awaitingTrigger := false
    triggerBuffer := g.triggerBuffer ++ tokens.flatMap vocab.tokenToPiece ++
      vocab.tokenToPiece token
    triggerBufferPositions := spans vocab 0 (tokens ++ [token]) } : TokenGrammar) = lazy
  have hsame : SameResult (replay fuel start lazy (spans vocab 0 (tokens ++ [token])))
      (acceptPieces fuel { g with awaitingTrigger := false } pieces) := by
    have hlazybuffer : lazy.triggerBuffer =
        [] ++ (tokens ++ [token]).flatMap vocab.tokenToPiece := by
      rw [← hlazy]
      simp [hbuffer]
    have hreplay : replay fuel start lazy (spans vocab 0 (tokens ++ [token])) =
        acceptPieces fuel lazy (cut vocab start 0 (tokens ++ [token])) :=
      replay_spans rfl hlazybuffer
    rw [hreplay]
    refine hspells.same fuel ?_ ?_ ?_ hnul h
    · exact hlazy ▸ ⟨rfl, rfl, rfl, rfl⟩
    · exact hlazy ▸ hchars
    · exact hlazy ▸ hcarry
  cases hreplay : replay fuel start lazy (spans vocab 0 (tokens ++ [token])) with
  | none =>
    rw [hreplay] at hsame
    exact hsame
  | some r =>
    rw [hreplay] at hsame
    cases r with
    | error g₁ => exact hsame
    | ok g₁ =>
      obtain ⟨news, q, rfl⟩ := replay_ok hreplay
      have hle : start ≤ lazy.triggerBuffer.length := by
        rw [← hlazy]
        exact hstart
      rw [Option.map_some]
      dsimp only
      rw [if_pos hle]
      generalize acceptPieces fuel { g with awaitingTrigger := false } pieces = r' at hsame ⊢
      cases hsame with
      | ok hrules hcarry hwaits hstacks => exact .ok hrules hcarry hwaits hstacks

/-- **Independence of the tokens**: all ways to cut a text into pieces have one result, and so has
what a lazy grammar collects until a pattern finds the text at the end of it. -/
theorem accept_ignores_pieces (fuel : ℕ) (vocab : Vocab) (g : TokenGrammar)
    (hchars : CharOnly g.rules) (hcarry : g.partialUtf8.nRemain = 0) (text : List Char)
    (hnul : '\x00' ∉ text) (pieces : List (Token × List UInt8)) (hpieces : IsCut text pieces) :
    (∀ pieces', IsCut text pieces' →
      SameResult (acceptPieces fuel g pieces) (acceptPieces fuel g pieces')) ∧
    (∀ token, text ≠ [] →
      SameResult (acceptPieces fuel g pieces) (acceptToken fuel g token (Utf8.encode text))) ∧
    (g.awaitingTrigger = true → g.triggerBuffer = [] → g.triggerBufferPositions = [] →
      ∀ tokens g', acceptAll fuel vocab g tokens = some (.ok g') → g'.awaitingTrigger = true →
      ∀ token start, token ∉ g.triggerTokens →
      g.triggerPatterns.findSome?
        (fun find => find (g'.triggerBuffer ++ vocab.tokenToPiece token)) = some start →
      start ≤ (g'.triggerBuffer ++ vocab.tokenToPiece token).length →
      (g'.triggerBuffer ++ vocab.tokenToPiece token).drop start = Utf8.encode text →
      SameResult (acceptImpl fuel vocab g' token)
        (acceptPieces fuel { g with awaitingTrigger := false } pieces)) := by
  have hself : Agrees g g := ⟨rfl, rfl, rfl, rfl⟩
  refine ⟨fun pieces' hpieces' => ?_, fun token hne => ?_, ?_⟩
  · exact hpieces.spells.same fuel hself hchars hcarry hnul hpieces'.spells
  · have hbytes : Utf8.encode text ≠ [] := by
      intro hnil
      have hlength := length_le_length_encode text
      rw [hnil] at hlength
      exact hne (eq_nil_of_length_eq_zero (Nat.le_zero.mp hlength))
    have hone : IsCut text [(token, Utf8.encode text)] :=
      ⟨append_nil _, fun p hp => mem_singleton.mp hp ▸ hbytes⟩
    have hsame := hpieces.spells.same fuel hself hchars hcarry hnul hone.spells
    have haccept : acceptPieces fuel g [(token, Utf8.encode text)] =
        acceptToken fuel g token (Utf8.encode text) := by
      rw [acceptPieces]
      rcases acceptToken fuel g token (Utf8.encode text) with _ | _ | _
      · rfl
      · rfl
      · rfl
    rwa [haccept] at hsame
  · intro hwaits hbuffer hpositions tokens g' hall hwaits' token start htoken hfind hstart htext
    exact acceptImpl_triggered hwaits htoken hbuffer (acceptAll_collected hwaits hall hwaits')
      hpositions hfind hstart hchars hcarry hnul htext hpieces.spells

/-- A lazy grammar of one character, which a pattern triggers at an offset of one text. -/
def lazyChar (chr : UInt32) (found : List UInt8) (start : ℕ) : TokenGrammar where
  rules := [[⟨.char, chr⟩, ⟨.end_, 0⟩]]
  allStacks := [[⟨0, 0⟩]]
  partialUtf8 := ⟨0, 0⟩
  awaitingTrigger := true
  triggerBuffer := []
  triggerBufferPositions := []
  triggerTokens := []
  triggerPatterns := [fun buffer => if buffer = found then some start else none]

/-- A vocabulary of two pieces. -/
def twoPieces (first second : List UInt8) : Vocab where
  tokenToPiece token := if token = 0 then first else second
  isEog _ := false

theorem charOnly_lazyChar (chr : UInt32) (found : List UInt8) (start : ℕ) :
    CharOnly (lazyChar chr found start).rules := by
  intro rule hrule e he
  obtain rfl := mem_singleton.mp hrule
  rcases mem_cons.mp he with rfl | he
  · rfl
  · obtain rfl := mem_singleton.mp he
    rfl

/-- The two bytes of `é`, the first of which is in a token with a character before them. -/
theorem accept_ignores_pieces_accent : SameResult
      (acceptPieces 1 (lazyChar 233 [120, 0xC3, 0xA9] 1) [(0, [0xC3]), (1, [0xA9])])
      (acceptToken 1 (lazyChar 233 [120, 0xC3, 0xA9] 1) 0 (Utf8.encode ['é'])) ∧
    SameResult (acceptImpl 1 (twoPieces [120, 0xC3] [0xA9]) { lazyChar 233 [120, 0xC3, 0xA9] 1 with
        triggerBuffer := [120, 0xC3]
        triggerBufferPositions := [(0, 0, 2)] } 1)
      (acceptPieces 1 { lazyChar 233 [120, 0xC3, 0xA9] 1 with awaitingTrigger := false }
        [(0, [0xC3]), (1, [0xA9])]) := by
  have h := accept_ignores_pieces 1 (twoPieces [120, 0xC3] [0xA9])
    (lazyChar 233 [120, 0xC3, 0xA9] 1) (charOnly_lazyChar _ _ _) rfl ['é'] (by decide)
    [(0, [0xC3]), (1, [0xA9])] ⟨by decide +kernel, by decide⟩
  refine ⟨h.2.1 0 (by decide), ?_⟩
  exact h.2.2 rfl rfl rfl [0] _ rfl rfl 1 1 (by decide) rfl (by decide) (by decide +kernel)

/-- Behind `a`, which is all that the grammar takes, comes the first byte of a character: a token
of its own for the replay, which throws.  In one piece with the `a` it is only left over.  The
empty text as a piece drops the empty stack, and without any piece it stays. -/
theorem not_accept_ignores_pieces : CharOnly (lazyChar 97 [97, 0xC3] 0).rules ∧
    (∃ waiting, acceptAll 1 (twoPieces [97] [0xC3]) (lazyChar 97 [97, 0xC3] 0) [0] =
        some (.ok waiting) ∧ waiting.awaitingTrigger = true ∧
      (waiting.triggerPatterns.findSome? fun find => find (waiting.triggerBuffer ++ [0xC3])) =
        some 0 ∧
      ¬SameResult (acceptImpl 1 (twoPieces [97] [0xC3]) waiting 1)
        (acceptToken 1 { lazyChar 97 [97, 0xC3] 0 with awaitingTrigger := false } 0
          ((waiting.triggerBuffer ++ [0xC3]).drop 0))) ∧
    ¬SameResult (acceptPieces 1 { lazyChar 97 [] 0 with allStacks := [[]] } [])
      (acceptToken 1 { lazyChar 97 [] 0 with allStacks := [[]] } 0 (Utf8.encode [])) := by
  refine ⟨charOnly_lazyChar _ _ _, ⟨_, rfl, rfl, rfl, ?_⟩, ?_⟩
  · show ¬SameResult (some (.error _)) (some (.ok _))
    exact nofun
  · show ¬SameResult (some (.ok _)) (some (.error _))
    exact nofun

end ExpertPin.Grammar
