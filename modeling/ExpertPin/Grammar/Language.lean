import ExpertPin.Grammar.Recognition

/-!
# The language of the engine

`Holds` is the invariant of the stacks: after `w` they stand for the stacks of the
recogniser after `w` that are empty or have a class on top.  It holds after
`llama_grammar_init_impl` and each `llama_grammar_accept` keeps it.
-/

namespace ExpertPin.Grammar

open Search Pushdown
open List
open Option

variable {G : Grammar CharClass} {X : PosStack} {S S' : Stack CharClass} {start fuel : ℕ}
  {α β : List (Sym CharClass)} {news news' : List PosStack} {chr : UInt32} {w : List UInt32}
  {g g' : LlamaGrammar}

/-! ## One stack -/

theorem advanceStack_fuelMono (rules : Rules) : FuelMono (advanceStack rules) :=
  fun _ _ _ _ _ hle hrun => search_mono hle hrun

/-- A class on top is read or refused. -/
theorem Stands.acceptChr_cls {c : CharClass} (h : Stands G X ((.cls c :: β) :: S)) :
    ∃ Y, Stands G Y (push β S) ∧ ∀ fuel news, acceptChr (encode G) chr fuel news X =
      if c.has chr then advanceStack (encode G) fuel news Y else some news := by
  obtain _ | ⟨htop, hbelow⟩ := h
  obtain ⟨htype, hmatch⟩ := htop.at_cls chr
  refine ⟨_, Stands.pushPos hbelow htop.advance, fun fuel news => ?_⟩
  rw [acceptChr, hmatch, if_neg]
  case hnc => rcases htype with heq | heq | heq <;> rw [heq] <;> simp
  rfl

/-- The stacks after reading a character and what follows without reading. -/
def After (G : Grammar CharClass) (chr : UInt32) (S S' : Stack CharClass) : Prop :=
  ∃ r, Read Matches chr S r ∧ EpsStar G r S' ∧ Terminal S'

theorem Stands.acceptChr_spec (hG : WellFormed G) (h : Stands G X S) (hS : Within G S)
    (hterminal : Terminal S) (hrun : acceptChr (encode G) chr fuel news X = some news') :
    Advanced G (After G chr S) news news' := by
  have hkeep : (∀ r, ¬Read Matches chr S r) → news' = news →
      Advanced G (After G chr S) news news' := by
    rintro hno rfl
    refine ⟨fun _ hY => hY, fun _ hY => .inl hY, ?_⟩
    rintro S' ⟨r, hread, _⟩
    exact absurd hread (hno r)
  cases hterminal with
  | nil =>
    cases h
    exact hkeep nofun (some.inj hrun).symm
  | @cls c β S =>
    obtain ⟨Y, hY, heq⟩ := h.acceptChr_cls
    rw [heq] at hrun
    split at hrun
    case isTrue hmem =>
      have hadv := hY.advanced hG hS.rest hrun
      refine ⟨hadv.kept, fun Z hZ => ?_, ?_⟩
      · rcases hadv.sound Z hZ with hold | ⟨S', ⟨hsteps, hS'⟩, hstands⟩
        · exact .inl hold
        · exact .inr ⟨S', ⟨_, .mk hmem, hsteps, hS'⟩, hstands⟩
      · rintro S' ⟨r, ⟨_⟩, hsteps, hS'⟩
        exact hadv.complete S' ⟨hsteps, hS'⟩
    case isFalse hmem =>
      refine hkeep ?_ (some.inj hrun).symm
      rintro r ⟨hread⟩
      exact hmem hread

theorem acceptChr_fuelMono (rules : Rules) (chr : UInt32) : FuelMono (acceptChr rules chr) := by
  intro n m news X news' hle hrun
  cases X with
  | nil => exact hrun
  | cons pos below =>
    rw [acceptChr] at hrun ⊢
    split at hrun
    case isTrue htoken =>
      rw [if_pos htoken]
      exact hrun
    case isFalse htoken =>
      rw [if_neg htoken]
      obtain ⟨r, hmatch, hrun⟩ := bind_eq_some_iff.mp hrun
      refine bind_eq_some_iff.mpr ⟨r, hmatch, ?_⟩
      split at hrun
      case isTrue hmem =>
        rw [if_pos hmem]
        exact advanceStack_fuelMono rules _ _ _ _ _ hle hrun
      case isFalse hmem =>
        rw [if_neg hmem]
        exact hrun

/-! ## All stacks -/

/-- The recogniser starts with an alternative of the start rule. -/
def Starts (G : Grammar CharClass) (start : ℕ) (S : Stack CharClass) : Prop :=
  ∃ alt ∈ G.alts start, S = push alt []

theorem Starts.within (h : Starts G start S) : Within G S := by
  obtain ⟨alt, halt, rfl⟩ := h
  exact Within.nil.push halt (suffix_refl alt)

/-- The recogniser has come to `S` reading `w`, and can go on only by reading. -/
def Waits (G : Grammar CharClass) (start : ℕ) (w : List UInt32) (S : Stack CharClass) : Prop :=
  Reaches G Matches (Starts G start) w S ∧ Terminal S

theorem Waits.within (h : Waits G start w S) : Within G S := h.1.within fun _ => Starts.within

theorem waits_nil_iff : Waits G start [] S ↔
    ∃ S₀, Starts G start S₀ ∧ EpsStar G S₀ S ∧ Terminal S := by
  rw [Waits, reaches_nil_iff]
  constructor
  · rintro ⟨⟨S₀, hstart, hsteps⟩, hterminal⟩
    exact ⟨S₀, hstart, hsteps, hterminal⟩
  · rintro ⟨S₀, hstart, hsteps, hterminal⟩
    exact ⟨⟨S₀, hstart, hsteps⟩, hterminal⟩

theorem waits_snoc_iff : Waits G start (w ++ [chr]) S' ↔
    ∃ S, Waits G start w S ∧ After G chr S S' := by
  rw [Waits, reaches_snoc_iff]
  constructor
  · rintro ⟨⟨S, r, hreach, hread, hsteps⟩, hterminal⟩
    exact ⟨S, ⟨hreach, hread.terminal⟩, r, hread, hsteps, hterminal⟩
  · rintro ⟨S, ⟨hreach, _⟩, r, hread, hsteps, hterminal⟩
    exact ⟨⟨S, r, hreach, hread, hsteps⟩, hterminal⟩

/-- The stacks after `w` stand for those of the recogniser. -/
structure Holds (G : Grammar CharClass) (start : ℕ) (w : List UInt32) (g : LlamaGrammar) :
    Prop where
  rules : g.rules = encode G
  sound : ∀ X ∈ g.allStacks, ∃ S, Waits G start w S ∧ Stands G X S
  complete : ∀ S, Waits G start w S → ∃ X ∈ g.allStacks, Stands G X S

theorem Advanced.holds {P : Stack CharClass → Prop} (h : Advanced G P [] news)
    (hP : ∀ S, P S ↔ Waits G start w S) : Holds G start w ⟨encode G, news⟩ where
  rules := rfl
  sound X hX := by
    rcases h.sound X hX with hnil | ⟨S, hS, hstands⟩
    · exact absurd hnil not_mem_nil
    · exact ⟨S, (hP S).mp hS, hstands⟩
  complete S hS := h.complete S ((hP S).mpr hS)

/-- The stack of each pointer that initialisation advances from. -/
theorem stands_alternates (hG : WellFormed G) (hstart : start < G.length) :
    (∀ pos ∈ (encode G).alternates start, ∃ S, Starts G start S ∧
      Stands G (pushPos (encode G) pos []) S) ∧
    ∀ S, Starts G start S → ∃ pos ∈ (encode G).alternates start,
      Stands G (pushPos (encode G) pos []) S := by
  have hall := alternates_encode hG hstart
  constructor
  · intro pos hpos
    obtain ⟨i, hi, rfl⟩ := mem_iff_getElem.mp hpos
    have hi' : i < (G.alts start).length := hall.length_eq ▸ hi
    exact ⟨_, ⟨_, getElem_mem hi', rfl⟩, Stands.pushPos .nil (hall.get hi hi')⟩
  · rintro S ⟨alt, halt, rfl⟩
    obtain ⟨i, hi, rfl⟩ := mem_iff_getElem.mp halt
    have hi' : i < ((encode G).alternates start).length := hall.length_eq ▸ hi
    exact ⟨_, getElem_mem hi', Stands.pushPos .nil (hall.get hi' hi)⟩

/-- The fold of an initialisation that accepts the rules. -/
theorem foldlM_of_initImpl (hG : WellFormed G)
    (hinit : initImpl fuel (encode G) start = some (some g)) :
    ∃ news, ((encode G).alternates start).foldlM (fun newStacks pos =>
      advanceStack (encode G) fuel newStacks (pushPos (encode G) pos [])) [] = some news ∧
      g = ⟨encode G, news⟩ := by
  simp only [initImpl, copyRule_encode hG] at hinit
  split at hinit
  case isTrue => cases hinit
  case isFalse =>
    obtain ⟨news, hrun, heq⟩ := map_eq_some_iff.mp hinit
    exact ⟨news, hrun, (some.inj heq).symm⟩

theorem init_holds (hG : WellFormed G) (hstart : start < G.length)
    (hinit : initImpl fuel (encode G) start = some (some g)) : Holds G start [] g := by
  obtain ⟨news, hrun, rfl⟩ := foldlM_of_initImpl hG hinit
  obtain ⟨hsound, hcomplete⟩ := stands_alternates hG hstart
  refine (Advanced.foldlM_stands _ hsound hcomplete ?_ hrun).holds fun S' => waits_nil_iff.symm
  intro pos _ S hS hstands a b hone
  exact hstands.advanced hG hS.within hone

theorem accept_holds (hG : WellFormed G) (h : Holds G start w g)
    (hrun : accept fuel g chr = some g') : Holds G start (w ++ [chr]) g' := by
  obtain ⟨news, hfold, rfl⟩ := map_eq_some_iff.mp hrun
  rw [h.rules] at hfold ⊢
  refine (Advanced.foldlM_stands id h.sound h.complete ?_ hfold).holds fun S' =>
    waits_snoc_iff.symm
  intro X _ S hS hstands a b hone
  exact Stands.acceptChr_spec hG hstands hS.within hS.2 hone

theorem feed_snoc (fuel : ℕ) (g : LlamaGrammar) (w : List UInt32) (chr : UInt32) :
    feed fuel g (w ++ [chr]) = (feed fuel g w).bind fun g => accept fuel g chr := by
  rw [feed, foldlM_append]
  congr 1
  funext g'
  rw [foldlM_cons]
  exact bind_pure _

/-- The run lemma. -/
theorem feed_holds (hG : WellFormed G) (h : Holds G start [] g) (w : List UInt32) :
    ∀ {g'}, feed fuel g w = some g' → Holds G start w g' := by
  induction w using reverseRecOn with
  | nil =>
    intro g' hrun
    obtain rfl := some.inj hrun
    exact h
  | append_singleton w chr ih =>
    intro g' hrun
    rw [feed_snoc] at hrun
    obtain ⟨g₁, hfront, hlast⟩ := bind_eq_some_iff.mp hrun
    exact accept_holds hG (ih hfront) hlast

/-! ## Return -/

theorem accept_fuelMono : FuelMono accept := by
  intro n m g chr g' hle hrun
  obtain ⟨news, hfold, heq⟩ := map_eq_some_iff.mp hrun
  exact map_eq_some_iff.mpr ⟨news, (acceptChr_fuelMono g.rules chr).foldlM hle hfold, heq⟩

/-- No remainder that the recogniser can come to leads back to itself without reading and with
something left below it. -/
def NoHiddenRecursion (G : Grammar CharClass) (start : ℕ) : Prop :=
  ∀ w α r, Reaches G Matches (Starts G start) w (α :: r) → ¬Growing G α

theorem exists_accept (hG : WellFormed G) (hno : NoHiddenRecursion G start)
    (h : Holds G start w g) (chr : UInt32) : ∃ fuel g', accept fuel g chr = some g' := by
  have hstep : ∀ news X, X ∈ g.allStacks → True →
      ∃ n news', acceptChr g.rules chr n news X = some news' ∧ True := by
    intro news X hX _
    obtain ⟨S, hS, hstands⟩ := h.sound X hX
    rw [h.rules]
    obtain ⟨hreach, hterminal⟩ := hS
    have hwithin := hreach.within fun _ => Starts.within
    cases hterminal with
    | nil =>
      cases hstands
      exact ⟨0, news, rfl, trivial⟩
    | @cls c β S =>
      obtain ⟨Y, hY, heq⟩ := hstands.acceptChr_cls
      by_cases hmem : c.has chr
      · obtain ⟨n, news', hrun⟩ := hY.exists_advance hG hwithin.rest
          (fun α r hsteps => hno _ α r ((hreach.read (.mk hmem)).epsStar hsteps)) news
        exact ⟨n, news', by rw [heq, if_pos hmem, hrun], trivial⟩
      · exact ⟨0, news, by rw [heq, if_neg hmem], trivial⟩
  obtain ⟨n, news', hrun, _⟩ :=
    (acceptChr_fuelMono g.rules chr).exists_foldlM (P := fun _ => True) trivial hstep
  exact ⟨n, _, map_eq_some_iff.mpr ⟨news', hrun, rfl⟩⟩

theorem exists_feed (hG : WellFormed G) (hno : NoHiddenRecursion G start)
    (h : Holds G start [] g) (w : List UInt32) : ∃ fuel g', feed fuel g w = some g' := by
  induction w using reverseRecOn with
  | nil => exact ⟨0, g, rfl⟩
  | append_singleton w chr ih =>
    obtain ⟨n, g₁, hfront⟩ := ih
    obtain ⟨m, g₂, hlast⟩ := exists_accept hG hno (feed_holds hG h w hfront) chr
    refine ⟨max n m, g₂, ?_⟩
    rw [feed_snoc]
    exact bind_eq_some_iff.mpr ⟨g₁, accept_fuelMono.foldlM (Nat.le_max_left n m) hfront,
      accept_fuelMono _ _ _ _ _ (Nat.le_max_right n m) hlast⟩

/-- A run of `llama_grammar_advance_stack` that returns has met nothing that grows. -/
theorem Stands.not_growing (hG : WellFormed G) (h : Stands G X S) (hS : Within G S)
    (hrun : advanceStack (encode G) fuel news X = some news') (hsteps : EpsStar G S (α :: S')) :
    ¬Growing G α := by
  obtain ⟨n, hbound⟩ := h.bounded hG hS hrun
  exact not_growing_of_bounded hbound hsteps

/-- Where the engine returns after every string there is no hidden recursion. -/
theorem noHiddenRecursion_of_returns (hG : WellFormed G) (hstart : start < G.length)
    {fuel : ℕ} (hinit : initImpl fuel (encode G) start = some (some g))
    (hreturns : ∀ w, ∃ fuel g', feed fuel g w = some g') : NoHiddenRecursion G start := by
  intro w α S' hreach
  have hholds := init_holds hG hstart hinit
  rcases eq_nil_or_concat' w with rfl | ⟨w, chr, rfl⟩
  · obtain ⟨news, hrun, rfl⟩ := foldlM_of_initImpl hG hinit
    obtain ⟨S, hS, hsteps⟩ := reaches_nil_iff.mp hreach
    obtain ⟨pos, hpos, hstands⟩ := (stands_alternates hG hstart).2 S hS
    obtain ⟨_, _, hone⟩ := exists_of_foldlM hrun hpos
    exact hstands.not_growing hG hS.within hone hsteps
  · obtain ⟨fuel, g', hfeed⟩ := hreturns (w ++ [chr])
    rw [feed_snoc] at hfeed
    obtain ⟨g₁, hfront, hlast⟩ := bind_eq_some_iff.mp hfeed
    have hholds₁ := feed_holds hG hholds w hfront
    obtain ⟨S, r, hS, hread, hsteps⟩ := reaches_snoc_iff.mp hreach
    obtain ⟨X, hX, hstands⟩ := hholds₁.complete S ⟨hS, hread.terminal⟩
    obtain ⟨news, hrun, _⟩ := map_eq_some_iff.mp hlast
    obtain ⟨_, _, hone⟩ := exists_of_foldlM hrun hX
    have hwithin := hS.within fun _ => Starts.within
    obtain @⟨c, β, S, hmem⟩ := hread
    have hhas : c.has chr = true := hmem
    obtain ⟨Y, hY, heq⟩ := hstands.acceptChr_cls
    rw [hholds₁.rules, heq, if_pos hhas] at hone
    exact hY.not_growing hG hwithin.rest hone hsteps

/-! ## The language -/

theorem generates_ref_iff {A : ℕ} :
    Generates G Matches [.ref A] w ↔ ∃ alt ∈ G.alts A, Generates G Matches alt w := by
  constructor
  · rintro ⟨n, h⟩
    cases h with
    | rule halt inner rest =>
      obtain rfl := generates_nil_iff.mp ⟨_, rest⟩
      rw [append_nil]
      exact ⟨_, halt, _, inner⟩
  · rintro ⟨alt, halt, n, h⟩
    have hrule := Derives.rule halt h .nil
    rw [append_nil] at hrule
    exact ⟨_, hrule⟩

theorem starts_iff : (∃ S, Starts G start S ∧ Generates G Matches S.flatten w) ↔
    Generates G Matches [.ref start] w := by
  rw [generates_ref_iff]
  constructor
  · rintro ⟨_, ⟨alt, halt, rfl⟩, h⟩
    rw [flatten_push, flatten_nil, append_nil] at h
    exact ⟨alt, halt, h⟩
  · rintro ⟨alt, halt, h⟩
    refine ⟨_, ⟨alt, halt, rfl⟩, ?_⟩
    rw [flatten_push, flatten_nil, append_nil]
    exact h

/-- What the stacks after `w` derive continues `w` in the language. -/
theorem waits_iff (v : List UInt32) : (∃ S, Waits G start w S ∧ Generates G Matches S.flatten v) ↔
      Generates G Matches [.ref start] (w ++ v) := by
  rw [← starts_iff]
  exact exists_terminal_iff (fun _ => Starts.within) w v

/-- Every rule derives some string. -/
def Productive (G : Grammar CharClass) : Prop :=
  ∀ A, A < G.length → ∃ w, Generates G Matches [.ref A] w

theorem exists_generates_of_within (hG : WellFormed G) (hproductive : Productive G)
    (hS : Within G S) : ∃ v, Generates G Matches S.flatten v := by
  apply exists_generates
  intro x hx
  obtain ⟨α, hα, hx⟩ := mem_flatten.mp hx
  obtain ⟨_, A, alt, halt, hsuffix⟩ := hS α hα
  cases x with
  | ref B => exact hproductive B (hG.refs A alt halt B (hsuffix.mem hx))
  | cls c =>
    obtain ⟨chr, hmem⟩ := hG.classes A alt halt c (hsuffix.mem hx)
    exact ⟨[chr], 0, .char hmem .nil⟩

/-- Some stack is left just when `w` begins a string of the language. -/
theorem Holds.nonempty_iff (hG : WellFormed G) (hproductive : Productive G)
    (h : Holds G start w g) :
    g.allStacks ≠ [] ↔ ∃ v, Generates G Matches [.ref start] (w ++ v) := by
  constructor
  · intro hne
    obtain ⟨X, hX⟩ := exists_mem_of_ne_nil _ hne
    obtain ⟨S, hS, _⟩ := h.sound X hX
    obtain ⟨v, hv⟩ := exists_generates_of_within hG hproductive hS.within
    exact ⟨v, (waits_iff v).mp ⟨S, hS, hv⟩⟩
  · rintro ⟨v, hv⟩
    obtain ⟨S, hS, _⟩ := (waits_iff v).mpr hv
    obtain ⟨X, hX, _⟩ := h.complete S hS
    exact ne_nil_of_mem hX

/-- The empty stack is left just when `w` is in the language. -/
theorem Holds.empty_mem_iff (h : Holds G start w g) :
    [] ∈ g.allStacks ↔ Generates G Matches [.ref start] w := by
  have hw : (∃ S, Waits G start w S ∧ Generates G Matches S.flatten []) ↔
      Generates G Matches [.ref start] (w ++ []) := waits_iff []
  rw [append_nil] at hw
  rw [← hw]
  constructor
  · intro hmem
    obtain ⟨S, hS, hstands⟩ := h.sound [] hmem
    cases hstands
    exact ⟨[], hS, 0, .nil⟩
  · rintro ⟨S, hS, n, hgen⟩
    obtain ⟨X, hX, hstands⟩ := h.complete S hS
    cases hS.2 with
    | nil =>
      cases hstands
      exact hX
    | cls => cases hgen

/-- After every string the engine returns, some stack is left just when the string begins one
of the language, and the empty stack just when the string is in the language. -/
def Recognises (G : Grammar CharClass) (start : ℕ) (g : LlamaGrammar) : Prop :=
  ∀ w, ∃ fuel g', feed fuel g w = some g' ∧
    (g'.allStacks ≠ [] ↔ ∃ v, Generates G Matches [.ref start] (w ++ v)) ∧
    ([] ∈ g'.allStacks ↔ Generates G Matches [.ref start] w)

/-- The engine recognises the grammar just when there is no hidden recursion. -/
theorem recognises_iff (hG : WellFormed G) (hstart : start < G.length)
    (hproductive : Productive G) {fuel : ℕ}
    (hinit : initImpl fuel (encode G) start = some (some g)) :
    Recognises G start g ↔ NoHiddenRecursion G start := by
  constructor
  · intro h
    apply noHiddenRecursion_of_returns hG hstart hinit
    intro w
    obtain ⟨fuel, g', hrun, _⟩ := h w
    exact ⟨fuel, g', hrun⟩
  · intro hno w
    have hholds := init_holds hG hstart hinit
    obtain ⟨fuel, g', hrun⟩ := exists_feed hG hno hholds w
    have hw := feed_holds hG hholds w hrun
    exact ⟨fuel, g', hrun, hw.nonempty_iff hG hproductive, hw.empty_mem_iff⟩

/-! ## Two grammars -/

def char (c : UInt32) : Sym CharClass := .cls (.set false (.one c) [])

theorem matches_char (c : UInt32) : Matches (.set false (.one c) []) c := by
  simp [Matches, CharClass.has, CharItem.has]

theorem mem_flatten_of_alts {A : ℕ} {alt : List (Sym CharClass)} {x : Sym CharClass}
    (halt : alt ∈ G.alts A) (hx : x ∈ alt) : x ∈ G.flatten.flatten := by
  rw [Grammar.alts] at halt
  cases hA : G[A]? with
  | none =>
    rw [hA] at halt
    exact absurd halt not_mem_nil
  | some alts =>
    rw [hA] at halt
    have hmem := mem_flatten_of_mem (mem_of_getElem? hA) halt
    exact mem_flatten_of_mem hmem hx

/-- A grammar of references and single characters. -/
theorem wellFormed_of_char (hsize : G.length ≤ 2 ^ 32) (hne : ∀ alts ∈ G, alts ≠ [])
    (hsym : ∀ x ∈ G.flatten.flatten, (∃ B, B < G.length ∧ x = .ref B) ∨ ∃ c, x = char c) :
    WellFormed G where
  size := hsize
  alts A hA := by
    rw [Grammar.alts, getElem?_eq_getElem hA]
    exact hne _ (getElem_mem hA)
  refs A alt halt B hB := by
    rcases hsym _ (mem_flatten_of_alts halt hB) with ⟨B', hB', heq⟩ | ⟨c, heq⟩
    · exact Sym.ref.inj heq ▸ hB'
    · cases heq
  classes A alt halt c hc := by
    rcases hsym _ (mem_flatten_of_alts halt hc) with ⟨B', hB', heq⟩ | ⟨chr, heq⟩
    · cases heq
    · exact ⟨chr, Sym.cls.inj heq ▸ matches_char chr⟩

/-- `root ::= "a" root | "b"` -/
def loop : Grammar CharClass := [[[char 97, .ref 0], [char 98]]]

theorem wellFormed_loop : WellFormed loop :=
  wellFormed_of_char (by decide) (by decide) (by simp [loop, char])

theorem generates_char (c : UInt32) : Generates G Matches [char c] [c] :=
  ⟨0, .char (matches_char c) .nil⟩

theorem productive_loop : Productive loop := by
  intro A hA
  obtain rfl := Nat.lt_one_iff.mp hA
  exact ⟨[98], generates_ref_iff.mpr ⟨[char 98], by simp [loop, Grammar.alts], generates_char 98⟩⟩

/-- What initialisation makes of it. -/
def loopGrammar : LlamaGrammar := ⟨encode loop, [[⟨0, 0⟩], [⟨0, 3⟩]]⟩

theorem init_loop : initImpl 2 (encode loop) 0 = some (some loopGrammar) := rfl

theorem recognises_iff_loop : Recognises loop 0 loopGrammar ↔ NoHiddenRecursion loop 0 :=
  recognises_iff wellFormed_loop (by decide) productive_loop init_loop

/-- The start rule is not left recursive, but what it leads to is: `B` derives the empty
string without an empty alternative of its own.

`root ::= "a" A`, `A ::= B A "x" | "y"`, `B ::= C`, `C ::= | "c"` -/
def hidden : Grammar CharClass :=
  [[[char 97, .ref 1]], [[.ref 2, .ref 1, char 120], [char 121]], [[.ref 3]], [[], [char 99]]]

theorem wellFormed_hidden : WellFormed hidden :=
  wellFormed_of_char (by decide) (by decide) (by simp [hidden, char])

theorem productive_hidden : Productive hidden := by
  have hC : Generates hidden Matches [.ref 3] [] :=
    generates_ref_iff.mpr ⟨[], by simp [hidden, Grammar.alts], generates_nil_iff.mpr rfl⟩
  have hB : Generates hidden Matches [.ref 2] [] :=
    generates_ref_iff.mpr ⟨[.ref 3], by simp [hidden, Grammar.alts], hC⟩
  have hA : Generates hidden Matches [.ref 1] [121] :=
    generates_ref_iff.mpr ⟨[char 121], by simp [hidden, Grammar.alts], generates_char 121⟩
  have hroot : Generates hidden Matches [.ref 0] [97, 121] :=
    generates_ref_iff.mpr
      ⟨[char 97, .ref 1], by simp [hidden, Grammar.alts], (generates_char 97).append hA⟩
  intro A hA'
  obtain _ | _ | _ | _ | A := A
  · exact ⟨_, hroot⟩
  · exact ⟨_, hA⟩
  · exact ⟨_, hB⟩
  · exact ⟨_, hC⟩
  · exact absurd hA' (Nat.not_lt.mpr (Nat.le_add_left 4 A))

/-- `B A "x"` comes back to itself above `"x"`. -/
theorem growing_hidden : Growing hidden [.ref 2, .ref 1, char 120] := by
  have hB : Eps hidden [[.ref 2, .ref 1, char 120]] [[.ref 3], [.ref 1, char 120]] :=
    .mk (show [.ref 3] ∈ hidden.alts 2 by simp [hidden, Grammar.alts])
  have hC : Eps hidden [[.ref 3], [.ref 1, char 120]] [[.ref 1, char 120]] :=
    .mk (show [] ∈ hidden.alts 3 by simp [hidden, Grammar.alts])
  have hA : Eps hidden [[.ref 1, char 120]] [[.ref 2, .ref 1, char 120], [char 120]] :=
    .mk (show [.ref 2, .ref 1, char 120] ∈ hidden.alts 1 by simp [hidden, Grammar.alts])
  exact ⟨[[char 120]], cons_ne_nil _ _, .head hB (.head hC (.single hA))⟩

/-- After `"a"` the recogniser comes to it. -/
theorem reaches_hidden : Reaches hidden Matches (Starts hidden 0) [97]
    [[.ref 2, .ref 1, char 120]] := by
  have hstart : Reaches hidden Matches (Starts hidden 0) [] [[char 97, .ref 1]] :=
    .start ⟨[char 97, .ref 1], by simp [hidden, Grammar.alts], rfl⟩
  have hread : Reaches hidden Matches (Starts hidden 0) [97] [[.ref 1]] :=
    hstart.read (.mk (matches_char 97))
  have hA : [.ref 2, .ref 1, char 120] ∈ hidden.alts 1 := by simp [hidden, Grammar.alts]
  exact hread.eps (.mk hA)

/-- The engine accepts the grammar, and does not return from every string. -/
theorem not_recognises_hidden : WellFormed hidden ∧ Productive hidden ∧
    ∃ g, initImpl 2 (encode hidden) 0 = some (some g) ∧ ¬Recognises hidden 0 g := by
  refine ⟨wellFormed_hidden, productive_hidden, _, rfl, fun h => ?_⟩
  have hno : NoHiddenRecursion hidden 0 := by
    have hinit : initImpl 2 (encode hidden) 0 = some (some ⟨encode hidden, [[⟨0, 0⟩]]⟩) := rfl
    refine noHiddenRecursion_of_returns wellFormed_hidden (by decide) hinit fun w => ?_
    obtain ⟨fuel, g', hrun, _⟩ := h w
    exact ⟨fuel, g', hrun⟩
  exact hno _ _ _ reaches_hidden growing_hidden

end ExpertPin.Grammar
