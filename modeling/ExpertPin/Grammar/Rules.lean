import ExpertPin.Grammar.Engine
import ExpertPin.Lib.Pushdown
import Mathlib.Algebra.GroupWithZero.Nat

/-!
# Well-formed rules

The flat array of a rule encodes its alternatives: a reference is one element, a character
class takes one or two for each of its items.  Pointers of the engine point to remainders
of alternatives (`Remains`): here is what the engine's reads at such a pointer find.
-/

namespace ExpertPin.Grammar

open Pushdown
open List
open Bool

/-! ## The encoding -/

/-- A character, or an inclusive range of them. -/
inductive CharItem
  | one (c : UInt32)
  | range (lo hi : UInt32)
deriving DecidableEq, Repr

def CharItem.has (chr : UInt32) : CharItem → Bool
  | one c => c = chr
  | range lo hi => lo ≤ chr && chr ≤ hi

/-- `.`, `[..]` or `[^..]` -/
inductive CharClass
  | any
  | set (negated : Bool) (first : CharItem) (more : List CharItem)
deriving DecidableEq, Repr

def CharClass.has (chr : UInt32) : CharClass → Bool
  | any => true
  | set negated first more => (first.has chr || more.any (CharItem.has chr)) != negated

/-- The class contains the character. -/
def Matches (c : CharClass) (chr : UInt32) : Prop := c.has chr = true

def encodeItem (type : GreType) : CharItem → List Element
  | .one c => [⟨type, c⟩]
  | .range lo hi => [⟨type, lo⟩, ⟨.charRngUpper, hi⟩]

def encodeSym : Sym CharClass → List Element
  | .ref A => [⟨.ruleRef, UInt32.ofNat A⟩]
  | .cls .any => [⟨.charAny, 0⟩]
  | .cls (.set negated first more) =>
    encodeItem (if negated then .charNot else .char) first ++ more.flatMap (encodeItem .charAlt)

def encodeSeq (α : List (Sym CharClass)) : List Element := α.flatMap encodeSym

def encodeAlts : List (List (Sym CharClass)) → List Element
  | [] => []
  | [α] => encodeSeq α ++ [⟨.end_, 0⟩]
  | α :: β :: rest => encodeSeq α ++ ⟨.alt, 0⟩ :: encodeAlts (β :: rest)

def encode (G : Grammar CharClass) : Rules := G.map encodeAlts

/-- What the rules of a parsed grammar meet. -/
structure WellFormed (G : Grammar CharClass) : Prop where
  size : G.length ≤ 2 ^ 32
  alts : ∀ A, A < G.length → G.alts A ≠ []
  refs : ∀ A, ∀ alt ∈ G.alts A, ∀ B, .ref B ∈ alt → B < G.length
  classes : ∀ A, ∀ alt ∈ G.alts A, ∀ c, .cls c ∈ alt → ∃ chr, Matches c chr

/-! ## Reading a class -/

/-- The list begins with an element that does not continue a class. -/
def Fresh (es : List Element) : Prop :=
  ∃ e tail, es = e :: tail ∧ e.type ≠ .charRngUpper ∧ e.type ≠ .charAlt

/-- The list begins at the end of a sequence. -/
def EndHead (es : List Element) : Prop := ∃ e tail, es = e :: tail ∧ e.isEndOfSequence = true

theorem EndHead.fresh {es : List Element} (h : EndHead es) : Fresh es := by
  obtain ⟨⟨type, value⟩, tail, rfl, hend⟩ := h
  refine ⟨_, tail, rfl, ?_, ?_⟩
  · rintro rfl
    cases hend
  · rintro rfl
    cases hend

/-- The type of the first element of a symbol. -/
def GreType.startsSym (type : GreType) : Prop :=
  type = .ruleRef ∨ type = .char ∨ type = .charNot ∨ type = .charAny

theorem encodeItem_cons (type : GreType) (item : CharItem) :
    ∃ value es, encodeItem type item = ⟨type, value⟩ :: es := by
  cases item with
  | one c => exact ⟨c, [], rfl⟩
  | range lo hi => exact ⟨lo, _, rfl⟩

theorem encodeSym_cons (x : Sym CharClass) : ∃ e es, encodeSym x = e :: es ∧ e.type.startsSym := by
  cases x with
  | ref A => exact ⟨_, _, rfl, .inl rfl⟩
  | cls c =>
    cases c with
    | any => exact ⟨_, _, rfl, .inr (.inr (.inr rfl))⟩
    | set negated first more =>
      obtain ⟨value, es, heq⟩ := encodeItem_cons (if negated then .charNot else .char) first
      rw [encodeSym, heq]
      refine ⟨_, _, rfl, ?_⟩
      cases negated with
      | false => exact .inr (.inl rfl)
      | true => exact .inr (.inr (.inl rfl))

theorem GreType.startsSym.fresh {type : GreType} (h : type.startsSym) :
    type ≠ .charRngUpper ∧ type ≠ .charAlt ∧ type ≠ .end_ ∧ type ≠ .alt := by
  rcases h with rfl | rfl | rfl | rfl <;> decide

theorem fresh_encodeSeq {α : List (Sym CharClass)} {tail : List Element} (h : EndHead tail) :
    Fresh (encodeSeq α ++ tail) := by
  cases α with
  | nil => exact h.fresh
  | cons x α =>
    obtain ⟨e, es, heq, hstarts⟩ := encodeSym_cons x
    rw [encodeSeq, flatMap_cons, heq, append_assoc]
    exact ⟨e, _, rfl, hstarts.fresh.1, hstarts.fresh.2.1⟩

section Match

variable {chr : UInt32} {es tail : List Element} {off : ℕ} {found : Bool} {type : GreType}

theorem matchCharLoop_one {c : UInt32} (htype : type ≠ .charAny) {u : Element}
    (hu : u.type ≠ .charRngUpper) :
    matchCharLoop chr found off (⟨type, c⟩ :: u :: es) =
      if u.type = .charAlt then matchCharLoop chr (found || decide (c = chr)) (off + 1) (u :: es)
      else (found || decide (c = chr), off + 1) := by
  rw [matchCharLoop]
  simp only [hu, if_false, htype, decide_false, Bool.false_or]

theorem matchCharLoop_any {value : UInt32} {u : Element} (hu : u.type ≠ .charRngUpper)
    (halt : u.type ≠ .charAlt) :
    matchCharLoop chr found off (⟨.charAny, value⟩ :: u :: es) = (true, off + 1) := by
  rw [matchCharLoop]
  simp only [hu, halt, if_false, decide_true, Bool.true_or]

theorem matchCharLoop_range {lo hi : UInt32} {u : Element} :
    matchCharLoop chr found off (⟨type, lo⟩ :: ⟨.charRngUpper, hi⟩ :: u :: es) =
      if u.type = .charAlt then
        matchCharLoop chr (found || (lo ≤ chr && chr ≤ hi)) (off + 2) (u :: es)
      else (found || (lo ≤ chr && chr ≤ hi), off + 2) := by
  rw [matchCharLoop]
  simp

/-- One item, with what is next in the class or after it. -/
theorem matchCharLoop_item (item : CharItem) (htype : type ≠ .charAny) {u : Element}
    (hu : u.type ≠ .charRngUpper) :
    matchCharLoop chr found off (encodeItem type item ++ u :: es) = if u.type = .charAlt then
        matchCharLoop chr (found || item.has chr) (off + (encodeItem type item).length) (u :: es)
      else (found || item.has chr, off + (encodeItem type item).length) := by
  cases item with
  | one c => exact matchCharLoop_one htype hu
  | range lo hi => exact matchCharLoop_range

/-- The loop reads all items of a class. -/
theorem matchCharLoop_items (item : CharItem) (more : List CharItem) (htype : type ≠ .charAny)
    (htail : Fresh tail) :
    matchCharLoop chr found off (encodeItem type item ++
      (more.flatMap (encodeItem .charAlt) ++ tail)) =
      (found || (item.has chr || more.any (CharItem.has chr)),
        off + (encodeItem type item ++ more.flatMap (encodeItem .charAlt)).length) := by
  induction more generalizing type item found off with
  | nil =>
    obtain ⟨u, es, rfl, hu, halt⟩ := htail
    rw [flatMap_nil, nil_append, matchCharLoop_item item htype hu, if_neg halt,
      any_nil, Bool.or_false, append_nil]
  | cons next more ih =>
    obtain ⟨value, es, heq⟩ := encodeItem_cons .charAlt next
    have hstep : matchCharLoop chr found off (encodeItem type item ++
        ((next :: more).flatMap (encodeItem .charAlt) ++ tail)) =
        matchCharLoop chr (found || item.has chr) (off + (encodeItem type item).length)
          (encodeItem .charAlt next ++ (more.flatMap (encodeItem .charAlt) ++ tail)) := by
      rw [flatMap_cons, append_assoc, heq]
      have hnext : GreType.charAlt ≠ .charRngUpper := by decide
      exact (matchCharLoop_item item htype hnext).trans (if_pos rfl)
    rw [hstep, ih next (by decide), any_cons, flatMap_cons, Bool.or_assoc]
    simp only [length_append, Nat.add_assoc]

end Match

/-! ## Pointers -/

section Pointers

variable {rules : Rules} {pos : Pos} {α β : List (Sym CharClass)} {x : Sym CharClass}

/-- The pointer points to what remains of an alternative. -/
def Remains (rules : Rules) (pos : Pos) (α : List (Sym CharClass)) : Prop :=
  ∃ tail, (rules.rule pos.rule).drop pos.off = encodeSeq α ++ tail ∧ EndHead tail

theorem at_eq {e : Element} {es : List Element} (h : (rules.rule pos.rule).drop pos.off = e :: es) :
    rules.at pos = e := by
  have hhead : (rules.rule pos.rule)[pos.off]? = some e := by
    rw [← head?_drop, h]
    rfl
  rw [Rules.at, hhead]
  rfl

/-- The pointer is at the end when nothing remains. -/
theorem Remains.isEndOfSequence_iff (h : Remains rules pos α) :
    (rules.at pos).isEndOfSequence = true ↔ α = [] := by
  obtain ⟨tail, hdrop, e, es, rfl, hend⟩ := h
  cases α with
  | nil =>
    rw [at_eq hdrop]
    exact iff_of_true hend rfl
  | cons x α =>
    obtain ⟨e', es', heq, hstarts⟩ := encodeSym_cons x
    rw [encodeSeq, flatMap_cons, heq] at hdrop
    rw [at_eq hdrop]
    refine iff_of_false ?_ (cons_ne_nil x α)
    rw [Element.isEndOfSequence, or_eq_true, decide_eq_true_eq, decide_eq_true_eq]
    exact fun hor => hor.elim hstarts.fresh.2.2.1 hstarts.fresh.2.2.2

/-- After the elements of its first symbol the pointer is at the rest. -/
theorem Remains.advance (h : Remains rules pos (x :: α)) :
    Remains rules ⟨pos.rule, pos.off + (encodeSym x).length⟩ α := by
  obtain ⟨tail, hdrop, hend⟩ := h
  refine ⟨tail, ?_, hend⟩
  show (rules.rule pos.rule).drop (pos.off + (encodeSym x).length) = _
  rw [← drop_drop, hdrop, encodeSeq, flatMap_cons, append_assoc]
  exact drop_left' rfl

theorem Remains.at_ref {A : ℕ} (h : Remains rules pos (.ref A :: α)) :
    rules.at pos = ⟨.ruleRef, UInt32.ofNat A⟩ := by
  obtain ⟨tail, hdrop, _⟩ := h
  exact at_eq hdrop

/-- The first element of a class, and the loop from there. -/
theorem matchChar_cls {c : CharClass} {tail : List Element}
    (hdrop : (rules.rule pos.rule).drop pos.off = encodeSym (.cls c) ++ tail)
    (hfresh : Fresh tail) (chr : UInt32) :
    ((rules.at pos).type = .char ∨ (rules.at pos).type = .charNot ∨
      (rules.at pos).type = .charAny) ∧
    matchChar rules pos chr =
      some (c.has chr, ⟨pos.rule, pos.off + (encodeSym (.cls c)).length⟩) := by
  cases c with
  | any =>
    have hat : rules.at pos = ⟨.charAny, 0⟩ := at_eq hdrop
    obtain ⟨u, es, rfl, hu, halt⟩ := hfresh
    have hloop : matchCharLoop chr false pos.off ((rules.rule pos.rule).drop pos.off) =
        (true, pos.off + 1) := by
      rw [hdrop]
      exact matchCharLoop_any hu halt
    rw [Grammar.matchChar, hat, hloop]
    exact ⟨.inr (.inr rfl), rfl⟩
  | set negated first more =>
    obtain ⟨value, es, heq⟩ := encodeItem_cons (if negated then .charNot else .char) first
    have hat : rules.at pos = ⟨if negated then .charNot else .char, value⟩ := by
      rw [encodeSym, heq] at hdrop
      exact at_eq hdrop
    have hloop : matchCharLoop chr false pos.off ((rules.rule pos.rule).drop pos.off) =
        (first.has chr || more.any (CharItem.has chr),
          pos.off + (encodeSym (.cls (.set negated first more))).length) := by
      have htype : (if negated then GreType.charNot else .char) ≠ .charAny := by
        cases negated <;> decide
      rw [hdrop, encodeSym, append_assoc]
      exact (matchCharLoop_items first more htype hfresh).trans (by rw [Bool.false_or])
    rw [Grammar.matchChar, hat, hloop, CharClass.has]
    cases negated with
    | false => exact ⟨.inl rfl, by simp⟩
    | true => exact ⟨.inr (.inl rfl), by simp⟩

theorem Remains.at_cls {c : CharClass} (h : Remains rules pos (.cls c :: α)) (chr : UInt32) :
    ((rules.at pos).type = .char ∨ (rules.at pos).type = .charNot ∨
      (rules.at pos).type = .charAny) ∧
    matchChar rules pos chr =
      some (c.has chr, ⟨pos.rule, pos.off + (encodeSym (.cls c)).length⟩) := by
  obtain ⟨tail, hdrop, hend⟩ := h
  rw [encodeSeq, flatMap_cons, append_assoc] at hdrop
  exact matchChar_cls hdrop (fresh_encodeSeq hend) chr

/-! ## The alternates of a rule -/

theorem isEndOfSequence_of_mem {α : List (Sym CharClass)} {e : Element} (h : e ∈ encodeSeq α) :
    e.isEndOfSequence = false := by
  have hitem : ∀ type : GreType, type ≠ .end_ → type ≠ .alt → ∀ item, e ∈ encodeItem type item →
      e.isEndOfSequence = false := by
    intro type hend halt item hmem
    cases item with
    | one c =>
      obtain rfl := mem_singleton.mp hmem
      simp [Element.isEndOfSequence, hend, halt]
    | range lo hi =>
      rcases mem_cons.mp hmem with rfl | hmem
      · simp [Element.isEndOfSequence, hend, halt]
      · obtain rfl := mem_singleton.mp hmem
        rfl
  obtain ⟨x, _, hx⟩ := mem_flatMap.mp h
  cases x with
  | ref A =>
    obtain rfl := mem_singleton.mp hx
    rfl
  | cls c =>
    cases c with
    | any =>
      obtain rfl := mem_singleton.mp hx
      rfl
    | set negated first more =>
      rcases mem_append.mp hx with hx | hx
      · apply hitem _ ?_ ?_ first hx
        · cases negated <;> decide
        · cases negated <;> decide
      · obtain ⟨item, _, hx⟩ := mem_flatMap.mp hx
        exact hitem _ (by decide) (by decide) item hx

theorem laterStarts_append {es tail : List Element} (h : ∀ e ∈ es, e.isEndOfSequence = false)
    (off : ℕ) : laterStarts off (es ++ tail) = laterStarts (off + es.length) tail := by
  induction es generalizing off with
  | nil => rfl
  | cons e es ih =>
    have he := h e mem_cons_self
    rw [Element.isEndOfSequence, or_eq_false_iff, decide_eq_false_iff_not,
      decide_eq_false_iff_not] at he
    have hstep : laterStarts off (e :: es ++ tail) = laterStarts (off + 1) (es ++ tail) := by
      rw [cons_append, laterStarts]
      split
      case h_1 hend => exact absurd hend he.1
      case h_2 halt => exact absurd halt he.2
      case h_3 => rfl
    rw [hstep, ih fun e' he' => h e' (mem_cons_of_mem e he'), length_cons,
      Nat.add_assoc, Nat.add_comm 1]

/-- The pointers to the alternates of a rule point to its alternatives. -/
theorem remains_laterStarts {i : ℕ} (alts : List (List (Sym CharClass))) (halts : alts ≠ []) :
    ∀ off, (rules.rule i).drop off = encodeAlts alts → List.Forall₂ (Remains rules)
        ((off :: laterStarts off (encodeAlts alts)).map fun off => ⟨i, off⟩) alts := by
  induction alts with
  | nil => exact absurd rfl halts
  | cons α rest ih =>
    intro off hdrop
    cases rest with
    | nil =>
      have hone : Remains rules ⟨i, off⟩ α := ⟨_, hdrop, ⟨.end_, 0⟩, [], rfl, rfl⟩
      rw [encodeAlts, laterStarts_append fun _ => isEndOfSequence_of_mem]
      exact .cons hone .nil
    | cons β rest =>
      rw [encodeAlts] at hdrop ⊢
      have hone : Remains rules ⟨i, off⟩ α := ⟨_, hdrop, ⟨.alt, 0⟩, _, rfl, rfl⟩
      have hlater : (rules.rule i).drop (off + (encodeSeq α).length + 1) =
          encodeAlts (β :: rest) := by
        rw [← drop_drop, ← drop_drop, hdrop, drop_left' rfl]
        rfl
      rw [laterStarts_append fun _ => isEndOfSequence_of_mem]
      exact .cons hone (ih (cons_ne_nil β rest) _ hlater)

theorem rule_encode (G : Grammar CharClass) (i : ℕ) (hi : i < G.length) :
    (encode G).rule i = encodeAlts (G.alts i) := by
  rw [Rules.rule, encode, getElem?_map, Grammar.alts, getElem?_eq_getElem hi]
  rfl

theorem alternates_encode {G : Grammar CharClass} (hG : WellFormed G) {i : ℕ} (hi : i < G.length) :
    List.Forall₂ (Remains (encode G)) ((encode G).alternates i) (G.alts i) := by
  have hrule := rule_encode G i hi
  rw [Rules.alternates, hrule]
  exact remains_laterStarts (G.alts i) (hG.alts i hi) 0 hrule

/-- Encoded rules are copied as they are. -/
theorem copyRule_encodeAlts {alts : List (List (Sym CharClass))} (halts : alts ≠ []) :
    copyRule (encodeAlts alts) = encodeAlts alts := by
  have hfront : ∃ front, encodeAlts alts = front ++ [⟨.end_, 0⟩] ∧ ∀ e ∈ front, e.type ≠ .end_ := by
    induction alts with
    | nil => exact absurd rfl halts
    | cons α rest ih =>
      have hα : ∀ e ∈ encodeSeq α, e.type ≠ .end_ := by
        rintro e he hend
        have hno := isEndOfSequence_of_mem he
        rw [Element.isEndOfSequence, hend] at hno
        cases hno
      cases rest with
      | nil => exact ⟨encodeSeq α, rfl, hα⟩
      | cons β rest =>
        obtain ⟨front, heq, hne⟩ := ih (cons_ne_nil β rest)
        refine ⟨encodeSeq α ++ ⟨.alt, 0⟩ :: front, ?_, ?_⟩
        · rw [encodeAlts, heq, append_assoc, cons_append]
        · intro e he
          rcases mem_append.mp he with he | he
          · exact hα e he
          · rcases mem_cons.mp he with rfl | he
            · exact (by decide : GreType.alt ≠ .end_)
            · exact hne e he
  obtain ⟨front, heq, hne⟩ := hfront
  rw [copyRule, heq, takeWhile_append_of_pos fun e he => decide_eq_true (hne e he)]
  simp

theorem copyRule_encode {G : Grammar CharClass} (hG : WellFormed G) :
    (encode G).map copyRule = encode G := by
  rw [encode, map_map]
  apply map_congr_left
  intro alts halts
  obtain ⟨i, hi, rfl⟩ := mem_iff_getElem.mp halts
  apply copyRule_encodeAlts
  have hne := hG.alts i hi
  rwa [Grammar.alts, getElem?_eq_getElem hi] at hne

end Pointers

end ExpertPin.Grammar
