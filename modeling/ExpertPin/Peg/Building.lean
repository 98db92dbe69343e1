import ExpertPin.Peg.Semantics
import ExpertPin.Lib.Fuel

/-!
# The builder keeps what is written

The arena that the builder returns has its sequences and choices taken apart, and rules in the
place of the references to them.  Its grammar has the outcomes of the one that was written
(`Builds.parses_iff`).
-/

namespace ExpertPin.Peg

open ParsingExpressions
open List
open Option

variable {W A B : Arena} {id p : ℕ} {node node' : Node} {name : Text}

namespace Arena

theorem get_addParser_of_lt (h : id < A.size) : (A.addParser node).get id = A.get id :=
  getElem?_append_left h

theorem get_addParser_size : (A.addParser node).get A.size = some node :=
  getElem?_concat_length

theorem get_addParser (h : (A.addParser node).get id = some node') :
    id < A.size ∧ A.get id = some node' ∨ id = A.size ∧ node' = node := by
  rcases Nat.lt_trichotomy id A.size with hlt | rfl | hgt
  · rw [get_addParser_of_lt hlt] at h
    exact .inl ⟨hlt, h⟩
  · rw [get_addParser_size, some.injEq] at h
    exact .inr ⟨rfl, h.symm⟩
  · have hlength : (A.addParser node).parsers.length ≤ id := by
      rw [addParser, length_append]
      exact hgt
    rw [get, getElem?_eq_none hlength] at h
    cases h

@[simp] theorem size_addParser : (A.addParser node).size = A.size + 1 := length_append

theorem lt_size_of_get (h : A.get id = some node) : id < A.size :=
  (List.getElem?_eq_some_iff.mp h).1

theorem sequenceParts_addParser (h : p < A.size) :
    (A.addParser node).sequenceParts p = A.sequenceParts p := by
  rw [sequenceParts, get_addParser_of_lt h]
  rfl

theorem choiceParts_addParser (h : p < A.size) :
    (A.addParser node).choiceParts p = A.choiceParts p := by
  rw [choiceParts, get_addParser_of_lt h]
  rfl

end Arena

/-! ## What is built, and what was written -/

/-- What has been made of a parser. -/
inductive Reads (A : Arena) (id : ℕ) : Node → Node → Prop
  | same {node : Node} (hsequence : ∀ ps, node ≠ .sequence ps) (hchoice : ∀ ps, node ≠ .choice ps) :
      Reads A id node node
  | sequence {ps : List ℕ} (h : ∀ p ∈ ps, p < id) :
      Reads A id (.sequence ps) (.sequence (ps.flatMap A.sequenceParts))
  | choice {ps : List ℕ} (h : ∀ p ∈ ps, p < id) :
      Reads A id (.choice ps) (.choice (ps.flatMap A.choiceParts))

theorem Reads.addParser {w : Node} (h : Reads A id w node) (hid : id ≤ A.size) :
    Reads (A.addParser node') id w node := by
  cases h with
  | same hsequence hchoice => exact .same hsequence hchoice
  | @sequence ps hps =>
    have hsame : ps.flatMap A.sequenceParts = ps.flatMap (A.addParser node').sequenceParts :=
      flatMap_congr fun p hp =>
        (Arena.sequenceParts_addParser (Nat.lt_of_lt_of_le (hps p hp) hid)).symm
    rw [hsame]
    exact .sequence hps
  | @choice ps hps =>
    have hsame : ps.flatMap A.choiceParts = ps.flatMap (A.addParser node').choiceParts :=
      flatMap_congr fun p hp =>
        (Arena.choiceParts_addParser (Nat.lt_of_lt_of_le (hps p hp) hid)).symm
    rw [hsame]
    exact .choice hps

theorem Reads.of_parsers {w : Node} (h : Reads A id w node) (hsame : A.parsers = B.parsers) :
    Reads B id w node := by
  have hget : A.get = B.get := funext fun p => congrArg (·[p]?) hsame
  cases h with
  | same hsequence hchoice => exact .same hsequence hchoice
  | @sequence ps hps =>
    have hparts : A.sequenceParts = B.sequenceParts := by
      funext p
      rw [Arena.sequenceParts, hget]
      rfl
    rw [hparts]
    exact .sequence hps
  | @choice ps hps =>
    have hparts : A.choiceParts = B.choiceParts := by
      funext p
      rw [Arena.choiceParts, hget]
      rfl
    rw [hparts]
    exact .choice hps

/-- The arena that is built has the parsers of the one that is written, and refers to its own. -/
structure Matches (W A : Arena) : Prop where
  size : W.size = A.size
  rules : W.rules = A.rules
  root : W.root = A.root
  written {id : ℕ} {node : Node} (h : A.get id = some node) :
    ∃ w, W.get id = some w ∧ Reads A id w node
  children {id c : ℕ} {node : Node} (h : A.get id = some node) (hc : c ∈ node.children) : c < A.size
  ruleNode {name : Text} {id : ℕ} (h : A.rules name = some id) :
    ∃ name' c, A.get id = some (.rule name' c)
  rootIn {id : ℕ} (h : A.root = some id) : id < A.size

namespace Matches

theorem addParser (h : Matches W A) {w : Node} (hreads : Reads A A.size w node)
    (hchildren : ∀ c ∈ node.children, c < A.size) : Matches (W.addParser w) (A.addParser node) where
  size := by rw [Arena.size_addParser, Arena.size_addParser, h.size]
  rules := h.rules
  root := h.root
  written := by
    intro id node' hget
    rcases Arena.get_addParser hget with ⟨hlt, hget⟩ | ⟨rfl, rfl⟩
    · obtain ⟨w', hw', hreads'⟩ := h.written hget
      refine ⟨w', ?_, hreads'.addParser (Nat.le_of_lt hlt)⟩
      rwa [Arena.get_addParser_of_lt (h.size ▸ hlt)]
    · refine ⟨w, ?_, hreads.addParser (Nat.le_refl _)⟩
      rw [← h.size]
      exact Arena.get_addParser_size
  children := by
    intro id c node' hget hc
    rw [Arena.size_addParser]
    rcases Arena.get_addParser hget with ⟨-, hget⟩ | ⟨-, rfl⟩
    · exact Nat.lt_succ_of_lt (h.children hget hc)
    · exact Nat.lt_succ_of_lt (hchildren c hc)
  ruleNode := by
    intro name id hrule
    obtain ⟨name', c, hget⟩ := h.ruleNode hrule
    refine ⟨name', c, ?_⟩
    rwa [Arena.get_addParser_of_lt (Arena.lt_size_of_get hget)]
  rootIn := by
    intro id hroot
    rw [Arena.size_addParser]
    exact Nat.lt_succ_of_lt (h.rootIn hroot)

theorem addRule (h : Matches W A) {c : ℕ} {name' : Text} (hget : A.get id = some (.rule name' c))
    (name : Text) : Matches (W.addRule name id) (A.addRule name id) where
  size := h.size
  rules := by simp only [Arena.addRule, h.rules]
  root := h.root
  written := by
    intro i node hi
    obtain ⟨w, hw, hreads⟩ := h.written hi
    exact ⟨w, hw, hreads.of_parsers rfl⟩
  children := h.children
  ruleNode := by
    intro name₁ i hrule
    have hupdate : Function.update A.rules name (some id) name₁ = some i := hrule
    by_cases hname : name₁ = name
    · rw [hname, Function.update_self, some.injEq] at hupdate
      exact ⟨name', c, hupdate ▸ hget⟩
    · rw [Function.update_of_ne hname] at hupdate
      exact h.ruleNode hupdate
  rootIn := h.rootIn

theorem rule (h : Matches W A) (name : Text) (hp : p < A.size) :
    Matches (W.rule name p) (A.rule name p) := by
  unfold Arena.rule
  rw [h.size]
  have hrule :
      Matches (W.addParser (.rule (ruleName name) p)) (A.addParser (.rule (ruleName name) p)) :=
    h.addParser (.same nofun nofun) fun c hc => mem_singleton.mp hc ▸ hp
  exact (hrule.addRule Arena.get_addParser_size _).addParser (.same nofun nofun)
    fun c hc => absurd hc not_mem_nil

theorem openRule (h : Matches W A) (name : Text) : Matches (W.openRule name) (A.openRule name) := by
  unfold Arena.openRule
  rw [h.size]
  have hany : Matches (W.addParser .any) (A.addParser .any) :=
    h.addParser (.same nofun nofun) fun c hc => absurd hc not_mem_nil
  have hrule : Matches ((W.addParser .any).addParser (.rule (ruleName name) A.size))
      ((A.addParser .any).addParser (.rule (ruleName name) A.size)) := by
    refine hany.addParser (.same nofun nofun) fun c hc => ?_
    rw [mem_singleton.mp hc, Arena.size_addParser]
    exact Nat.lt_succ_self _
  have hget : ((A.addParser .any).addParser (.rule (ruleName name) A.size)).get (A.size + 1) =
      some (.rule (ruleName name) A.size) := by
    have hsize : (A.addParser .any).size = A.size + 1 := Arena.size_addParser
    rw [← hsize]
    exact Arena.get_addParser_size
  exact hrule.addRule hget _

end Matches

theorem Built.toMatches (h : Built W A) : Matches W A := by
  induction h with
  | empty =>
    refine ⟨rfl, rfl, rfl, ?_, ?_, nofun, nofun⟩
    · intro id node hget
      cases hget
    · intro id c node hget
      cases hget
  | add h hplain hchildren ih =>
    refine ih.addParser (.same ?_ ?_) hchildren
    · rintro ps rfl
      exact hplain
    · rintro ps rfl
      exact hplain
  | @sequence W A parsers h hparsers ih =>
    refine ih.addParser (.sequence hparsers) fun c hc => ?_
    obtain ⟨p, hp, hcp⟩ := mem_flatMap.mp hc
    unfold Arena.sequenceParts at hcp
    split at hcp
    case h_1 children hget => exact ih.children hget hcp
    case h_2 => exact mem_singleton.mp hcp ▸ hparsers p hp
  | @choice W A parsers h hparsers ih =>
    refine ih.addParser (.choice hparsers) fun c hc => ?_
    obtain ⟨p, hp, hcp⟩ := mem_flatMap.mp hc
    unfold Arena.choiceParts at hcp
    split at hcp
    case h_1 children hget => exact ih.children hget hcp
    case h_2 => exact mem_singleton.mp hcp ▸ hparsers p hp
  | rule h name hp ih => exact ih.rule name hp
  | openRule h name hnew ih => exact ih.openRule name
  | setRoot h hid ih =>
    refine ⟨ih.size, ih.rules, rfl, fun hget => ?_, ih.children, ih.ruleNode,
      fun hroot => some.inj hroot ▸ hid⟩
    obtain ⟨w, hw, hreads⟩ := ih.written hget
    exact ⟨w, hw, hreads.of_parsers rfl⟩

/-! ## References that are resolved -/

theorem resolveRefs_eq_some (h : B.resolveRefs = some A) :
    A.rules = B.rules ∧ (∀ id, A.root = some id → ∃ id', B.root = some id' ∧
      B.resolveRef id' = some id) ∧
      List.Forall₂ (fun node node' => node.mapChildren B.resolveRef = some node')
        B.parsers A.parsers := by
  rw [Arena.resolveRefs] at h
  obtain ⟨parsers, hparsers, h⟩ := bind_eq_some_iff.mp h
  obtain ⟨root, hroot, rfl⟩ := map_eq_some_iff.mp h
  refine ⟨rfl, fun id hid => ?_, forall₂_of_mapM hparsers⟩
  rw [Arena.resolveRoot] at hroot
  cases hB : B.root with
  | none =>
    rw [hB] at hroot
    cases hroot
    cases hid
  | some id' =>
    rw [hB] at hroot
    obtain ⟨id'', hid'', rfl⟩ := map_eq_some_iff.mp hroot
    cases hid
    exact ⟨id', rfl, hid''⟩

theorem get_of_resolveRefs (h : B.resolveRefs = some A) (hget : A.get id = some node') :
    ∃ node, B.get id = some node ∧ node.mapChildren B.resolveRef = some node' := by
  obtain ⟨-, -, hparsers⟩ := resolveRefs_eq_some h
  obtain ⟨hlt, hnode⟩ := List.getElem?_eq_some_iff.mp hget
  have hltB : id < B.parsers.length := hparsers.length_eq ▸ hlt
  refine ⟨B.parsers[id], List.getElem?_eq_getElem hltB, ?_⟩
  rw [← hnode]
  exact hparsers.get hltB hlt

theorem get_resolveRefs (h : B.resolveRefs = some A) (hget : B.get id = some node) :
    ∃ node', A.get id = some node' ∧ node.mapChildren B.resolveRef = some node' := by
  obtain ⟨-, -, hparsers⟩ := resolveRefs_eq_some h
  obtain ⟨hlt, hnode⟩ := List.getElem?_eq_some_iff.mp hget
  have hltA : id < A.parsers.length := hparsers.length_eq ▸ hlt
  refine ⟨A.parsers[id], List.getElem?_eq_getElem hltA, ?_⟩
  rw [← hnode]
  exact hparsers.get hlt hltA

namespace Node

variable {f : ℕ → Option ℕ} {c : ℕ}

theorem mem_children_of_mapChildren (h : node.mapChildren f = some node')
    (hc : c ∈ node'.children) :
    ∃ c' ∈ node.children, f c' = some c := by
  have hlist : ∀ {children children' : List ℕ}, children.mapM f = some children' → c ∈ children' →
      ∃ c' ∈ children, f c' = some c := by
    intro children children' hmap hmem
    obtain ⟨i, hi, rfl⟩ := mem_iff_getElem.mp hmem
    have hforall := forall₂_of_mapM hmap
    have hi' : i < children.length := hforall.length_eq ▸ hi
    exact ⟨_, getElem_mem hi', hforall.get hi' hi⟩
  cases node with
  | sequence children | choice children =>
    obtain ⟨children', hmap, rfl⟩ := map_eq_some_iff.mp h
    exact hlist hmap hc
  | repetition child _ _ | and child | not child | schema child _ | rule _ child | atomic child
  | tag child _ | gbnf child =>
    obtain ⟨child', hchild, rfl⟩ := map_eq_some_iff.mp h
    exact ⟨child, mem_cons_self, mem_singleton.mp hc ▸ hchild⟩
  | epsilon | start | end_ | literal _ | any | space | chars _ _ _ _ | string _ | untilOneOf _
  | ref _ =>
    cases h
    cases hc

theorem eq_ref_of_mapChildren (h : node.mapChildren f = some (.ref name)) : node = .ref name := by
  cases node with
  | sequence _ | choice _ | repetition _ _ _ | and _ | not _ | schema _ _ | rule _ _ | atomic _
  | tag _ _ | gbnf _ =>
    obtain ⟨_, -, heq⟩ := map_eq_some_iff.mp h
    cases heq
  | epsilon | start | end_ | literal _ | any | space | chars _ _ _ _ | string _ | untilOneOf _
  | ref _ => exact some.inj h

end Node

section Resolved

variable {c c' : ℕ} (hmatches : Matches W B) (hresolve : B.resolveRefs = some A)
include hmatches hresolve

theorem defines_of_get (hget : B.get id = some node) (hnode : ∀ name, node ≠ .ref name) :
    A.Defines id := by
  obtain ⟨node', hnode', hmap⟩ := get_resolveRefs hresolve hget
  refine ⟨node', hnode', fun name heq => ?_⟩
  exact absurd (Node.eq_ref_of_mapChildren (heq ▸ hmap)) (hnode name)

theorem defines_of_resolveRef (h : B.resolveRef c = some c') : A.Defines c' := by
  unfold Arena.resolveRef at h
  split at h
  case h_1 name hget =>
    obtain ⟨name', child, hrule⟩ := hmatches.ruleNode h
    exact defines_of_get hmatches hresolve hrule nofun
  case h_2 node hnode hget =>
    cases h
    exact defines_of_get hmatches hresolve hget hnode
  case h_3 => cases h

theorem closed_of_resolveRefs : A.Closed where
  children := by
    intro id c node hid hc
    obtain ⟨node', -, hmap⟩ := get_of_resolveRefs hresolve hid
    obtain ⟨c', -, hc'⟩ := Node.mem_children_of_mapChildren hmap hc
    exact defines_of_resolveRef hmatches hresolve hc'
  rules := by
    intro name id hrule
    rw [(resolveRefs_eq_some hresolve).1] at hrule
    obtain ⟨name', child, hget⟩ := hmatches.ruleNode hrule
    exact defines_of_get hmatches hresolve hget nofun

variable {text : Text}

omit hresolve in
theorem equivalent_resolveRef (h : B.resolveRef c = some c') :
    Equivalent (W.grammar text) (.call c') (.call c) := by
  unfold Arena.resolveRef at h
  split at h
  case h_1 name hget =>
    obtain ⟨w, hw, hreads⟩ := hmatches.written hget
    cases hreads with
    | same hsequence hchoice =>
      refine (Equivalent.of_call ?_).symm
      rw [Arena.grammar, hw, Option.bind_some, Node.expr, hmatches.rules, h]
      rfl
  case h_2 =>
    cases h
    exact .refl _
  case h_3 => cases h

omit hresolve in
theorem equivalent_map_call {children children' : List ℕ}
    (h : children.mapM B.resolveRef = some children') :
    List.Forall₂ (Equivalent (W.grammar text)) (children'.map .call) (children.map .call) := by
  rw [List.forall₂_map_left_iff, List.forall₂_map_right_iff]
  exact (forall₂_of_mapM h).flip.imp fun c' c hc => equivalent_resolveRef hmatches hc

omit hresolve in
/-- A sequence that has been taken apart is the sequence. -/
theorem equivalent_sequenceParts (p : ℕ) : Equivalent (W.grammar text)
    (seqs ((B.sequenceParts p).map .call)) (.call p) := by
  induction p using Nat.strong_induction_on with
  | _ p ih =>
    unfold Arena.sequenceParts
    split
    case h_1 children hget =>
      obtain ⟨w, hw, hreads⟩ := hmatches.written hget
      cases hreads with
      | same hsequence hchoice => exact absurd rfl (hsequence children)
      | @sequence ps hps =>
        have hcall : Equivalent (W.grammar text) (.call p) (seqs (ps.map .call)) := by
          refine .of_call ?_
          rw [Arena.grammar, hw]
          rfl
        rw [List.map_flatMap]
        exact (Equivalent.seqs_flatMap fun q hq => ih q (hps q hq)).trans hcall.symm
    case h_2 => exact .seq_empty _

omit hresolve in
theorem equivalent_choiceParts (p : ℕ) : Equivalent (W.grammar text)
    (choices ((B.choiceParts p).map .call)) (.call p) := by
  induction p using Nat.strong_induction_on with
  | _ p ih =>
    unfold Arena.choiceParts
    split
    case h_1 children hget =>
      obtain ⟨w, hw, hreads⟩ := hmatches.written hget
      cases hreads with
      | same hsequence hchoice => exact absurd rfl (hchoice children)
      | @choice ps hps =>
        have hcall : Equivalent (W.grammar text) (.call p) (choices (ps.map .call)) := by
          refine .of_call ?_
          rw [Arena.grammar, hw]
          rfl
        rw [List.map_flatMap]
        exact (Equivalent.choices_flatMap fun q hq => ih q (hps q hq)).trans hcall.symm
    case h_2 => exact .choice_fail _

/-- What is built has the outcomes of what was written. -/
theorem equivalent_written {e : Expr ℕ} (he : A.grammar text id = some e) :
    ∃ e', W.grammar text id = some e' ∧ Equivalent (W.grammar text) e e' := by
  obtain ⟨node', hget', hexpr⟩ := bind_eq_some_iff.mp he
  obtain ⟨node, hget, hmap⟩ := get_of_resolveRefs hresolve hget'
  obtain ⟨w, hw, hreads⟩ := hmatches.written hget
  have hgrammar : W.grammar text id = w.expr text W := by
    rw [Arena.grammar, hw]
    rfl
  rw [hgrammar]
  have hrules : A.rules = W.rules := (resolveRefs_eq_some hresolve).1.trans hmatches.rules.symm
  cases hreads with
  | @sequence ps hps =>
    obtain ⟨children', hchildren, rfl⟩ := map_eq_some_iff.mp hmap
    cases hexpr
    refine ⟨_, rfl, (Equivalent.seqs (equivalent_map_call hmatches hchildren)).trans ?_⟩
    rw [map_flatMap]
    exact .seqs_flatMap fun q _ => equivalent_sequenceParts hmatches q
  | @choice ps hps =>
    obtain ⟨children', hchildren, rfl⟩ := map_eq_some_iff.mp hmap
    cases hexpr
    refine ⟨_, rfl, (Equivalent.choices (equivalent_map_call hmatches hchildren)).trans ?_⟩
    rw [map_flatMap]
    exact .choices_flatMap fun q _ => equivalent_choiceParts hmatches q
  | same hsequence hchoice =>
    cases node with
    | sequence children => exact absurd rfl (hsequence children)
    | choice children => exact absurd rfl (hchoice children)
    | repetition child minCount maxCount =>
      obtain ⟨child', hchild, rfl⟩ := map_eq_some_iff.mp hmap
      cases hexpr
      exact ⟨_, rfl, (equivalent_resolveRef hmatches hchild).repeated _ _⟩
    | and child =>
      obtain ⟨child', hchild, rfl⟩ := map_eq_some_iff.mp hmap
      cases hexpr
      exact ⟨_, rfl, (equivalent_resolveRef hmatches hchild).and⟩
    | not child =>
      obtain ⟨child', hchild, rfl⟩ := map_eq_some_iff.mp hmap
      cases hexpr
      exact ⟨_, rfl, (equivalent_resolveRef hmatches hchild).not⟩
    | schema child _ | rule _ child | atomic child | tag child _ | gbnf child =>
      obtain ⟨child', hchild, rfl⟩ := map_eq_some_iff.mp hmap
      cases hexpr
      exact ⟨_, rfl, equivalent_resolveRef hmatches hchild⟩
    | ref name =>
      cases hmap
      rw [Node.expr, hrules] at hexpr
      exact ⟨e, hexpr, .refl e⟩
    | epsilon | start | end_ | literal _ | any | space | chars _ _ _ _ | string _
    | untilOneOf _ =>
      cases hmap
      cases hexpr
      exact ⟨_, rfl, .refl _⟩

end Resolved

/-! ## What the builder returns -/

namespace Builds

theorem closed (h : Builds W A) : A.Closed := by
  obtain ⟨B, hbuilt, hresolve⟩ := h
  exact closed_of_resolveRefs hbuilt.toMatches hresolve

theorem parses (h : Builds W A) {text : Text} {e : Expr ℕ} {o : Option ℕ}
    (hparses : Parses (A.grammar text) e p o) : Parses (W.grammar text) e p o := by
  obtain ⟨B, hbuilt, hresolve⟩ := h
  refine hparses.of_grammar fun i e p o hi he => ?_
  obtain ⟨e', he', hequivalent⟩ := equivalent_written hbuilt.toMatches hresolve hi
  exact .call he' ((hequivalent p o).mp he)

/-- The parsers of an arena without left recursion have an outcome everywhere. -/
theorem exists_parses (h : Builds W A) (hrec : A.NotLeftRecursive) (text : Text)
    (hid : A.Defines id) (p : ℕ) : ∃ o, Parses (A.grammar text) (.call id) p o :=
  exists_parses_call (fun _ _ => fits_grammar) (fun _ _ => closed_grammar h.closed)
    (hrec.wellFounded text) (isSome_grammar_iff.mpr hid) p

/-- A parser of the arena that is built has the outcomes of the one that was written. -/
theorem parses_iff (h : Builds W A) (hrec : A.NotLeftRecursive) {text : Text}
    (hid : A.Defines id) {o : Option ℕ} :
    Parses (W.grammar text) (.call id) p o ↔ Parses (A.grammar text) (.call id) p o := by
  constructor
  · intro hparses
    obtain ⟨o', ho'⟩ := h.exists_parses hrec text hid p
    obtain rfl := hparses.unique (h.parses ho')
    exact ho'
  · exact h.parses

end Builds

end ExpertPin.Peg
