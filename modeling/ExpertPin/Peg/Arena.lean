import Mathlib.Data.Nat.Notation
import Mathlib.Data.Int.Notation
import Mathlib.Logic.Function.Basic

/-!
# Parsers and their builder

The parsers of an arena refer to each other by their ids, and rules by their names.  The builder
adds parsers at the end, takes nested sequences and choices apart as it goes, and when it is done
puts the rules themselves in the place of the references to them.

`Built W A` says that the builder's calls have made the arena `A`, and would have made `W` if it
took each call as it is written.
-/

namespace ExpertPin.Peg

abbrev Text := List UInt8

structure CharRange where
  start : ℕ
  stop : ℕ
deriving DecidableEq, Repr

def CharRange.contains (r : CharRange) (codepoint : ℕ) : Bool :=
  r.start ≤ codepoint && codepoint ≤ r.stop

/-- The kinds of parsers.  A count of `-1` is unbounded. -/
inductive Node
  | epsilon
  | start
  | end_
  | literal (literal : Text)
  | sequence (children : List ℕ)
  | choice (children : List ℕ)
  | repetition (child : ℕ) (minCount maxCount : ℤ)
  | and (child : ℕ)
  | not (child : ℕ)
  | any
  | space
  | chars (ranges : List CharRange) (negated : Bool) (minCount maxCount : ℤ)
  | string (delimiter : UInt8)
  | untilOneOf (delimiters : List Text)
  | schema (child : ℕ) (name : Text)
  | rule (name : Text) (child : ℕ)
  | ref (name : Text)
  | atomic (child : ℕ)
  | tag (child : ℕ) (tag : Text)
  | gbnf (child : ℕ)
deriving DecidableEq, Repr

namespace Node

def children : Node → List ℕ
  | .sequence children => children
  | .choice children => children
  | .repetition child _ _ => [child]
  | .and child => [child]
  | .not child => [child]
  | .schema child _ => [child]
  | .rule _ child => [child]
  | .atomic child => [child]
  | .tag child _ => [child]
  | .gbnf child => [child]
  | _ => []

/-- The parsers that the builder adds as they are given to it. -/
def IsPlain : Node → Prop
  | .sequence _ => False
  | .choice _ => False
  | .rule _ _ => False
  | _ => True

/-- A parser with other children, which may not be there. -/
def mapChildren (f : ℕ → Option ℕ) : Node → Option Node
  | .sequence children => (children.mapM f).map .sequence
  | .choice children => (children.mapM f).map .choice
  | .repetition child minCount maxCount => (f child).map (.repetition · minCount maxCount)
  | .and child => (f child).map .and
  | .not child => (f child).map .not
  | .schema child name => (f child).map (.schema · name)
  | .rule name child => (f child).map (.rule name)
  | .atomic child => (f child).map .atomic
  | .tag child t => (f child).map (.tag · t)
  | .gbnf child => (f child).map .gbnf
  | node => some node

end Node

structure Arena where
  parsers : List Node
  rules : Text → Option ℕ
  root : Option ℕ

namespace Arena

def empty : Arena := ⟨[], fun _ => none, none⟩

def get (A : Arena) (id : ℕ) : Option Node := A.parsers[id]?

def size (A : Arena) : ℕ := A.parsers.length

def addParser (A : Arena) (parser : Node) : Arena := { A with parsers := A.parsers ++ [parser] }

def addRule (A : Arena) (name : Text) (id : ℕ) : Arena :=
  { A with rules := Function.update A.rules name (some id) }

def setRoot (A : Arena) (id : ℕ) : Arena := { A with root := some id }

def resolveRef (A : Arena) (id : ℕ) : Option ℕ :=
  match A.get id with
  | some (.ref name) => A.rules name
  | some _ => some id
  | none => none

/-- The root may be a reference as well. -/
def resolveRoot (A : Arena) : Option (Option ℕ) :=
  match A.root with
  | none => some none
  | some id => (A.resolveRef id).map some

/-- References to rules are replaced by the rules; `none` where there is no such rule. -/
def resolveRefs (A : Arena) : Option Arena :=
  (A.parsers.mapM (Node.mapChildren A.resolveRef)).bind fun parsers =>
    A.resolveRoot.map fun root => { A with parsers := parsers, root := root }

end Arena

/-! ## The builder -/

def isRuleChar (c : UInt8) : Bool :=
  97 ≤ c && c ≤ 122 || 65 ≤ c && c ≤ 90 || 48 ≤ c && c ≤ 57 || c = 45

/-- Each run of characters that do not stand in the name of a rule becomes a hyphen. -/
def ruleNameFrom (inRun : Bool) : Text → Text
  | [] => []
  | c :: name =>
    if isRuleChar c then c :: ruleNameFrom false name
    else if inRun then ruleNameFrom true name
    else 45 :: ruleNameFrom true name

def ruleName (name : Text) : Text := ruleNameFrom false name

namespace Arena

/-- A sequence in a sequence is taken apart. -/
def sequenceParts (A : Arena) (p : ℕ) : List ℕ :=
  match A.get p with
  | some (.sequence children) => children
  | _ => [p]

def choiceParts (A : Arena) (p : ℕ) : List ℕ :=
  match A.get p with
  | some (.choice children) => children
  | _ => [p]

def sequence (A : Arena) (parsers : List ℕ) : Arena :=
  A.addParser (.sequence (parsers.flatMap A.sequenceParts))

def choice (A : Arena) (parsers : List ℕ) : Arena :=
  A.addParser (.choice (parsers.flatMap A.choiceParts))

/-- A rule under its cleaned name, and a reference to it.  The rule with a function for its
parser is closed like this when the function has returned. -/
def rule (A : Arena) (name : Text) (p : ℕ) : Arena :=
  ((A.addParser (.rule (ruleName name) p)).addRule (ruleName name) A.size).addParser
    (.ref (ruleName name))

/-- A rule is opened with a parser that stands in for its own, before that is built. -/
def openRule (A : Arena) (name : Text) : Arena :=
  ((A.addParser .any).addParser (.rule (ruleName name) A.size)).addRule (ruleName name) (A.size + 1)

end Arena

/-- The arenas that calls of the builder make, as they are written and as they are built. -/
inductive Built : Arena → Arena → Prop
  | empty : Built .empty .empty
  | add {W A : Arena} {node : Node} (h : Built W A) (hplain : node.IsPlain)
      (hchildren : ∀ c ∈ node.children, c < A.size) : Built (W.addParser node) (A.addParser node)
  | sequence {W A : Arena} {parsers : List ℕ} (h : Built W A)
      (hparsers : ∀ p ∈ parsers, p < A.size) :
      Built (W.addParser (.sequence parsers)) (A.sequence parsers)
  | choice {W A : Arena} {parsers : List ℕ} (h : Built W A) (hparsers : ∀ p ∈ parsers, p < A.size) :
      Built (W.addParser (.choice parsers)) (A.choice parsers)
  | rule {W A : Arena} {p : ℕ} (h : Built W A) (name : Text) (hp : p < A.size) :
      Built (W.rule name p) (A.rule name p)
  | openRule {W A : Arena} (h : Built W A) (name : Text) (hnew : A.rules (ruleName name) = none) :
      Built (W.openRule name) (A.openRule name)
  | setRoot {W A : Arena} {id : ℕ} (h : Built W A) (hid : id < A.size) :
      Built (W.setRoot id) (A.setRoot id)

/-- The arena that the builder returns, after calls that are written as `W`. -/
def Builds (W A : Arena) : Prop := ∃ B, Built W B ∧ B.resolveRefs = some A

end ExpertPin.Peg
