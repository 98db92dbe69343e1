import Mathlib.Data.List.Infix

/-!
# Tries

A trie has a value at each of its nodes, and its children by symbol.  What there is to know
of it is the value at the end of each path (`Trie.ext_get`), and updating the values along a
path changes just those of the prefixes of the path.
-/

namespace ExpertPin

open List
open Option

universe u v

inductive Trie (α : Type u) (β : Type v) where
  | node (value : β) (children : α → Option (Trie α β))

namespace Trie

variable {α : Type u} {β : Type v}

def value : Trie α β → β
  | .node value _ => value

def children : Trie α β → α → Option (Trie α β)
  | .node _ children => children

@[simp] theorem value_node (b : β) (children : α → Option (Trie α β)) :
    (node b children).value = b := rfl

@[simp] theorem children_node (b : β) (children : α → Option (Trie α β)) :
    (node b children).children = children := rfl

/-- A trie without children. -/
def leaf (value : β) : Trie α β := .node value fun _ => none

/-- The subtrie at the end of a path. -/
def find (t : Trie α β) : List α → Option (Trie α β)
  | [] => some t
  | a :: s => (t.children a).bind fun t => t.find s

/-- The value at the end of a path. -/
def get (t : Trie α β) (s : List α) : Option β := (t.find s).map value

@[simp] theorem get_nil (t : Trie α β) : t.get [] = some t.value := rfl

theorem get_cons (t : Trie α β) (a : α) (s : List α) :
    t.get (a :: s) = (t.children a).bind fun t => t.get s := by
  rw [get, find]
  cases t.children a with
  | none => rfl
  | some child => rfl

theorem isSome_get (t : Trie α β) (s : List α) : (t.get s).isSome = (t.find s).isSome :=
  isSome_map

/-- Tries with the same values are the same. -/
theorem ext_get {t t' : Trie α β} (h : ∀ s, t.get s = t'.get s) : t = t' := by
  refine @Trie.rec α β (fun t => ∀ t', (∀ s, t.get s = t'.get s) → t = t')
    (fun o => ∀ o' : Option (Trie α β), (∀ s, o.bind (fun t => t.get s) = o'.bind fun t =>
      t.get s) →
      o = o') ?_ ?_ ?_ t t' h
  · rintro value children ih ⟨value', children'⟩ hget
    have hvalue : value = value' := some.inj (hget [])
    have hchildren : children = children' := by
      funext a
      refine ih a (children' a) fun s => ?_
      have hcons := hget (a :: s)
      rwa [get_cons, get_cons] at hcons
    rw [hvalue, hchildren]
  · intro o' hget
    cases o' with
    | none => rfl
    | some t' => exact nomatch hget []
  · intro t ih o' hget
    cases o' with
    | none => exact nomatch hget []
    | some t' => exact congrArg some (ih t' hget)

/-! ## Updating the values along a path -/

section Bump

variable [DecidableEq α] (f : Option β → β)

/-- Each node below the root along a path gets a new value, and is made where there is none. -/
def bump (t : Trie α β) : List α → Trie α β
  | [] => t
  | a :: s =>
    let child := match t.children a with
      | none => leaf (f none)
      | some child => .node (f (some child.value)) child.children
    .node t.value (Function.update t.children a (some (child.bump s)))

/-- The same from the end of a path on, if it is there. -/
def bumpFrom (t : Trie α β) : List α → List α → Trie α β
  | [], s => t.bump f s
  | a :: p, s =>
    match t.children a with
    | none => t
    | some child => .node t.value (Function.update t.children a (some (child.bumpFrom p s)))

variable {f}

@[simp] theorem value_bump (t : Trie α β) (s : List α) : (t.bump f s).value = t.value := by
  cases s with
  | nil => rfl
  | cons a s => rfl

theorem get_bump (t : Trie α β) (p s : List α) :
    (t.bump f p).get s = if s ≠ [] ∧ s <+: p then some (f (t.get s)) else t.get s := by
  induction p generalizing t s with
  | nil =>
    have hprefix : ¬(s ≠ [] ∧ s <+: []) := fun h => h.1 (prefix_nil.mp h.2)
    rw [if_neg hprefix]
    rfl
  | cons a p ih =>
    cases s with
    | nil => rw [if_neg fun h => h.1 rfl, get_nil, get_nil, value_bump]
    | cons b s =>
      rw [get_cons, get_cons, bump]
      by_cases hab : b = a
      · rw [hab]
        have hprefix : (a :: s ≠ [] ∧ a :: s <+: a :: p) ↔ s <+: p :=
          ⟨fun h => (cons_prefix_cons.mp h.2).2, fun h =>
            ⟨cons_ne_nil a s, cons_prefix_cons.mpr ⟨rfl, h⟩⟩⟩
        simp only [children_node, Function.update_self, bind_some, ih, hprefix]
        cases s with
        | nil =>
          rw [if_neg fun h => h.1 rfl, if_pos nil_prefix]
          cases t.children a with
          | none => rfl
          | some child => rfl
        | cons c s =>
          have hcons : (c :: s ≠ [] ∧ c :: s <+: p) ↔ c :: s <+: p :=
            and_iff_right (cons_ne_nil c s)
          simp only [hcons]
          cases t.children a with
          | none => rfl
          | some child => rfl
      · have hprefix : ¬(b :: s ≠ [] ∧ b :: s <+: a :: p) := fun h =>
          hab (cons_prefix_cons.mp h.2).1
        rw [if_neg hprefix]
        simp only [children_node, Function.update_of_ne hab]

theorem value_bumpFrom (t : Trie α β) (p s : List α) : (t.bumpFrom f p s).value = t.value := by
  cases p with
  | nil => exact value_bump t s
  | cons a p =>
    rw [bumpFrom]
    cases t.children a with
    | none => rfl
    | some child => rfl

/-- Only the prefixes that are longer than the first path are updated. -/
theorem get_bumpFrom {t : Trie α β} {p : List α} (h : (t.get p).isSome) (q s : List α) :
    (t.bumpFrom f p q).get s =
      if p.length < s.length ∧ s <+: p ++ q then some (f (t.get s)) else t.get s := by
  induction p generalizing t s with
  | nil =>
    rw [bumpFrom, get_bump, nil_append, length_nil]
    simp only [length_pos_iff]
  | cons a p ih =>
    rw [get_cons] at h
    cases hchild : t.children a with
    | none =>
      rw [hchild] at h
      exact nomatch h
    | some child =>
      rw [hchild] at h
      cases s with
      | nil =>
        have hshort : ¬((a :: p).length < ([] : List α).length ∧ [] <+: a :: p ++ q) :=
          fun hlt => Nat.not_lt_zero _ hlt.1
        rw [if_neg hshort, get_nil, value_bumpFrom, get_nil]
      | cons b s =>
        rw [bumpFrom, hchild, get_cons, get_cons]
        by_cases hab : b = a
        · rw [hab]
          have hprefix : ((a :: p).length < (a :: s).length ∧ a :: s <+: a :: p ++ q) ↔
              (p.length < s.length ∧ s <+: p ++ q) := by
            rw [length_cons, length_cons, Nat.succ_lt_succ_iff, cons_append,
              cons_prefix_cons, and_iff_right rfl]
          simp only [children_node, Function.update_self, bind_some, hprefix, hchild]
          exact ih h s
        · have hprefix : ¬((a :: p).length < (b :: s).length ∧ b :: s <+: a :: p ++ q) :=
            fun h => hab (cons_prefix_cons.mp h.2).1
          rw [if_neg hprefix]
          simp only [children_node, Function.update_of_ne hab]

end Bump

/-! ## Words with values -/

section Insert

variable {γ : Type v} [DecidableEq α]

/-- The value at the end of a path is set, and what there is not yet of the path is made. -/
def insert (t : Trie α (Option γ)) : List α → γ → Trie α (Option γ)
  | [], value => .node (some value) t.children
  | a :: s, value =>
    let child := (t.children a).getD (leaf none)
    .node t.value (Function.update t.children a (some (child.insert s value)))

omit [DecidableEq α] in
/-- The value of a word. -/
def valueAt (t : Trie α (Option γ)) (s : List α) : Option γ := (t.get s).join

omit [DecidableEq α] in
@[simp] theorem valueAt_nil (t : Trie α (Option γ)) : t.valueAt [] = t.value := rfl

omit [DecidableEq α] in
theorem valueAt_cons (t : Trie α (Option γ)) (a : α) (s : List α) :
    t.valueAt (a :: s) = (t.children a).bind fun child => child.valueAt s := by
  rw [valueAt, get_cons]
  cases t.children a with
  | none => rfl
  | some child => rfl

omit [DecidableEq α] in
theorem valueAt_leaf (s : List α) : (leaf none : Trie α (Option γ)).valueAt s = none := by
  cases s with
  | nil => rfl
  | cons a s => rfl

theorem valueAt_insert (t : Trie α (Option γ)) (s : List α) (value : γ) (p : List α) :
    (t.insert s value).valueAt p = if p = s then some value else t.valueAt p := by
  induction s generalizing t p with
  | nil =>
    cases p with
    | nil => rfl
    | cons b p => rw [insert, if_neg (cons_ne_nil b p), valueAt_cons, valueAt_cons]; rfl
  | cons a s ih =>
    cases p with
    | nil => rw [if_neg (cons_ne_nil a s).symm]; rfl
    | cons b p =>
      rw [valueAt_cons, valueAt_cons, insert, children_node]
      by_cases hab : b = a
      · subst hab
        rw [Function.update_self, bind_some, ih]
        simp only [cons.injEq, true_and]
        split
        · rfl
        · cases t.children b with
          | none => exact valueAt_leaf p
          | some child => rfl
      · rw [Function.update_of_ne hab, if_neg fun h => hab (cons.inj h).1]

end Insert

end Trie

end ExpertPin
