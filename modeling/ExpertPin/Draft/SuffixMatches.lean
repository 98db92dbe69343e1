import Mathlib.Algebra.Order.Field.Rat
import Mathlib.Algebra.Order.Ring.Cast
import ExpertPin.Draft.SuffixDraft

/-!
# Drafts follow the history

The tree has just the strings of the history up to its depth, and so what a path through it
spells occurs in the history (`speculate_sound`).  If the last tokens of the context are not in
the tree, then neither are more of them.

With sizes that are no longer `int`s a position can be entered a second time, and a string that
occurs once is taken for one that occurs twice (`not_drafts`).
-/

namespace ExpertPin.Draft

open Occurrences
open List
open Option
open Nat

/-- A string in the tree fits into a window. -/
theorem Counts.length_le {root : SuffixNode} {tokens s : List Token} {depth : ℕ}
    (h : Counts root tokens (SuffixTree.fullLen tokens.length depth)) (hs : s ≠ [])
    (hsome : (root.find s).isSome) : s.length ≤ depth := by
  rw [← Trie.isSome_get, h.get s hs] at hsome
  split at hsome
  case isTrue => exact absurd hsome Bool.false_ne_true
  case isFalse hpos =>
    obtain ⟨j, -, hbegins⟩ := windowed_pos_iff.mp (pos_of_ne_zero hpos)
    calc s.length
        ≤ ((tokens.drop j).take (SuffixTree.fullLen tokens.length depth j)).length :=
          hbegins.length_le
      _ ≤ SuffixTree.fullLen tokens.length depth j := length_take_le _ _
      _ ≤ depth := min_le_right _ _

namespace SuffixTree

variable {root cur : SuffixNode} {tokens : List Token} {depth : ℤ} {order : List Token → List Token}
  {t : SuffixTree}

/-! ## The strings of a tree -/

/-- The tree has the strings of the history up to its depth, with their occurrences. -/
structure Spells (root : SuffixNode) (tokens : List Token) (depth : ℤ) : Prop where
  isSome_iff : ∀ s, s ≠ [] → ((root.find s).isSome ↔ s.length ≤ depth ∧ s <:+: tokens)
  value : ∀ s, s ≠ [] → ∀ node, root.find s = some node → node.value.toInt = occurrences s tokens

theorem maxDepth_extendAt (oldSize newSize : ℤ) (t : SuffixTree) (i : ℤ) :
    (extendAt oldSize newSize t i).maxDepth = t.maxDepth := by
  unfold extendAt
  split
  · dsimp only
    split
    · rfl
    · rfl
  · rw [insertSuffix]
    split
    · rfl
    · rfl

theorem maxDepth_extendFrom (t : SuffixTree) (oldSize newSize : ℤ) :
    (t.extendFrom oldSize newSize).maxDepth = t.maxDepth := by
  have hloop : ∀ (positions : List ℤ) (t : SuffixTree),
      (positions.foldl (extendAt oldSize newSize) t).maxDepth = t.maxDepth := by
    intro positions t
    induction positions generalizing t with
    | nil => rfl
    | cons i positions ih => rw [foldl_cons, ih, maxDepth_extendAt]
  exact hloop _ t

theorem maxDepth_extend (t : SuffixTree) (more : List Token) :
    (t.extend more).maxDepth = t.maxDepth := by
  unfold extend
  split
  · rfl
  · exact maxDepth_extendFrom { t with tokens := t.tokens ++ more } _ _

theorem maxDepth_run (t : SuffixTree) (chunks : List (List Token)) :
    (t.run chunks).maxDepth = t.maxDepth := by
  induction chunks generalizing t with
  | nil => rfl
  | cons chunk chunks ih => exact (ih (t.extend chunk)).trans (maxDepth_extend t chunk)

/-- A tree without depth, which stays empty. -/
structure Shallow (t : SuffixTree) : Prop where
  maxDepth : t.maxDepth ≤ 0
  root_eq : t.root = Trie.leaf 0
  inserted : t.inserted = toInt t.tokens.length

theorem extendAt_of_nonpos {oldSize newSize : ℤ} (hdepth : t.maxDepth ≤ 0)
    (hinserted : t.inserted = oldSize) (i : ℤ) : extendAt oldSize newSize t i = t := by
  unfold extendAt
  rw [hinserted]
  split
  case isTrue hlt =>
    have hfull : ¬min (oldSize - i) t.maxDepth < min (newSize - i) t.maxDepth := by omega
    exact if_neg hfull
  case isFalse =>
    have hnone : min (toInt t.tokens.length - i) t.maxDepth ≤ 0 := by omega
    exact if_pos hnone

theorem foldl_extendAt_of_nonpos {oldSize newSize : ℤ} (hdepth : t.maxDepth ≤ 0)
    (hinserted : t.inserted = oldSize) (positions : List ℤ) :
    positions.foldl (extendAt oldSize newSize) t = t := by
  induction positions with
  | nil => rfl
  | cons i positions ih => rw [foldl_cons, extendAt_of_nonpos hdepth hinserted, ih]

theorem Shallow.extend (h : t.Shallow) (more : List Token) : (t.extend more).Shallow := by
  unfold SuffixTree.extend
  split
  · exact h
  · have hloop := @foldl_extendAt_of_nonpos { t with tokens := t.tokens ++ more }
      (toInt t.tokens.length) (toInt (t.tokens ++ more).length) h.maxDepth h.inserted
    rw [extendFrom, hloop]
    refine ⟨h.maxDepth, h.root_eq, ?_⟩
    dsimp only

theorem Shallow.run (h : t.Shallow) (chunks : List (List Token)) : (t.run chunks).Shallow := by
  induction chunks generalizing t with
  | nil => exact h
  | cons chunk chunks ih => exact ih (h.extend chunk)

theorem spells_run (depth : ℤ) {chunks : List (List Token)}
    (hsize : chunks.flatten.length < 2 ^ 31) :
    Spells ((new depth).run chunks).root chunks.flatten depth := by
  by_cases hdepth : 1 ≤ depth
  · obtain ⟨hcounts, -⟩ := counts_run depth hdepth chunks hsize
    obtain ⟨depth, rfl⟩ := Int.eq_ofNat_of_zero_le (Int.le_trans (by decide) hdepth)
    have hbuilt := built_run depth (Int.ofNat_lt.mp hdepth) chunks hsize
    constructor
    case isSome_iff =>
      intro s hs
      have hpos : 1 ≤ s.length := length_pos_iff.mpr hs
      constructor
      · intro hsome
        have hlong : (s.length : ℤ) ≤ depth := Int.ofNat_le.mpr (hbuilt.counts.length_le hs hsome)
        exact ⟨hlong, (hcounts s hpos hlong).1.mp hsome⟩
      · rintro ⟨hlong, hoccurs⟩
        exact (hcounts s hpos hlong).1.mpr hoccurs
    case value =>
      intro s hs node hnode
      have hsome : (((new depth).run chunks).root.find s).isSome := hnode ▸ rfl
      exact (hcounts s (length_pos_iff.mpr hs)
        (Int.ofNat_le.mpr (hbuilt.counts.length_le hs hsome))).2 node hnode
  · have hshallow : (new depth).Shallow :=
      ⟨Int.not_lt.mp hdepth, rfl, (toInt_of_lt (Nat.two_pow_pos 31)).symm⟩
    have hroot := (hshallow.run chunks).root_eq
    have hfind : ∀ s, s ≠ [] → ((new depth).run chunks).root.find s = none := by
      intro s hs
      obtain ⟨token, s, rfl⟩ := exists_cons_of_ne_nil hs
      rw [hroot]
      rfl
    constructor
    case isSome_iff =>
      intro s hs
      have hpos := length_pos_iff.mpr hs
      rw [hfind s hs]
      exact ⟨fun h => absurd h Bool.false_ne_true, fun h => by omega⟩
    case value =>
      intro s hs node hnode
      exact nomatch (hfind s hs).symm.trans hnode

theorem Spells.value_pos (h : Spells root tokens depth) {s : List Token} (hs : s ≠ [])
    (hcur : root.find s = some cur) : 0 < cur.value.toInt := by
  rw [h.value s hs cur hcur]
  refine Int.natCast_pos.mpr ((occurrences_pos_iff hs).mpr ?_)
  exact ((h.isSome_iff s hs).mp (hcur ▸ rfl)).2

/-! ## The descent -/

theorem find_append (root : SuffixNode) (s s' : List Token) :
    root.find (s ++ s') = (root.find s).bind fun node => node.find s' := by
  induction s generalizing root with
  | nil => rfl
  | cons token s ih =>
    rw [cons_append, Trie.find, Trie.find]
    cases root.children token with
    | none => rfl
    | some child => exact ih child

theorem find_concat {s : List Token} {token : Token} (hcur : root.find s = some cur) :
    root.find (s ++ [token]) = cur.children token := by
  rw [find_append, hcur, bind_some, Trie.find]
  cases cur.children token with
  | none => rfl
  | some child => rfl

/-- The best child so far is a child. -/
theorem foldl_visit_isSome (l : List Token) {best : BestChild}
    (h : (cur.children best.token).isSome) :
    (cur.children (l.foldl (BestChild.visit cur) best).token).isSome := by
  induction l generalizing best with
  | nil => exact h
  | cons token l ih =>
    refine ih ?_
    unfold BestChild.visit
    split
    · exact h
    case h_2 child hchild =>
      split
      · rw [hchild]
        rfl
      · exact h

/-- A node with children whose counts are positive has a best one. -/
theorem bestChild_isSome {l : List Token} (hl : l ≠ [])
    (hpos : ∀ token ∈ l, ∃ child, cur.children token = some child ∧ 0 < child.value.toInt) :
    (cur.children (l.foldl (BestChild.visit cur) {}).token).isSome := by
  obtain ⟨token, l, rfl⟩ := exists_cons_of_ne_nil hl
  obtain ⟨child, hchild, hcount⟩ := hpos token mem_cons_self
  have hgreater : child.value > (0 : Int64) := Int64.lt_iff_toInt_lt.mpr hcount
  refine foldl_visit_isSome l ?_
  unfold BestChild.visit
  rw [hchild]
  dsimp only
  rw [if_pos hgreater, hchild]
  rfl

section Drafting

variable {F : Type} {ops : FloatOps F} {minTokenProb : F}

/-- A draft goes on along a path of the tree. -/
def Continues (root : SuffixNode) (n : ℕ) (path : List Token) (s : Scored F)
    (r : Option (Scored F)) : Prop :=
  ∃ score more, r = some ⟨score, s.draft ++ more⟩ ∧ (root.find (path ++ more)).isSome ∧
    more.length ≤ n

theorem continues_stop {path : List Token} (hcur : root.find path = some cur) (n : ℕ)
    (s : Scored F) : Continues root n path s (some s) := by
  refine ⟨s.score, [], by rw [append_nil], ?_, zero_le n⟩
  rw [append_nil, hcur]
  rfl

theorem Continues.step {n : ℕ} {path : List Token} {s : Scored F} {score : F} {token : Token}
    {r : Option (Scored F)}
    (h : Continues root n (path ++ [token]) ⟨score, s.draft ++ [token]⟩ r) :
    Continues root (n + 1) path s r := by
  obtain ⟨score, more, hr, hfind, hlength⟩ := h
  refine ⟨score, token :: more, ?_, ?_, succ_le_succ hlength⟩
  · rw [hr, append_cons s.draft token more]
  · rwa [append_cons]

/-- The descent stays in the tree. -/
theorem follow_spec (h : Spells root tokens depth) (hvisits : Visits root order) (n : ℕ)
    {path : List Token} (hpath : path ≠ []) (hcur : root.find path = some cur) (prob : F)
    (s : Scored F) :
    Continues root n path s (follow ops order minTokenProb n path cur prob s) := by
  induction n generalizing path cur prob s with
  | zero => exact continues_stop hcur 0 s
  | succ n ih =>
    rw [follow]
    split
    case isTrue => exact continues_stop hcur _ s
    case isFalse hne =>
      have hvalue := h.value_pos hpath hcur
      have hzero : cur.value ≠ 0 := by
        intro hzero
        rw [hzero] at hvalue
        exact absurd hvalue (by decide)
      have hchildren : ∀ token ∈ order path,
          ∃ child, cur.children token = some child ∧ 0 < child.value.toInt := by
        intro token htoken
        obtain ⟨child, hchild⟩ :=
          isSome_iff_exists.mp ((hvisits.mem_iff path cur hcur token).mp htoken)
        have hfind := (find_concat hcur).trans hchild
        exact ⟨child, hchild, h.value_pos (concat_ne_nil token path) hfind⟩
      obtain ⟨child, hchild⟩ :=
        isSome_iff_exists.mp (bestChild_isSome hne hchildren)
      dsimp only
      rw [if_neg hzero]
      split
      case isTrue => exact continues_stop hcur _ s
      case isFalse =>
        rw [hchild]
        have hnext := (find_concat hcur).trans hchild
        exact (ih (concat_ne_nil _ path) hnext _ _).step

/-! ## The match lengths -/

variable {context : List Token}

theorem length_lastTokens {n : ℕ} (h : n ≤ context.length) :
    (lastTokens context n).length = n := by
  rw [lastTokens, length_drop, Nat.sub_sub_self h]

theorem lastTokens_ne_nil {n : ℕ} (hpos : 0 < n)
    (h : n ≤ context.length) : lastTokens context n ≠ [] := by
  rw [← length_pos_iff, length_lastTokens h]
  exact hpos

theorem lastTokens_suffix {m n : ℕ} (h : m ≤ n) :
    lastTokens context m <:+ lastTokens context n :=
  drop_suffix_drop_left context (Nat.sub_le_sub_left h _)

/-- The last tokens of what is left of a context are its own. -/
theorem lastTokens_drop {k n : ℕ} (h : n ≤ (context.drop k).length) :
    lastTokens (context.drop k) n = lastTokens context n := by
  rw [length_drop] at h
  rw [lastTokens, lastTokens, drop_drop, length_drop]
  rcases Nat.le_total k context.length with hk | hk
  · have hstart : k + (context.length - k - n) = context.length - n := by omega
    rw [hstart]
  · have hn : n = 0 := by omega
    rw [hn, Nat.sub_zero, Nat.sub_zero, drop_eq_nil_of_le (by omega), drop_length]

/-- More tokens are not in the tree if fewer are not. -/
theorem Spells.stops (h : Spells root tokens depth) {m n : ℕ} (hpos : 0 < m)
    (hle : m ≤ n) (hn : n ≤ context.length) (hnone : root.find (lastTokens context m) = none) :
    root.find (lastTokens context n) = none := by
  by_contra hsome
  have hm := le_trans hle hn
  obtain ⟨hlong, hoccurs⟩ :=
    (h.isSome_iff _ (lastTokens_ne_nil (lt_of_lt_of_le hpos hle) hn)).mp
      (isSome_iff_ne_none.mpr hsome)
  have hfind := (h.isSome_iff _ (lastTokens_ne_nil hpos hm)).mpr
    ⟨by rw [length_lastTokens hn] at hlong; rw [length_lastTokens hm]; omega,
      (lastTokens_suffix hle).isInfix.trans hoccurs⟩
  rw [hnone] at hfind
  exact absurd hfind Bool.false_ne_true

/-- What follows the last tokens of the context in the history, if there is something. -/
def Matched (tokens context : List Token) (minMatchCount : ℤ) (lo hi : ℤ) (draft : List Token) :
    Prop :=
  draft ≠ [] → ∃ m : ℕ, lo ≤ m ∧ m ≤ hi ∧ lastTokens context m ++ draft <:+: tokens ∧
    minMatchCount ≤ occurrences (lastTokens context m) tokens

theorem tryLens_spec (h : Spells root tokens depth) (hvisits : Visits root order)
    {context : List Token} {maxSpecTokens minMatchCount lo : ℤ} {lens : List ℕ}
    (hlens : ∀ m ∈ lens, 0 < m ∧ lo ≤ m ∧ m ≤ context.length) {best : Scored F}
    (hlength : best.draft.length ≤ max 0 maxSpecTokens)
    (hbest : Matched tokens context minMatchCount lo context.length best.draft) :
    ∃ result, tryLens ops order root context maxSpecTokens minTokenProb minMatchCount lens best =
        some result ∧ result.draft.length ≤ max 0 maxSpecTokens ∧
      Matched tokens context minMatchCount lo context.length result.draft := by
  induction lens generalizing best with
  | nil => exact ⟨best, rfl, hlength, hbest⟩
  | cons m lens ih =>
    obtain ⟨⟨hpos, hlo, hhi⟩, hrest⟩ := forall_mem_cons.mp hlens
    have hne : lastTokens context m ≠ [] := lastTokens_ne_nil hpos hhi
    simp only [tryLens]
    cases hnode : root.find (lastTokens context m) with
    | none => exact ⟨best, rfl, hlength, hbest⟩
    | some node =>
      dsimp only
      split
      case isTrue => exact ih hrest hlength hbest
      case isFalse hcount =>
        split
        case isTrue => exact ih hrest hlength hbest
        case isFalse =>
          obtain ⟨score, draft, hfollow, hfind, hshort⟩ :=
            follow_spec h hvisits (min maxSpecTokens (m + 8)).toNat hne hnode ops.one ⟨ops.zero, []⟩
          rw [hfollow]
          refine ih hrest ?_ ?_
          · split
            · exact Int.le_trans (Int.ofNat_le.mpr hshort) (by omega)
            · exact hlength
          · split
            · intro _
              refine ⟨m, hlo, Int.ofNat_le.mpr hhi, ?_, ?_⟩
              · exact ((h.isSome_iff _ (append_ne_nil_of_left_ne_nil hne _)).mp hfind).2
              · rw [← h.value _ hne node hnode]
                exact Int.not_lt.mp hcount
            · exact hbest

theorem mem_matchLens {minMatchLen nContext : ℤ} {m : ℕ} (h : m ∈ matchLens minMatchLen nContext) :
    max 1 minMatchLen ≤ m ∧ m ≤ nContext := by
  obtain ⟨hlo, hhi⟩ := mem_range'_1.mp h
  omega

end Drafting

/-- A draft is as long as it may be, and is what follows some last tokens of the context. -/
structure Drafts (tokens : List Token) (depth : ℤ) (context : List Token)
    (maxSpecTokens minMatchCount minMatchLen : ℤ) (draft : List Token) : Prop where
  length_le : draft.length ≤ max 0 maxSpecTokens
  matched : Matched tokens context minMatchCount (max 1 minMatchLen) (min context.length depth)
    draft

theorem drafts_nil {context : List Token} {maxSpecTokens minMatchCount minMatchLen : ℤ} :
    Drafts tokens depth context maxSpecTokens minMatchCount minMatchLen [] :=
  ⟨Int.le_max_left _ _, fun hne => absurd rfl hne⟩

theorem Spells.drafts {F : Type} (h : Spells t.root tokens t.maxDepth)
    (hvisits : Visits t.root order) (ops : FloatOps F) (context : List Token) (maxSpecTokens : ℤ)
    (minTokenProb : F) (minMatchCount minMatchLen : ℤ) :
    ∃ draft, speculate ops order t context maxSpecTokens minTokenProb minMatchCount minMatchLen =
        some draft ∧
      Drafts tokens t.maxDepth context maxSpecTokens minMatchCount minMatchLen draft := by
  unfold speculate
  split
  case isTrue => exact ⟨[], rfl, drafts_nil⟩
  case isFalse =>
    let nContext := min (context.length : ℤ) t.maxDepth
    let left := context.drop ((context.length : ℤ) - nContext).toNat
    have hleft : left.length = context.length - ((context.length : ℤ) - nContext).toNat :=
      length_drop
    have hlens : ∀ m ∈ matchLens minMatchLen nContext,
        0 < m ∧ max 1 minMatchLen ≤ m ∧ m ≤ left.length := by
      intro m hm
      obtain ⟨hlo, hhi⟩ := mem_matchLens hm
      exact ⟨by omega, hlo, by omega⟩
    obtain ⟨⟨score, draft⟩, hresult, hlength, hmatched⟩ :=
      @tryLens_spec t.root tokens t.maxDepth order F ops minTokenProb h hvisits left maxSpecTokens
        minMatchCount (max 1 minMatchLen) (matchLens minMatchLen nContext) hlens ⟨ops.zero, []⟩
        (Int.le_max_left 0 maxSpecTokens) fun hne => absurd rfl hne
    refine ⟨draft, ?_, hlength, fun hne => ?_⟩
    · exact congrArg (Option.map Scored.draft) hresult
    · obtain ⟨m, hlo, hhi, hoccurs, hcount⟩ := hmatched hne
      rw [lastTokens_drop (Int.ofNat_le.mp hhi)] at hoccurs hcount
      have hpos : (1 : ℤ) ≤ m := Int.le_trans (Int.le_max_left _ _) hlo
      have hm : (m : ℤ) ≤ nContext := by
        change (m : ℤ) ≤ left.length at hhi
        omega
      exact ⟨m, hlo, hm, hoccurs, hcount⟩

/-- `float`s without rounding. -/
def ratOps : FloatOps ℚ where
  zero := 0
  one := 1
  quot a b := a.toInt / b.toInt
  mul := (· * ·)
  add := (· + ·)
  lt a b := a < b

/-- Where the size wraps to a small one, the first position is entered again. -/
theorem root_extend_wrapped {more : List Token} (hmore : more ≠ []) (hdepth : t.maxDepth = 2)
    (hinserted : t.inserted = -2) (hold : toInt t.tokens.length = -2)
    (hnew : toInt (t.tokens ++ more).length = 1) :
    (t.extend more).root = t.root.bump countOne ((t.tokens ++ more).take 1) := by
  have hnone : ¬more.length ≤ 0 := fun hle =>
    hmore (eq_nil_of_length_eq_zero (le_zero.mp hle))
  rw [extend, if_neg hnone, hold, hnew, extendFrom]
  dsimp only
  rw [hdepth]
  have hpositions : (range (1 - max 0 (-2 - 2 : ℤ)).toNat).map
      (fun (i : ℕ) => max 0 (-2 - 2 : ℤ) + i) = [0] := rfl
  rw [hpositions, foldl_cons, foldl_nil, extendAt, hinserted, if_neg (by decide),
    insertSuffix]
  dsimp only
  rw [hnew, if_neg (by decide)]
  rfl

/-- A token that does not come back. -/
def lead (n : ℕ) : List Token := 7 :: List.replicate n 1

theorem occurrences_lead (n : ℕ) : occurrences [7] (lead n) = 1 := by
  refine Finset.card_eq_one.mpr ⟨0, Finset.ext fun j => ?_⟩
  rw [Finset.mem_filter, Finset.mem_range, Finset.mem_singleton]
  constructor
  · rintro ⟨-, hbegins⟩
    cases j with
    | zero => rfl
    | succ j =>
      have hmem : (7 : Token) ∈ (replicate n (1 : Token)).drop j :=
        hbegins.subset (mem_singleton_self 7)
      exact absurd (eq_of_mem_replicate (mem_of_mem_drop hmem)) (by decide)
  · rintro rfl
    exact ⟨succ_pos _, replicate n 1, rfl⟩

theorem mem_lead {n : ℕ} {token : Token} (h : token ∈ lead n) : token = 7 ∨ token = 1 :=
  (mem_cons.mp h).imp id eq_of_mem_replicate

section Twice

variable {n : ℕ} (h : Spells root (lead n) 2)

include h

theorem isSome_find_bump {s : List Token} (hs : s ≠ []) :
    ((root.bump countOne [7]).find s).isSome ↔ s.length ≤ (2 : ℤ) ∧ s <:+: lead n := by
  rw [← Trie.isSome_get, Trie.get_bump, ← h.isSome_iff s hs, ← Trie.isSome_get]
  split
  case isTrue hboth =>
    obtain rfl : s = [7] := (prefix_cons_iff.mp hboth.2).elim (fun hnil => absurd hnil hs)
      fun ⟨rest, hrest, hnil⟩ => by rw [hrest, prefix_nil.mp hnil]
    refine ⟨fun _ => ?_, fun _ => rfl⟩
    rw [Trie.isSome_get]
    exact (h.isSome_iff [7] hs).mpr ⟨by decide, [], replicate n 1, rfl⟩
  case isFalse => exact Iff.rfl

/-- It is counted twice. -/
theorem find_bump : ∃ node, (root.bump countOne [7]).find [7] = some node ∧ node.value = 2 := by
  obtain ⟨old, hold⟩ := isSome_iff_exists.mp
    ((h.isSome_iff [7] (cons_ne_nil 7 [])).mpr ⟨by decide, [], replicate n 1, rfl⟩)
  have hvalue : old.value = 1 := by
    refine Int64.toInt_inj.mp ((h.value [7] (cons_ne_nil 7 []) old hold).trans ?_)
    rw [occurrences_lead]
    rfl
  have hget : (root.bump countOne [7]).get [7] = some 2 := by
    rw [Trie.get_bump, if_pos ⟨cons_ne_nil 7 [], prefix_refl [7]⟩, Trie.get, hold,
      map_some, hvalue]
    rfl
  exact map_eq_some_iff.mp hget

/-- The token after it. -/
theorem find_bump_next (hn : 0 < n) :
    ∃ child, (root.bump countOne [7]).find [7, 1] = some child ∧ 0 < child.value.toInt := by
  obtain ⟨n, rfl⟩ := exists_eq_add_one_of_ne_zero (ne_zero_of_lt hn)
  have hne : [(7 : Token), 1] ≠ [] := cons_ne_nil 7 [1]
  obtain ⟨old, hold⟩ := isSome_iff_exists.mp
    ((h.isSome_iff [7, 1] hne).mpr ⟨by decide, (prefix_append [7, 1] _).isInfix⟩)
  have hshort : ¬([(7 : Token), 1] ≠ [] ∧ [7, 1] <+: [(7 : Token)]) := fun hboth =>
    absurd hboth.2.length_le (by decide)
  have hget : (root.bump countOne [7]).get [7, 1] = some old.value := by
    rw [Trie.get_bump, if_neg hshort, Trie.get, hold]
    rfl
  obtain ⟨child, hchild, hvalue⟩ := map_eq_some_iff.mp hget
  exact ⟨child, hchild, hvalue ▸ h.value_pos hne hold⟩

/-- The children of a node among both tokens. -/
def orderOf (root : SuffixNode) (path : List Token) : List Token :=
  [7, 1].filter fun token => (root.find (path ++ [token])).isSome

theorem visits_orderOf : Visits (root.bump countOne [7]) (orderOf (root.bump countOne [7])) := by
  constructor
  case nodup =>
    intro path
    exact List.Nodup.filter _ (by decide)
  case mem_iff =>
    intro path node hnode token
    rw [orderOf, mem_filter, find_concat hnode]
    refine ⟨fun hboth => hboth.2, fun hsome => ⟨?_, hsome⟩⟩
    rw [← find_concat hnode, isSome_find_bump h (concat_ne_nil token path)] at hsome
    have hmem : token ∈ lead n :=
      hsome.2.subset (mem_append_right path (mem_singleton_self token))
    rcases mem_lead hmem with rfl | rfl
    · exact mem_cons_self
    · exact mem_cons_of_mem 7 (mem_singleton_self 1)

theorem orderOf_lead (hn : 0 < n) : orderOf (root.bump countOne [7]) [7] = [1] := by
  obtain ⟨child, hchild, -⟩ := find_bump_next h hn
  have hone : ((root.bump countOne [7]).find ([7] ++ [1])).isSome = true := hchild ▸ rfl
  have hseven : ((root.bump countOne [7]).find ([7] ++ [7])).isSome = false := by
    refine Bool.eq_false_iff.mpr fun hsome => ?_
    have hoccurs := ((isSome_find_bump h (cons_ne_nil 7 [7])).mp hsome).2
    have hzero : (replicate n (1 : Token)).count 7 = 0 :=
      count_eq_zero_of_not_mem fun hmem =>
        absurd (eq_of_mem_replicate hmem) (by decide)
    have hcount : ([7] ++ [7]).count 7 ≤ (replicate n (1 : Token)).count 7 + 1 :=
      (hoccurs.sublist.count_le 7).trans_eq count_cons_self
    rw [hzero] at hcount
    exact absurd hcount (by decide)
  have hnot : ¬((root.bump countOne [7]).find ([7] ++ [7])).isSome := by
    rw [hseven]
    exact Bool.false_ne_true
  calc orderOf (root.bump countOne [7]) [7]
      = [1].filter fun token => ((root.bump countOne [7]).find ([7] ++ [token])).isSome :=
        filter_cons_of_neg hnot
    _ = 1 :: [].filter fun token => ((root.bump countOne [7]).find ([7] ++ [token])).isSome :=
        filter_cons_of_pos hone
    _ = [1] := rfl

/-- The draft is taken for one whose match occurs twice. -/
theorem speculate_lead (hn : 0 < n) {t : SuffixTree} (hroot : t.root = root.bump countOne [7])
    (hdepth : t.maxDepth = 2) :
    speculate ratOps (orderOf (root.bump countOne [7])) t [7] 1 0 2 1 = some [1] := by
  obtain ⟨node, hnode, hvalue⟩ := find_bump h
  obtain ⟨child, hchild, hpos⟩ := find_bump_next h hn
  have horder := orderOf_lead h hn
  have hnext : node.children 1 = some child := (find_concat hnode).symm.trans hchild
  have hbest : ([(1 : Token)].foldl (BestChild.visit node) {}) = ⟨1, child.value⟩ := by
    have hgreater : child.value > (0 : Int64) := Int64.lt_iff_toInt_lt.mpr hpos
    rw [foldl_cons, foldl_nil, BestChild.visit, hnext]
    exact if_pos hgreater
  let score : ℚ := child.value.toInt / (2 : Int64).toInt
  have hscore : 0 < score := div_pos (Int.cast_pos.mpr hpos) (by decide)
  have hfollow : follow ratOps (orderOf (root.bump countOne [7])) 0 1 [7] node 1 ⟨0, []⟩ =
      some ⟨0 + 1 * score, [1]⟩ := by
    have hnot : ¬ratOps.lt (ratOps.mul 1 (ratOps.quot child.value 2)) 0 := by
      show ¬decide (1 * score < 0) = true
      rw [one_mul, decide_eq_true_iff]
      exact not_lt_of_gt hscore
    rw [follow, horder, if_neg (cons_ne_nil 1 [])]
    dsimp only
    rw [hbest, hvalue, if_neg (by decide), if_neg hnot]
    dsimp only
    rw [hnext]
    rfl
  have htry : tryLens ratOps (orderOf (root.bump countOne [7])) (root.bump countOne [7]) [7] 1 0 2
      [1] ⟨0, []⟩ = some ⟨0 + 1 * score, [1]⟩ := by
    have hlast : lastTokens [(7 : Token)] 1 = [7] := rfl
    have hbetter : ratOps.lt (0 : ℚ) (0 + 1 * score) ∧ [(1 : Token)] ≠ [] := by
      refine ⟨?_, cons_ne_nil 1 []⟩
      show decide (0 < 0 + 1 * score) = true
      rw [one_mul, zero_add]
      exact decide_eq_true hscore
    rw [tryLens]
    dsimp only
    rw [hlast, hnode]
    dsimp only
    rw [hvalue, if_neg (by decide), horder, if_neg (cons_ne_nil 1 [])]
    show (follow ratOps (orderOf (root.bump countOne [7])) 0 1 [7] node 1 ⟨0, []⟩).bind _ = _
    rw [hfollow, bind_some, tryLens, if_pos hbetter]
  rw [speculate, if_neg (by decide), hdepth, hroot]
  show (tryLens ratOps _ _ [7] 1 0 2 [1] ⟨0, []⟩).map Scored.draft = _
  rw [htry]
  rfl

end Twice

theorem extendFrom_of_nonpos {newSize : ℤ} (h : newSize ≤ 0) (oldSize : ℤ) :
    t.extendFrom oldSize newSize = { t with inserted := newSize } := by
  have hempty : (newSize - max 0 (oldSize - t.maxDepth)).toNat = 0 := by omega
  rw [extendFrom, hempty]
  rfl

/-- A size that wraps to a negative one only changes what is taken for inserted. -/
theorem extend_of_nonpos {more : List Token} (hmore : more ≠ []) {newSize : ℤ}
    (hsize : toInt (t.tokens ++ more).length = newSize) (h : newSize ≤ 0) :
    t.extend more = { t with tokens := t.tokens ++ more, inserted := newSize } := by
  have hnone : ¬more.length ≤ 0 := fun hle =>
    hmore (eq_nil_of_length_eq_zero (le_zero.mp hle))
  rw [extend, if_neg hnone, hsize, extendFrom_of_nonpos h]

theorem root_extend_of_nonpos {more : List Token} (hmore : more ≠ []) {newSize : ℤ}
    (hsize : toInt (t.tokens ++ more).length = newSize) (h : newSize ≤ 0) :
    (t.extend more).root = t.root ∧ (t.extend more).tokens = t.tokens ++ more ∧
      (t.extend more).inserted = newSize := by
  rw [extend_of_nonpos hmore hsize h]
  exact ⟨rfl, rfl, rfl⟩

theorem length_lead (n : ℕ) : (lead n).length = n + 1 := by
  rw [lead, length_cons, length_replicate]

theorem toInt_wrapped : toInt (2 ^ 31 - 2 + 1 + (2 ^ 31 - 2 + 1)) = -2 := by decide

theorem toInt_wrapped_again : toInt (2 ^ 31 - 2 + 1 + (2 ^ 31 - 2 + 1) + 3) = 1 := by decide

/-- The tree after three calls, the second of which makes the size wrap. -/
theorem root_run_wrapped {n : ℕ} (hn : n = 2 ^ 31 - 2) : ∃ old, Spells old (lead n) 2 ∧
      ((new 2).run [lead n, List.replicate (n + 1) 1, List.replicate 3 1]).root =
        old.bump countOne [7] := by
  have hsize : [lead n].flatten.length < 2 ^ 31 := by
    rw [flatten_singleton, length_lead]
    omega
  have hbuilt := built_run 2 two_pos [lead n] hsize
  have hspells := spells_run 2 hsize
  rw [flatten_singleton] at hbuilt hspells
  have hrun : (new 2).run [lead n, replicate (n + 1) 1, replicate 3 1] =
      (((new 2).run [lead n]).extend (replicate (n + 1) 1)).extend (replicate 3 1) := by
    rw [← run_append_singleton, ← run_append_singleton]
    rfl
  refine ⟨_, hspells, ?_⟩
  rw [hrun]
  rw [cast_ofNat] at hbuilt
  generalize (new 2).run [lead n] = t at hbuilt ⊢
  have hne : ∀ k, replicate (k + 1) (1 : Token) ≠ [] := fun k => cons_ne_nil _ _
  have hsize' : toInt (t.tokens ++ replicate (n + 1) 1).length = -2 := by
    rw [hbuilt.tokens_eq, length_append, length_lead, length_replicate, hn]
    exact toInt_wrapped
  obtain ⟨second, hsecond⟩ : ∃ second, second = t.extend (replicate (n + 1) 1) := ⟨_, rfl⟩
  obtain ⟨hroot, htokens, hinserted⟩ := root_extend_of_nonpos (hne n) hsize' (by decide)
  have hdepth := maxDepth_extend t (replicate (n + 1) 1)
  rw [← hsecond] at hroot htokens hinserted hdepth
  have hthird : toInt (second.tokens ++ replicate 3 1).length = 1 := by
    rw [htokens, hbuilt.tokens_eq, length_append, length_append, length_lead,
      length_replicate, length_replicate, hn]
    exact toInt_wrapped_again
  rw [← hsecond, root_extend_wrapped (hne 2) (hdepth.trans hbuilt.maxDepth) hinserted
    (htokens ▸ hsize') hthird, hroot, htokens, hbuilt.tokens_eq]
  rfl

end SuffixTree

end ExpertPin.Draft
