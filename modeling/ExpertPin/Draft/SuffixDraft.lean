import ExpertPin.Draft.SuffixTree
import ExpertPin.Lib.Occurrences
import Mathlib.Algebra.Order.Ring.Int

/-!
# The suffix tree counts occurrences

Between two steps of `extend` each position of the history has a window that is in the tree:
the new one in front of the step, and the old one, cut off at the old end, behind it.  The
counts are those of the windows (`Counts`), and a step is one window that grows.
-/

namespace ExpertPin.Draft

open Occurrences
open List
open Nat

/-- The counts of a tree are those of the windows of a history. -/
structure Counts (root : SuffixNode) (tokens : List Token) (lens : ℕ → ℕ) : Prop where
  value : root.value = 0
  get : ∀ s, s ≠ [] → root.get s =
    if windowed lens s tokens = 0 then none else some (Int64.ofNat (windowed lens s tokens))

namespace Counts

variable {root : SuffixNode} {tokens : List Token} {lens lens' : ℕ → ℕ}

theorem nil (lens : ℕ → ℕ) : Counts (Trie.leaf 0) [] lens where
  value := rfl
  get := by
    intro s hs
    cases s with
    | nil => exact absurd rfl hs
    | cons token s => rfl

theorem congr (h : Counts root tokens lens) (hlens : ∀ j < tokens.length, lens j = lens' j) :
    Counts root tokens lens' where
  value := h.value
  get s hs := by rw [h.get s hs, windowed_congr hlens]

theorem append (h : Counts root tokens lens) (hlens : ∀ j, lens j ≤ tokens.length - j)
    (more : List Token) : Counts root (tokens ++ more) lens where
  value := h.value
  get s hs := by rw [h.get s hs, windowed_append hs more hlens]

/-- The start of a window that is in the tree. -/
theorem isSome_get (h : Counts root tokens lens) {j : ℕ} (hj : j < tokens.length) :
    (root.get ((tokens.drop j).take (lens j))).isSome := by
  cases hwindow : (tokens.drop j).take (lens j) with
  | nil => rfl
  | cons token s =>
    have hpos : 0 < windowed lens (token :: s) tokens :=
      windowed_pos_iff.mpr ⟨j, hj, hwindow ▸ prefix_rfl⟩
    rw [h.get _ (cons_ne_nil token s), if_neg (ne_of_gt hpos)]
    rfl

theorem countOne_eq (n : ℕ) :
    countOne (if n = 0 then none else some (Int64.ofNat n)) = Int64.ofNat (n + 1) := by
  cases n with
  | zero => rfl
  | succ n => rw [if_neg (succ_ne_zero n), Int64.ofNat_add (n + 1) 1]; rfl

/-- A window grows in the history, and so it does in the tree. -/
theorem bumpFrom (h : Counts root tokens lens) (j len : ℕ) (hj : j < tokens.length)
    (hold : lens j ≤ tokens.length - j) (hlen : lens j ≤ len) :
    Counts (root.bumpFrom countOne ((tokens.drop j).take (lens j))
      (((tokens.drop j).drop (lens j)).take (len - lens j))) tokens
      (Function.update lens j len) where
  value := (Trie.value_bumpFrom root _ _).trans h.value
  get s hs := by
    have hwindow : (tokens.drop j).take (lens j) ++
        ((tokens.drop j).drop (lens j)).take (len - lens j) = (tokens.drop j).take len := by
      rw [← take_add, Nat.add_sub_cancel' hlen]
    have hlength : ((tokens.drop j).take (lens j)).length = lens j := by
      rw [length_take, length_drop, Nat.min_eq_left hold]
    rw [Trie.get_bumpFrom (h.isSome_get hj), hwindow, hlength, windowed_update hj hlen, h.get s hs]
    split
    · rw [countOne_eq, if_neg (Nat.succ_ne_zero _)]
    · rfl

end Counts

/-! ## One step -/

/-- A window of a size that is a natural number. -/
theorem window_natCast (tokens : List Token) (start len : ℕ) :
    window tokens start len = (tokens.drop start).take len := rfl

namespace SuffixTree

variable {t : SuffixTree} {tokens : List Token} {depth : ℕ}

/-- The window at a position of a history of some size. -/
def fullLen (size depth j : ℕ) : ℕ := min (size - j) depth

/-- The tree in the middle of `extend`: the windows of the old history of `old` tokens from
position `i` on, and in front of it those of the new one. -/
structure Extending (t : SuffixTree) (tokens : List Token) (depth old i : ℕ) : Prop where
  maxDepth : t.maxDepth = depth
  tokens_eq : t.tokens = tokens
  inserted : t.inserted = old
  counts : Counts t.root tokens fun j =>
    if j < i then fullLen tokens.length depth j else fullLen old depth j

theorem fullLen_le {size size' : ℕ} (h : size ≤ size') (depth j : ℕ) :
    fullLen size depth j ≤ fullLen size' depth j :=
  min_le_min_right depth (Nat.sub_le_sub_right h j)

theorem fullLen_le_sub {size size' : ℕ} (h : size ≤ size') (depth j : ℕ) :
    fullLen size depth j ≤ size' - j :=
  Nat.le_trans (Nat.min_le_left _ _) (Nat.sub_le_sub_right h j)

/-- The windows in the tree when one more has grown. -/
theorem update_lens (size old depth i : ℕ) :
    Function.update (fun j => if j < i then fullLen size depth j else fullLen old depth j) i
        (fullLen size depth i) =
      fun j => if j < i + 1 then fullLen size depth j else fullLen old depth j := by
  funext j
  by_cases hij : j = i
  · rw [hij, Function.update_self, if_pos (Nat.lt_succ_self i)]
  · rw [Function.update_of_ne hij]
    by_cases hlt : j < i
    · rw [if_pos hlt, if_pos (Nat.lt_succ_of_lt hlt)]
    · rw [if_neg hlt, if_neg fun hle => hij (Nat.le_antisymm (Nat.le_of_lt_succ hle)
        (Nat.le_of_not_lt hlt))]

theorem Extending.step {old i : ℕ} (h : t.Extending tokens depth old i)
    (hdepth : 0 < depth) (hi : i < tokens.length) (hold : old ≤ tokens.length)
    (hsize : tokens.length < 2 ^ 31) :
    (extendAt old tokens.length t i).Extending tokens depth old (i + 1) := by
  have hcounts := h.counts.bumpFrom i (fullLen tokens.length depth i) hi (by
      rw [if_neg (Nat.lt_irrefl i)]
      exact fullLen_le_sub hold depth i)
    (by
      rw [if_neg (Nat.lt_irrefl i)]
      exact fullLen_le hold depth i)
  rw [update_lens, if_neg (Nat.lt_irrefl i)] at hcounts
  have hnew : min ((tokens.length : ℤ) - i) depth = (fullLen tokens.length depth i : ℕ) := by
    rw [fullLen]
    omega
  unfold extendAt
  rw [h.inserted, h.maxDepth, hnew]
  by_cases hlt : i < old
  · have holdLen : min ((old : ℤ) - i) depth = (fullLen old depth i : ℕ) := by
      rw [fullLen]
      omega
    rw [if_pos (Int.ofNat_lt.mpr hlt), holdLen]
    by_cases hgrows : fullLen old depth i < fullLen tokens.length depth i
    · rw [if_pos (Int.ofNat_lt.mpr hgrows)]
      refine ⟨h.maxDepth, h.tokens_eq, h.inserted, ?_⟩
      have hrest : window t.tokens ((i : ℤ) + (fullLen old depth i : ℕ))
          ((fullLen tokens.length depth i : ℕ) - (fullLen old depth i : ℕ)) =
            ((tokens.drop i).drop (fullLen old depth i)).take
              (fullLen tokens.length depth i - fullLen old depth i) := by
        rw [h.tokens_eq, drop_drop, ← window_natCast, Int.natCast_add,
          Int.natCast_sub (Nat.le_of_lt hgrows)]
      rw [extendSuffix, hrest, window_natCast, h.tokens_eq]
      exact hcounts
    · -- the window is full already
      have hsame : fullLen old depth i = fullLen tokens.length depth i :=
        Nat.le_antisymm (fullLen_le hold depth i) (Nat.le_of_not_lt hgrows)
      rw [if_neg fun hlt => hgrows (Int.ofNat_lt.mp hlt)]
      refine ⟨h.maxDepth, h.tokens_eq, h.inserted, ?_⟩
      refine h.counts.congr fun j _ => ?_
      by_cases hij : j = i
      · rw [hij, if_neg (Nat.lt_irrefl i), if_pos (Nat.lt_succ_self i), hsame]
      · exact if_congr (by omega) rfl rfl
  · have hzero : fullLen old depth i = 0 := by
      rw [fullLen, Nat.sub_eq_zero_of_le (Nat.le_of_not_lt hlt), Nat.zero_min]
    have hpos : 0 < fullLen tokens.length depth i :=
      lt_min (Nat.sub_pos_of_lt hi) hdepth
    rw [if_neg fun hlt' => hlt (Int.ofNat_lt.mp hlt'), insertSuffix, h.tokens_eq, h.maxDepth,
      toInt_of_lt hsize, hnew, if_neg (by omega)]
    refine ⟨rfl, rfl, h.inserted, ?_⟩
    rw [hzero] at hcounts
    exact hcounts

/-! ## Histories -/

/-- The tree of a history. -/
structure Built (t : SuffixTree) (tokens : List Token) (depth : ℕ) : Prop where
  maxDepth : t.maxDepth = depth
  tokens_eq : t.tokens = tokens
  inserted : t.inserted = tokens.length
  counts : Counts t.root tokens (fullLen tokens.length depth)

theorem built_new (depth : ℕ) : (new depth).Built [] depth := ⟨rfl, rfl, rfl, .nil _⟩

/-- The positions in front of the first step have full windows already. -/
theorem Built.extending (h : t.Built tokens depth) (more : List Token) :
    { t with tokens := t.tokens ++ more }.Extending (tokens ++ more) depth tokens.length
      (tokens.length - depth) where
  maxDepth := h.maxDepth
  tokens_eq := congrArg (· ++ more) h.tokens_eq
  inserted := h.inserted
  counts := by
    have hcounts := h.counts.append (fun j => fullLen_le_sub (le_refl _) depth j) more
    refine hcounts.congr fun j _ => ?_
    by_cases hlt : j < tokens.length - depth
    · have hfull : ∀ size, tokens.length ≤ size → fullLen size depth j = depth := by
        intro size hsize
        rw [fullLen]
        omega
      rw [if_pos hlt, hfull _ (le_refl _), hfull _ (length_append ▸ le_add_right _ _)]
    · rw [if_neg hlt]

theorem Extending.loop {old start : ℕ} (h : t.Extending tokens depth old start)
    (hdepth : 0 < depth) (hold : old ≤ tokens.length) (hsize : tokens.length < 2 ^ 31) (k : ℕ)
    (hk : start + k ≤ tokens.length) :
    (((List.range k).map fun (i : ℕ) => (start : ℤ) + i).foldl
      (extendAt old tokens.length) t).Extending tokens depth old (start + k) := by
  induction k with
  | zero => exact h
  | succ k ih =>
    rw [range_succ, map_append, foldl_append]
    exact (ih (le_of_succ_le hk)).step hdepth hk hold hsize

/-- The loop goes over the positions that are left. -/
theorem Extending.finish {old : ℕ} (h : t.Extending tokens depth old (old - depth))
    (hdepth : 0 < depth) (hold : old ≤ tokens.length) (hsize : tokens.length < 2 ^ 31) :
    (t.extendFrom old tokens.length).Built tokens depth := by
  have hstart : max 0 ((old : ℤ) - t.maxDepth) = (old - depth : ℕ) := by
    rw [h.maxDepth]
    omega
  have hcount : ((tokens.length : ℤ) - (old - depth : ℕ)).toNat =
      tokens.length - (old - depth) := by omega
  have hend : old - depth + (tokens.length - (old - depth)) = tokens.length := by omega
  have hloop := h.loop hdepth hold hsize (tokens.length - (old - depth)) (le_of_eq hend)
  rw [hend] at hloop
  unfold extendFrom
  dsimp only
  rw [hstart, hcount]
  exact ⟨hloop.maxDepth, hloop.tokens_eq, rfl, hloop.counts.congr fun j hj => if_pos hj⟩

theorem Built.extend (h : t.Built tokens depth) (hdepth : 0 < depth) (more : List Token)
    (hsize : (tokens ++ more).length < 2 ^ 31) :
    (t.extend more).Built (tokens ++ more) depth := by
  unfold SuffixTree.extend
  by_cases hnone : more.length ≤ 0
  · rw [if_pos hnone, eq_nil_of_length_eq_zero (le_zero.mp hnone), append_nil]
    exact h
  · have hold : tokens.length ≤ (tokens ++ more).length :=
      length_append ▸ le_add_right _ _
    have hloop := (h.extending more).finish hdepth hold hsize
    rw [h.tokens_eq] at hloop
    rw [if_neg hnone, h.tokens_eq, toInt_of_lt hsize, toInt_of_lt (lt_of_le_of_lt hold hsize)]
    exact hloop

theorem run_append_singleton (t : SuffixTree) (chunks : List (List Token)) (chunk : List Token) :
    t.run (chunks ++ [chunk]) = (t.run chunks).extend chunk :=
  foldl_append

theorem built_run (depth : ℕ) (hdepth : 0 < depth) (chunks : List (List Token))
    (hsize : chunks.flatten.length < 2 ^ 31) :
    ((new depth).run chunks).Built chunks.flatten depth := by
  induction chunks using reverseRecOn with
  | nil => exact built_new depth
  | append_singleton chunks chunk ih =>
    rw [flatten_append, flatten_singleton] at hsize ⊢
    rw [run_append_singleton]
    exact (ih (lt_of_le_of_lt (length_append ▸ le_add_right _ _) hsize)).extend
      hdepth chunk hsize

/-- A tree is what its history and its depth make of it. -/
theorem Built.root_unique {t' : SuffixTree} (h : t.Built tokens depth)
    (h' : t'.Built tokens depth) : t.root = t'.root := by
  refine Trie.ext_get fun s => ?_
  by_cases hs : s = []
  · rw [hs, Trie.get_nil, Trie.get_nil, h.counts.value, h'.counts.value]
  · rw [h.counts.get s hs, h'.counts.get s hs]

theorem Built.get_eq (h : t.Built tokens depth) {s : List Token} (hs : s ≠ [])
    (hlong : s.length ≤ depth) : t.root.get s =
      if occurrences s tokens = 0 then none else some (Int64.ofNat (occurrences s tokens)) := by
  rw [h.counts.get s hs, ← windowed_min hlong]
  rfl

/-- The tree has the strings of the history up to its depth, each with the number of its
occurrences, and it does not matter how the history arrives. -/
theorem counts_run (depth : ℤ) (hdepth : 1 ≤ depth) (chunks : List (List Token))
    (hsize : chunks.flatten.length < 2 ^ 31) :
    (∀ s : List Token, 1 ≤ s.length → s.length ≤ depth →
      ((((new depth).run chunks).root.find s).isSome ↔ s <:+: chunks.flatten) ∧
        ∀ node, ((new depth).run chunks).root.find s = some node →
          node.value.toInt = occurrences s chunks.flatten) ∧
      ∀ chunks' : List (List Token), chunks'.flatten = chunks.flatten →
        ((new depth).run chunks').root = ((new depth).run chunks).root := by
  obtain ⟨depth, rfl⟩ := Int.eq_ofNat_of_zero_le (Int.le_trans (by decide) hdepth)
  have hpos : 0 < depth := Int.ofNat_lt.mp hdepth
  have hbuilt := built_run depth hpos chunks hsize
  refine ⟨fun s hs hlong => ?_, fun chunks' hflatten => ?_⟩
  · have hne : s ≠ [] := length_pos_iff.mp hs
    have hget := hbuilt.get_eq hne (Int.ofNat_le.mp hlong)
    constructor
    · rw [← Trie.isSome_get, hget, ← occurrences_pos_iff hne, Nat.pos_iff_ne_zero]
      by_cases hzero : occurrences s chunks.flatten = 0
      · rw [if_pos hzero]
        exact ⟨fun h => absurd h Bool.false_ne_true, fun h => absurd hzero h⟩
      · rw [if_neg hzero]
        exact ⟨fun _ => hzero, fun _ => rfl⟩
    · intro node hnode
      rw [Trie.get, hnode, Option.map_some] at hget
      by_cases hzero : occurrences s chunks.flatten = 0
      · rw [if_pos hzero] at hget
        cases hget
      · rw [if_neg hzero] at hget
        rw [Option.some.inj hget]
        refine Int64.toInt_ofNat_of_lt ?_
        calc occurrences s chunks.flatten
            ≤ chunks.flatten.length := occurrences_le_length s _
          _ < 2 ^ 31 := hsize
          _ < 2 ^ 63 := by decide
  · exact (built_run depth hpos chunks' (hflatten ▸ hsize)).root_unique (hflatten ▸ hbuilt)

theorem counts_run_twoChunks : (((new 2).run [[1, 2], [1]]).root.find [2, 1]).isSome := by
  have hcounts := counts_run 2 (by decide) [[1, 2], [1]] (by decide)
  exact (hcounts.1 [2, 1] (by decide) (by decide)).1.mpr (by decide)

theorem root_extendFrom_of_nonpos {newSize : ℤ} (h : newSize ≤ 0) (oldSize : ℤ) :
    (t.extendFrom oldSize newSize).root = t.root := by
  have hempty : (newSize - max 0 (oldSize - t.maxDepth)).toNat = 0 := by omega
  unfold extendFrom
  dsimp only
  rw [hempty]
  rfl

/-- The token with which the size is no longer an `int` is not inserted. -/
theorem extend_overflow {more : List Token} (hmore : more ≠ [])
    (h : t.tokens.length + more.length = 2 ^ 31) : (t.extend more).root = t.root := by
  have hnone : ¬more.length ≤ 0 := fun hle =>
    hmore (eq_nil_of_length_eq_zero (le_zero.mp hle))
  have hsize : toInt (t.tokens ++ more).length ≤ 0 := by
    rw [length_append, h]
    decide
  rw [SuffixTree.extend, if_neg hnone]
  exact root_extendFrom_of_nonpos hsize _

/-- A history of `2 ^ 31 - 1` tokens and one more of its own. -/
theorem not_counts_run : ¬∀ depth : ℤ, 1 ≤ depth → ∀ chunks : List (List Token),
      (∀ chunk ∈ chunks, chunk.length < 2 ^ 31) →
      ∀ s : List Token, 1 ≤ s.length → s.length ≤ depth →
        ((((new depth).run chunks).root.find s).isSome ↔ s <:+: chunks.flatten) := by
  intro hall
  obtain ⟨n, hn⟩ : ∃ n, n = 2 ^ 31 - 1 := ⟨_, rfl⟩
  have hsmall : n < 2 ^ 31 := by omega
  have hbuilt : ((new 1).run [replicate n 0]).Built (replicate n 0) 1 := by
    have hrun := built_run 1 Nat.one_pos [replicate n 0]
      (by rw [flatten_singleton, length_replicate]; exact hsmall)
    rwa [flatten_singleton] at hrun
  have hroot : ((new 1).run [replicate n 0, [1]]).root =
      ((new 1).run [replicate n 0]).root := by
    rw [← singleton_append, run_append_singleton]
    refine extend_overflow (cons_ne_nil 1 []) ?_
    rw [hbuilt.tokens_eq, length_replicate, length_singleton]
    omega
  have habsent : occurrences [1] (replicate n (0 : Token)) = 0 := by
    refine Nat.eq_zero_of_not_pos fun hpos => ?_
    have hinfix := (occurrences_pos_iff (cons_ne_nil 1 [])).mp hpos
    have hmem : (1 : Token) ∈ replicate n 0 := hinfix.subset (mem_singleton.mpr rfl)
    exact absurd (eq_of_mem_replicate hmem) (by decide)
  have hchunks : ∀ chunk ∈ [replicate n (0 : Token), [1]], chunk.length < 2 ^ 31 := by
    intro chunk hchunk
    rcases mem_cons.mp hchunk with rfl | hlast
    · rw [length_replicate]
      exact hsmall
    · rw [mem_singleton.mp hlast]
      decide
  have hfind := (hall 1 (by decide) [replicate n 0, [1]] hchunks [1] (by decide)
    (by decide)).mpr ⟨replicate n 0, [], by simp⟩
  rw [← Trie.isSome_get, hroot, hbuilt.get_eq (cons_ne_nil 1 []) (Nat.le_refl 1),
    if_pos habsent] at hfind
  exact absurd hfind Bool.false_ne_true

end SuffixTree

end ExpertPin.Draft

/-!
## Drafting from the suffix tree

`speculate` looks up the last tokens of a context in the tree, one more of them in each turn, and
follows the children with the highest counts.  The `float`s only decide where a draft ends and
which one is taken, and their operations are a parameter.

`none` stands for a division by a count of zero, or for a child that `at` does not find.
-/

namespace ExpertPin.Draft.SuffixTree

/-- What is done with `float`s. -/
structure FloatOps (F : Type) where
  zero : F
  one : F
  /-- The quotient of two counts, each converted to `float` first. -/
  quot : Int64 → Int64 → F
  mul : F → F → F
  add : F → F → F
  lt : F → F → Bool

/-- The order in which a loop goes over the children of the node at the end of a path. -/
structure Visits (root : SuffixNode) (order : List Token → List Token) : Prop where
  nodup : ∀ path, (order path).Nodup
  mem_iff : ∀ path node, root.find path = some node →
    ∀ token, token ∈ order path ↔ (node.children token).isSome

/-! ## The greedy descent -/

structure BestChild where
  token : Token := -1
  count : Int64 := 0
deriving DecidableEq, Repr

def BestChild.visit (cur : SuffixNode) (best : BestChild) (token : Token) : BestChild :=
  match cur.children token with
  | none => best
  | some child => if child.value > best.count then ⟨token, child.value⟩ else best

/-- A draft and its score. -/
structure Scored (F : Type) where
  score : F
  draft : List Token

variable {F : Type} (ops : FloatOps F) (order : List Token → List Token)

/-- The loop that appends to a draft, at the node at the end of `path`. -/
def follow (minTokenProb : F) : ℕ → List Token → SuffixNode → F → Scored F → Option (Scored F)
  | 0, _, _, _, s => some s
  | n + 1, path, cur, prob, s =>
    if order path = [] then some s
    else
      let best := (order path).foldl (BestChild.visit cur) {}
      if cur.value = 0 then none
      else
        let prob := ops.mul prob (ops.quot best.count cur.value)
        if ops.lt prob minTokenProb then some s
        else
          match cur.children best.token with
          | none => none
          | some child =>
            follow minTokenProb n (path ++ [best.token]) child prob
              ⟨ops.add s.score prob, s.draft ++ [best.token]⟩

/-! ## The match lengths -/

/-- The last `n` tokens. -/
def lastTokens (context : List Token) (n : ℕ) : List Token := context.drop (context.length - n)

/-- The loop over the match lengths; `context` is at most as long as the tree is deep. -/
def tryLens (root : SuffixNode) (context : List Token) (maxSpecTokens : ℤ) (minTokenProb : F)
    (minMatchCount : ℤ) : List ℕ → Scored F → Option (Scored F)
  | [], best => some best
  | matchLen :: lens, best =>
    let ctx := lastTokens context matchLen
    match root.find ctx with
    | none => some best
    | some node =>
      if node.value.toInt < minMatchCount then
        tryLens root context maxSpecTokens minTokenProb minMatchCount lens best
      else if order ctx = [] then
        tryLens root context maxSpecTokens minTokenProb minMatchCount lens best
      else do
        let draftLimit := min maxSpecTokens (matchLen + 8)
        let next ← follow ops order minTokenProb draftLimit.toNat ctx node ops.one
          ⟨ops.zero, []⟩
        tryLens root context maxSpecTokens minTokenProb minMatchCount lens
          (if ops.lt best.score next.score ∧ next.draft ≠ [] then next else best)

/-- From `max(1, min_match_len)` to `n_context`. -/
def matchLens (minMatchLen nContext : ℤ) : List ℕ :=
  List.range' (max 1 minMatchLen).toNat (nContext + 1 - max 1 minMatchLen).toNat

/-- `speculate`. -/
def speculate (t : SuffixTree) (context : List Token) (maxSpecTokens : ℤ) (minTokenProb : F)
    (minMatchCount minMatchLen : ℤ) : Option (List Token) :=
  if context.length ≤ 0 ∨ maxSpecTokens ≤ 0 then some []
  else
    let nContext := min (context.length : ℤ) t.maxDepth
    let context := context.drop ((context.length : ℤ) - nContext).toNat
    (tryLens ops order t.root context maxSpecTokens minTokenProb minMatchCount
      (matchLens minMatchLen nContext) ⟨ops.zero, []⟩).map Scored.draft

end ExpertPin.Draft.SuffixTree
