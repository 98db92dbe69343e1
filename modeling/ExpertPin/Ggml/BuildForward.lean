import ExpertPin.Ggml.HashSet
import Mathlib.Data.List.ReduceOption
import Mathlib.Data.List.Nodup

/-!
# Building the graph of a computation

`ggml_build_forward_expand` visits what a tensor is computed from, and then appends the tensor to
the nodes of the graph, or to its leafs if no operation computes it.  The graph of any
tensors, one after the other, can be computed in the order of its nodes
(`buildForward_spec`).
-/

namespace ExpertPin.Ggml

open List Relation

structure Tensor where
  /-- `GGML_OP_NONE` is zero. -/
  op : ℕ
  grad : Option ℕ
  /-- `GGML_MAX_SRC` entries. -/
  src : List (Option ℕ)

/-- The tensor is not computed. -/
def Tensor.isLeaf (t : Tensor) : Bool := t.op = 0 ∧ t.grad = none

/-- `ggml_cgraph`, with room for `size` nodes and as many leafs. -/
structure CGraph (n : ℕ) where
  size : ℕ
  rightToLeft : Bool := false
  nodes : List ℕ := []
  leafs : List ℕ := []
  visited : HashSet n := {}

def CGraph.done {n : ℕ} (g : CGraph n) : Finset ℕ := (g.nodes ++ g.leafs).toFinset

variable {n : ℕ} (T : ℕ → Tensor)

def CGraph.push (g : CGraph n) (x : ℕ) : Option (CGraph n) :=
  if (T x).isLeaf then
    if g.leafs.length < g.size then some { g with leafs := g.leafs ++ [x] } else none
  else if g.nodes.length < g.size then some { g with nodes := g.nodes ++ [x] } else none

/-- The sources in the order of evaluation. -/
def CGraph.sources (g : CGraph n) (x : ℕ) : List ℕ :=
  if g.rightToLeft then (T x).src.reduceOption.reverse else (T x).src.reduceOption

variable [NeZero n]

/-- `ggml_visit_parents`, with `none` for an assertion that fails. -/
def visitParents : ℕ → ℕ → CGraph n → Option (CGraph n)
  | 0, _, _ => none
  | fuel + 1, x, g =>
    (g.visited.insert x).bind fun
    | (none, _) => some g
    | (some _, visited) =>
      ((g.sources T x).foldlM (fun g y => visitParents fuel y g) { g with visited }).bind
        fun g => g.push T x

/-- `ggml_build_forward_expand`.  The last new node has to be the tensor. -/
def buildForwardExpand (fuel : ℕ) (g : CGraph n) (x : ℕ) : Option (CGraph n) :=
  (visitParents T fuel x g).bind fun g' =>
    if g.nodes.length < g'.nodes.length ∧ g'.nodes.getLast? ≠ some x then none else some g'

/-! ## Finite tensors without cycles -/

/-- A tensor is computed from another. -/
def Source (x y : ℕ) : Prop := some y ∈ (T x).src

/-- The tensors lie above their sources, there are at most `size` that are computed and as
many that are not, and those have no sources. -/
structure Acyclic (size : ℕ) (all : Finset ℕ) (rank : ℕ → ℕ) : Prop where
  rank_lt : ∀ x y, Source T x y → rank y < rank x
  source_mem : ∀ x ∈ all, ∀ y, Source T x y → y ∈ all
  leaf : ∀ x, (T x).isLeaf → ∀ y, ¬Source T x y
  leafs : (all.filter fun x => (T x).isLeaf).card ≤ size
  nodes : (all.filter fun x => ¬(T x).isLeaf).card ≤ size

/-- Between two tensors, with the visit of some not at its end, each node comes behind its
sources. -/
structure CGraph.Ordered (g : CGraph n) (all begun : Finset ℕ) : Prop where
  visited : g.visited.Holds (g.done ∪ begun)
  subset : g.done ∪ begun ⊆ all
  disjoint : Disjoint g.done begun
  nodup : g.nodes.Nodup ∧ g.leafs.Nodup
  leafs : ∀ x ∈ g.leafs, (T x).isLeaf
  nodes : ∀ x ∈ g.nodes, ¬(T x).isLeaf
  sources : ∀ front x back, g.nodes = front ++ x :: back →
    ∀ y, Source T x y → y ∈ front ++ g.leafs

/-- A graph goes on, with tensors that some others are computed from. -/
structure CGraph.Extends (g g' : CGraph n) (roots : List ℕ) : Prop where
  size : g'.size = g.size
  subset : g.done ⊆ g'.done
  reached : ∀ x ∈ g'.done, x ∈ g.done ∨ ∃ r ∈ roots, ReflTransGen (Source T) r x
  roots : ∀ r ∈ roots, r ∈ g'.done

variable {T} {size fuel : ℕ} {all begun : Finset ℕ} {rank : ℕ → ℕ} {g g' g'' : CGraph n} {x y : ℕ}
  {xs : List ℕ}

omit [NeZero n] in
theorem CGraph.mem_sources : y ∈ g.sources T x ↔ Source T x y := by
  rw [CGraph.sources, Source]
  split <;> simp [reduceOption_mem_iff]

omit [NeZero n] in
theorem CGraph.Extends.refl (hxs : ∀ x ∈ xs, x ∈ g.done) : g.Extends T g xs :=
  ⟨rfl, Finset.Subset.refl _, fun _ => .inl, hxs⟩

omit [NeZero n] in
theorem CGraph.Extends.trans (h : g.Extends T g' [x]) (h' : g'.Extends T g'' xs) :
    g.Extends T g'' (x :: xs) where
  size := h'.size.trans h.size
  subset := h.subset.trans h'.subset
  reached y hy := by
    rcases h'.reached y hy with hy | ⟨r, hr, hreach⟩
    · refine (h.reached y hy).imp_right ?_
      rintro ⟨r, hr, hreach⟩
      exact ⟨r, mem_cons.mpr (.inl (mem_singleton.mp hr)), hreach⟩
    · exact .inr ⟨r, mem_cons_of_mem x hr, hreach⟩
  roots := forall_mem_cons.mpr ⟨h'.subset (h.roots x mem_cons_self), h'.roots⟩

/-- What holds of a visit holds of visits one after the other. -/
theorem foldlM_visits {f : CGraph n → ℕ → Option (CGraph n)}
    (hf : ∀ g x, x ∈ xs → g.size = size → g.Ordered T all begun →
      ∃ g', f g x = some g' ∧ g'.Ordered T all begun ∧ g.Extends T g' [x])
    (hsize : g.size = size) (h : g.Ordered T all begun) :
    ∃ g', xs.foldlM f g = some g' ∧ g'.Ordered T all begun ∧ g.Extends T g' xs := by
  induction xs generalizing g with
  | nil => exact ⟨g, rfl, h, .refl (forall_mem_nil _)⟩
  | cons x xs ih =>
    obtain ⟨g₁, hg₁, h₁, hextends⟩ := hf g x mem_cons_self hsize h
    obtain ⟨g₂, hg₂, h₂, hextends'⟩ := ih (fun g y hy => hf g y (mem_cons_of_mem x hy))
      (hextends.size.trans hsize) h₁
    exact ⟨g₂, by rw [foldlM_cons, hg₁]; exact hg₂, h₂, hextends.trans hextends'⟩

/-- The set has room for the tensors that were not visited. -/
theorem Acyclic.insert (hT : Acyclic T size all rank) (hn : 2 * size ≤ n)
    (h : g.Ordered T all begun) (hx : x ∈ all) (hnew : x ∉ g.done ∪ begun) :
    ∃ i, g.visited.insert x = some (some i, g.visited.put i x) ∧
      CGraph.Ordered T { g with visited := g.visited.put i x } all (Insert.insert x begun) := by
  have hlt := Finset.card_lt_card ((Finset.ssubset_iff_of_subset h.subset).mpr ⟨x, hx, hnew⟩)
  have hcard := Finset.card_filter_add_card_filter_not (s := all) fun x => (T x).isLeaf
  have hleafs := hT.leafs
  have hnodes := hT.nodes
  obtain ⟨i, hinsert, hholds⟩ := h.visited.insert_of_notMem hnew (by omega)
  obtain ⟨hdone, hbegun⟩ := not_or.mp (Finset.mem_union.not.mp hnew)
  have hsame := (Finset.union_insert x g.done begun).symm
  exact ⟨i, hinsert, hsame ▸ hholds, hsame ▸ Finset.insert_subset hx h.subset,
    Finset.disjoint_insert_right.mpr ⟨hdone, h.disjoint⟩, h.nodup, h.leafs, h.nodes, h.sources⟩

/-- One more tensor is among those that there is room for. -/
theorem length_lt {p : ℕ → Prop} [DecidablePred p] (hroom : (all.filter p).card ≤ size)
    (hnodup : (x :: xs).Nodup) (hall : ∀ y ∈ x :: xs, y ∈ all) (hp : ∀ y ∈ x :: xs, p y) :
    xs.length < size := by
  refine (toFinset_card_of_nodup hnodup).symm.le.trans ((Finset.card_le_card ?_).trans hroom)
  intro y hy
  have hy := mem_toFinset.mp hy
  exact Finset.mem_filter.mpr ⟨hall y hy, hp y hy⟩

/-- There is room for the tensor whose sources were visited. -/
theorem CGraph.Ordered.push (hT : Acyclic T size all rank) (hsize : g.size = size)
    (h : g.Ordered T all (Insert.insert x begun)) (hbegun : x ∉ begun)
    (hsources : ∀ y, Source T x y → y ∈ g.done) :
    ∃ g', g.push T x = some g' ∧ g'.Ordered T all begun ∧ g'.size = g.size ∧
      (∀ y, y ∈ g'.done ↔ y = x ∨ y ∈ g.done) ∧
      ((T x).isLeaf ∧ g'.nodes = g.nodes ∨ g'.nodes = g.nodes ++ [x]) := by
  have hself := Finset.mem_insert_self x begun
  have hx : x ∉ g.done := fun hx => Finset.disjoint_left.mp h.disjoint hx hself
  obtain ⟨hxnodes, hxleafs⟩ := not_or.mp (mem_append.not.mp (mem_toFinset.not.mp hx))
  have hall (xs : List ℕ) (hxs : xs ⊆ g.nodes ++ g.leafs) : ∀ y ∈ x :: xs, y ∈ all :=
    forall_mem_cons.mpr ⟨h.subset (Finset.mem_union_right _ hself), fun y hy =>
      h.subset (Finset.mem_union_left _ (mem_toFinset.mpr (hxs hy)))⟩
  -- the fields that say which tensors were visited
  have hset (g' : CGraph n) (hdone : ∀ y, y ∈ g'.done ↔ y = x ∨ y ∈ g.done) :
      g'.done ∪ begun = g.done ∪ Insert.insert x begun ∧ Disjoint g'.done begun := by
    refine ⟨?_, Finset.disjoint_left.mpr fun y hy hybegun => ?_⟩
    · ext y
      simp only [Finset.mem_union, hdone, Finset.mem_insert]
      tauto
    · rcases (hdone y).mp hy with rfl | hy
      · exact hbegun hybegun
      · exact Finset.disjoint_left.mp h.disjoint hy (Finset.mem_insert_of_mem hybegun)
  rw [CGraph.push]
  split
  case isTrue hleaf =>
    have hnodup : (x :: g.leafs).Nodup := nodup_cons.mpr ⟨hxleafs, h.nodup.2⟩
    have hlt : g.leafs.length < g.size := by
      rw [hsize]
      exact length_lt hT.leafs hnodup (hall _ (subset_append_right _ _))
        (forall_mem_cons.mpr ⟨hleaf, h.leafs⟩)
    have hdone (y : ℕ) : y ∈ { g with leafs := g.leafs ++ [x] }.done ↔ y = x ∨ y ∈ g.done := by
      simp only [CGraph.done, mem_toFinset, mem_append, mem_singleton]
      tauto
    obtain ⟨hsame, hdisjoint⟩ := hset _ hdone
    refine ⟨_, if_pos hlt, ⟨hsame ▸ h.visited, hsame ▸ h.subset, hdisjoint,
      ⟨h.nodup.1, nodup_append_comm.mp hnodup⟩, ?_, h.nodes, fun front y back heq z hz => ?_⟩, rfl,
      hdone, .inl ⟨hleaf, rfl⟩⟩
    · simp only [mem_append, mem_singleton]
      rintro y (hy | rfl)
      · exact h.leafs y hy
      · exact hleaf
    · exact mem_append.mpr ((mem_append.mp (h.sources front y back heq z hz)).imp_right
        (mem_append_left _))
  case isFalse hnode =>
    have hnodup : (x :: g.nodes).Nodup := nodup_cons.mpr ⟨hxnodes, h.nodup.1⟩
    have hlt : g.nodes.length < g.size := by
      rw [hsize]
      exact length_lt hT.nodes hnodup (hall _ (subset_append_left _ _))
        (forall_mem_cons.mpr ⟨hnode, h.nodes⟩)
    have hdone (y : ℕ) : y ∈ { g with nodes := g.nodes ++ [x] }.done ↔ y = x ∨ y ∈ g.done := by
      simp only [CGraph.done, mem_toFinset, mem_append, mem_singleton]
      tauto
    obtain ⟨hsame, hdisjoint⟩ := hset _ hdone
    refine ⟨_, if_pos hlt, ⟨hsame ▸ h.visited, hsame ▸ h.subset, hdisjoint,
      ⟨nodup_append_comm.mp hnodup, h.nodup.2⟩, h.leafs, ?_, fun front y back heq z hz => ?_⟩, rfl,
      hdone, .inr rfl⟩
    · simp only [mem_append, mem_singleton]
      rintro y (hy | rfl)
      · exact h.nodes y hy
      · exact hnode
    · rcases eq_nil_or_concat' back with rfl | ⟨back, last, rfl⟩
      · obtain ⟨rfl, hlast⟩ := append_inj' heq rfl
        obtain rfl := singleton_injective hlast
        exact mem_toFinset.mp (hsources z hz)
      · obtain ⟨hnodes, -⟩ := append_inj' (heq.trans (append_assoc front (y :: back) [last]).symm)
          rfl
        exact h.sources front y back hnodes z hz

theorem visitParents_spec (hT : Acyclic T size all rank) (hn : 2 * size ≤ n) (hsize : g.size = size)
    (h : g.Ordered T all begun) (hx : x ∈ all) (hrank : ∀ y ∈ begun, rank x < rank y)
    (hfuel : rank x < fuel) : ∃ g', visitParents T fuel x g = some g' ∧ g'.Ordered T all begun ∧
      g.Extends T g' [x] ∧ (g'.nodes = g.nodes ∨ g'.nodes.getLast? = some x) := by
  induction fuel generalizing g x begun with
  | zero => exact absurd hfuel (Nat.not_lt_zero _)
  | succ fuel ih =>
    have hbegun : x ∉ begun := fun hx => (hrank x hx).false
    rw [visitParents]
    by_cases hold : x ∈ g.done ∪ begun
    · have hdone := (Finset.mem_union.mp hold).resolve_right hbegun
      exact ⟨g, congrArg (Option.bind · _) (h.visited.insert_of_mem hold), h,
        .refl (forall_mem_singleton.mpr hdone), .inl rfl⟩
    · obtain ⟨i, hinsert, h₁⟩ := hT.insert hn h hx hold
      have hvisit (g' : CGraph n) (y : ℕ) (hy : y ∈ g.sources T x) (hsize' : g'.size = size)
          (h' : g'.Ordered T all (Insert.insert x begun)) :
          ∃ g'', visitParents T fuel y g' = some g'' ∧ g''.Ordered T all (Insert.insert x begun) ∧
            g'.Extends T g'' [y] := by
        have hsource := CGraph.mem_sources.mp hy
        have hlt := hT.rank_lt x y hsource
        obtain ⟨g'', heq, hordered, hextends, -⟩ := ih hsize' h' (hT.source_mem x hx y hsource)
          (fun z hz => (Finset.mem_insert.mp hz).elim (· ▸ hlt) fun hz => hlt.trans (hrank z hz))
          (hlt.trans_le (Nat.le_of_lt_succ hfuel))
        exact ⟨g'', heq, hordered, hextends⟩
      obtain ⟨g₂, hg₂, h₂, hextends⟩ :=
        foldlM_visits (g := { g with visited := g.visited.put i x }) hvisit hsize h₁
      obtain ⟨g₃, hg₃, h₃, hsize₃, hdone, hlast⟩ := h₂.push hT
        (hextends.size.trans hsize) hbegun fun y hy => hextends.roots y (CGraph.mem_sources.mpr hy)
      refine ⟨g₃, ?_, h₃, ⟨hsize₃.trans hextends.size, fun y hy =>
        (hdone y).mpr (.inr (hextends.subset hy)), fun y hy => ?_,
        forall_mem_singleton.mpr ((hdone x).mpr (.inl rfl))⟩, ?_⟩
      · rw [hinsert]
        exact (congrArg (Option.bind · _) hg₂).trans hg₃
      · rcases (hdone y).mp hy with rfl | hy
        · exact .inr ⟨y, mem_singleton_self y, .refl⟩
        · refine (hextends.reached y hy).imp_right ?_
          rintro ⟨r, hr, hreach⟩
          exact ⟨x, mem_singleton_self x, .head (CGraph.mem_sources.mp hr) hreach⟩
      · rcases hlast with ⟨hleaf, hsame⟩ | hsame
        · have hnil : g.sources T x = [] := eq_nil_iff_forall_not_mem.mpr fun y hy =>
            hT.leaf x hleaf y (CGraph.mem_sources.mp hy)
          rw [hnil] at hg₂
          obtain rfl := Option.some.inj hg₂
          exact .inl hsame
        · exact .inr (by rw [hsame, getLast?_concat])

/-- The graph of any tensors is in order, and no assertion fails. -/
theorem buildForward_spec (hT : Acyclic T size all rank) (hn : 2 * size ≤ n) (rightToLeft : Bool)
    (hxs : ∀ x ∈ xs, x ∈ all ∧ rank x < fuel) :
    ∃ g : CGraph n, xs.foldlM (buildForwardExpand T fuel) { size, rightToLeft } = some g ∧
      (g.nodes ++ g.leafs).Nodup ∧
      (∀ x, x ∈ g.nodes ++ g.leafs ↔ ∃ r ∈ xs, ReflTransGen (Source T) r x) ∧
      (∀ x ∈ g.nodes ++ g.leafs, x ∈ g.leafs ↔ (T x).isLeaf) ∧
      ∀ front x back, g.nodes = front ++ x :: back → ∀ y, Source T x y → y ∈ front ++ g.leafs := by
  have hbegin : CGraph.Ordered T ({ size, rightToLeft } : CGraph n) all ∅ :=
    ⟨HashSet.holds_empty, Finset.empty_subset _, Finset.disjoint_empty_left _,
      ⟨nodup_nil, nodup_nil⟩, forall_mem_nil _, forall_mem_nil _, fun front x back heq =>
        absurd heq.symm (append_ne_nil_of_right_ne_nil _ (cons_ne_nil _ _))⟩
  obtain ⟨g, hg, h, hextends⟩ := foldlM_visits (f := buildForwardExpand T fuel)
    (fun g x hx hsize h => by
      obtain ⟨hxall, hfuel⟩ := hxs x hx
      obtain ⟨g', hg', h', hextends, hlast⟩ := visitParents_spec hT hn hsize h hxall
        (fun _ hy => absurd hy (Finset.notMem_empty _)) hfuel
      refine ⟨g', ?_, h', hextends⟩
      rw [buildForwardExpand, hg', Option.bind_some, if_neg]
      rintro ⟨hlt, hne⟩
      rcases hlast with hsame | hlast
      · exact (hsame ▸ hlt).false
      · exact hne hlast) rfl hbegin
  have hclosed (x y : ℕ) (hx : x ∈ g.nodes ++ g.leafs) (hsource : Source T x y) :
      y ∈ g.nodes ++ g.leafs := by
    rcases mem_append.mp hx with hx | hx
    · obtain ⟨front, back, heq⟩ := append_of_mem hx
      rw [heq, mem_append, mem_append]
      exact (mem_append.mp (h.sources front x back heq y hsource)).imp_left .inl
    · exact absurd hsource (hT.leaf x (h.leafs x hx) y)
  refine ⟨g, hg, nodup_append'.mpr ⟨h.nodup.1, h.nodup.2, fun x hx hleaf =>
    h.nodes x hx (h.leafs x hleaf)⟩, fun x => ⟨fun hx => ?_, ?_⟩, fun x hx => ⟨h.leafs x,
      fun hleaf => (mem_append.mp hx).resolve_left fun hx => h.nodes x hx hleaf⟩, h.sources⟩
  · exact (hextends.reached x (mem_toFinset.mpr hx)).resolve_left (Finset.notMem_empty x)
  · rintro ⟨r, hr, hreach⟩
    induction hreach with
    | refl => exact mem_toFinset.mp (hextends.roots r hr)
    | tail _ hsource ih => exact hclosed _ _ ih hsource

theorem buildForward_spec_sum : ∃ T : ℕ → Tensor, ∃ g : CGraph 5,
    [2].foldlM (buildForwardExpand T 3) { size := 2, rightToLeft := false } = some g ∧
      (g.nodes ++ g.leafs).Nodup := by
  let T : ℕ → Tensor := fun x => if x = 2 then ⟨1, none, [some 0, none, some 1]⟩ else ⟨0, none, []⟩
  have hT : Acyclic T 2 {0, 1, 2} id := by
    refine ⟨fun x y h => ?_, fun x _ y h => ?_, fun x hleaf y h => ?_, by decide, by decide⟩ <;>
    by_cases hx : x = 2 <;> simp_all [T, Source, Tensor.isLeaf] <;> omega
  refine ⟨T, (buildForward_spec hT (Nat.le_succ 4) false fun x hx => ?_).imp
    fun _ h => ⟨h.1, h.2.1⟩⟩
  obtain rfl := mem_singleton.mp hx
  decide

end ExpertPin.Ggml
