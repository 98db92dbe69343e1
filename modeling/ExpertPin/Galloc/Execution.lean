import ExpertPin.Galloc.Graph
import ExpertPin.Lib.Storage

/-!
# Executing a graph

The nodes of a graph are executed in order, in memory that is given by where each tensor stands.
Memory that was there before is one variable, `none`, whose cells are its addresses; every other
tensor that is not a view is a variable of its own, and a view is a range of cells of the tensor it
looks at.

What an operation computes is left open (`Kernel`).  It depends on the bytes of its sources and, for
a view, on the bytes it overwrites; where its destination overlaps a source, it may also depend on
how (`overlap`).
-/

namespace ExpertPin.Galloc

open List

universe u

section Homes

variable (B : Backend) (G : Graph)

/-- `ggml_nbytes`. -/
def size (t : ℕ) : ℕ :=
  let l := (G.tensor t).layout
  (Ggml.nbytes B.traits l.type l.ne l.nb).toNat

/-- The variable whose cells a tensor consists of, and the first of them. -/
def home (t : ℕ) : Option ℕ × ℕ :=
  match (G.tensor t).data, (G.tensor t).viewSrc with
  | some address, _ => (none, address)
  | none, none => (some t, 0)
  | none, some v =>
    match (G.tensor v).data with
    | some address => (none, address + (G.tensor t).viewOffs)
    | none => (some v, (G.tensor t).viewOffs)

/-- A variable has a cell. -/
def cell : Option ℕ → ℕ → Prop
  | none, _ => True
  | some t, k => k < size B G t

/-- The tensor has a variable of its own. -/
def Planned (t : ℕ) : Prop := (G.tensor t).data = none ∧ (G.tensor t).viewSrc = none

/-- What is never computed: the memory from before, the leafs, and inputs without an operation. -/
def given : Set (Option ℕ) := fun v =>
  match v with
  | none => True
  | some t => Planned G t ∧
      (t ∈ G.leafs ∨ t ∈ G.nodes ∧ (G.tensor t).op = .none ∧ (G.tensor t).input = true)

/-- Executing the node writes its bytes.  A node without an operation is a dependency when it is a
view, and otherwise it is filled by the caller in its turn, unless it is an input. -/
def computes (node : ℕ) : Bool :=
  let t := G.tensor node
  if t.op = .none then !t.isView && t.data.isNone && !t.input else !t.op.isView

/-- The node stands for bytes. -/
def hasValue (node : ℕ) : Bool := !(G.tensor node).isView || (G.tensor node).op ≠ .none

/-! ## Memory -/

section Memory

variable {L : Type} [DecidableEq L] {β : Type u} (place : Option ℕ → ℕ → L)

/-- The location of a byte of a tensor. -/
def byteAt (t k : ℕ) : L := place (home G t).1 ((home G t).2 + k)

/-- The bytes of a tensor. -/
def value (mem : L → β) (t : ℕ) : List β :=
  (List.range (size B G t)).map fun k => mem (byteAt G place t k)

/-- Which bytes of a node share their location with which bytes of a source. -/
def overlap (node source : ℕ) : List (ℕ × ℕ) :=
  (List.range (size B G node)).flatMap fun i =>
    ((List.range (size B G source)).filter fun j =>
      byteAt G place node i = byteAt G place source j).map (i, ·)

/-- What an operation sees of a source. -/
structure Arg (β : Type u) where
  source : ℕ
  bytes : List β
  overlap : List (ℕ × ℕ)

/-- What the operation of a node computes from its sources and from what it overwrites. -/
abbrev Kernel (β : Type u) := ℕ → List (Arg β) → List β → ℕ → β

variable (kernel : Kernel β)

/-- The bytes a node computes. -/
def result (mem : L → β) (node : ℕ) : ℕ → β :=
  kernel node ((G.tensor node).sources.map fun source =>
      { source, bytes := value B G place mem source, overlap := overlap B G place node source })
    (if (G.tensor node).isView then value B G place mem node else [])

/-- Execute a node. -/
def exec (mem : L → β) (node : ℕ) : L → β :=
  if computes G node then
    Storage.store (byteAt G place node) (size B G node) (result B G place kernel mem node) mem
  else mem

/-- Execute a node and note its value. -/
def execute (run : (L → β) × List (List β)) (node : ℕ) : (L → β) × List (List β) :=
  let mem := exec B G place kernel run.1 node
  (mem, run.2 ++ [if hasValue G node then value B G place mem node else []])

/-- Execute the nodes in order. -/
def runGraph (mem : L → β) : (L → β) × List (List β) :=
  G.nodes.foldl (execute B G place kernel) (mem, [])

end Memory

/-! ## The two memories -/

/-- A location of the planned memory: an address that was there before, or an offset in the buffer
of a buffer type. -/
inductive Loc where
  | ext (address : ℕ)
  | buffer (buft offset : ℕ)
deriving DecidableEq, Repr

/-- The buffer and the offset that were planned for a tensor. -/
def Gallocr.spot (s : Gallocr) (t : ℕ) : ℕ × ℕ := ((s.hash t).bufferId, (s.hash t).offset)

/-- The memory in which each tensor has its buffer and its offset. -/
def placeAt (spot : ℕ → ℕ × ℕ) : Option ℕ → ℕ → Loc
  | none, k => .ext k
  | some t, k => .buffer (B.bufts (spot t).1) ((spot t).2 + k)

/-- Each variable has its own memory. -/
def own : Option ℕ → ℕ → Option ℕ × ℕ := Prod.mk

/-- An operation that works in place does so at a source of its own layout. -/
def inplaceAt (node source : ℕ) : Prop :=
  (G.tensor node).op.canInplace = true ∧ (G.tensor node).layout.same (G.tensor source).layout = true

/-- Two sources are the same for an operation: a destination equal to a source of the same layout is
tolerated where the operation can work in place. -/
def Arg.Alike {β : Type u} (node : ℕ) (a b : Arg β) : Prop :=
  a.source = b.source ∧ a.bytes = b.bytes ∧ (a.overlap = b.overlap ∨ inplaceAt G node a.source ∧
      a.overlap = (List.range (size B G node)).map (fun i => (i, i)) ∧ b.overlap = [])

/-- Operations tolerate what they are said to tolerate. -/
def Tolerant {β : Type u} (kernel : Kernel β) : Prop :=
  ∀ node args args' overwritten, List.Forall₂ (Arg.Alike B G node) args args' →
    kernel node args overwritten = kernel node args' overwritten

/-! ## What must be kept apart -/

/-- The node overwrites a variable as a whole. -/
def whole (node : ℕ) : Prop := computes G node = true ∧ home G node = (some node, 0)

/-- The variables a node reads: those of its sources, and its own unless it overwrites it. -/
def reads (node : ℕ) : Set (Option ℕ) := fun v =>
  (∃ source ∈ (G.tensor node).sources, (home G source).1 = v) ∨
    hasValue G node = true ∧ ¬ whole G node ∧ (home G node).1 = v

/-- The variable a node overwrites. -/
def kills (node : ℕ) : Set (Option ℕ) := fun v => whole G node ∧ v = some node

/-- The variables of the outputs. -/
def outputs : Set (Option ℕ) := fun v =>
  ∃ t, (t ∈ G.nodes ∨ t ∈ G.leafs) ∧ (G.tensor t).output = true ∧ (home G t).1 = v

/-- The variables that later nodes or the outputs still need. -/
def neededBy (later : List ℕ) : Set (Option ℕ) :=
  Storage.live (reads G) (kills G) (outputs G) later

/-- No node's result overwrites what is still needed, nor a source of the node itself unless the
node works in place there. -/
structure NoClobber {L : Type} (place : Option ℕ → ℕ → L) : Prop where
  later : ∀ before node after, G.nodes = before ++ node :: after → computes G node = true →
    ∀ u ∈ neededBy G after, u ≠ (home G node).1 →
      Storage.Apart (cell B G) place (home G node).1 (home G node).2 (size B G node) u
  sources : ∀ node ∈ G.nodes, computes G node = true → ∀ source ∈ (G.tensor node).sources,
    (home G source).1 ≠ (home G node).1 →
      Storage.Apart (cell B G) place (home G node).1 (home G node).2 (size B G node)
          (home G source).1 ∨
        inplaceAt G node source ∧ home G node = (some node, 0) ∧ home G source = (some source, 0) ∧
          place (some node) = place (some source)

/-- The graph is in topological order, and every view that is used as a source is a node with a view
operation, or was allocated before. -/
structure Graph.WellFormed : Prop where
  nodup : G.nodes.Nodup
  leaf_node : ∀ t ∈ G.leafs, t ∉ G.nodes
  leaf_op : ∀ t ∈ G.leafs, (G.tensor t).op = .none
  /-- The source of a view is not a view. -/
  base : ∀ t v, (G.tensor t).viewSrc = some v → (G.tensor v).viewSrc = none
  /-- A view lies inside of its source. -/
  inside : ∀ t v, (G.tensor t).viewSrc = some v → (G.tensor t).viewOffs + size B G t ≤ size B G v
  /-- A view of a tensor without an address has none. -/
  external : ∀ t v, (G.tensor t).viewSrc = some v → (G.tensor v).data = none →
    (G.tensor t).data = none
  view_op : ∀ t, (G.tensor t).op.isView = true → (G.tensor t).isView = true
  source : ∀ before node after, G.nodes = before ++ node :: after →
    ∀ s ∈ (G.tensor node).sources, (G.tensor s).data ≠ none ∨
      (G.tensor s).viewSrc = none ∧ (s ∈ G.leafs ∨ s ∈ before) ∨
      (G.tensor s).op.isView = true ∧ s ∈ before
  viewed : ∀ before node after, G.nodes = before ++ node :: after →
    ∀ v, (G.tensor node).viewSrc = some v → (G.tensor node).op ≠ .none →
      (G.tensor v).data ≠ none ∨ v ∈ G.leafs ∨ v ∈ before
  known : ∀ t v, (t ∈ G.nodes ∨ t ∈ G.leafs) → (G.tensor t).viewSrc = some v →
    (G.tensor v).data ≠ none ∨ v ∈ G.leafs ∨ v ∈ G.nodes

end Homes

/-! ## Executing without clobbering -/

section Simulation

variable {B : Backend} {G : Graph} {L L' : Type} {β : Type u}
  {place : Option ℕ → ℕ → L} {place' : Option ℕ → ℕ → L'} {mem : L → β} {mem' : L' → β}
  {kernel : Kernel β} {node source t k : ℕ} {live : Set (Option ℕ)}

theorem Graph.WellFormed.cell_home (hG : G.WellFormed B) (hk : k < size B G t) :
    cell B G (home G t).1 ((home G t).2 + k) := by
  rw [home]
  split
  case h_1 => trivial
  case h_2 => rwa [cell, Nat.zero_add]
  case h_3 v _ hview =>
    split
    case h_1 => trivial
    case h_2 =>
      exact lt_of_lt_of_le (Nat.add_lt_add_left hk _) (hG.inside t v hview)

theorem Planned.home (h : Planned G t) : home G t = (some t, 0) := by
  rw [Galloc.home, h.1, h.2]

/-- The variable of a tensor is the memory from before or that of a planned tensor. -/
theorem Graph.WellFormed.planned_of_home (hG : G.WellFormed B) {r : ℕ}
    (h : (Galloc.home G t).1 = some r) :
    Planned G r ∧ (t = r ∨ (G.tensor t).viewSrc = some r ∧ (G.tensor t).data = none) := by
  rw [Galloc.home] at h
  split at h
  case h_1 => cases h
  case h_2 hdata hview =>
    cases h
    exact ⟨⟨hdata, hview⟩, Or.inl rfl⟩
  case h_3 v hdata hview =>
    split at h
    case h_1 => cases h
    case h_2 hbase =>
      cases h
      exact ⟨⟨hbase, hG.base t _ hview⟩, Or.inr ⟨hview, hdata⟩⟩

theorem Graph.WellFormed.planned_of_whole (hG : G.WellFormed B) (h : whole G node) :
    Planned G node :=
  (hG.planned_of_home (congrArg Prod.fst h.2)).1

theorem hasValue_of_computes (h : computes G node = true) : hasValue G node = true := by
  rw [computes] at h
  rw [hasValue]
  split at h
  case isTrue hop =>
    rw [Bool.and_eq_true, Bool.and_eq_true] at h
    rw [h.1.1, Bool.true_or]
  case isFalse hop => rw [decide_eq_true hop, Bool.or_true]

/-- A tensor whose variable agrees has the same bytes in both memories. -/
theorem value_eq (hG : G.WellFormed B) (h : Storage.Agree (cell B G) place place' live mem mem')
    (ht : (home G t).1 ∈ live) : value B G place mem t = value B G place' mem' t := by
  refine map_congr_left fun k hk => ?_
  exact h _ ht _ (hG.cell_home (mem_range.mp hk))

section Overlap

variable [DecidableEq L] [DecidableEq L']

/-- Inside of one variable, tensors overlap in the same way wherever it stands. -/
theorem overlap_eq (hinj : ∀ v, Function.Injective (place v))
    (hinj' : ∀ v, Function.Injective (place' v)) (h : (home G source).1 = (home G node).1) :
    overlap B G place node source = overlap B G place' node source := by
  rw [overlap, overlap]
  congr
  funext i
  congr
  funext j
  refine decide_eq_decide.mpr ?_
  rw [byteAt, byteAt, byteAt, byteAt, h, (hinj _).eq_iff, (hinj' _).eq_iff]

theorem overlap_eq_nil (hcell : ∀ k < size B G source,
      cell B G (home G source).1 ((home G source).2 + k))
    (h : Storage.Apart (cell B G) place (home G node).1 (home G node).2 (size B G node)
      (home G source).1) : overlap B G place node source = [] := by
  refine flatMap_eq_nil_iff.mpr fun i hi => map_eq_nil_iff.mpr ?_
  refine filter_eq_nil_iff.mpr fun j hj => ?_
  rw [decide_eq_true_iff]
  exact h i (mem_range.mp hi) _ (hcell j (mem_range.mp hj))

/-- A node in the place of a source overlaps it byte by byte. -/
theorem overlap_eq_diagonal (hinj : ∀ v, Function.Injective (place v))
    (hsize : size B G source = size B G node) (hnode : home G node = (some node, 0))
    (hsource : home G source = (some source, 0)) (h : place (some node) = place (some source)) :
    overlap B G place node source = (List.range (size B G node)).map fun i => (i, i) := by
  rw [overlap, map_eq_flatMap]
  refine flatMap_congr fun i hi => ?_
  have hfilter : (range (size B G source)).filter
      (fun j => byteAt G place node i = byteAt G place source j) = [i] := by
    have hone : (range (size B G node)).count i = 1 :=
      count_eq_one_of_mem nodup_range hi
    rw [hsize, ← replicate_one, ← hone, ← filter_beq]
    refine filter_congr fun j _ => ?_
    refine Bool.eq_iff_iff.mpr ?_
    rw [decide_eq_true_iff, beq_iff_eq, byteAt, byteAt, hnode, hsource, h, (hinj _).eq_iff,
      Nat.zero_add, Nat.zero_add, eq_comm]
  rw [hfilter, map_singleton]

end Overlap

section Exec

variable [DecidableEq L] {before after : List ℕ} {m : L → β} {o : Option ℕ × ℕ → β}

theorem own_injective (v : Option ℕ) : Function.Injective (own v) :=
  fun _ _ h => (Prod.mk.inj h).2

/-- In memories of their own, no variable shares anything with another. -/
theorem own_apart {v u : Option ℕ} {first n : ℕ} (h : u ≠ v) :
    Storage.Apart (cell B G) own v first n u :=
  fun _ _ _ _ heq => h (Prod.mk.inj heq).1.symm

theorem mem_of_split (h : G.nodes = before ++ node :: after) : node ∈ G.nodes :=
  h ▸ mem_append_right _ mem_cons_self

theorem mem_neededBy_of_reads {v : Option ℕ} (h : v ∈ reads G node) :
    v ∈ neededBy G (node :: after) :=
  Or.inr h

/-- What an operation sees is the same up to what it tolerates. -/
theorem args_alike (hG : G.WellFormed B) (hplace : NoClobber B G place)
    (hinj : ∀ v, Function.Injective (place v)) (hnode : node ∈ G.nodes)
    (hcomputes : computes G node = true)
    (h : Storage.Agree (cell B G) place own (neededBy G (node :: after)) m o) :
    List.Forall₂ (Arg.Alike B G node) ((G.tensor node).sources.map fun source =>
        { source, bytes := value B G place m source, overlap := overlap B G place node source })
      ((G.tensor node).sources.map fun source =>
        { source, bytes := value B G own o source, overlap := overlap B G own node source }) := by
  rw [forall₂_map_left_iff, forall₂_map_right_iff, forall₂_same]
  intro source hsource
  refine ⟨rfl, value_eq hG h (mem_neededBy_of_reads (Or.inl ⟨source, hsource, rfl⟩)), ?_⟩
  by_cases hsame : (home G source).1 = (home G node).1
  case pos => exact Or.inl (overlap_eq hinj own_injective hsame)
  case neg =>
    have hown : overlap B G own node source = [] :=
      overlap_eq_nil (fun _ hk => hG.cell_home hk) (own_apart hsame)
    rcases hplace.sources node hnode hcomputes source hsource hsame with
      hapart | ⟨hinplace, hhome, hhome', hshared⟩
    · exact Or.inl ((overlap_eq_nil (fun _ hk => hG.cell_home hk) hapart).trans hown.symm)
    · refine Or.inr ⟨hinplace, overlap_eq_diagonal hinj ?_ hhome hhome' hshared, hown⟩
      rw [size, size, Layout.same_iff.mp hinplace.2]

/-- A node computes the same in both memories. -/
theorem result_eq (hG : G.WellFormed B) (hplace : NoClobber B G place)
    (hinj : ∀ v, Function.Injective (place v)) (hkernel : Tolerant B G kernel)
    (hnode : node ∈ G.nodes) (hcomputes : computes G node = true)
    (h : Storage.Agree (cell B G) place own (neededBy G (node :: after)) m o) :
    result B G place kernel m node = result B G own kernel o node := by
  have hargs := hkernel node _ _ (if (G.tensor node).isView then value B G place m node else [])
    (args_alike hG hplace hinj hnode hcomputes h)
  rw [result, hargs, result]
  congr 1
  split
  case isTrue hview =>
    refine value_eq hG h (mem_neededBy_of_reads (Or.inr ⟨hasValue_of_computes hcomputes, ?_, rfl⟩))
    intro hwhole
    rw [Tensor.isView, (hG.planned_of_whole hwhole).2] at hview
    cases hview
  case isFalse => rfl

/-- Executing a node keeps the agreement on what is needed. -/
theorem agree_exec (hG : G.WellFormed B) (hplace : NoClobber B G place)
    (hinj : ∀ v, Function.Injective (place v)) (hkernel : Tolerant B G kernel)
    (hsplit : G.nodes = before ++ node :: after)
    (h : Storage.Agree (cell B G) place own (neededBy G (node :: after)) m o) :
    Storage.Agree (cell B G) place own (neededBy G after) (exec B G place kernel m node)
      (exec B G own kernel o node) := by
  rw [exec, exec]
  split
  case isFalse hcomputes =>
    refine h.mono fun v hv => Or.inl ⟨hv, ?_⟩
    exact fun hkill => hcomputes hkill.1.1
  case isTrue hcomputes =>
    rw [result_eq hG hplace hinj hkernel (mem_of_split hsplit) hcomputes h]
    refine h.store (hinj _) (own_injective _) (fun u hu hne => ?_) (fun hlive => ?_)
      (hplace.later before node after hsplit hcomputes) (fun u _ hne => own_apart hne)
    · refine Or.inl ⟨hu, ?_⟩
      rintro ⟨hwhole, rfl⟩
      exact hne (congrArg Prod.fst hwhole.2).symm
    · by_cases hwhole : whole G node
      · refine Or.inr fun k hk => ?_
        rw [hwhole.2] at hk ⊢
        exact ⟨Nat.zero_le _, by rwa [Nat.zero_add]⟩
      · exact Or.inl (mem_neededBy_of_reads (Or.inr ⟨hasValue_of_computes hcomputes, hwhole, rfl⟩))

/-- The bytes of a node that computes are its result. -/
theorem value_exec {K : Type} [DecidableEq K] {p : Option ℕ → ℕ → K} {m : K → β}
    (hinj : ∀ v, Function.Injective (p v)) (h : computes G node = true) :
    value B G p (exec B G p kernel m node) node =
      (List.range (size B G node)).map (result B G p kernel m node) := by
  rw [exec, if_pos h]
  refine map_congr_left fun k hk => ?_
  refine Storage.store_at (fun i _ j _ hij => ?_) (mem_range.mp hk)
  exact Nat.add_left_cancel (hinj _ hij)

/-- A node has the same value in both memories. -/
theorem value_exec_eq (hG : G.WellFormed B) (hplace : NoClobber B G place)
    (hinj : ∀ v, Function.Injective (place v)) (hkernel : Tolerant B G kernel)
    (hnode : node ∈ G.nodes) (hvalue : hasValue G node = true)
    (h : Storage.Agree (cell B G) place own (neededBy G (node :: after)) m o) :
    value B G place (exec B G place kernel m node) node =
      value B G own (exec B G own kernel o node) node := by
  by_cases hcomputes : computes G node = true
  case pos =>
    rw [value_exec hinj hcomputes, value_exec own_injective hcomputes,
      result_eq hG hplace hinj hkernel hnode hcomputes h]
  case neg =>
    rw [exec, exec, if_neg hcomputes, if_neg hcomputes]
    exact value_eq hG h (mem_neededBy_of_reads
      (Or.inr ⟨hvalue, fun hwhole => hcomputes hwhole.1, rfl⟩))

/-- The memories agree on what is needed, and the values so far were the same. -/
def Same (B : Backend) (G : Graph) (place : Option ℕ → ℕ → L) (live : Set (Option ℕ))
    (run : (L → β) × List (List β)) (run' : (Option ℕ × ℕ → β) × List (List β)) : Prop :=
  Storage.Agree (cell B G) place own live run.1 run'.1 ∧ run.2 = run'.2

/-- Memory in which no node's result overwrites what is needed is as good as memories of their own:
every node has the same value, and so has every output at the end. -/
theorem runGraph_same (hG : G.WellFormed B) (hplace : NoClobber B G place)
    (hinj : ∀ v, Function.Injective (place v)) (hkernel : Tolerant B G kernel)
    (h : Storage.Agree (cell B G) place own (neededBy G G.nodes) m o) :
    Same B G place (outputs G) (runGraph B G place kernel m) (runGraph B G own kernel o) := by
  refine Storage.agree_run (R := Same B G place) (reads G) (kills G)
    (fun before node after hsplit run run' hsame => ⟨?_, ?_⟩) ⟨h, rfl⟩
  · exact agree_exec hG hplace hinj hkernel hsplit hsame.1
  · dsimp only [execute]
    rw [hsame.2]
    congr 2
    split
    case isTrue hvalue =>
      exact value_exec_eq hG hplace hinj hkernel (mem_of_split hsplit) hvalue hsame.1
    case isFalse => rfl

end Exec

end Simulation

end ExpertPin.Galloc
