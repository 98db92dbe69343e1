import ExpertPin.Galloc.Plan

/-!
# Reusing a memory plan

`ggml_gallocr_alloc_graph` places the tensors of a graph where a plan has placed the tensors that
stood in the same slots: the node itself and each of its sources, and the leafs.  It plans anew only
when the number of nodes or leafs changed or a tensor does not fit into its slot, so another graph
may get a plan that was made for a different topology.

The checks of the backend that a range lies inside of its buffer can only abort and are left out,
and so is the failure to allocate a buffer.
-/

namespace ExpertPin.Galloc

open List

universe u

/-- `struct tensor_alloc`. -/
structure TensorAlloc where
  bufferId : ℤ
  offset : ℕ
  /-- 0 = pre-allocated, unused, or view. -/
  sizeMax : ℕ
deriving DecidableEq, Repr

/-- `struct node_alloc`. -/
structure NodeAlloc where
  dst : TensorAlloc
  src : ℕ → TensorAlloc

/-- What a plan leaves behind: `node_allocs`, and the `leaf` of each of the `leaf_allocs`. -/
structure Allocs where
  nodeAllocs : List NodeAlloc
  leafAllocs : List TensorAlloc

section Model

variable (B : Backend)

/-- The slot of a tensor that is not planned. -/
def TensorAlloc.unused : TensorAlloc := { bufferId := -1, offset := Galloc.sizeMax, sizeMax := 0 }

/-- The slot of a tensor of the planned graph. -/
def tensorAlloc (G : Graph) (s : Gallocr) (t : ℕ) : TensorAlloc :=
  if (G.tensor t).viewSrc.isSome || (G.tensor t).data.isSome then TensorAlloc.unused
  else
    let hn := s.hash t
    { bufferId := hn.bufferId
      offset := hn.offset
      sizeMax := B.allocSize (B.bufts hn.bufferId) (G.tensor t).layout }

/-- The slots of a node. -/
def nodeAlloc (G : Graph) (s : Gallocr) (node : ℕ) : NodeAlloc where
  dst := tensorAlloc B G s node
  src j :=
    match (G.tensor node).src[j]? with
    | some (some src) => tensorAlloc B G s src
    | _ => TensorAlloc.unused

/-- `ggml_gallocr_reserve_n`. -/
def reserveN (G : Graph) (nodeBufferIds leafBufferIds : Option (ℕ → ℕ)) : Option Allocs := do
  let s ← allocGraphImpl B G nodeBufferIds leafBufferIds
  return { nodeAllocs := G.nodes.map (nodeAlloc B G s)
           leafAllocs := G.leafs.map (tensorAlloc B G s) }

variable (H : Graph) (nBuffers : ℕ)

/-- `ggml_gallocr_node_needs_realloc`, which is true when the slot can be used. -/
def nodeNeedsRealloc (node : ℕ) (talloc : TensorAlloc) : Bool :=
  let t := H.tensor node
  if t.data.isSome || t.viewSrc.isSome then true
  else if talloc.bufferId < 0 ∨ nBuffers ≤ talloc.bufferId then false
  else B.allocSize (B.bufts talloc.bufferId.toNat) t.layout ≤ talloc.sizeMax

/-- The sources of a tensor with their slots. -/
def sourceSlots (t : Tensor) (slots : NodeAlloc) : List (ℕ × TensorAlloc) :=
  t.src.zipIdx.filterMap fun src => src.1.map fun p => (p, slots.src src.2)

/-- `ggml_gallocr_needs_realloc`. -/
def needsRealloc (allocs : Allocs) : Bool :=
  allocs.nodeAllocs.length ≠ H.nodes.length || allocs.leafAllocs.length ≠ H.leafs.length ||
    (H.nodes.zip allocs.nodeAllocs).any fun node =>
      !nodeNeedsRealloc B H nBuffers node.1 node.2.dst ||
        (sourceSlots (H.tensor node.1) node.2).any fun src =>
          !nodeNeedsRealloc B H nBuffers src.1 src.2

/-- The tensors that were given a place so far. -/
abbrev Spots := ℕ → Option (ℕ × ℕ)

/-- `ggml_gallocr_init_tensor`: a tensor that has its place keeps it. -/
def initTensor (spots : Spots) (slot : ℕ × TensorAlloc) : Option Spots :=
  let t := H.tensor slot.1
  if t.viewSrc.isSome then some spots
  else if t.data.isNone && (spots slot.1).isNone then
    if slot.2.bufferId < 0 then none
    else some (Function.update spots slot.1 (some (slot.2.bufferId.toNat, slot.2.offset)))
  else some spots

/-- The sources of a node and then the node. -/
def initNode (spots : Spots) (node : ℕ × NodeAlloc) : Option Spots := do
  let spots ← (sourceSlots (H.tensor node.1) node.2).foldlM (initTensor H) spots
  initTensor H spots (node.1, node.2.dst)

/-- `ggml_gallocr_alloc_graph`, which is `none` where the source returns false. -/
def allocGraph (allocs : Allocs) : Option (Allocs × Spots) := do
  let allocs ←
    if needsRealloc B H nBuffers allocs then
      if nBuffers = 1 then reserveN B H none none else none
    else some allocs
  let spots ← (H.leafs.zip allocs.leafAllocs).foldlM (initTensor H) fun _ => none
  let spots ← (H.nodes.zip allocs.nodeAllocs).foldlM (initNode H) spots
  return (allocs, spots)

/-- Where a tensor was placed. -/
def Spots.spot (spots : Spots) (t : ℕ) : ℕ × ℕ := (spots t).getD (0, 0)

end Model

/-! ## Graphs of one topology -/

/-- A graph is another one with its tensors renamed, up to sizes, positions of views and which
operations they are. -/
structure SameTopology (G H : Graph) (f : ℕ ≃ ℕ) : Prop where
  nodes : H.nodes = G.nodes.map f
  leafs : H.leafs = G.leafs.map f
  src : ∀ t, (H.tensor (f t)).src = (G.tensor t).src.map (Option.map f)
  viewSrc : ∀ t, (H.tensor (f t)).viewSrc = (G.tensor t).viewSrc.map f
  data : ∀ t, (H.tensor (f t)).data.isSome = (G.tensor t).data.isSome
  op : ∀ t, (H.tensor (f t)).op = .none ↔ (G.tensor t).op = .none
  view : ∀ t, (H.tensor (f t)).op.isView = (G.tensor t).op.isView
  inplace : ∀ t, (H.tensor (f t)).op.canInplace = (G.tensor t).op.canInplace
  layout : ∀ t u, (G.tensor t).layout.same (G.tensor u).layout = true →
    (H.tensor (f t)).layout.same (H.tensor (f u)).layout = true
  input : ∀ t, (H.tensor (f t)).input = (G.tensor t).input
  output : ∀ t, (H.tensor (f t)).output = (G.tensor t).output

section Renaming

variable {B : Backend} {G H : Graph} {f : ℕ ≃ ℕ} {n p t r : ℕ} {after : List ℕ}
  {spot spot' : ℕ → ℕ × ℕ}

theorem SameTopology.refl (G : Graph) : SameTopology G G (Equiv.refl ℕ) := by
  constructor <;> simp

variable (h : SameTopology G H f)

include h

theorem SameTopology.data_none : (H.tensor (f t)).data = none ↔ (G.tensor t).data = none := by
  rw [← Option.not_isSome_iff_eq_none, h.data, Option.not_isSome_iff_eq_none]

theorem SameTopology.isView : (H.tensor (f t)).isView = (G.tensor t).isView := by
  rw [Tensor.isView, h.viewSrc, Option.isSome_map, Tensor.isView]

theorem SameTopology.planned : Planned H (f t) ↔ Planned G t := by
  rw [Planned, h.data_none, h.viewSrc, Option.map_eq_none_iff, Planned]

theorem SameTopology.sources : (H.tensor (f t)).sources = (G.tensor t).sources.map f := by
  rw [Tensor.sources, h.src, filterMap_map, Tensor.sources, map_filterMap]
  rfl

theorem SameTopology.home : (home H (f t)).1 = (home G t).1.map f := by
  have hview := h.viewSrc t
  cases hdata : (G.tensor t).data with
  | some address =>
    have hsome : (H.tensor (f t)).data.isSome = true := by rw [h.data, hdata]; rfl
    obtain ⟨address', hdata'⟩ := Option.isSome_iff_exists.mp hsome
    rw [Galloc.home, Galloc.home, hdata, hdata']
    rfl
  | none =>
    have hdata' := h.data_none.mpr hdata
    cases hv : (G.tensor t).viewSrc with
    | none =>
      rw [hv] at hview
      rw [Galloc.home, Galloc.home, hdata, hdata', hv, hview]
      rfl
    | some v =>
      rw [hv] at hview
      rw [Galloc.home, Galloc.home, hdata, hdata', hv, hview]
      dsimp only [Option.map_some]
      cases hbase : (G.tensor v).data with
      | none =>
        rw [h.data_none.mpr hbase]
        rfl
      | some address =>
        have hsome : (H.tensor (f v)).data.isSome = true := by rw [h.data, hbase]; rfl
        obtain ⟨address', hbase'⟩ := Option.isSome_iff_exists.mp hsome
        rw [hbase']
        rfl

theorem SameTopology.home_eq_some : (Galloc.home H (f t)).1 = some (f r) ↔
    (Galloc.home G t).1 = some r := by
  rw [h.home, ← Option.map_some, (Option.map_injective f.injective).eq_iff]

theorem SameTopology.computes : computes H (f n) = computes G n := by
  have hdata : (H.tensor (f n)).data.isNone = (G.tensor n).data.isNone := by
    rw [← Option.not_isSome, ← Option.not_isSome, h.data]
  rw [Galloc.computes, Galloc.computes, hdata, h.isView, h.input, h.view]
  split
  case isTrue hop => rw [if_pos ((h.op n).mp hop)]
  case isFalse hop => rw [if_neg fun hop' => hop ((h.op n).mpr hop')]

theorem SameTopology.hasValue : hasValue H (f n) = hasValue G n := by
  rw [Galloc.hasValue, Galloc.hasValue, h.isView]
  refine congrArg (_ || ·) (decide_eq_decide.mpr ?_)
  exact not_congr (h.op n)

theorem SameTopology.mem_nodes : f t ∈ H.nodes ↔ t ∈ G.nodes := by
  rw [h.nodes, mem_map_of_injective f.injective]

theorem SameTopology.mem_leafs : f t ∈ H.leafs ↔ t ∈ G.leafs := by
  rw [h.leafs, mem_map_of_injective f.injective]

theorem SameTopology.isEarly : IsEarly H (f t) ↔ IsEarly G t := by
  rw [IsEarly, IsEarly, h.mem_leafs, h.mem_nodes, h.input]

theorem SameTopology.reads (hG : G.WellFormed B)
    (hr : some (f r) ∈ reads H (f n)) : some r ∈ reads G n := by
  rcases hr with ⟨q, hq, hhome⟩ | ⟨hvalue, hwhole, hhome⟩
  · rw [h.sources, mem_map] at hq
    obtain ⟨p, hp, rfl⟩ := hq
    exact Or.inl ⟨p, hp, h.home_eq_some.mp hhome⟩
  · refine Or.inr ⟨h.hasValue ▸ hvalue, fun hwhole' => hwhole ?_, h.home_eq_some.mp hhome⟩
    exact ⟨h.computes ▸ hwhole'.1, (h.planned.mpr (hG.planned_of_whole hwhole')).home⟩

theorem SameTopology.neededBy (hG : G.WellFormed B)
    (hr : some (f r) ∈ neededBy H (after.map f)) : some r ∈ neededBy G after := by
  induction after with
  | nil =>
    obtain ⟨t, ht, houtput, hhome⟩ := hr
    obtain ⟨t, rfl⟩ := f.surjective t
    rw [h.mem_nodes, h.mem_leafs] at ht
    exact ⟨t, ht, h.output t ▸ houtput, h.home_eq_some.mp hhome⟩
  | cons n after ih =>
    rcases hr with ⟨hr, hkill⟩ | hr
    · refine Or.inl ⟨ih hr, fun hkill' => hkill ⟨?_, ?_⟩⟩
      · obtain ⟨hwhole, _⟩ := hkill'
        exact ⟨h.computes ▸ hwhole.1, (h.planned.mpr (hG.planned_of_whole hwhole)).home⟩
      · rw [Option.some.inj hkill'.2]
    · exact Or.inr (h.reads hG hr)

/-- Every tensor of the other graph has the place of the tensor it renames, and fits there. -/
structure Fits (B : Backend) (G H : Graph) (f : ℕ ≃ ℕ) (spot spot' : ℕ → ℕ × ℕ) : Prop where
  same : ∀ t, Planned G t → t ∈ G.leafs ∨ t ∈ G.nodes → spot' (f t) = spot t
  fits : ∀ t, Planned G t → t ∈ G.leafs ∨ t ∈ G.nodes →
    B.allocSize (B.bufts (spot t).1) (H.tensor (f t)).layout ≤
      B.allocSize (B.bufts (spot t).1) (G.tensor t).layout

omit h in
theorem Fits.spans (hfits : Fits B G H f spot spot') (ht : Planned G t)
    (hknown : t ∈ G.leafs ∨ t ∈ G.nodes) {b x : ℕ} (hx : Spans B H (spot' (f t)) (f t) b x) :
    Spans B G (spot t) t b x := by
  rw [hfits.same t ht hknown] at hx
  obtain ⟨rfl, hlo, hhi⟩ := hx
  exact ⟨rfl, hlo, hhi.trans_le (Nat.add_le_add_left (hfits.fits t ht hknown) _)⟩

omit h in
theorem Fits.apart (hfits : Fits B G H f spot spot') (ht : Planned G t)
    (hknown : t ∈ G.leafs ∨ t ∈ G.nodes) (hr : Planned G r)
    (hknown' : r ∈ G.leafs ∨ r ∈ G.nodes) (hapart : SpansApart B G spot t r) :
    SpansApart B H spot' (f t) (f r) :=
  fun b x hx hy => hapart b x (hfits.spans ht hknown hx) (hfits.spans hr hknown' hy)

omit h in
theorem Present.known {before : List ℕ} (hpresent : Present G before t)
    (hbefore : before ⊆ G.nodes) : t ∈ G.leafs ∨ t ∈ G.nodes :=
  hpresent.imp_right fun ht => ht.elim (fun hmem => hbefore hmem) And.left

theorem SameTopology.nodeSafe (hG : G.WellFormed B) {before : List ℕ}
    (hsplit : G.nodes = before ++ n :: after) (hfits : Fits B G H f spot spot')
    (hn : NodeSafe B G spot n after) : NodeSafe B H spot' (f n) (after.map f) := by
  have hbefore : before ⊆ G.nodes := by
    rw [hsplit]
    exact subset_append_left _ _
  have hd {d : ℕ} (hhome : (Galloc.home G n).1 = some d) :
      Planned G d ∧ (d ∈ G.leafs ∨ d ∈ G.nodes) := by
    obtain ⟨hplanned, rfl | ⟨hview, _⟩⟩ := hG.planned_of_home hhome
    · exact ⟨hplanned, Or.inr (mem_of_split hsplit)⟩
    · refine ⟨hplanned, ?_⟩
      exact (hG.known n d (Or.inl (mem_of_split hsplit)) hview).resolve_left
        (not_not_intro hplanned.1)
  constructor
  case later =>
    intro hcomputes d r hhome hr hdr
    obtain ⟨d, rfl⟩ := f.surjective d
    obtain ⟨r, rfl⟩ := f.surjective r
    have hhome := h.home_eq_some.mp hhome
    have hr := h.neededBy hG hr
    have hsplit' : G.nodes = (before ++ [n]) ++ after := by
      rw [hsplit, append_assoc, singleton_append]
    obtain ⟨hplanned, hpresent, _⟩ := neededBy_present hG hsplit' hr
    have hknown := hpresent.known (hsplit' ▸ subset_append_left _ _)
    exact hfits.apart (hd hhome).1 (hd hhome).2 hplanned hknown
      (hn.later (h.computes ▸ hcomputes) d r hhome hr fun hdr' => hdr (congrArg f hdr'))
  case sources =>
    intro hcomputes q hq d r hhome hsource hdr
    rw [h.sources, mem_map] at hq
    obtain ⟨p, hp, rfl⟩ := hq
    obtain ⟨d, rfl⟩ := f.surjective d
    obtain ⟨r, rfl⟩ := f.surjective r
    have hhome := h.home_eq_some.mp hhome
    have hsource := h.home_eq_some.mp hsource
    obtain ⟨hplanned, hpresent, _⟩ :=
      reads_needed hG hsplit (r := r) (Or.inl ⟨p, hp, hsource⟩)
    have hknown := hpresent.known hbefore
    rcases hn.sources (h.computes ▸ hcomputes) p hp d r hhome hsource
      (fun hdr' => hdr (congrArg f hdr')) with hapart | ⟨hinplace, rfl, rfl, hspot⟩
    · exact Or.inl (hfits.apart (hd hhome).1 (hd hhome).2 hplanned hknown hapart)
    · refine Or.inr ⟨⟨(h.inplace d).trans hinplace.1, h.layout d r hinplace.2⟩, rfl, rfl, ?_⟩
      rw [hfits.same d (hd hhome).1 (hd hhome).2, hfits.same r hplanned hknown, hspot]

/-- A plan is as safe for a graph of the same topology whose tensors fit. -/
theorem SameTopology.spotSafe (hG : G.WellFormed B) (hfits : Fits B G H f spot spot')
    (hsafe : SpotSafe B G spot) : SpotSafe B H spot' := by
  constructor
  case nodes =>
    intro before n after hsplit
    rw [h.nodes, map_eq_append_iff] at hsplit
    obtain ⟨before, rest, hsplit, rfl, hrest⟩ := hsplit
    obtain ⟨n, after, rfl, rfl, rfl⟩ := map_eq_cons_iff.mp hrest
    exact h.nodeSafe hG hsplit hfits (hsafe.nodes before n after hsplit)
  case early =>
    intro t u htu ht hu hearly hearly'
    obtain ⟨t, rfl⟩ := f.surjective t
    obtain ⟨u, rfl⟩ := f.surjective u
    rw [h.planned] at ht hu
    rw [h.isEarly] at hearly hearly'
    exact hfits.apart ht (hearly.imp_right And.left) hu (hearly'.imp_right And.left)
      (hsafe.early t u (fun heq => htu (congrArg f heq)) ht hu hearly hearly')

end Renaming

/-! ## Giving the places away -/

section Init

variable {B : Backend} {G H : Graph} {f : ℕ ≃ ℕ} {s : Gallocr} {n t : ℕ} {spots spots' : Spots}
  {done : ℕ → Prop}

/-- The slot of a planned tensor records its place. -/
theorem tensorAlloc_planned (h : Planned G t) : tensorAlloc B G s t =
    { bufferId := (s.spot t).1
      offset := (s.spot t).2
      sizeMax := B.allocSize (B.bufts (s.spot t).1) (G.tensor t).layout } := by
  rw [tensorAlloc, h.1, h.2]
  rfl

/-- The places given away so far are those of the plan, and these tensors have theirs. -/
structure Right (G : Graph) (f : ℕ ≃ ℕ) (s : Gallocr) (spots : Spots) (done : ℕ → Prop) :
    Prop where
  right : ∀ t x, spots (f t) = some x → x = s.spot t
  given : ∀ t, done t → Planned G t → spots (f t) ≠ none

theorem Right.imp {done' : ℕ → Prop} (h : Right G f s spots done) (himp : ∀ t, done' t → done t) :
    Right G f s spots done' :=
  ⟨h.right, fun t ht => h.given t (himp t ht)⟩

theorem initTensor_right (hsame : SameTopology G H f) (h : Right G f s spots done)
    (hinit : initTensor H spots (f t, tensorAlloc B G s t) = some spots') :
    Right G f s spots' fun u => done u ∨ u = t := by
  have hskip (hdone : Planned G t → spots (f t) ≠ none) :
      Right G f s spots fun u => done u ∨ u = t := by
    refine ⟨h.right, fun u hu hplanned => ?_⟩
    rcases hu with hu | rfl
    · exact h.given u hu hplanned
    · exact hdone hplanned
  rw [initTensor] at hinit
  dsimp only at hinit
  split at hinit
  case isTrue hview =>
    cases hinit
    refine hskip fun hplanned => ?_
    rw [hsame.viewSrc, hplanned.2] at hview
    cases hview
  case isFalse hview =>
    split at hinit
    case isFalse hdone =>
      cases hinit
      refine hskip fun hplanned hnone => hdone ?_
      rw [hsame.data_none.mpr hplanned.1, hnone]
      rfl
    case isTrue hnew =>
      have hplanned : Planned G t := by
        refine hsame.planned.mp ⟨?_, Option.not_isSome_iff_eq_none.mp hview⟩
        rw [Bool.and_eq_true, Option.isNone_iff_eq_none] at hnew
        exact hnew.1
      rw [tensorAlloc_planned hplanned] at hinit
      split at hinit
      case isTrue => cases hinit
      case isFalse =>
        cases hinit
        refine ⟨fun u x hx => ?_, fun u hu huplanned => ?_⟩
        · rw [Function.update_apply] at hx
          split at hx
          case isTrue hut =>
            obtain rfl := f.injective hut
            exact (Option.some.inj hx).symm
          case isFalse => exact h.right u x hx
        · rw [Function.update_apply]
          split
          case isTrue => exact Option.some_ne_none _
          case isFalse hut =>
            exact h.given u (hu.resolve_right fun heq => hut (congrArg f heq)) huplanned

theorem initTensors_right (hsame : SameTopology G H f) {tensors : List ℕ}
    (h : Right G f s spots done)
    (hinit : (tensors.map fun t => (f t, tensorAlloc B G s t)).foldlM (initTensor H) spots =
      some spots') : Right G f s spots' fun u => done u ∨ u ∈ tensors := by
  induction tensors generalizing spots done with
  | nil =>
    cases hinit
    exact h.imp fun t ht => ht.resolve_right not_mem_nil
  | cons t tensors ih =>
    obtain ⟨spots₁, hfirst, hrest⟩ := Option.bind_eq_some_iff.mp hinit
    refine (ih (initTensor_right hsame h hfirst) hrest).imp fun u hu => ?_
    rw [mem_cons, ← or_assoc] at hu
    exact hu

/-- The sources of a node meet the slots of the sources they rename. -/
theorem sourceSlots_eq (hsame : SameTopology G H f) :
    sourceSlots (H.tensor (f n)) (nodeAlloc B G s n) =
      (G.tensor n).sources.map fun p => (f p, tensorAlloc B G s p) := by
  rw [sourceSlots, hsame.src, zipIdx_map, filterMap_map, Tensor.sources,
    map_filterMap]
  have hfst : (G.tensor n).src = (G.tensor n).src.zipIdx.map Prod.fst :=
    (zipIdx_map_fst 0 _).symm
  conv_rhs => rw [hfst, filterMap_map]
  refine filterMap_congr fun ⟨src, j⟩ hj => ?_
  have hget := mk_mem_zipIdx_iff_getElem?.mp hj
  cases src with
  | none => rfl
  | some p => simp [nodeAlloc, hget]

theorem initNodes_right (hsame : SameTopology G H f) {nodes : List ℕ} (h : Right G f s spots done)
    (hinit : (nodes.map fun n => (f n, nodeAlloc B G s n)).foldlM (initNode H) spots =
      some spots') : Right G f s spots' fun u => done u ∨ u ∈ nodes := by
  induction nodes generalizing spots done with
  | nil =>
    cases hinit
    exact h.imp fun t ht => ht.resolve_right not_mem_nil
  | cons n nodes ih =>
    obtain ⟨spots₂, hfirst, hrest⟩ := Option.bind_eq_some_iff.mp hinit
    obtain ⟨spots₁, hsources, hnode⟩ := Option.bind_eq_some_iff.mp hfirst
    rw [sourceSlots_eq hsame] at hsources
    have h₁ := (initTensors_right hsame h hsources).imp fun u hu => Or.inl hu
    refine (ih (initTensor_right hsame h₁ hnode) hrest).imp fun u hu => ?_
    rw [mem_cons, ← or_assoc] at hu
    exact hu

/-- A planned tensor that fits its slot. -/
theorem allocSize_le_of_slot (nBuffers : ℕ) (hsame : SameTopology G H f) (h : Planned G t)
    (hslot : nodeNeedsRealloc B H nBuffers (f t) (tensorAlloc B G s t) = true) :
    B.allocSize (B.bufts (s.spot t).1) (H.tensor (f t)).layout ≤
      B.allocSize (B.bufts (s.spot t).1) (G.tensor t).layout := by
  have hH := hsame.planned.mpr h
  rw [nodeNeedsRealloc, tensorAlloc_planned h, hH.1, hH.2] at hslot
  dsimp only at hslot
  split at hslot
  case isTrue hnever => cases hnever
  case isFalse =>
    split at hslot
    case isTrue => cases hslot
    case isFalse => exact of_decide_eq_true hslot

/-- What the check of a plan that is kept has established. -/
theorem slots_of_kept {nBuffers : ℕ} (hsame : SameTopology G H f) (hkept : needsRealloc B H nBuffers
      { nodeAllocs := G.nodes.map (nodeAlloc B G s)
        leafAllocs := G.leafs.map (tensorAlloc B G s) } = false) (hn : n ∈ G.nodes) :
    nodeNeedsRealloc B H nBuffers (f n) (tensorAlloc B G s n) = true := by
  rw [needsRealloc, Bool.or_eq_false_iff] at hkept
  have hall := hkept.2
  rw [hsame.nodes, zip_map', any_eq_false] at hall
  have := hall (f n, nodeAlloc B G s n) (mem_map.mpr ⟨n, hn, rfl⟩)
  rw [Bool.or_eq_true, not_or, Bool.not_eq_true, Bool.not_eq_false'] at this
  exact this.1

/-- Placing a graph of the same topology by the slots of a plan. -/
theorem fits_of_init (hsame : SameTopology G H f)
    (hleafs : (H.leafs.zip (G.leafs.map (tensorAlloc B G s))).foldlM (initTensor H)
      (fun _ => none) = some spots)
    (hnodes : (H.nodes.zip (G.nodes.map (nodeAlloc B G s))).foldlM (initNode H) spots = some spots')
    (hsize : ∀ t, Planned G t → t ∈ G.leafs ∨ t ∈ G.nodes →
      B.allocSize (B.bufts (s.spot t).1) (H.tensor (f t)).layout ≤
        B.allocSize (B.bufts (s.spot t).1) (G.tensor t).layout) :
    Fits B G H f s.spot spots'.spot := by
  rw [hsame.leafs, zip_map'] at hleafs
  rw [hsame.nodes, zip_map'] at hnodes
  have h₀ : Right G f s (fun _ => none) fun _ => False :=
    ⟨fun _ _ h => (by cases h), fun _ h => h.elim⟩
  have h := initNodes_right hsame (initTensors_right hsame h₀ hleafs) hnodes
  refine ⟨fun t hplanned hknown => ?_, hsize⟩
  obtain ⟨x, hx⟩ := Option.ne_none_iff_exists'.mp (h.given t (hknown.imp_left Or.inr) hplanned)
  rw [Spots.spot, hx, h.right t x hx]
  rfl

end Init

/-! ## Keeping a plan -/

section Keep

variable {B : Backend} {G H : Graph} {nBuffers : ℕ} {allocs allocs' : Allocs} {spots : Spots}
  {β : Type u}

/-- The plan that is kept suits the graph: it was made for a graph of the same topology, and the
leafs fit into their slots, too. -/
structure Suits (B : Backend) (nBuffers : ℕ) (G H : Graph) (allocs : Allocs) : Prop where
  inputs : InputsApart G
  outputs : OutputsKept G
  same : ∃ f, SameTopology G H f
  leafs : ∀ leaf ∈ H.leafs.zip allocs.leafAllocs, nodeNeedsRealloc B H nBuffers leaf.1 leaf.2 = true

end Keep

/-! ## Two graphs of equal sizes -/

/-- A leaf `x`, and `a = f(x)`, `b = g(a)` and `c = h(b, b)` or `c = h(b, x)`. -/
def fork (usesLeaf : Bool) : Graph where
  tensor
    | 0 => byte .none [] none false
    | 1 => byte (.other 0) [0] none false
    | 2 => byte (.other 1) [1] none false
    | 3 => byte (.other 2) [2, if usesLeaf then 0 else 2] none true
    | _ => byte .none [] none false
  nodes := [1, 2, 3]
  leafs := [0]

theorem fork_viewSrc (usesLeaf : Bool) (t : ℕ) : ((fork usesLeaf).tensor t).viewSrc = none := by
  rcases t with _ | _ | _ | _ | t <;> rfl

theorem fork_wellFormed (usesLeaf : Bool) : (fork usesLeaf).WellFormed bytes where
  nodup := by cases usesLeaf <;> decide
  leaf_node := by cases usesLeaf <;> decide
  leaf_op := by cases usesLeaf <;> decide
  base t v h := by cases (fork_viewSrc usesLeaf t).symm.trans h
  inside t v h := by cases (fork_viewSrc usesLeaf t).symm.trans h
  external t v h := by cases (fork_viewSrc usesLeaf t).symm.trans h
  view_op t h := by
    rcases t with _ | _ | _ | _ | t <;> cases h
  source before node after h := forall_split (P := fun before node =>
    ∀ s ∈ ((fork usesLeaf).tensor node).sources, ((fork usesLeaf).tensor s).data ≠ none ∨
      ((fork usesLeaf).tensor s).viewSrc = none ∧ (s ∈ (fork usesLeaf).leafs ∨ s ∈ before) ∨
      ((fork usesLeaf).tensor s).op.isView = true ∧ s ∈ before)
    (by cases usesLeaf <;> decide) before node after h
  viewed _ node _ _ v h := by cases (fork_viewSrc usesLeaf node).symm.trans h
  known t v _ h := by cases (fork_viewSrc usesLeaf t).symm.trans h

theorem fork_inputsApart (usesLeaf : Bool) : InputsApart (fork usesLeaf) := by
  intro before n after _ _ hinput
  rcases n with _ | _ | _ | _ | n <;> cases hinput

theorem fork_outputsKept (usesLeaf : Bool) : OutputsKept (fork usesLeaf) := by
  intro t _ _ r hview
  cases (fork_viewSrc usesLeaf t).symm.trans hview

/-- The plan that is made for a fork. -/
def forkAllocs (usesLeaf : Bool) : Allocs :=
  (reserveN bytes (fork usesLeaf) none none).get (by cases usesLeaf <;> decide +kernel)

theorem forkAllocs_eq (usesLeaf : Bool) :
    reserveN bytes (fork usesLeaf) none none = some (forkAllocs usesLeaf) :=
  (Option.some_get _).symm

/-- What a fork gets from the plan of the fork whose `c` does not use `x`. -/
def forkSpots (usesLeaf : Bool) : Allocs × Spots :=
  (allocGraph bytes (fork usesLeaf) 1 (forkAllocs false)).get (by cases usesLeaf <;> decide +kernel)

theorem forkSpots_eq (usesLeaf : Bool) :
    allocGraph bytes (fork usesLeaf) 1 (forkAllocs false) = some (forkSpots usesLeaf) :=
  (Option.some_get _).symm

end ExpertPin.Galloc
