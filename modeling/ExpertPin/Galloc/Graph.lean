import Mathlib.Data.Fintype.Pi
import ExpertPin.Ggml.Types
import ExpertPin.Galloc.Tallocr

/-!
# Planning the memory of a graph

`ggml_gallocr_alloc_graph_impl` gives every tensor of a graph a buffer and an offset.  It counts
the children and the views of each tensor, walks the nodes in order, and frees a tensor when both
counts reach zero.  A node may take over the memory of a parent that only it still needs.

Tensors are numbers, which stand for their addresses.  What the source reads of a tensor is given by
`Graph.tensor`.
-/

namespace ExpertPin.Galloc

open Ggml (TypeTraits)

/-- The operations the allocator tells apart. -/
inductive Op where
  | none
  | view | reshape | permute | transpose
  | scale | diagMaskZero | diagMaskInf | add | addId | add1 | sub | mul | div | sqr | sqrt | log
  | unary | rope | rmsNorm | softMax
  | other (code : ℕ)
deriving DecidableEq, Repr

/-- `ggml_op_can_inplace`. -/
def Op.canInplace : Op → Bool
  | scale | diagMaskZero | diagMaskInf | add | addId | add1 | sub | mul | div | sqr | sqrt | log
  | unary | rope | rmsNorm | softMax => true
  | none | view | reshape | permute | transpose | other _ => false

/-- `ggml_is_view_op`: the operations that only name memory. -/
def Op.isView : Op → Bool
  | view | reshape | permute | transpose => true
  | _ => false

/-- The type, the dimensions and the strides of a tensor. -/
structure Layout where
  type : Int32
  ne : Fin 4 → Int64
  nb : Fin 4 → UInt64

/-- `ggml_are_same_layout`. -/
def Layout.same (a b : Layout) : Bool :=
  a.type = b.type ∧ ∀ i, a.ne i = b.ne i ∧ a.nb i = b.nb i

theorem Layout.same_iff {a b : Layout} : a.same b = true ↔ a = b := by
  obtain ⟨ta, na, ba⟩ := a
  obtain ⟨tb, nb, bb⟩ := b
  rw [Layout.same, decide_eq_true_iff, Layout.mk.injEq, funext_iff, funext_iff, ← forall_and]

structure Tensor where
  layout : Layout
  op : Op
  src : List (Option ℕ)
  viewSrc : Option ℕ
  viewOffs : ℕ
  /-- The address, when the tensor was allocated before. -/
  data : Option ℕ
  /-- `GGML_TENSOR_FLAG_INPUT`. -/
  input : Bool
  /-- `GGML_TENSOR_FLAG_OUTPUT`. -/
  output : Bool

/-- The sources that are not `NULL`. -/
def Tensor.sources (t : Tensor) : List ℕ := t.src.filterMap id

/-- `ggml_is_view`. -/
def Tensor.isView (t : Tensor) : Bool := t.viewSrc.isSome

structure Graph where
  tensor : ℕ → Tensor
  nodes : List ℕ
  leafs : List ℕ

/-- The buffer types.  What an allocation needs depends on the buffer type and on the layout, and it
is enough for the data of the tensor; the sum with the alignment does not wrap around. -/
structure Backend where
  traits : Int32 → TypeTraits
  /-- The buffer type of a buffer. -/
  bufts : ℕ → ℕ
  alignment : ℕ → ℕ
  allocSize : ℕ → Layout → ℕ
  alignment_pos : ∀ buft, 0 < alignment buft
  nbytes_le : ∀ buft (l : Layout), (Ggml.nbytes traits l.type l.ne l.nb).toNat ≤ allocSize buft l
  allocSize_le : ∀ buft l, allocSize buft l + alignment buft ≤ 2 ^ 64

/-- `struct hash_node`. -/
structure HashNode where
  nChildren : ℤ
  nViews : ℤ
  bufferId : ℕ
  offset : ℕ
  allocated : Bool
deriving DecidableEq, Repr

/-- What planning changes: the values of the hash table, and the allocator of each buffer type.
Buffers of one type share their allocator. -/
structure Gallocr where
  hash : ℕ → HashNode
  tallocs : ℕ → DynTallocr

namespace Gallocr

/-- Change the entry of a tensor. -/
def setHash (s : Gallocr) (t : ℕ) (hn : HashNode) : Gallocr :=
  { s with hash := Function.update s.hash t hn }

def addChildren (s : Gallocr) (t : ℕ) (n : ℤ) : Gallocr :=
  s.setHash t { s.hash t with nChildren := (s.hash t).nChildren + n }

def addViews (s : Gallocr) (t : ℕ) (n : ℤ) : Gallocr :=
  s.setHash t { s.hash t with nViews := (s.hash t).nViews + n }

def setAllocated (s : Gallocr) (t : ℕ) (allocated : Bool) : Gallocr :=
  s.setHash t { s.hash t with allocated }

/-- Record where a tensor is. -/
def setPlace (s : Gallocr) (t bufferId offset : ℕ) : Gallocr :=
  s.setHash t { s.hash t with bufferId, offset }

end Gallocr

section Planning

variable (B : Backend) (G : Graph)

/-- `ggml_gallocr_is_allocated`. -/
def isAllocated (s : Gallocr) (t : ℕ) : Bool := (G.tensor t).data.isSome || (s.hash t).allocated

/-- One turn of the loop that tries to reuse a parent's buffer.  `none` goes on to the next one. -/
def reuseParent (s : Gallocr) (node parent : ℕ) : Option Gallocr :=
  let p := G.tensor parent
  let hn := s.hash parent
  -- if the node's data is external, then we cannot re-use it
  if hn.allocated = false then none
  -- outputs cannot be reused
  else if p.output || p.viewSrc.any (fun v => (G.tensor v).output) then none
  else if (G.tensor node).layout.same p.layout = false then none
  else if hn.nChildren = 1 ∧ hn.nViews = 0 then
    match p.viewSrc with
    | some v =>
      if (s.hash v).nViews = 1 ∧ (s.hash v).nChildren = 0 ∧ (G.tensor v).data = p.data then
        some (((s.setPlace node hn.bufferId hn.offset).setAllocated parent false).setAllocated
          v false)
      else none
    | none => some ((s.setPlace node hn.bufferId hn.offset).setAllocated parent false)
  else none

/-- `ggml_gallocr_allocate_node`. -/
def allocateNode (s : Gallocr) (node bufferId : ℕ) : Option Gallocr :=
  let t := G.tensor node
  if isAllocated G s node || t.isView then some s
  else
    let s := s.setAllocated node true
    let reused := if t.op.canInplace then t.sources.findSome? (reuseParent G s node) else none
    match reused with
    | some s => some s
    | none => do
        let buft := B.bufts bufferId
        let (offset, talloc) ← (s.tallocs buft).alloc (B.allocSize buft t.layout)
        return { s.setPlace node bufferId offset with
          tallocs := Function.update s.tallocs buft talloc }

/-- `ggml_gallocr_free_node`. -/
def freeNode (s : Gallocr) (node : ℕ) : Option Gallocr :=
  let t := G.tensor node
  -- graph outputs are never freed
  if t.output then some s
  else do
    let hn := s.hash node
    let buft := B.bufts hn.bufferId
    let talloc ← (s.tallocs buft).freeTensor hn.offset (B.allocSize buft t.layout)
    return { s.setAllocated node false with tallocs := Function.update s.tallocs buft talloc }

/-- Count a child of a source, and allocate explicit inputs. -/
def countSource (bufferId : ℕ) (s : Gallocr) (src : ℕ) : Option Gallocr :=
  let s := s.addChildren src 1
  if (G.tensor src).input then allocateNode B G s src bufferId else some s

/-- Count the views of what a node looks at.  A node without an operation is only a dependency. -/
def countView (s : Gallocr) (node : ℕ) : Gallocr :=
  match (G.tensor node).viewSrc with
  | some v => if (G.tensor node).op ≠ .none then s.addViews v 1 else s
  | none => s

/-- One turn of the loop that counts children and views. -/
def countNode (s : Gallocr) (node : ℕ × ℕ) : Option Gallocr := do
  let s := countView G s node.1
  let s ← if (G.tensor node.1).input then allocateNode B G s node.1 node.2 else some s
  (G.tensor node.1).sources.foldlM (countSource B G node.2) s

/-- What is left of a parent after one of its children. -/
def updateParent (s : Gallocr) (parent : ℕ) : Option Gallocr :=
  let s := s.addChildren parent (-1)
  if (s.hash parent).nChildren = 0 ∧ (s.hash parent).nViews = 0 then
    match (G.tensor parent).viewSrc with
    | some v =>
      let s := s.addViews v (-1)
      if (s.hash v).nViews = 0 ∧ (s.hash v).nChildren = 0 ∧ (s.hash v).allocated then
        freeNode B G s v
      else some s
    | none => if (s.hash parent).allocated then freeNode B G s parent else some s
  else some s

/-- One turn of the loop that allocates the tensors: the parents, the node, and then the parents
that are not needed any more. -/
def planNode (s : Gallocr) (node : ℕ × ℕ) : Option Gallocr := do
  let sources := (G.tensor node.1).sources
  let s ← sources.foldlM (fun s parent => allocateNode B G s parent node.2) s
  let s ← allocateNode B G s node.1 node.2
  sources.foldlM (updateParent B G) s

/-- `get_node_buffer_id`. -/
def getNodeBufferId (ids : Option (ℕ → ℕ)) (i : ℕ) : ℕ :=
  match ids with
  | some ids => ids i
  | none => 0

/-- The tensors with the buffers they are assigned to. -/
def withBuffers (tensors : List ℕ) (ids : Option (ℕ → ℕ)) : List (ℕ × ℕ) :=
  tensors.zipIdx.map fun t => (t.1, getNodeBufferId ids t.2)

/-- Empty hash tables and allocators that were reset. -/
def start : Gallocr :=
  { hash := fun _ =>
  { nChildren := 0, nViews := 0, bufferId := 0, offset := 0, allocated := false }
    tallocs := fun buft => DynTallocr.reset (B.alignment buft) }

/-- `ggml_gallocr_alloc_graph_impl`, as `ggml_gallocr_reserve_n` calls it. -/
def allocGraphImpl (nodeBufferIds leafBufferIds : Option (ℕ → ℕ)) : Option Gallocr := do
  let nodes := withBuffers G.nodes nodeBufferIds
  let leafs := withBuffers G.leafs leafBufferIds
  let s ← leafs.foldlM (fun s leaf => allocateNode B G s leaf.1 leaf.2) (start B)
  let s ← nodes.foldlM (countNode B G) s
  nodes.foldlM (planNode B G) s

end Planning

end ExpertPin.Galloc
