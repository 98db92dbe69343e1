import Mathlib.Data.List.Infix
import ExpertPin.Ggml.Types

/-!
# Tensors that are reloaded from their files

The model keeps its tensors by name, and a tensor that a backend splits over devices has a
descriptor for each of them.  For every tensor of a file `tensor_reload_sources` holds where
it was loaded from, what it was like when it was first seen, and whether it still is.

The weights themselves are not part of this model: what can be read of a file is, and the
environment says it, as it says which allocations succeed.
-/

namespace ExpertPin.Reload

open Ggml

/-! ## The model -/

/-- The buffer types that the reload tells apart. -/
inductive BufferType where
  | cpu
  | cuda (device : ℕ)
  | other (id : ℕ)
deriving DecidableEq, Repr

structure Buffer where
  id : ℕ
  type : BufferType
deriving DecidableEq, Repr

/-- The part of a tensor that is on one device. -/
structure Split where
  type : Int32
  ne : Fin 4 → Int64
  nb : Fin 4 → UInt64
  buffer : Option Buffer
  /-- An address, and zero if there is none. -/
  data : UInt64

/-- `ggml_split_tensor_t`, with an entry of `splits` for each device. -/
structure SplitTensor where
  splitDim : Int32
  splits : List (Option ℕ)
deriving DecidableEq

structure Tensor where
  name : String
  type : Int32
  ne : Fin 4 → Int64
  nb : Fin 4 → UInt64
  buffer : Option Buffer
  data : UInt64
  extra : Option ℕ
  isView : Bool := false

/-- A tensor without a buffer. -/
def Tensor.detach (t : Tensor) : Tensor := { t with buffer := none, data := 0 }

inductive ReloadState where
  | uninitialized
  | onOriginal
  | detached
  | fallbackCpu
deriving DecidableEq, Repr

structure SplitInfo where
  ne : Fin 4 → Int64 := fun _ => 0
  nb : Fin 4 → UInt64 := fun _ => 0
  data : UInt64 := 0
  buffer : Option Buffer := none
  tensor : Option ℕ := none

/-- `tensor_reload_source`. -/
structure Source where
  path : String
  lastMtime : Int64
  lastMtimeNs : Int64
  originalBuffer : Option Buffer := none
  originalData : UInt64 := 0
  originalType : Int32 := typeCount
  originalNbytes : UInt64 := 0
  originalNe : Fin 4 → Int64 := fun _ => 0
  originalNb : Fin 4 → UInt64 := fun _ => 0
  originalSplits : List SplitInfo := []
  siblingNames : List String := []
  originalExtra : Option ℕ := none
  state : ReloadState := .uninitialized

inductive Arch where
  | bitnet
  | openpangu
  | other
deriving DecidableEq, Repr

structure Model where
  arch : Arch := .other
  khadPretransformed : Bool := false
  /-- The read-only file mappings: where each begins and its size. -/
  mappings : List (UInt64 × UInt64) := []
  tensorsByName : List ℕ
  tensors : ℕ → Tensor
  extras : ℕ → SplitTensor
  splits : ℕ → Split
  sources : List (String × Source)
  snapshotsDone : Bool := false
  /-- The number of allocations that were tried. -/
  allocs : ℕ
  freed : List Buffer := []

/-- A tensor as the header of a file has it. -/
structure FileTensor where
  offset : UInt64
  nbytes : UInt64
  type : Int32
  ne : Fin 4 → Int64

/-- What is found at a path. -/
structure File where
  mtime : Int64
  mtimeNs : Int64
  /-- `gguf_find_tensor_meta`. -/
  findTensorMeta : String → Option FileTensor
  opens : Bool
  seeks : UInt64 → Bool
  /-- So many bytes can be read from an offset. -/
  reads : UInt64 → UInt64 → Bool

structure Env where
  traits : Int32 → TypeTraits
  /-- The build has `GGML_USE_CUDA`. -/
  cuda : Bool
  file : String → Option File
  /-- `ggml_init` gives a context for the strides of a tensor. -/
  init : String → Bool
  /-- An allocation succeeds. -/
  alloc : ℕ → BufferType → Bool
  /-- `ggml_backend_buffer_get_base`. -/
  base : Buffer → UInt64
  /-- What the backend makes of the part on a device of a tensor that gets a buffer. -/
  initSplit : Buffer → ℕ → Split → Split

namespace Model

variable (m : Model)

def setTensor (id : ℕ) (f : Tensor → Tensor) : Model :=
  { m with tensors := Function.update m.tensors id (f (m.tensors id)) }

def setExtra (id : ℕ) (f : SplitTensor → SplitTensor) : Model :=
  { m with extras := Function.update m.extras id (f (m.extras id)) }

def setSplit (id : ℕ) (f : Split → Split) : Model :=
  { m with splits := Function.update m.splits id (f (m.splits id)) }

def setSource (name : String) (f : Source → Source) : Model :=
  { m with sources := m.sources.map fun p => if p.1 = name then (p.1, f p.2) else p }

/-- The first tensor of a name. -/
def find (name : String) : Option ℕ := m.tensorsByName.find? fun id => (m.tensors id).name = name

def source (name : String) : Option Source := m.sources.lookup name

def free (buffer : Buffer) : Model := { m with freed := buffer :: m.freed }

/-- The splits of a tensor, by device. -/
def splitsOf (id : ℕ) : List (Option ℕ) :=
  ((m.tensors id).extra.map fun e => (m.extras e).splits).getD []

/-- The bytes of a tensor. -/
def nbytes (env : Env) (id : ℕ) : UInt64 :=
  Ggml.nbytes env.traits (m.tensors id).type (m.tensors id).ne (m.tensors id).nb

/-- The address of some data is in a mapping. -/
def tensorDataInMmap (data : UInt64) : Bool :=
  data ≠ 0 ∧ ∃ p ∈ m.mappings, p.1 ≤ data ∧ data < p.1 + p.2

/-- Allocation of a buffer: its type is all that decides. -/
def allocBuffer (env : Env) (type : BufferType) : Option Buffer × Model :=
  (if env.alloc m.allocs type then some ⟨m.allocs, type⟩ else none,
    { m with allocs := m.allocs + 1 })

def allocBufferFallback (env : Env) (type : BufferType) : Option Buffer × Model :=
  match m.allocBuffer env type with
  | (some buffer, m) => (some buffer, m)
  | (none, m) => if type = .cpu then (none, m) else m.allocBuffer env .cpu

end Model

/-! ## Names -/

def contains (name part : String) : Bool := part.toList <:+: name.toList

/-- What comes before the first occurrence of `part`. -/
def before (part : List Char) : List Char → Option (List Char)
  | [] => if part = [] then some [] else none
  | c :: cs => if part <+: c :: cs then some [] else (before part cs).map (c :: ·)

/-- The suffixes of the three tensors of the experts of a layer. -/
def suffixes : List String :=
  [".ffn_down_exps.weight", ".ffn_up_exps.weight", ".ffn_gate_exps.weight"]

/-- The names of the siblings of a tensor, in the order of `others`.  The first suffix that
occurs in the name is the one that is replaced. -/
def siblings (others : List String) (name : String) : List String → List String
  | [] => []
  | suffix :: suffixes =>
    match before suffix.toList name.toList with
    | none => siblings others name suffixes
    | some base => (others.filter (· ≠ suffix)).map fun other => String.ofList base ++ other

/-- `hotswap_unsupported_reason` gives one. -/
def unsupported (m : Model) (name : String) (t : Tensor) : Bool :=
  t.isView ∨
    (m.khadPretransformed ∧ (contains name ".attn_k_b.weight" ∨ contains name ".attn_v_b.weight" ∨
      contains name ".attn_kv_b.weight")) ∨
    contains name ".ffn_gate_inp_s." ∨
    (m.arch = .bitnet ∧ 6 < name.toList.length ∧ ".scale".toList <:+ name.toList) ∨
    (m.arch = .openpangu ∧ (contains name "param_sink" ∨ contains name ".attn_kv_a_norm."))

end ExpertPin.Reload
