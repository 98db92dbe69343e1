import ExpertPin.Reload.Model

/-!
# Reloading a tensor

`reload_tensor` first checks the file and the tensor.  What it does then goes through a
change of type, the reading of the file and the allocation of a new buffer, in this order,
or puts the tensor back on the buffer that it had when it was first seen.

The outcome `none` is a failed assertion.
-/

namespace ExpertPin.Reload

open Ggml

namespace Model

variable (env : Env) (m : Model)

/-! ## Snapshots -/

def splitInfo : Option ℕ → SplitInfo
  | none => {}
  | some s =>
    let split := m.splits s
    { ne := split.ne, nb := split.nb, data := split.data, buffer := split.buffer,
      tensor := some s }

/-- `snapshot_tensor_source`. -/
def snapshotTensorSource (id : ℕ) (src : Source) : Source :=
  if src.originalBuffer.isSome then src
  else
    let t := m.tensors id
    { src with
      originalBuffer := t.buffer
      originalData := t.data
      originalNbytes := m.nbytes env id
      originalType := t.type
      originalNe := t.ne
      originalNb := t.nb
      originalExtra := if t.extra.isSome then t.extra else src.originalExtra
      originalSplits :=
        if t.extra.isSome then (m.splitsOf id).map m.splitInfo else src.originalSplits
      siblingNames := src.siblingNames ++ siblings suffixes t.name suffixes
      state := .onOriginal }

def snapshot (name : String) : Model :=
  match m.find name with
  | none => m
  | some id => m.setSource name (m.snapshotTensorSource env id)

/-- `snapshot_all_reload_tensors`: the tensors, and then their siblings. -/
def snapshotAllReloadTensors : Model :=
  if m.snapshotsDone then m
  else
    let names := m.sources.map Prod.fst
    let m := names.foldl (snapshot env) { m with snapshotsDone := true }
    names.foldl (fun m name =>
      (((m.source name).map Source.siblingNames).getD []).foldl (snapshot env) m) m

/-! ## Going back to a snapshot -/

/-- A buffer that is not the one of the snapshot is given back. -/
def release (state : ReloadState) : Option Buffer → Model
  | none => m
  | some buffer => if state = .onOriginal then m else m.free buffer

def reattachSplit (src : Source) (e i : ℕ) (info : SplitInfo) : Model :=
  match (m.extras e).splits[i]? with
  | none => m
  | some split =>
    match split.or info.tensor with
    | none => m
    | some s =>
      let m := m.setExtra e fun extra => { extra with splits := extra.splits.set i (some s) }
      let buffer := (m.splits s).buffer
      let m := if buffer = info.buffer then m else m.release src.state buffer
      m.setSplit s fun _ =>
        { type := src.originalType, ne := info.ne, nb := info.nb, buffer := info.buffer
          data := info.data }

def reattachSplits (src : Source) (e : ℕ) (m : Model) : ℕ → List SplitInfo → Model
  | _, [] => m
  | i, info :: infos => reattachSplits src e (m.reattachSplit src e i info) (i + 1) infos

/-- `reattach_split_tensor_to_shared`. -/
def reattachSplitTensorToShared (name : String) : Bool × Model :=
  match m.source name, m.find name with
  | some src, some id =>
    if src.originalBuffer = none then (false, m)
    else if (m.tensors id).buffer = src.originalBuffer then
      (true, m.setSource name fun src => { src with state := .onOriginal })
    else
      let m := m.release src.state (m.tensors id).buffer
      let m := m.setTensor id fun t =>
        { t with
          buffer := src.originalBuffer
          data := src.originalData
          type := src.originalType
          ne := src.originalNe
          nb := src.originalNb }
      let m := match src.originalExtra with
        | none => m
        | some e =>
          reattachSplits src e (m.setTensor id fun t => { t with extra := some e }) 0
            src.originalSplits
      (true, m.setSource name fun src => { src with state := .onOriginal })
  | _, _ => (false, m)

/-! ## Changing the type -/

/-- The ends of the parts along the first dimension. -/
def bounds (acc : Int64) : List (Option ℕ) → List Int64
  | [] => []
  | split :: splits =>
    let acc := acc + (split.map fun s => (m.splits s).ne 0).getD 0
    acc :: bounds acc splits

/-- All ends but the last at a multiple of a block, and the last at the end of the tensor. -/
def roundBounds (bs ne : Int64) : List Int64 → List Int64
  | [] => []
  | [_] => [ne]
  | bound :: bounds =>
    (if 0 < bound then (bound + bs - 1) / bs * bs else bound) :: roundBounds bs ne bounds

/-- No end is before the one in front of it. -/
def raiseBounds (prev : Int64) : List Int64 → List Int64
  | [] => []
  | bound :: bounds =>
    let bound := if bound < prev then prev else bound
    bound :: raiseBounds bound bounds

/-- The parts between the ends.  A part without rows is dropped. -/
def cutSplits (m : Model) (prev : Int64) : List (Option ℕ) → List Int64 → List (Option ℕ) × Model
  | none :: splits, bound :: bounds =>
    let p := cutSplits m bound splits bounds
    (none :: p.1, p.2)
  | some s :: splits, bound :: bounds =>
    if bound - prev ≤ 0 then
      let p := cutSplits m bound splits bounds
      (none :: p.1, p.2)
    else
      let m := m.setSplit s fun split =>
        { split with ne := Function.update split.ne 0 (bound - prev) }
      let p := cutSplits m bound splits bounds
      (some s :: p.1, p.2)
  | splits, _ => (splits, m)

def recutSplits (e : ℕ) (bs ne : Int64) : Model :=
  let splits := (m.extras e).splits
  let bounds := match roundBounds bs ne (m.bounds 0 splits) with
    | [] => []
    | bound :: bounds => bound :: raiseBounds bound bounds
  let p := m.cutSplits 0 splits bounds
  p.2.setExtra e fun extra => { extra with splits := p.1 }

/-- Each part gets the type, and the strides of it. -/
def retypeSplits (type : Int32) (n : ℕ) (m : Model) : List (Option ℕ) → Model
  | [] => m
  | none :: splits => retypeSplits type n m splits
  | some s :: splits =>
    let m := m.setSplit s fun split =>
      { split with type, nb := strides (env.traits type) n split.ne }
    retypeSplits type n m splits

def sumSplits : List (Option ℕ) → Int64
  | [] => 0
  | none :: splits => sumSplits splits
  | some s :: splits => (m.splits s).ne 0 + sumSplits splits

/-- The parts get the type of the tensor, whose first dimension is `ne`. -/
def changeSplits (e : ℕ) (type : Int32) (n : ℕ) (ne : Int64) : Option (Bool × Model) :=
  let bs := (env.traits type).blckSize
  let m := if 1 < bs ∧ (m.extras e).splitDim = 0 then m.recutSplits e bs ne else m
  let splits := (m.extras e).splits
  let m := retypeSplits env type n m splits
  if m.sumSplits splits = ne then some (true, m) else none

/-- `apply_tensor_type_change`.  The type is changed before anything can fail. -/
def applyTensorTypeChange (id : ℕ) (type : Int32) : Option (Bool × Model) :=
  let t := m.tensors id
  let m := m.setTensor id fun t => { t with type }
  if ¬env.init t.name then some (false, m)
  else if ¬(0 ≤ type ∧ type < typeCount) ∨ nDims t.ne = 0 then none
  else
    let m := m.setTensor id fun t => { t with nb := strides (env.traits type) (nDims t.ne) t.ne }
    match t.extra with
    | none => some (true, m)
    | some e => m.changeSplits env e type (nDims t.ne) (t.ne 0)

/-! ## Siblings -/

structure SiblingJob where
  name : String
  id : ℕ
  extra : ℕ
  needsResync : Bool := true

/-- The dimension along which the parts lie. -/
def dim (extra : SplitTensor) : Fin 4 :=
  if extra.splitDim < 0 then 0 else Fin.ofNat 4 extra.splitDim.toNatClampNeg

/-- The parts of a sibling are others than those of the tensor. -/
def differ (ref sib : SplitTensor) : Bool :=
  (ref.splits.zip sib.splits).any fun p =>
    match p with
    | (some r, some s) => (m.splits s).ne (dim sib) ≠ (m.splits r).ne (dim ref)
    | (none, none) => false
    | _ => true

def siblingJob (ref e : ℕ) (name : String) : Option SiblingJob :=
  match m.find name with
  | none => none
  | some sib =>
    match (m.tensors sib).extra with
    | none => none
    | some e' =>
      if sib = ref ∨ (m.extras e').splits.length ≠ (m.extras e).splits.length ∨
        ¬m.differ (m.extras e) (m.extras e') then none
      else some { name, id := sib, extra := e' }

/-- Phase A: a new buffer, and a sibling without one is left as it is. -/
def detachSibling (job : SiblingJob) : SiblingJob × Model :=
  let old := (m.tensors job.id).buffer
  let state := (m.source job.name).map Source.state
  let m := m.release (state.getD .uninitialized) old
  let m := if old = none then m
    else m.setTensor job.id Tensor.detach
  match m.allocBufferFallback env ((old.map Buffer.type).getD .cpu) with
  | (none, m) => ({ job with needsResync := false }, m)
  | (some buffer, m) =>
    (job, (m.setTensor job.id fun t => { t with buffer := some buffer, data := 1 }).setSource
      job.name fun src => { src with state := .detached })

def detachSiblings (m : Model) : List SiblingJob → List SiblingJob × Model
  | [] => ([], m)
  | job :: jobs =>
    let p := m.detachSibling env job
    let q := detachSiblings p.2 jobs
    (p.1 :: q.1, q.2)

/-- Phase B for the parts of one sibling. -/
def propagate (ref sib : SplitTensor) (m : Model) : List (Option ℕ) → List (Option ℕ) →
    List (Option ℕ) × Model
  | none :: refs, _ :: sibs =>
    let p := propagate ref sib m refs sibs
    (none :: p.1, p.2)
  | some _ :: refs, none :: sibs =>
    let p := propagate ref sib m refs sibs
    (none :: p.1, p.2)
  | some r :: refs, some s :: sibs =>
    let m := m.setSplit s fun split =>
      { split with ne := Function.update split.ne (dim sib) ((m.splits r).ne (dim ref)) }
    let p := propagate ref sib m refs sibs
    (some s :: p.1, p.2)
  | _, sibs => (sibs, m)

/-- The strides of the parts that are left. -/
def restride (type : Int32) (n : ℕ) (m : Model) : List (Option ℕ) → Model
  | [] => m
  | none :: splits => restride type n m splits
  | some s :: splits =>
    let m := m.setSplit s fun split =>
      { split with nb := strides (env.traits type) n split.ne }
    restride type n m splits

def propagateSibling (e : ℕ) (job : SiblingJob) : Option Model :=
  if ¬job.needsResync then some m
  else
    let ref := m.extras e
    let sib := m.extras job.extra
    let p := propagate ref sib m ref.splits sib.splits
    let m := p.2.setExtra job.extra fun extra => { extra with splits := p.1 }
    let t := m.tensors job.id
    if ¬env.init t.name then some m
    else if p.1.any Option.isSome ∧ (¬(0 ≤ t.type ∧ t.type < typeCount) ∨ nDims t.ne = 0) then none
    else some (restride env t.type (nDims t.ne) m p.1)

def propagateSiblings (e : ℕ) (m : Model) : List SiblingJob → Option Model
  | [] => some m
  | job :: jobs => (m.propagateSibling env e job).bind fun m => propagateSiblings e m jobs

/-- Phase C for the parts of one sibling, up to the first allocation that fails. -/
def allocSplits (m : Model) (device : ℕ) : List (Option ℕ) → Bool × Model
  | [] => (true, m)
  | none :: splits => allocSplits m (device + 1) splits
  | some s :: splits =>
    match m.allocBuffer env (.cuda device) with
    | (none, m) => (false, m)
    | (some buffer, m) =>
      let m := m.setSplit s fun split =>
        { split with buffer := some buffer, data := env.base buffer }
      allocSplits m (device + 1) splits

/-- Phase C.  A build without CUDA has no buffer for a part. -/
def allocSiblings (m : Model) : List SiblingJob → Bool × Model
  | [] => (true, m)
  | job :: jobs =>
    if ¬job.needsResync then allocSiblings m jobs
    else if ¬env.cuda then (false, m)
    else
      match m.allocSplits env 0 (m.extras job.extra).splits with
      | (false, m) => (false, m)
      | (true, m) => allocSiblings m jobs

/-- The part on a device is given up, with the buffer of the snapshot kept. -/
def dropSplits (infos : List SplitInfo) (m : Model) (device : ℕ) : List (Option ℕ) → Model
  | [] => m
  | none :: splits => dropSplits infos m (device + 1) splits
  | some s :: splits =>
    let buffer := (m.splits s).buffer
    let original := (infos[device]?).bind SplitInfo.buffer
    let m := if buffer = none then m
      else
        (if buffer = original then m else m.release .detached buffer).setSplit s fun split =>
          { split with buffer := none, data := 0 }
    dropSplits infos m (device + 1) splits

/-- Phase D: a sibling moves to the processor. -/
def fallbackSibling (job : SiblingJob) : Model :=
  if ¬job.needsResync then m
  else
    let src := m.source job.name
    let m := dropSplits ((src.map Source.originalSplits).getD []) m 0 (m.extras job.extra).splits
    let old := (m.tensors job.id).buffer
    let m := m.release ((src.map Source.state).getD .uninitialized) old
    let m := if old = none then m
      else m.setTensor job.id Tensor.detach
    match m.allocBufferFallback env .cpu with
    | (none, m) => m
    | (some buffer, m) =>
      (m.setTensor job.id fun t =>
        { t with buffer := some buffer, data := env.base buffer }).setSource job.name
          fun src => { src with state := .fallbackCpu }

/-- `resync_moe_sibling_splits` of a tensor whose parts are `e`. -/
def resyncMoeSiblingSplits (ref e : ℕ) (name : String) : Option Model :=
  let others := siblings
    [".ffn_up_exps.weight", ".ffn_down_exps.weight", ".ffn_gate_exps.weight"] name suffixes
  if others = [] then some m
  else if (m.source name).any fun src => (m.tensors ref).buffer = src.originalBuffer then
    some (others.foldl (fun m name => (m.reattachSplitTensorToShared name).2) m)
  else
    let jobs := others.filterMap (m.siblingJob ref e)
    if jobs.isEmpty then some m
    else
      let p := m.detachSiblings env jobs
      (propagateSiblings env e p.2 p.1).map fun m =>
        let q := m.allocSiblings env p.1
        if q.1 then q.2 else p.1.foldl (fallbackSibling env) q.2

/-! ## Reloading -/

/-- `ggml_backend_buffer_init_tensor`, as far as the parts go. -/
def initSplits (buffer : Buffer) (m : Model) (device : ℕ) : List (Option ℕ) → Model
  | [] => m
  | none :: splits => initSplits buffer m (device + 1) splits
  | some s :: splits =>
    initSplits buffer (m.setSplit s (env.initSplit buffer device)) (device + 1) splits

/-- The buffer of a tensor is given up. -/
def giveUpBuffer (id : ℕ) (state : ReloadState) : Model :=
  (m.release state (m.tensors id).buffer).setTensor id Tensor.detach

/-- A new buffer of the type of the old one, which is given up first. -/
def replaceBuffer (id : ℕ) (state : ReloadState) : Bool × Model :=
  let type := ((m.tensors id).buffer.map Buffer.type).getD .cpu
  match (m.giveUpBuffer id state).allocBufferFallback env type with
  | (none, m) => (false, m)
  | (some buffer, m) =>
    let m := m.setTensor id fun t => { t with buffer := some buffer, data := env.base buffer }
    (true, initSplits env buffer m 0 (m.splitsOf id))

/-- `reload_tensor_split_path`, whose tensor has the parts `e`. -/
def reloadTensorSplitPath (id e : ℕ) (key : String) (src : Source) (returning : Bool) :
    Option (Bool × Model) :=
  let name := (m.tensors id).name
  if returning then
    match (m.giveUpBuffer id src.state).reattachSplitTensorToShared name with
    | (false, m) => some (false, m)
    | (true, m) =>
      some (true, src.siblingNames.foldl (fun m sib => (m.reattachSplitTensorToShared sib).2) m)
  else
    match m.replaceBuffer env id src.state with
    | (false, m) => some (false, m)
    | (true, m) =>
      (m.resyncMoeSiblingSplits env id e name).map fun m =>
        (true, m.setSource key fun src => { src with state := .detached })

/-- `reload_tensor_non_split_path`. -/
def reloadTensorNonSplitPath (id : ℕ) (key : String) (src : Source) (returning : Bool) :
    Bool × Model :=
  if returning then
    let m := m.release src.state (m.tensors id).buffer
    let m := m.setTensor id fun t =>
      { t with
        buffer := src.originalBuffer
        data := src.originalData
        type := src.originalType
        ne := src.originalNe
        nb := src.originalNb }
    (true, m.setSource key fun src => { src with state := .onOriginal })
  else
    match m.replaceBuffer env id src.state with
    | (false, m) => (false, m)
    | (true, m) => (true, m.setSource key fun src => { src with state := .detached })

/-- What the checks of `reload_tensor` find. -/
structure Candidate where
  src : Source
  file : File
  found : FileTensor
  id : ℕ

/-- The type is the one that the tensor had at first. -/
def Candidate.returning (c : Candidate) : Bool := c.found.type = c.src.originalType

/-- The checks of `reload_tensor`, which come before all that it does. -/
def check (name : String) : Option Candidate := do
  let src ← m.source name
  let file ← env.file src.path
  guard (file.mtime ≠ src.lastMtime ∨ file.mtimeNs ≠ src.lastMtimeNs)
  let found ← file.findTensorMeta name
  guard (file.opens ∧ file.seeks found.offset)
  let id ← m.find name
  guard src.originalBuffer.isSome
  guard (∀ i, (m.tensors id).ne i = found.ne i)
  guard ¬unsupported m name (m.tensors id)
  let c : Candidate := { src, file, found, id }
  guard ¬(c.returning ∧ m.tensorDataInMmap src.originalData)
  return c

/-- The type is changed where it has to be. -/
def Candidate.changeType (c : Candidate) : Option (Bool × Model) :=
  if c.returning ∨ c.found.type = (m.tensors c.id).type then some (true, m)
  else m.applyTensorTypeChange env c.id c.found.type

/-- The file has as many bytes as are needed. -/
def Candidate.reads (c : Candidate) (need : UInt64) : Bool :=
  need ≤ c.found.nbytes ∧ c.file.reads c.found.offset need

def Candidate.reload (c : Candidate) (name : String) : Option (Bool × Model) :=
  match (m.tensors c.id).extra with
  | some e => m.reloadTensorSplitPath env c.id e name c.src c.returning
  | none => some (m.reloadTensorNonSplitPath env c.id name c.src c.returning)

/-- `reload_tensor`. -/
def reloadTensor (name : String) : Option (Bool × Model) :=
  match m.check env name with
  | none => some (false, m)
  | some c =>
    match c.changeType env m with
    | none => none
    | some (false, m) => some (false, m)
    | some (true, m) =>
      let need := if c.returning then c.src.originalNbytes else m.nbytes env c.id
      if ¬c.reads need then some (false, m)
      else
        (c.reload env m name).map fun p =>
          if p.1 then
            (true, p.2.setSource name fun src =>
              { src with lastMtime := c.file.mtime, lastMtimeNs := c.file.mtimeNs })
          else (false, p.2)

end Model

end ExpertPin.Reload
