import ExpertPin.Reload.Operations

/-!
# A reload that fails

When `reload_tensor` returns `false` the tensor should be as it was.  The checks change
nothing, and a tensor that goes back to its snapshot is always reloaded.  Elsewhere the type
is changed before the file is read, and the old buffer is given up before there is a new
one, so that it is the outcome of the later steps that decides (`reload_atomic_iff`).
-/

namespace ExpertPin.Reload

open Ggml
open Function
open Bool

namespace Model

variable {m m' m'' : Model} {env : Env}

/-! ## Frames -/

/-- The parts of tensors may change, and nothing else that matters here. -/
structure SameTensors (m m' : Model) : Prop where
  tensorsByName : m'.tensorsByName = m.tensorsByName
  tensors : m'.tensors = m.tensors
  sources : m'.sources = m.sources
  allocs : m'.allocs = m.allocs

theorem SameTensors.refl (m : Model) : m.SameTensors m := ⟨rfl, rfl, rfl, rfl⟩

theorem SameTensors.trans (h : m.SameTensors m') (h' : m'.SameTensors m'') : m.SameTensors m'' where
  tensorsByName := h'.tensorsByName.trans h.tensorsByName
  tensors := h'.tensors.trans h.tensors
  sources := h'.sources.trans h.sources
  allocs := h'.allocs.trans h.allocs

theorem sameTensors_setSplit (m : Model) (s : ℕ) (f : Split → Split) :
    m.SameTensors (m.setSplit s f) := ⟨rfl, rfl, rfl, rfl⟩

theorem sameTensors_setExtra (m : Model) (e : ℕ) (f : SplitTensor → SplitTensor) :
    m.SameTensors (m.setExtra e f) := ⟨rfl, rfl, rfl, rfl⟩

theorem sameTensors_cutSplits (m : Model) (prev : Int64) (splits : List (Option ℕ))
    (bounds : List Int64) : m.SameTensors (m.cutSplits prev splits bounds).2 := by
  induction m, prev, splits, bounds using cutSplits.induct with
  | case1 m prev splits bound bounds ih => exact ih
  | case2 m prev s splits bound bounds hle ih =>
    rw [cutSplits, if_pos hle]
    exact ih
  | case3 m prev s splits bound bounds hle m' ih =>
    rw [cutSplits, if_neg hle]
    exact (sameTensors_setSplit m s _).trans ih
  | case4 m prev splits bounds hnone hsome =>
    have hstop : m.cutSplits prev splits bounds = (splits, m) := by
      cases splits with
      | nil => rfl
      | cons split splits =>
        cases bounds with
        | nil => cases split with
          | none => rfl
          | some s => rfl
        | cons bound bounds => cases split with
          | none => exact absurd rfl (hnone splits bound bounds rfl)
          | some s => exact absurd rfl (hsome s splits bound bounds rfl)
    rw [hstop]
    exact .refl m

theorem sameTensors_recutSplits (m : Model) (e : ℕ) (bs ne : Int64) :
    m.SameTensors (m.recutSplits e bs ne) := by
  unfold recutSplits
  exact .trans (sameTensors_cutSplits m 0 _ _) (sameTensors_setExtra _ e _)

theorem sameTensors_retypeSplits (env : Env) (type : Int32) (n : ℕ) (m : Model)
    (splits : List (Option ℕ)) : m.SameTensors (retypeSplits env type n m splits) := by
  induction splits generalizing m with
  | nil => exact .refl m
  | cons split splits ih =>
    cases split with
    | none => exact ih m
    | some s => exact (sameTensors_setSplit m s _).trans (ih _)

/-! ## Changing the type -/

/-- A tensor with another type. -/
def retyped (env : Env) (t : Tensor) (type : Int32) : Tensor :=
  { t with type, nb := strides (env.traits type) (nDims t.ne) t.ne }

/-- A tensor is changed, its parts too, and nothing else that matters here. -/
structure Changed (m : Model) (id : ℕ) (t : Tensor) (m' : Model) : Prop where
  tensorsByName : m'.tensorsByName = m.tensorsByName
  tensors : m'.tensors = update m.tensors id t
  sources : m'.sources = m.sources
  allocs : m'.allocs = m.allocs

variable {id : ℕ}

theorem Changed.trans_same {t : Tensor} (h : m.Changed id t m')
    (h' : m'.SameTensors m'') : m.Changed id t m'' where
  tensorsByName := h'.tensorsByName.trans h.tensorsByName
  tensors := h'.tensors.trans h.tensors
  sources := h'.sources.trans h.sources
  allocs := h'.allocs.trans h.allocs

theorem changeSplits_spec {e : ℕ} {type : Int32} {n : ℕ} {ne : Int64} {ok : Bool}
    (h : m.changeSplits env e type n ne = some (ok, m')) : ok = true ∧ m.SameTensors m' := by
  have hcut : m.SameTensors (if 1 < (env.traits type).blckSize ∧ (m.extras e).splitDim = 0 then
      m.recutSplits e (env.traits type).blckSize ne else m) := by
    split
    · exact sameTensors_recutSplits m e _ _
    · exact .refl m
  unfold changeSplits at h
  dsimp only at h
  generalize (if 1 < (env.traits type).blckSize ∧ (m.extras e).splitDim = 0 then
    m.recutSplits e (env.traits type).blckSize ne else m) = m₁ at h hcut
  split at h
  · obtain ⟨rfl, rfl⟩ := Prod.mk.inj (Option.some.inj h)
    exact ⟨rfl, hcut.trans (sameTensors_retypeSplits env type n m₁ _)⟩
  · exact nomatch h

/-- A change of type that returns: it is there, whether there was a context or not. -/
theorem applyTensorTypeChange_spec {type : Int32} {ok : Bool}
    (h : m.applyTensorTypeChange env id type = some (ok, m')) :
    ok = env.init (m.tensors id).name ∧ m.Changed id (if ok then retyped env (m.tensors id) type
        else { m.tensors id with type }) m' := by
  unfold applyTensorTypeChange at h
  dsimp only at h
  by_cases hinit : env.init (m.tensors id).name = true
  · rw [if_neg (not_not_intro hinit)] at h
    by_cases hassert : ¬(0 ≤ type ∧ type < typeCount) ∨ nDims (m.tensors id).ne = 0
    · rw [if_pos hassert] at h
      exact nomatch h
    rw [if_neg hassert] at h
    have hchanged : m.Changed id (retyped env (m.tensors id) type)
        ((m.setTensor id fun t => { t with type }).setTensor id fun t =>
          { t with nb := strides (env.traits type) (nDims t.ne) t.ne }) := by
      refine ⟨rfl, ?_, rfl, rfl⟩
      simp only [setTensor, update_self, update_idem]
      rfl
    split at h
    · obtain ⟨rfl, rfl⟩ := Prod.mk.inj (Option.some.inj h)
      exact ⟨hinit.symm, hchanged⟩
    · obtain ⟨rfl, hsame⟩ := changeSplits_spec h
      exact ⟨hinit.symm, hchanged.trans_same hsame⟩
  · rw [if_pos hinit] at h
    obtain ⟨rfl, rfl⟩ := Prod.mk.inj (Option.some.inj h)
    exact ⟨(eq_false_iff.mpr hinit).symm, ⟨rfl, rfl, rfl, rfl⟩⟩

/-! ## Buffers -/

/-- There is room for a new buffer of a tensor, of the type of the old one or of the
processor. -/
def HasRoom (env : Env) (m : Model) (id : ℕ) : Prop :=
  let type := ((m.tensors id).buffer.map Buffer.type).getD .cpu
  env.alloc m.allocs type = true ∨ (type ≠ .cpu ∧ env.alloc (m.allocs + 1) .cpu = true)

theorem allocBufferFallback_of_room {type : BufferType}
    (h : env.alloc m.allocs type = true ∨ (type ≠ .cpu ∧ env.alloc (m.allocs + 1) .cpu = true)) :
    ∃ buffer allocs, m.allocBufferFallback env type = (some buffer, { m with allocs }) := by
  unfold allocBufferFallback allocBuffer
  by_cases hfirst : env.alloc m.allocs type = true
  · rw [if_pos hfirst]
    exact ⟨_, _, rfl⟩
  · obtain ⟨hcpu, hsecond⟩ := h.resolve_left hfirst
    rw [if_neg hfirst]
    dsimp only
    rw [if_neg hcpu, if_pos hsecond]
    exact ⟨_, _, rfl⟩

theorem allocBufferFallback_of_not_room {type : BufferType} (h : ¬(env.alloc m.allocs type = true ∨
      (type ≠ .cpu ∧ env.alloc (m.allocs + 1) .cpu = true))) :
    ∃ allocs, m.allocBufferFallback env type = (none, { m with allocs }) := by
  obtain ⟨hfirst, hsecond⟩ := not_or.mp h
  unfold allocBufferFallback allocBuffer
  rw [if_neg hfirst]
  dsimp only
  by_cases hcpu : type = .cpu
  · rw [if_pos hcpu]
    exact ⟨_, rfl⟩
  · rw [if_neg hcpu, if_neg fun hroom => hsecond ⟨hcpu, hroom⟩]
    exact ⟨_, rfl⟩

theorem release_eq (m : Model) (state : ReloadState) (buffer : Option Buffer) :
    ∃ freed, m.release state buffer = { m with freed } := by
  cases buffer with
  | none => exact ⟨m.freed, rfl⟩
  | some buffer =>
    by_cases hstate : state = .onOriginal
    · exact ⟨m.freed, if_pos hstate⟩
    · exact ⟨buffer :: m.freed, if_neg hstate⟩

theorem giveUpBuffer_eq (m : Model) (id : ℕ) (state : ReloadState) :
    ∃ freed, m.giveUpBuffer id state =
      { m with tensors := update m.tensors id (m.tensors id).detach, freed } := by
  obtain ⟨freed, hfreed⟩ := m.release_eq state (m.tensors id).buffer
  rw [giveUpBuffer, hfreed]
  exact ⟨freed, rfl⟩

theorem replaceBuffer_of_room (h : m.HasRoom env id) (state : ReloadState) :
    ∃ m', m.replaceBuffer env id state = (true, m') := by
  obtain ⟨freed, hfreed⟩ := m.giveUpBuffer_eq id state
  obtain ⟨buffer, allocs, halloc⟩ := allocBufferFallback_of_room
    (m := { m with tensors := update m.tensors id (m.tensors id).detach, freed }) h
  unfold replaceBuffer
  rw [hfreed]
  dsimp only at halloc ⊢
  rw [halloc]
  exact ⟨_, rfl⟩

theorem replaceBuffer_of_not_room (h : ¬m.HasRoom env id) (state : ReloadState) :
    ∃ freed allocs, m.replaceBuffer env id state = (false, { m with
      tensors := update m.tensors id (m.tensors id).detach, freed, allocs }) := by
  obtain ⟨freed, hfreed⟩ := m.giveUpBuffer_eq id state
  obtain ⟨allocs, halloc⟩ := allocBufferFallback_of_not_room
    (m := { m with tensors := update m.tensors id (m.tensors id).detach, freed }) h
  unfold replaceBuffer
  rw [hfreed]
  dsimp only at halloc ⊢
  rw [halloc]
  exact ⟨freed, allocs, rfl⟩

/-! ## Tensors by name -/

theorem name_of_find {name : String} (h : m.find name = some id) :
    (m.tensors id).name = name := by
  have hname := List.find?_some h
  exact of_decide_eq_true hname

/-- A tensor that keeps its name is still found. -/
theorem find_eq_of_update {name : String} {t : Tensor}
    (hnames : m'.tensorsByName = m.tensorsByName)
    (htensors : m'.tensors = update m.tensors id t) (ht : t.name = (m.tensors id).name) :
    m'.find name = m.find name := by
  have hname : ∀ id', (m'.tensors id').name = (m.tensors id').name := by
    intro id'
    rw [htensors]
    by_cases heq : id' = id
    · rw [heq, update_self, ht]
    · rw [update_of_ne heq]
  unfold find
  rw [hnames]
  congr 1
  funext id'
  rw [hname]

theorem check_spec {name : String} {c : Candidate} (h : m.check env name = some c) :
    m.source name = some c.src ∧ m.find name = some c.id ∧ c.src.originalBuffer.isSome = true := by
  unfold check at h
  simp only [Option.bind_eq_bind, Option.bind_eq_some_iff, guard, Option.pure_def] at h
  obtain ⟨src, hsrc, file, -, -, -, found, -, -, -, id, hid, u, hbuffer, -, -, -, -, -, -, heq⟩ := h
  obtain rfl := Option.some.inj heq
  refine ⟨hsrc, hid, ?_⟩
  by_contra hnone
  rw [if_neg hnone] at hbuffer
  exact nomatch hbuffer

/-! ## The two ways to reload -/

/-- A tensor always goes back to its snapshot. -/
theorem reload_of_returning {name : String} {c : Candidate} (hsource : m.source name = some c.src)
    (hfind : m.find name = some c.id) (hbuffer : c.src.originalBuffer.isSome = true)
    (h : c.returning = true) : ∃ m', c.reload env m name = some (true, m') := by
  unfold Candidate.reload
  cases hextra : (m.tensors c.id).extra with
  | none =>
    dsimp only
    rw [reloadTensorNonSplitPath, if_pos h]
    exact ⟨_, rfl⟩
  | some e =>
    obtain ⟨freed, hgive⟩ := m.giveUpBuffer_eq c.id c.src.state
    have hfind' : (m.giveUpBuffer c.id c.src.state).find name = some c.id := by
      rw [← hfind, hgive]
      exact find_eq_of_update rfl rfl rfl
    have hsource' : (m.giveUpBuffer c.id c.src.state).source name = some c.src := by
      rw [← hsource, hgive]
      rfl
    have hshared : ∃ m', (m.giveUpBuffer c.id c.src.state).reattachSplitTensorToShared name =
        (true, m') := by
      have hnone : c.src.originalBuffer ≠ none := Option.isSome_iff_ne_none.mp hbuffer
      unfold reattachSplitTensorToShared
      rw [hsource', hfind']
      dsimp only
      rw [if_neg hnone]
      split
      · exact ⟨_, rfl⟩
      · exact ⟨_, rfl⟩
    obtain ⟨m', hm'⟩ := hshared
    dsimp only
    rw [reloadTensorSplitPath, if_pos h, name_of_find hfind, hm']
    exact ⟨_, rfl⟩

theorem reload_of_room {name : String} {c : Candidate} {p : Bool × Model}
    (h : ¬c.returning = true) (hroom : m.HasRoom env c.id)
    (hreload : c.reload env m name = some p) : p.1 = true := by
  obtain ⟨m', hreplace⟩ := replaceBuffer_of_room hroom c.src.state
  unfold Candidate.reload at hreload
  cases hextra : (m.tensors c.id).extra with
  | none =>
    rw [hextra] at hreload
    dsimp only at hreload
    rw [reloadTensorNonSplitPath, if_neg h, hreplace] at hreload
    rw [← Option.some.inj hreload]
  | some e =>
    rw [hextra] at hreload
    dsimp only at hreload
    rw [reloadTensorSplitPath, if_neg h, hreplace] at hreload
    obtain ⟨m'', -, heq⟩ := Option.map_eq_some_iff.mp hreload
    rw [← heq]

/-- Without room the tensor is left without a buffer. -/
theorem reload_of_not_room {name : String} {c : Candidate} (h : ¬c.returning = true)
    (hroom : ¬m.HasRoom env c.id) :
    ∃ freed allocs, c.reload env m name = some (false, { m with
      tensors := update m.tensors c.id (m.tensors c.id).detach, freed, allocs }) := by
  obtain ⟨freed, allocs, hreplace⟩ := replaceBuffer_of_not_room hroom c.src.state
  refine ⟨freed, allocs, ?_⟩
  unfold Candidate.reload
  cases hextra : (m.tensors c.id).extra with
  | none =>
    dsimp only
    rw [reloadTensorNonSplitPath, if_neg h, hreplace]
  | some e =>
    dsimp only
    rw [reloadTensorSplitPath, if_neg h, hreplace]

/-! ## Atomicity -/

/-- What there is to see of a tensor: the tensor, its parts by device, and what the reload
has recorded for it and for its siblings. -/
structure View where
  tensor : Option Tensor
  splits : List (Option Split)
  source : Option Source
  siblings : List (Option Source)

def view (m : Model) (name : String) : View where
  tensor := (m.find name).map m.tensors
  splits := (((m.find name).map m.splitsOf).getD []).map fun split => split.map m.splits
  source := m.source name
  siblings := (((m.source name).map Source.siblingNames).getD []).map m.source

/-- When a reload is atomic.  A tensor that passes the checks and does not go back to its
snapshot either keeps its type, and then the file is too short, or there is room for a new
buffer, or there is no old one that could be lost; or it changes its type, and then there is a
context for the strides, the file is long enough for the new type, and there is room. -/
def Survives (env : Env) (m : Model) (name : String) : Prop :=
  ∀ c, m.check env name = some c →
    let t := m.tensors c.id
    c.returning = true ∨ (c.found.type = t.type ∧
        (¬c.reads (m.nbytes env c.id) = true ∨ m.HasRoom env c.id ∨
          (t.buffer = none ∧ t.data = 0))) ∨
      (c.found.type ≠ t.type ∧ env.init t.name = true ∧
        c.reads (Ggml.nbytes env.traits c.found.type t.ne
          (strides (env.traits c.found.type) (nDims t.ne) t.ne)) = true ∧ m.HasRoom env c.id)

/-- Only a tensor that is as before looks as before. -/
theorem eq_of_view_eq {name : String} {t : Tensor} (hfind : m.find name = some id)
    (hnames : m'.tensorsByName = m.tensorsByName)
    (htensors : m'.tensors = update m.tensors id t) (ht : t.name = (m.tensors id).name)
    (h : m'.view name = m.view name) : t = m.tensors id := by
  have htensor := congrArg View.tensor h
  simp only [view, find_eq_of_update hnames htensors ht, hfind, Option.map_some, htensors,
    update_self, Option.some.injEq] at htensor
  exact htensor

theorem detach_eq_iff (t : Tensor) : t.detach = t ↔ t.buffer = none ∧ t.data = 0 := by
  constructor
  · intro h
    exact ⟨(congrArg Tensor.buffer h).symm, (congrArg Tensor.data h).symm⟩
  · rintro ⟨hbuffer, hdata⟩
    rw [Tensor.detach, ← hbuffer, ← hdata]

theorem reloadTensor_of_check {name : String} {c : Candidate} {ok : Bool}
    (hcheck : m.check env name = some c) (h : m.reloadTensor env name = some (ok, m')) :
    ∃ changed m₁, c.changeType env m = some (changed, m₁) ∧
      ((changed = false ∧ ok = false ∧ m' = m₁) ∨ (changed = true ∧
          let need := if c.returning then c.src.originalNbytes else m₁.nbytes env c.id
          (¬c.reads need = true ∧ ok = false ∧ m' = m₁) ∨
            (c.reads need = true ∧ ∃ m₂, c.reload env m₁ name = some (ok, m₂) ∧
              (ok = false → m' = m₂)))) := by
  unfold reloadTensor at h
  rw [hcheck] at h
  dsimp only at h
  cases hchange : c.changeType env m with
  | none =>
    rw [hchange] at h
    exact nomatch h
  | some p =>
    obtain ⟨changed, m₁⟩ := p
    rw [hchange] at h
    refine ⟨changed, m₁, rfl, ?_⟩
    cases changed with
    | false =>
      obtain ⟨rfl, rfl⟩ := Prod.mk.inj (Option.some.inj h)
      exact .inl ⟨rfl, rfl, rfl⟩
    | true =>
      refine .inr ⟨rfl, ?_⟩
      dsimp only at h ⊢
      by_cases hread :
          c.reads (if c.returning then c.src.originalNbytes else m₁.nbytes env c.id) = true
      · rw [if_neg (not_not_intro hread)] at h
        obtain ⟨⟨ok', m₂⟩, hreload, heq⟩ := Option.map_eq_some_iff.mp h
        refine .inr ⟨hread, m₂, ?_⟩
        cases ok' with
        | false =>
          obtain ⟨rfl, rfl⟩ := Prod.mk.inj heq
          exact ⟨hreload, fun _ => rfl⟩
        | true =>
          obtain ⟨rfl, -⟩ := Prod.mk.inj heq
          exact ⟨hreload, fun hfalse => absurd hfalse.symm false_ne_true⟩
      · rw [if_pos hread] at h
        obtain ⟨rfl, rfl⟩ := Prod.mk.inj (Option.some.inj h)
        exact .inl ⟨hread, rfl, rfl⟩

section Cases

variable {name : String} {c : Candidate} {ok : Bool} (hcheck : m.check env name = some c)
  (h : m.reloadTensor env name = some (ok, m'))

include hcheck h

theorem view_eq_of_returning (hreturning : c.returning = true) (hok : ok = false) :
    m'.view name = m.view name := by
  obtain ⟨hsource, hfind, hbuffer⟩ := check_spec hcheck
  obtain ⟨changed, m₁, hchange, hcases⟩ := reloadTensor_of_check hcheck h
  rw [Candidate.changeType, if_pos (.inl hreturning)] at hchange
  obtain ⟨rfl, rfl⟩ := Prod.mk.inj (Option.some.inj hchange)
  rcases hcases with ⟨hchanged, -⟩ | ⟨-, ⟨-, -, rfl⟩ | ⟨-, m₂, hreload, -⟩⟩
  · exact absurd hchanged.symm false_ne_true
  · rfl
  · have hback : ∃ m₃, c.reload env m name = some (true, m₃) :=
      reload_of_returning hsource hfind hbuffer hreturning
    obtain ⟨m₃, hm₃⟩ := hback
    rw [hm₃] at hreload
    obtain ⟨rfl, -⟩ := Prod.mk.inj (Option.some.inj hreload)
    exact absurd hok.symm false_ne_true

/-- With the type that the tensor has, only an allocation fails late. -/
theorem view_eq_iff_of_same_type (hreturning : ¬c.returning = true)
    (htype : c.found.type = (m.tensors c.id).type) :
    (ok = false → m'.view name = m.view name) ↔
      (¬c.reads (m.nbytes env c.id) = true ∨ m.HasRoom env c.id ∨
        ((m.tensors c.id).buffer = none ∧ (m.tensors c.id).data = 0)) := by
  obtain ⟨-, hfind, -⟩ := check_spec hcheck
  obtain ⟨changed, m₁, hchange, hcases⟩ := reloadTensor_of_check hcheck h
  rw [Candidate.changeType, if_pos (.inr htype)] at hchange
  obtain ⟨rfl, rfl⟩ := Prod.mk.inj (Option.some.inj hchange)
  simp only [if_neg hreturning] at hcases
  rcases hcases with ⟨hchanged, -⟩ | ⟨-, ⟨hread, -, rfl⟩ | ⟨hread, m₂, hreload, hm'⟩⟩
  · exact absurd hchanged.symm false_ne_true
  · exact ⟨fun _ => .inl hread, fun _ _ => rfl⟩
  by_cases hroom : m.HasRoom env c.id
  · have hok : ok = true := reload_of_room hreturning hroom hreload
    exact ⟨fun _ => .inr (.inl hroom), fun _ hfalse => absurd (hok.symm.trans hfalse).symm
      false_ne_true⟩
  · obtain ⟨freed, allocs, heq⟩ := reload_of_not_room hreturning hroom
    rw [heq] at hreload
    obtain ⟨rfl, rfl⟩ := Prod.mk.inj (Option.some.inj hreload)
    rw [hm' rfl]
    constructor
    · intro hview
      have hdetach : (m.tensors c.id).detach = m.tensors c.id := by
        refine eq_of_view_eq hfind ?_ ?_ rfl (hview rfl)
        · rfl
        · rfl
      exact .inr (.inr ((detach_eq_iff _).mp hdetach))
    · rintro (hshort | hroom' | hbare)
      · exact absurd hread hshort
      · exact absurd hroom' hroom
      · intro _
        rw [(detach_eq_iff _).mpr hbare, update_eq_self]
        rfl

/-- With another type all that comes after the change of the tensor has to succeed. -/
theorem view_eq_iff_of_other_type (hreturning : ¬c.returning = true)
    (htype : c.found.type ≠ (m.tensors c.id).type) :
    (ok = false → m'.view name = m.view name) ↔ (env.init (m.tensors c.id).name = true ∧
        c.reads (Ggml.nbytes env.traits c.found.type (m.tensors c.id).ne
          (strides (env.traits c.found.type) (nDims (m.tensors c.id).ne) (m.tensors c.id).ne)) =
            true ∧
        m.HasRoom env c.id) := by
  obtain ⟨-, hfind, -⟩ := check_spec hcheck
  obtain ⟨changed, m₁, hchange, hcases⟩ := reloadTensor_of_check hcheck h
  rw [Candidate.changeType, if_neg (not_or.mpr ⟨hreturning, htype⟩)] at hchange
  obtain ⟨hinit, hchanged⟩ := applyTensorTypeChange_spec hchange
  simp only [if_neg hreturning] at hcases
  -- a tensor of the new type never looks as before
  have hnew : ∀ t : Tensor, t.name = (m.tensors c.id).name → t.type = c.found.type →
      m'.tensorsByName = m.tensorsByName → m'.tensors = update m.tensors c.id t →
      ¬m'.view name = m.view name := by
    intro t hname ht hnames htensors hview
    have heq := eq_of_view_eq hfind hnames htensors hname hview
    exact htype (ht.symm.trans (congrArg Tensor.type heq))
  rcases hcases with ⟨hno, rfl, rfl⟩ | ⟨hyes, hcases⟩
  · rw [hno] at hinit hchanged
    refine ⟨fun hview => absurd (hview rfl) (hnew _ ?_ ?_ hchanged.tensorsByName hchanged.tensors),
      fun hall => absurd (hinit.trans hall.1) false_ne_true⟩
    · rfl
    · rfl
  · rw [hyes] at hinit hchanged
    have htensor : m₁.tensors c.id = retyped env (m.tensors c.id) c.found.type := by
      rw [hchanged.tensors, update_self]
      rfl
    have hneed : m₁.nbytes env c.id = Ggml.nbytes env.traits c.found.type (m.tensors c.id).ne
        (strides (env.traits c.found.type) (nDims (m.tensors c.id).ne) (m.tensors c.id).ne) := by
      rw [nbytes, htensor]
      rfl
    have hroom : m₁.HasRoom env c.id ↔ m.HasRoom env c.id := by
      unfold HasRoom
      rw [htensor, hchanged.allocs]
      rfl
    rw [hneed] at hcases
    rcases hcases with ⟨hread, rfl, rfl⟩ | ⟨hread, m₂, hreload, hm'⟩
    · refine ⟨fun hview => absurd (hview rfl)
        (hnew _ ?_ ?_ hchanged.tensorsByName hchanged.tensors),
        fun hall => absurd hall.2.1 hread⟩
      · rfl
      · rfl
    · by_cases hroom₁ : m₁.HasRoom env c.id
      · have hok : ok = true := reload_of_room hreturning hroom₁ hreload
        exact ⟨fun _ => ⟨hinit.symm, hread, hroom.mp hroom₁⟩, fun _ hfalse =>
          absurd (hok.symm.trans hfalse).symm false_ne_true⟩
      · obtain ⟨freed, allocs, heq⟩ := reload_of_not_room hreturning hroom₁
        rw [heq] at hreload
        obtain ⟨rfl, rfl⟩ := Prod.mk.inj (Option.some.inj hreload)
        refine ⟨fun hview => absurd (hview rfl) (hnew (m₁.tensors c.id).detach ?_ ?_ ?_ ?_),
          fun hall => absurd (hroom.mpr hall.2.2) hroom₁⟩
        · rw [htensor]
          rfl
        · rw [htensor]
          rfl
        · rw [hm' rfl]
          exact hchanged.tensorsByName
        · rw [hm' rfl]
          dsimp only
          rw [hchanged.tensors, update_idem]

end Cases

/-- A reload that fails leaves all as it was exactly when it can not fail late. -/
theorem reload_atomic_iff {name : String} {ok : Bool}
    (h : m.reloadTensor env name = some (ok, m')) :
    (ok = false → m'.view name = m.view name) ↔ m.Survives env name := by
  unfold Survives
  cases hcheck : m.check env name with
  | none =>
    unfold reloadTensor at h
    rw [hcheck] at h
    obtain ⟨rfl, rfl⟩ := Prod.mk.inj (Option.some.inj h)
    exact ⟨fun _ c hc => (nomatch hc), fun _ _ => rfl⟩
  | some c =>
    simp only [Option.some.injEq, forall_eq']
    by_cases hreturning : c.returning = true
    · exact ⟨fun _ => .inl hreturning, fun _ => view_eq_of_returning hcheck h hreturning⟩
    by_cases htype : c.found.type = (m.tensors c.id).type
    · rw [view_eq_iff_of_same_type hcheck h hreturning htype]
      constructor
      · exact fun hsame => .inr (.inl ⟨htype, hsame⟩)
      · rintro (hyes | ⟨-, hsame⟩ | ⟨hother, -⟩)
        · exact absurd hyes hreturning
        · exact hsame
        · exact absurd htype hother
    · rw [view_eq_iff_of_other_type hcheck h hreturning htype]
      constructor
      · exact fun hother => .inr (.inr ⟨htype, hother⟩)
      · rintro (hyes | ⟨hsame, -⟩ | ⟨-, hother⟩)
        · exact absurd hyes hreturning
        · exact absurd hsame htype
        · exact hother

/-- A model of one tensor of four floats. -/
def loaded : Model where
  tensorsByName := [0]
  tensors := fun _ =>
    { name := "w", type := 0, ne := fun i => if i = 0 then 4 else 1
      nb := fun i => if i = 0 then 4 else 16, buffer := some ⟨0, .cpu⟩, data := 4096,
      extra := none }
  extras := fun _ => ⟨0, []⟩
  splits := fun _ => ⟨0, fun _ => 0, fun _ => 0, none, 0⟩
  sources := [("w", { path := "model.gguf", lastMtime := 1, lastMtimeNs := 0 })]
  allocs := 1

/-- Its file with the floats of half the size, all of them or the header alone. -/
def halved (complete : Bool) : Env where
  traits := fun type => if type = 0 then ⟨1, 4, 0⟩ else ⟨1, 2, 0⟩
  cuda := false
  file := fun _ => some
    { mtime := 2, mtimeNs := 0
      findTensorMeta := fun _ => some ⟨64, 8, 1, fun i => if i = 0 then 4 else 1⟩
      opens := true, seeks := fun _ => true, reads := fun _ _ => complete }
  init := fun _ => true
  alloc := fun _ _ => true
  base := fun _ => 8192
  initSplit := fun _ _ split => split

/-- A header without its data leaves a tensor of the type of the header. -/
theorem not_reload_atomic : ¬∀ (env : Env) (m : Model) (name : String) (m' : Model),
      (m.snapshotAllReloadTensors env).reloadTensor env name = some (false, m') →
        m'.view name = (m.snapshotAllReloadTensors env).view name := by
  intro hall
  have hrun : ((loaded.snapshotAllReloadTensors (halved false)).reloadTensor (halved false)
      "w").map (fun p => (p.1, (p.2.view "w").tensor.map Tensor.type)) =
        some (false, some 1) := by decide
  obtain ⟨⟨ok, m'⟩, hreload, heq⟩ := Option.map_eq_some_iff.mp hrun
  obtain ⟨rfl, htype⟩ := Prod.mk.inj heq
  rw [hall (halved false) loaded "w" m' hreload] at htype
  exact absurd htype (by decide)

/-- With its data the same file is loaded. -/
theorem survives_loaded :
    (loaded.snapshotAllReloadTensors (halved true)).Survives (halved true) "w" := by
  have hrun : ((loaded.snapshotAllReloadTensors (halved true)).reloadTensor (halved true)
      "w").map Prod.fst = some true := by decide
  obtain ⟨⟨ok, m'⟩, hreload, heq⟩ := Option.map_eq_some_iff.mp hrun
  obtain rfl : ok = true := heq
  exact (reload_atomic_iff hreload).mp fun hfalse => absurd hfalse.symm false_ne_true

end Model

end ExpertPin.Reload
