import ExpertPin.Lib.Records
import ExpertPin.Server.CommonPrefix
import ExpertPin.Lib.Runs

/-!
# Slots in files

A slot is saved in three files: the state of its cells under the name itself, its tokens and its
checkpoints under two names that are made from it.  It can be restored from them in any slot.

The rows of the cells and what is in the JSON of a token list are not looked into: a state has the
raw tokens and the positions of the cells, and a token list is written and read as it is.
-/

namespace ExpertPin.Server.SlotFiles

open Records (Reader bytesOf)

/-- `llama_pos` -/
abbrev Pos := BitVec (8 * 4)

/-- `std::vector<uint8_t>`, with a size that is a `size_t`. -/
abbrev Blob := { bytes : List UInt8 // bytes.length < 256 ^ 8 }

/-- `server_prompt_checkpoint` -/
structure Checkpoint where
  posMin : Pos
  posMax : Pos
  posMinPrompt : Pos
  posMaxPrompt : Pos
  nTokens : BitVec (8 * 8)
  data : Blob
deriving DecidableEq

/-- `std::list<server_prompt_checkpoint>` -/
abbrev Checkpoints := { cs : List Checkpoint // cs.length < 256 ^ 8 }

/-- The part of a slot that is saved.  `cells` has the positions of the cells that are its own. -/
structure Slot where
  tokens : ServerTokens
  cells : List Pos := []
  checkpoints : Checkpoints := ⟨[], by decide⟩
deriving DecidableEq

/-! ## The file of the checkpoints -/

/-- `LLAMA_STATE_SEQ_MAGIC` -/
def stateSeqMagic : ℕ := 0x67677371

/-- `LLAMA_STATE_SEQ_VERSION` -/
def stateSeqVersion : ℕ := 4

/-- A checkpoint in the file.  The number of its tokens is not written. -/
def writeCheckpoint (c : Checkpoint) : List UInt8 :=
  bytesOf 4 c.posMin.toNat ++ (bytesOf 4 c.posMax.toNat ++ (bytesOf 4 c.posMinPrompt.toNat ++
    (bytesOf 4 c.posMaxPrompt.toNat ++ (bytesOf 8 c.data.1.length ++ c.data.1))))

def writeCheckpoints (cs : List Checkpoint) : List UInt8 :=
  bytesOf 4 stateSeqMagic ++ (bytesOf 4 stateSeqVersion ++ (bytesOf 8 cs.length ++
    cs.flatMap writeCheckpoint))

/-- `save_checkpoints_to_file`: without checkpoints the file is not touched. -/
def saveCheckpointsToFile (cs : List Checkpoint) : Option (List UInt8) :=
  if cs = [] then none else some (writeCheckpoints cs)

/-- A size and as many bytes. -/
def readBlob : Reader Blob := do
  let n ← Records.nat 8
  let bytes ← Records.take n
  if h : bytes.length < 256 ^ 8 then return ⟨bytes, h⟩ else failure

/-- The checkpoint at a place in the file.  The number of its tokens has not been set to anything,
and `uninit` is what it happens to be. -/
def readCheckpoint (uninit : ℕ → BitVec (8 * 8)) (i : ℕ) : Reader Checkpoint := do
  let posMin ← Records.word 4
  let posMax ← Records.word 4
  let posMinPrompt ← Records.word 4
  let posMaxPrompt ← Records.word 4
  let data ← readBlob
  return { posMin, posMax, posMinPrompt, posMaxPrompt, nTokens := uninit i, data }

/-- `load_checkpoints_from_file`, for a file that is there. -/
def loadCheckpointsFromFile (uninit : ℕ → BitVec (8 * 8)) : Reader Checkpoints := do
  let magic ← Records.nat 4
  let version ← Records.nat 4
  if magic ≠ stateSeqMagic ∨ version ≠ stateSeqVersion then return ⟨[], by decide⟩
  let count ← Records.nat 8
  let cs ← Records.list (readCheckpoint uninit) 0 count
  if h : cs.length < 256 ^ 8 then return ⟨cs, h⟩ else failure

/-! ## The files -/

/-- What is in a file. -/
inductive Content
  /-- `llama_state_seq_save_file` -/
  | state (tokens : List Token) (cells : List Pos)
  /-- the JSON of a token list -/
  | tokens (tokens : ServerTokens)
  | checkpoints (bytes : List UInt8)
deriving DecidableEq

abbrev Path := Text

/-- ".tokens.json" -/
def tokensPath (f : Path) : Path := f ++ [46, 116, 111, 107, 101, 110, 115, 46, 106, 115, 111, 110]

/-- ".checkpoints" -/
def checkpointsPath (f : Path) : Path :=
  f ++ [46, 99, 104, 101, 99, 107, 112, 111, 105, 110, 116, 115]

abbrev Files := Path → Option Content

/-- What is written when a slot is saved, in order. -/
def written (f : Path) (slot : Slot) : List (Path × Content) :=
  (tokensPath f, .tokens slot.tokens) ::
    ((saveCheckpointsToFile slot.checkpoints.1).toList.map fun bytes =>
      (checkpointsPath f, .checkpoints bytes)) ++
    [(f, .state slot.tokens.tokens slot.cells)]

def Files.write (files : Files) (entries : List (Path × Content)) : Files :=
  entries.foldl (fun files entry path => if path = entry.1 then some entry.2 else files path) files

/-! ## Restoring a slot -/

/-- What the code outside of this file returns when a slot is restored. -/
structure Input where
  /-- the state cannot be read or there is no room for it, before or after the cells of the slot
  have been removed -/
  fails : Option Bool := none
  uninit : ℕ → BitVec (8 * 8) := fun _ => 0
  /-- what is found in a file that is not one of checkpoints -/
  other : Checkpoints := ⟨[], by decide⟩

/-- `llama_state_seq_load_file` fails, before or after the cells of the slot have been removed.  The
file of the checkpoints begins like that of a state. -/
def refusal (nCtx : ℕ) (input : Input) : Option Content → Option Bool
  | some (.state tokens _) =>
    if tokens.length > nCtx then some false else input.fails
  | some (.checkpoints _) => some (input.fails.getD false)
  | some (.tokens _) | none => some false

/-- `resize`, of the tokens and not of the media. -/
def resize (T : ServerTokens) (n : ℕ) : ServerTokens :=
  { T with tokens := T.tokens.take n ++ List.replicate (n - T.tokens.length) 0 }

/-- A slot that cannot be restored. -/
def refuse (slot : Slot) (emptied : Bool) : Slot :=
  { slot with
    tokens := resize slot.tokens 0
    cells := if emptied then [] else slot.cells }

/-- `load_server_tokens_from_file`, after the raw tokens.  What is not JSON cannot be read. -/
def loadServerTokens (nCtx : ℕ) (raw : List Token) (slot : Slot) :
    Option Content → Option ServerTokens
  | none =>
    some { slot.tokens with tokens := raw ++ (resize slot.tokens nCtx).tokens.drop raw.length }
  | some (.tokens T) => some T
  | some _ => none

/-- `load_checkpoints_from_file` -/
def loadCheckpoints (input : Input) (slot : Slot) : Option Content → Checkpoints
  | none => slot.checkpoints
  | some (.checkpoints bytes) =>
    match loadCheckpointsFromFile input.uninit bytes with
    | some (cs, _) => cs
    | none => input.other
  | some _ => input.other

/-- `SERVER_TASK_TYPE_SLOT_RESTORE`: the slot, and whether it has been restored.  Nothing can be
said when a state has no cells, because the first and the last of them are looked at. -/
def restore (nCtx : ℕ) (files : Files) (f : Path) (input : Input) (slot : Slot) :
    Option (Bool × Slot) :=
  match refusal nCtx input (files f) with
  | some emptied => some (false, refuse slot emptied)
  | none =>
    match files f with
    | some (.state raw cells) =>
      if cells = [] then none
      else
        (loadServerTokens nCtx raw slot (files (tokensPath f))).map fun tokens =>
          (true, {
            tokens, cells
            checkpoints := loadCheckpoints input slot (files (checkpointsPath f)) })
    | _ => none

/-! ## The server -/

/-- The slots and the files, and under each name the slot that was saved last.  That is forgotten
when something else is written to its files; the code does not keep it. -/
structure State where
  slots : ℕ → Slot
  files : Files := fun _ => none
  saved : Path → Option Slot := fun _ => none

inductive Op
  /-- whatever a slot does with its tokens, cells and checkpoints -/
  | work (i : ℕ) (slot : Slot)
  | save (i : ℕ) (f : Path)
  | restore (i : ℕ) (f : Path) (input : Input)

namespace State

def setSlot (s : State) (i : ℕ) (slot : Slot) : State :=
  { s with slots := fun j => if j = i then slot else s.slots j }

/-- Some of the files of a name are written. -/
def Overwrites (entries : List (Path × Content)) (f : Path) : Prop :=
  ∃ entry ∈ entries, entry.1 = f ∨ entry.1 = tokensPath f ∨ entry.1 = checkpointsPath f

instance (entries : List (Path × Content)) (f : Path) : Decidable (Overwrites entries f) :=
  inferInstanceAs (Decidable (∃ entry ∈ entries, _ ∨ _ ∨ _))

/-- `SERVER_TASK_TYPE_SLOT_SAVE` -/
def save (s : State) (i : ℕ) (f : Path) : State :=
  let entries := written f (s.slots i)
  { s with
    files := s.files.write entries
    saved := fun g =>
      if g = f then some (s.slots i) else if Overwrites entries g then none else s.saved g }

/-- The steps of a server whose slots have as many tokens as `nCtx` says. -/
inductive Step (nCtx : ℕ) (s : State) : Op → State → Prop
  | work (i : ℕ) (slot : Slot) : Step nCtx s (.work i slot) (s.setSlot i slot)
  | save (i : ℕ) (f : Path) : Step nCtx s (.save i f) (s.save i f)
  | restore {i : ℕ} {f : Path} {input : Input} {answer : Bool} {slot : Slot}
      (h : SlotFiles.restore nCtx s.files f input (s.slots i) = some (answer, slot)) :
      Step nCtx s (.restore i f input) (s.setSlot i slot)

end State

end ExpertPin.Server.SlotFiles

/-!
## What a restored slot has

The tokens and the cells of a slot come back as they were saved.  Its checkpoints do not: the
numbers of their tokens are not in the file, and a slot without checkpoints leaves those that were
saved before it, or those that the restored slot has.  After an error the slot has no tokens, but it
may have cells, chunks of media and checkpoints still.
-/

namespace ExpertPin.Server.SlotFiles

open Records Runs
open List
open Option

/-! ## The file of the checkpoints -/

theorem reads_readBlob (data : Blob) : Reads readBlob (bytesOf 8 data.1.length ++ data.1) data := by
  refine (reads_nat data.2).bind ?_
  refine (reads_take data.1).last ?_
  rw [dif_pos data.2]
  exact reads_pure data

/-- All of a checkpoint is read back but the number of its tokens. -/
theorem reads_readCheckpoint (uninit : ℕ → BitVec (8 * 8)) (c : Checkpoint) (i : ℕ) :
    Reads (readCheckpoint uninit i) (writeCheckpoint c) { c with nTokens := uninit i } := by
  unfold readCheckpoint writeCheckpoint
  refine (reads_word c.posMin).bind ((reads_word c.posMax).bind ((reads_word c.posMinPrompt).bind
    ((reads_word c.posMaxPrompt).bind ?_)))
  exact (reads_readBlob c.data).last (reads_pure _)

/-- Checkpoints with the numbers of tokens that happen to be there. -/
def renumbered (uninit : ℕ → BitVec (8 * 8)) (cs : Checkpoints) : Checkpoints :=
  ⟨cs.1.zipIdx.map fun p => { p.1 with nTokens := uninit p.2 }, by
    rw [List.length_map, List.length_zipIdx]
    exact cs.2⟩

theorem loadCheckpointsFromFile_write (uninit : ℕ → BitVec (8 * 8)) (cs : Checkpoints) :
    loadCheckpointsFromFile uninit (writeCheckpoints cs.1) = some (renumbered uninit cs, []) := by
  have hread : Reads (loadCheckpointsFromFile uninit) (writeCheckpoints cs.1)
      (renumbered uninit cs) := by
    have hmagic : Reads (nat 4) (bytesOf 4 stateSeqMagic) stateSeqMagic := reads_nat (by decide)
    have hversion : Reads (nat 4) (bytesOf 4 stateSeqVersion) stateSeqVersion :=
      reads_nat (by decide)
    have hlist := reads_list (f := fun p => { p.1 with nTokens := uninit p.2 })
      (reads_readCheckpoint uninit) cs.1 0
    refine hmagic.bind (hversion.bind ?_)
    rw [if_neg (not_or.mpr ⟨fun h => h rfl, fun h => h rfl⟩)]
    refine (reads_nat cs.2).bind (hlist.last ?_)
    split
    case isTrue => exact reads_pure _
    case isFalse h => exact absurd (renumbered uninit cs).2 h
  exact hread.eq

/-- The checkpoints are those that were written if and only if the numbers happen to be. -/
theorem renumbered_eq_iff {uninit : ℕ → BitVec (8 * 8)} {cs : Checkpoints} :
    renumbered uninit cs = cs ↔ ∀ p ∈ cs.1.zipIdx, p.1.nTokens = uninit p.2 := by
  have hlist (cs : List Checkpoint) (i : ℕ) :
      (cs.zipIdx i).map (fun p => { p.1 with nTokens := uninit p.2 }) = cs ↔
        ∀ p ∈ cs.zipIdx i, p.1.nTokens = uninit p.2 := by
    induction cs generalizing i with
    | nil => simp
    | cons c cs ih =>
      rw [zipIdx_cons, map_cons, cons.injEq, ih, forall_mem_cons]
      refine and_congr_left fun _ => ?_
      constructor
      · intro h
        rw [← h]
      · intro h
        dsimp only at h ⊢
        rw [← h]
  rw [← hlist cs.1 0]
  exact Subtype.ext_iff

/-! ## What is promised -/

/-- Each token has a cell, the media are among the tokens, and the checkpoints end at cells. -/
structure Slot.Consistent (slot : Slot) : Prop where
  cells : slot.cells.length = slot.tokens.size
  media : ∀ p ∈ slot.tokens.media, p.1 < slot.tokens.size
  checkpoints : ∀ c ∈ slot.checkpoints.1, c.posMax ∈ slot.cells

/-- A slot that is restored is the one that was saved last under the name.  One that is not is
consistent. -/
def State.Keeps (nCtx : ℕ) (s : State) (i : ℕ) (f : Path) (input : Input) : Prop :=
  match restore nCtx s.files f input (s.slots i) with
  | some (true, slot) => ∀ saved, s.saved f = some saved → slot = saved
  | some (false, slot) => slot.Consistent
  | none => s.saved f = none

/-- The checkpoints of a saved slot are found again: there are some, and what happens to be in their
uninitialised numbers is right, or there are none, in no file and not in the slot. -/
def State.CheckpointsSurvive (s : State) (i : ℕ) (f : Path) (input : Input) (saved : Slot) : Prop :=
  (saved.checkpoints.1 ≠ [] ∧ ∀ p ∈ saved.checkpoints.1.zipIdx, p.1.nTokens = input.uninit p.2) ∨
    (saved.checkpoints.1 = [] ∧ match s.files (checkpointsPath f) with
      | none => (s.slots i).checkpoints.1 = []
      | some (.checkpoints _) => False
      | some _ => input.other.1 = [])

/-- What a slot must not have when it cannot be restored, and what must have been saved when it can
be. -/
structure State.Sound (nCtx : ℕ) (s : State) (i : ℕ) (f : Path) (input : Input) : Prop where
  refused : ∀ emptied, refusal nCtx input (s.files f) = some emptied →
    (s.slots i).tokens.media = [] ∧ (s.slots i).checkpoints.1 = [] ∧
      (emptied = false → (s.slots i).cells = [])
  restored : refusal nCtx input (s.files f) = none → ∀ saved, s.saved f = some saved →
    saved.cells ≠ [] ∧ s.CheckpointsSurvive i f input saved

/-- A slot that is refused has no tokens. -/
theorem consistent_refuse {slot : Slot} {emptied : Bool} :
    (refuse slot emptied).Consistent ↔ slot.tokens.media = [] ∧ slot.checkpoints.1 = [] ∧
      (emptied = false → slot.cells = []) := by
  have hsize : (refuse slot emptied).tokens.size = 0 := by
    simp [refuse, resize, ServerTokens.size]
  have hcells : (refuse slot emptied).cells = [] ↔ (emptied = false → slot.cells = []) := by
    cases emptied <;> simp [refuse]
  constructor
  · intro h
    have hnil : (refuse slot emptied).cells = [] :=
      eq_nil_of_length_eq_zero (h.cells.trans hsize)
    refine ⟨eq_nil_iff_forall_not_mem.mpr fun p hp => ?_,
      eq_nil_iff_forall_not_mem.mpr fun c hc => ?_, hcells.mp hnil⟩
    · have hlt := h.media p hp
      rw [hsize] at hlt
      exact Nat.not_lt_zero _ hlt
    · have hmem := h.checkpoints c hc
      rw [hnil] at hmem
      exact not_mem_nil hmem
  · rintro ⟨hmedia, hcheckpoints, hempty⟩
    have hnil := hcells.mpr hempty
    refine ⟨by rw [hnil, hsize, length_nil], ?_, ?_⟩
    · intro p hp
      change p ∈ slot.tokens.media at hp
      rw [hmedia] at hp
      exact absurd hp not_mem_nil
    · intro c hc
      change c ∈ slot.checkpoints.1 at hc
      rw [hcheckpoints] at hc
      exact absurd hc not_mem_nil

/-! ## The files of a run -/

theorem tokensPath_ne (f : Path) : tokensPath f ≠ f := by
  intro h
  have hlength := congrArg length h
  simp [tokensPath] at hlength

theorem checkpointsPath_ne (f : Path) : checkpointsPath f ≠ f := by
  intro h
  have hlength := congrArg length h
  simp [checkpointsPath] at hlength

theorem tokensPath_ne_checkpointsPath (f : Path) : tokensPath f ≠ checkpointsPath f := by
  intro h
  have hsuffix := append_cancel_left h
  simp at hsuffix

/-- What is written last under a name is what is there. -/
theorem write_append_singleton (files : Files) (entries : List (Path × Content)) (path : Path)
    (content : Content) (g : Path) : files.write (entries ++ [(path, content)]) g =
      if g = path then some content else files.write entries g := by
  simp [Files.write]

theorem write_cons (files : Files) (entry : Path × Content) (entries : List (Path × Content)) :
    files.write (entry :: entries) =
      Files.write (fun path => if path = entry.1 then some entry.2 else files path) entries := rfl

theorem write_of_forall_ne {files : Files} {entries : List (Path × Content)} {g : Path}
    (h : ∀ entry ∈ entries, entry.1 ≠ g) : files.write entries g = files g := by
  induction entries generalizing files with
  | nil => rfl
  | cons entry entries ih =>
    rw [write_cons, ih fun entry hentry => h entry (mem_cons_of_mem _ hentry)]
    exact if_neg (h entry mem_cons_self).symm

/-- What is under a name was there before or is written. -/
theorem write_cases {files : Files} {entries : List (Path × Content)} {g : Path} {content : Content}
    (h : files.write entries g = some content) :
    files g = some content ∨ (g, content) ∈ entries := by
  induction entries using reverseRecOn with
  | nil => exact Or.inl h
  | append_singleton entries entry ih =>
    rw [write_append_singleton] at h
    split at h
    case isTrue hg =>
      right
      rw [← some.inj h, hg]
      exact mem_append_right _ mem_cons_self
    case isFalse => exact (ih h).imp_right (mem_append_left _)

/-- What the files of the names that have been saved hold. -/
structure State.Inv (s : State) : Prop where
  checkpoints : ∀ path bytes, s.files path = some (.checkpoints bytes) →
    ∃ cs : Checkpoints, cs.1 ≠ [] ∧ bytes = writeCheckpoints cs.1
  saved : ∀ f slot, s.saved f = some slot →
    s.files f = some (.state slot.tokens.tokens slot.cells) ∧
      s.files (tokensPath f) = some (.tokens slot.tokens) ∧ (slot.checkpoints.1 ≠ [] →
          s.files (checkpointsPath f) = some (.checkpoints (writeCheckpoints slot.checkpoints.1)))

theorem State.Inv.setSlot {s : State} (h : s.Inv) (i : ℕ) (slot : Slot) : (s.setSlot i slot).Inv :=
  ⟨h.checkpoints, h.saved⟩

theorem mem_written {f path : Path} {slot : Slot} {content : Content}
    (h : (path, content) ∈ written f slot) :
    (path = tokensPath f ∧ content = .tokens slot.tokens) ∨
      (path = checkpointsPath f ∧ slot.checkpoints.1 ≠ [] ∧
        content = .checkpoints (writeCheckpoints slot.checkpoints.1)) ∨
      (path = f ∧ content = .state slot.tokens.tokens slot.cells) := by
  rcases mem_append.mp h with h | h
  · rcases mem_cons.mp h with h | h
    · exact Or.inl (Prod.mk.inj h)
    · obtain ⟨bytes, hbytes, heq⟩ := mem_map.mp h
      obtain ⟨rfl, rfl⟩ := Prod.mk.inj heq
      unfold saveCheckpointsToFile at hbytes
      split at hbytes
      case isTrue => exact absurd hbytes (by simp)
      case isFalse hne =>
        obtain rfl : bytes = writeCheckpoints slot.checkpoints.1 := by simpa using hbytes
        exact Or.inr (Or.inl ⟨rfl, hne, rfl⟩)
  · exact Or.inr (Or.inr (Prod.mk.inj (mem_singleton.mp h)))

/-- The files of a name right after a slot is saved under it. -/
theorem write_written (files : Files) (f : Path) (slot : Slot) :
    files.write (written f slot) f = some (.state slot.tokens.tokens slot.cells) ∧
      files.write (written f slot) (tokensPath f) = some (.tokens slot.tokens) ∧
        (slot.checkpoints.1 ≠ [] → files.write (written f slot) (checkpointsPath f) =
          some (.checkpoints (writeCheckpoints slot.checkpoints.1))) := by
  refine ⟨?_, ?_, fun hne => ?_⟩
  · rw [written, write_append_singleton, if_pos rfl]
  · rw [written, write_append_singleton, if_neg (tokensPath_ne f), write_cons]
    refine (write_of_forall_ne fun entry hentry => ?_).trans (if_pos rfl)
    obtain ⟨bytes, -, rfl⟩ := mem_map.mp hentry
    exact (tokensPath_ne_checkpointsPath f).symm
  · rw [written, write_append_singleton, if_neg (checkpointsPath_ne f), saveCheckpointsToFile,
      if_neg hne]
    exact if_pos rfl

theorem State.Inv.save {s : State} (h : s.Inv) (i : ℕ) (f : Path) : (s.save i f).Inv := by
  refine ⟨fun path bytes hbytes => ?_, fun g slot hslot => ?_⟩
  · rcases write_cases hbytes with hbytes | hbytes
    · exact h.checkpoints path bytes hbytes
    · rcases mem_written hbytes with ⟨_, heq⟩ | ⟨_, hne, heq⟩ | ⟨_, heq⟩
      · cases heq
      · cases heq
        exact ⟨(s.slots i).checkpoints, hne, rfl⟩
      · cases heq
  · change (if g = f then some (s.slots i)
      else if Overwrites (written f (s.slots i)) g then none else s.saved g) = some slot at hslot
    split at hslot
    case isTrue hgf =>
      subst hgf
      obtain rfl := some.inj hslot
      exact write_written s.files g (s.slots i)
    case isFalse =>
      split at hslot
      case isTrue => cases hslot
      case isFalse hkept =>
        -- none of the three files is written
        have hne {path : Path} (hpath : path = g ∨ path = tokensPath g ∨ path = checkpointsPath g) :
            s.files.write (written f (s.slots i)) path = s.files path := by
          refine write_of_forall_ne fun entry hentry heq => hkept ⟨entry, hentry, ?_⟩
          rwa [heq]
        obtain ⟨hstate, htokens, hcheckpoints⟩ := h.saved g slot hslot
        refine ⟨(hne (Or.inl rfl)).trans hstate, (hne (Or.inr (Or.inl rfl))).trans htokens, ?_⟩
        exact fun hcs => (hne (Or.inr (Or.inr rfl))).trans (hcheckpoints hcs)

theorem State.Inv.step {nCtx : ℕ} {s s' : State} {op : Op} (h : s.Inv)
    (hstep : State.Step nCtx s op s') : s'.Inv := by
  cases hstep with
  | work i slot => exact h.setSlot i slot
  | save i f => exact h.save i f
  | restore _ => exact h.setSlot _ _

/-! ## What is restored -/

/-- The checkpoints that a restored slot has are those of the saved one just when they survive. -/
theorem loadCheckpoints_eq_iff {s : State} {i : ℕ} {f : Path} {input : Input} {saved : Slot}
    (hinv : s.Inv) (hsaved : s.saved f = some saved) :
    loadCheckpoints input (s.slots i) (s.files (checkpointsPath f)) = saved.checkpoints ↔
      s.CheckpointsSurvive i f input saved := by
  obtain ⟨-, -, hfile⟩ := hinv.saved f saved hsaved
  have hload (cs : Checkpoints) :
      loadCheckpoints input (s.slots i) (some (.checkpoints (writeCheckpoints cs.1))) =
        renumbered input.uninit cs := by
    rw [loadCheckpoints, loadCheckpointsFromFile_write]
  by_cases hnil : saved.checkpoints.1 = []
  · have heq (cs : Checkpoints) : cs = saved.checkpoints ↔ cs.1 = [] := by
      rw [Subtype.ext_iff, hnil]
    rw [heq, State.CheckpointsSurvive, or_iff_right fun h => h.1 hnil, and_iff_right hnil]
    cases hcontent : s.files (checkpointsPath f) with
    | none => rfl
    | some content =>
      cases content with
      | state _ _ => rfl
      | tokens _ => rfl
      | checkpoints bytes =>
        obtain ⟨cs, hne, rfl⟩ := hinv.checkpoints _ bytes hcontent
        refine iff_of_false (fun h => ?_) id
        rw [hload] at h
        exact hne (zipIdx_eq_nil_iff.mp (map_eq_nil_iff.mp h))
  · rw [hfile hnil, hload, renumbered_eq_iff, State.CheckpointsSurvive,
      or_iff_left fun h => hnil h.1, and_iff_right hnil]

/-- What is not refused at first is not refused. -/
theorem restore_ne_refused {nCtx : ℕ} {files : Files} {f : Path} {input : Input} {slot slot' : Slot}
    (h : refusal nCtx input (files f) = none) :
    restore nCtx files f input slot ≠ some (false, slot') := by
  rw [restore, h]
  dsimp only
  split
  case h_1 raw cells _ =>
    split
    case isTrue => exact fun hnone => by cases hnone
    case isFalse =>
      intro hmap
      obtain ⟨tokens, -, heq⟩ := map_eq_some_iff.mp hmap
      cases heq
  case h_2 => exact fun hnone => by cases hnone

/-- With the tokens and cells of a saved slot a slot is that one if its checkpoints are. -/
theorem slot_eq_iff {saved : Slot} {cs : Checkpoints} :
    ({ tokens := saved.tokens, cells := saved.cells, checkpoints := cs } : Slot) = saved ↔
      cs = saved.checkpoints := by
  constructor
  · intro h
    exact congrArg Slot.checkpoints h
  · rintro rfl
    rfl

/-- After any run a slot is restored as it was saved, or refused and consistent, if and only if what
happens to the checkpoints, and what the slot has left, is as it should be. -/
theorem keeps_iff_sound {nCtx : ℕ} {slots : ℕ → Slot} {ops : List Op} {s : State}
    (hrun : Steps (State.Step nCtx) { slots } ops s) (i : ℕ) (f : Path) (input : Input) :
    s.Keeps nCtx i f input ↔ s.Sound nCtx i f input := by
  have hinv : s.Inv := by
    refine hrun.invariant (P := State.Inv) (fun _ _ _ h hstep => h.step hstep) ⟨?_, ?_⟩
    · intro path bytes h
      cases h
    · intro f slot h
      cases h
  cases hrefusal : refusal nCtx input (s.files f) with
  | some emptied =>
    have hrestore : restore nCtx s.files f input (s.slots i) =
        some (false, refuse (s.slots i) emptied) := by
      rw [restore, hrefusal]
    rw [State.Keeps, hrestore]
    refine consistent_refuse.trans ⟨fun h => ⟨?_, ?_⟩, fun h => h.refused emptied hrefusal⟩
    · intro emptied' hemptied'
      obtain rfl := some.inj (hrefusal.symm.trans hemptied')
      exact h
    · intro hnone
      rw [hrefusal] at hnone
      cases hnone
  | none =>
    have hrefused : ∀ emptied, refusal nCtx input (s.files f) = some emptied →
        (s.slots i).tokens.media = [] ∧ (s.slots i).checkpoints.1 = [] ∧
          (emptied = false → (s.slots i).cells = []) := by
      intro emptied hemptied
      rw [hrefusal] at hemptied
      cases hemptied
    cases hsaved : s.saved f with
    | none =>
      refine iff_of_true ?_ ⟨hrefused, fun _ saved h => ?_⟩
      · unfold State.Keeps
        split
        case h_1 =>
          intro saved h
          rw [hsaved] at h
          cases h
        case h_2 slot hrestore => exact absurd hrestore (restore_ne_refused hrefusal)
        case h_3 => exact hsaved
      · rw [hsaved] at h
        cases h
    | some saved =>
      obtain ⟨hstate, htokens, -⟩ := hinv.saved f saved hsaved
      have hrestore : restore nCtx s.files f input (s.slots i) = if saved.cells = [] then none
          else some (true, {
            tokens := saved.tokens, cells := saved.cells
            checkpoints :=
              loadCheckpoints input (s.slots i) (s.files (checkpointsPath f)) }) := by
        rw [restore, hrefusal, hstate, htokens]
        rfl
      have hsound : s.Sound nCtx i f input ↔
          saved.cells ≠ [] ∧ s.CheckpointsSurvive i f input saved := by
        refine ⟨fun h => h.restored hrefusal saved hsaved,
          fun h => ⟨hrefused, fun _ slot hslot => ?_⟩⟩
        obtain rfl := some.inj (hsaved.symm.trans hslot)
        exact h
      rw [hsound, State.Keeps, hrestore]
      by_cases hcells : saved.cells = []
      · rw [if_pos hcells]
        refine iff_of_false (fun h => ?_) fun h => h.1 hcells
        rw [hsaved] at h
        cases h
      · rw [if_neg hcells, and_iff_right hcells, ← loadCheckpoints_eq_iff hinv hsaved]
        refine Iff.trans ⟨fun h => h saved hsaved, fun h saved' hsaved' => ?_⟩ slot_eq_iff
        obtain rfl := some.inj (hsaved.symm.trans hsaved')
        exact h

/-! ## Checkpoints of an earlier save -/

/-- A slot with one token. -/
def oneToken (cs : List Checkpoint) (h : cs.length < 256 ^ 8) : Slot where
  tokens := { hasMtmd := false, tokens := [7], media := [] }
  cells := [0#32]
  checkpoints := ⟨cs, h⟩

def firstCheckpoint : Checkpoint where
  posMin := 0#32
  posMax := 0#32
  posMinPrompt := 0#32
  posMaxPrompt := 0#32
  nTokens := 1#64
  data := ⟨[], by decide⟩

/-- A slot without checkpoints is restored in a slot without checkpoints. -/
theorem keeps_oneToken :
    State.Keeps 8 (State.save { slots := fun _ => oneToken [] (by decide) } 0 [97])
    1 [97] {} := by
  refine (@keeps_iff_sound 8 _ [.save 0 [97]] _ (.single (.save 0 [97])) 1 [97] {}).mpr
    ⟨fun emptied h => ?_, fun _ saved hsaved => ?_⟩
  · cases h
  · obtain rfl := some.inj hsaved
    exact ⟨by decide, Or.inr ⟨rfl, rfl⟩⟩

/-- The checkpoints that are restored are those of the slot that was saved first. -/
theorem not_keeps : ¬∀ (nCtx : ℕ) (slots : ℕ → Slot) (ops : List Op) (s : State),
    Steps (State.Step nCtx) { slots } ops s →
      ∀ (i : ℕ) (f : Path) (input : Input), s.Keeps nCtx i f input := by
  intro h
  have hkeeps := h 8 (fun _ => oneToken [firstCheckpoint] (by decide))
    [.save 0 [97], .work 0 (oneToken [] (by decide)), .save 0 [97]] _
    (.cons (.save 0 [97]) (.cons (.work 0 _) (.single (.save 0 [97])))) 0 [97] {}
  have hslot := hkeeps _ rfl
  exact absurd (congrArg (fun slot : Slot => slot.checkpoints.1.length) hslot) (by decide)

end ExpertPin.Server.SlotFiles
