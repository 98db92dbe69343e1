import Mathlib.Data.List.Basic
import Mathlib.Order.Nat
import Mathlib.Algebra.GroupWithZero.Nat

/-!
# The dynamic tensor allocator

`ggml_dyn_tallocr` hands out offsets of a buffer that does not exist yet: it keeps the free blocks
in an array and remembers how far the buffer was used.  What the blocks mean is the set of the free
offsets (`Free`), and a call is described by what it does to that set.

The aborts of the source are `none`: no block is large enough, or the array of blocks is full.
-/

namespace ExpertPin.Galloc

open List

/-- `SIZE_MAX`. -/
def sizeMax : ℕ := 2 ^ 64 - 1

/-- `MAX_FREE_BLOCKS`. -/
def maxFreeBlocks : ℕ := 256

/-- `aligned_offset` of a buffer at address zero, which a sum of type `size_t` may wrap around. -/
def alignedOffset (offset alignment : ℕ) : ℕ :=
  (offset + (alignment - offset % alignment) % alignment) % 2 ^ 64

structure FreeBlock where
  offset : ℕ
  size : ℕ
deriving DecidableEq, Repr

structure DynTallocr where
  alignment : ℕ
  freeBlocks : List FreeBlock
  maxSize : ℕ
deriving DecidableEq, Repr

namespace DynTallocr

/-- `ggml_dyn_tallocr_reset`, as it leaves an allocator of this alignment. -/
def reset (alignment : ℕ) : DynTallocr :=
  { alignment, freeBlocks := [{ offset := 0, size := sizeMax / 2 }], maxSize := 0 }

/-- One turn of the loop for the best fit: the block chosen so far and its size. -/
def fit (size : ℕ) (best : Option ℕ × ℕ) (block : FreeBlock × ℕ) : Option ℕ × ℕ :=
  if size ≤ block.1.size ∧ block.1.size ≤ best.2 then (some block.2, block.1.size) else best

/-- The smallest block that is large enough, of all but the last one. -/
def bestFit (size : ℕ) (blocks : List FreeBlock) : Option ℕ :=
  (blocks.dropLast.zipIdx.foldl (fit size) (none, sizeMax)).1

/-- The block to allocate from.  The last one is the last resort. -/
def choose (size : ℕ) (blocks : List FreeBlock) : Option ℕ :=
  match bestFit size blocks with
  | some i => some i
  | none =>
    match blocks.getLast? with
    | none => none
    | some last => if size ≤ last.size then some (blocks.length - 1) else none

/-- Shorten a block from below, and remove it when nothing is left. -/
def take (size i : ℕ) (block : FreeBlock) (blocks : List FreeBlock) : List FreeBlock :=
  if block.size - size = 0 then blocks.eraseIdx i
  else blocks.set i { offset := block.offset + size, size := block.size - size }

/-- `ggml_dyn_tallocr_alloc`. -/
def alloc (alloc : DynTallocr) (size : ℕ) : Option (ℕ × DynTallocr) := do
  let size := alignedOffset size alloc.alignment
  let i ← choose size alloc.freeBlocks
  let block ← alloc.freeBlocks[i]?
  return (block.offset, { alloc with
    freeBlocks := take size i block alloc.freeBlocks
    maxSize := max alloc.maxSize (block.offset + size) })

/-- Grow a block upwards and merge it with the next block when they touch. -/
def growUp (block : FreeBlock) (size : ℕ) : List FreeBlock → List FreeBlock
  | [] => [{ block with size := block.size + size }]
  | next :: rest =>
    if block.offset + (block.size + size) = next.offset then
      { block with size := block.size + size + next.size } :: rest
    else { block with size := block.size + size } :: next :: rest

/-- The loop that looks for a block to merge with.  `before` are the blocks already passed, the
last one first. -/
def merge (offset size : ℕ) (before : List FreeBlock) : List FreeBlock → Option (List FreeBlock)
  | [] => none
  | block :: rest =>
    if block.offset + block.size = offset then
      some (before.reverse ++ growUp block size rest)
    else if offset + size = block.offset then
      match before with
      | previous :: passed =>
        if previous.offset + previous.size = offset then
          some (passed.reverse ++
            { previous with size := previous.size + (block.size + size) } :: rest)
        else some (before.reverse ++ { offset, size := block.size + size } :: rest)
      | [] => some ({ offset, size := block.size + size } :: rest)
    else merge offset size (block :: before) rest

/-- Insert a block before the first one that does not begin below it. -/
def insert (block : FreeBlock) (blocks : List FreeBlock) : List FreeBlock :=
  blocks.takeWhile (·.offset < block.offset) ++ block :: blocks.dropWhile (·.offset < block.offset)

/-- `ggml_dyn_tallocr_free_tensor`. -/
def freeTensor (alloc : DynTallocr) (offset size : ℕ) : Option DynTallocr :=
  let size := alignedOffset size alloc.alignment
  match merge offset size [] alloc.freeBlocks with
  | some blocks => some { alloc with freeBlocks := blocks }
  | none =>
    if alloc.freeBlocks.length < maxFreeBlocks then
      some { alloc with freeBlocks := insert { offset, size } alloc.freeBlocks }
    else none

end DynTallocr

/-! ## The free offsets -/

/-- The offset lies in a range. -/
def InRange (offset size x : ℕ) : Prop := offset ≤ x ∧ x < offset + size

/-- The offset lies in a block. -/
def FreeBlock.Has (block : FreeBlock) (x : ℕ) : Prop := InRange block.offset block.size x

/-- No offset lies in two blocks. -/
def Separate (blocks : List FreeBlock) : Prop :=
  blocks.Pairwise fun b c => ∀ x, b.Has x → ¬ c.Has x

/-- Some block has the offset. -/
def Covers (blocks : List FreeBlock) (x : ℕ) : Prop := ∃ b ∈ blocks, b.Has x

theorem le_alignedOffset {size alignment : ℕ} (hpos : 0 < alignment)
    (h : size + alignment ≤ 2 ^ 64) : size ≤ alignedOffset size alignment := by
  have hpad : (alignment - size % alignment) % alignment < alignment := Nat.mod_lt _ hpos
  rw [alignedOffset, Nat.mod_eq_of_lt (lt_of_lt_of_le (Nat.add_lt_add_left hpad size) h)]
  exact Nat.le_add_right _ _

section Blocks

variable {block : FreeBlock} {blocks pre post : List FreeBlock} {x : ℕ}

@[simp] theorem not_covers_nil : ¬ Covers [] x := by
  rintro ⟨_, hmem, _⟩
  cases hmem

@[simp] theorem covers_cons : Covers (block :: blocks) x ↔ block.Has x ∨ Covers blocks x :=
  exists_mem_cons_iff _ _ _

@[simp] theorem covers_append : Covers (pre ++ post) x ↔ Covers pre x ∨ Covers post x := by
  simp only [Covers, mem_append, or_and_right, exists_or]

theorem separate_cons :
    Separate (block :: blocks) ↔ (∀ x, block.Has x → ¬ Covers blocks x) ∧ Separate blocks := by
  rw [Separate, pairwise_cons]
  refine and_congr_left fun _ => ⟨?_, ?_⟩
  · rintro h x hx ⟨c, hc, hcx⟩
    exact h c hc x hx hcx
  · exact fun h c hc x hx hcx => h x hx ⟨c, hc, hcx⟩

/-- A block of the array may be looked at first: the order does not matter. -/
theorem separate_middle : Separate (pre ++ block :: post) ↔
      (∀ x, block.Has x → ¬ Covers (pre ++ post) x) ∧ Separate (pre ++ post) := by
  rw [← separate_cons]
  exact perm_middle.pairwise_iff fun h x hx hy => h x hy hx

theorem covers_middle : Covers (pre ++ block :: post) x ↔ block.Has x ∨ Covers (pre ++ post) x := by
  rw [covers_append, covers_cons, covers_append, or_left_comm]

end Blocks

namespace DynTallocr

/-- The offset is free. -/
def Free (alloc : DynTallocr) (x : ℕ) : Prop := Covers alloc.freeBlocks x

/-! ## Allocating -/

section Alloc

variable {alloc alloc' : DynTallocr} {block : FreeBlock} {blocks pre post : List FreeBlock}
  {size i offset x : ℕ}

/-- The loop keeps a block that is large enough. -/
theorem foldl_fit {l : List (FreeBlock × ℕ)} {best : Option ℕ × ℕ}
    (h : (l.foldl (fit size) best).1 = some i) :
    best.1 = some i ∨ ∃ block, (block, i) ∈ l ∧ size ≤ block.size := by
  induction l generalizing best with
  | nil => exact Or.inl h
  | cons head tail ih =>
    rcases ih h with h | ⟨block, hmem, hsize⟩
    · rw [fit] at h
      split at h
      case isTrue hfit =>
        cases h
        exact Or.inr ⟨head.1, mem_cons_self, hfit.1⟩
      case isFalse => exact Or.inl h
    · exact Or.inr ⟨block, mem_cons_of_mem _ hmem, hsize⟩

/-- The chosen block is large enough. -/
theorem choose_spec (h : choose size blocks = some i) :
    ∃ block, blocks[i]? = some block ∧ size ≤ block.size := by
  rw [choose] at h
  split at h
  case h_1 j hbest =>
    cases h
    rcases foldl_fit hbest with h | ⟨block, hmem, hsize⟩
    · cases h
    · refine ⟨block, ?_, hsize⟩
      have hget := mk_mem_zipIdx_iff_getElem?.mp hmem
      rw [getElem?_dropLast] at hget
      split at hget
      · exact hget
      · cases hget
  case h_2 =>
    split at h
    case h_1 => cases h
    case h_2 last hlast =>
      split at h
      case isTrue hsize =>
        cases h
        exact ⟨last, by rwa [← getLast?_eq_getElem?], hsize⟩
      case isFalse => cases h

theorem take_middle (h : pre.length = i) : take size i block (pre ++ block :: post) =
      pre ++ (if block.size - size = 0 then []
        else [{ offset := block.offset + size, size := block.size - size }]) ++ post := by
  subst h
  rw [take]
  split
  · rw [eraseIdx_append_of_length_le le_rfl, Nat.sub_self]
    simp
  · rw [set_append_right _ _ le_rfl, Nat.sub_self]
    simp

/-- What an allocation does: it takes a range out of the free offsets. -/
structure Takes (alloc alloc' : DynTallocr) (offset size : ℕ) : Prop where
  separate : Separate alloc'.freeBlocks
  free : ∀ x, InRange offset size x → alloc.Free x ∧ ¬ alloc'.Free x
  mono : ∀ x, alloc'.Free x → alloc.Free x
  maxSize : alloc'.maxSize = max alloc.maxSize (offset + size)
  alignment : alloc'.alignment = alloc.alignment

/-- Taking the lower end of a block removes the range from the offsets of the blocks. -/
theorem take_spec (hsep : Separate blocks) (hblock : blocks[i]? = some block)
    (hsize : size ≤ block.size) :
    Separate (take size i block blocks) ∧ ∀ x, Covers (take size i block blocks) x ↔
        Covers blocks x ∧ ¬ InRange block.offset size x := by
  obtain ⟨hlt, hget⟩ := List.getElem?_eq_some_iff.mp hblock
  have hsplit : blocks.take i ++ block :: blocks.drop (i + 1) = blocks := by
    rw [← hget, List.getElem_cons_drop, List.take_append_drop]
  have hlen : (blocks.take i).length = i := by
    rw [List.length_take, Nat.min_eq_left hlt.le]
  generalize blocks.take i = pre at hsplit hlen
  generalize blocks.drop (i + 1) = post at hsplit
  subst hsplit
  rw [take_middle hlen]
  obtain ⟨hother, hrest⟩ := separate_middle.mp hsep
  split
  case isTrue hzero =>
    rw [List.append_nil, show size = block.size by omega]
    refine ⟨hrest, fun x => ?_⟩
    rw [covers_middle, or_and_right, FreeBlock.Has, and_not_self_iff, false_or, iff_self_and]
    exact fun hx hin => hother x hin hx
  case isFalse hpos =>
    have hhas (x : ℕ) :
        ({ offset := block.offset + size, size := block.size - size } : FreeBlock).Has x ↔
          block.Has x ∧ ¬ InRange block.offset size x := by
      simp only [FreeBlock.Has, InRange]
      omega
    have hin (x : ℕ) : InRange block.offset size x → block.Has x := by
      simp only [FreeBlock.Has, InRange]
      omega
    rw [List.append_assoc, List.singleton_append]
    refine ⟨separate_middle.mpr ⟨fun x hx => hother x ((hhas x).mp hx).1, hrest⟩, fun x => ?_⟩
    rw [covers_middle, covers_middle, hhas, or_and_right]
    refine or_congr_right (iff_self_and.mpr ?_)
    exact fun hx hrange => hother x (hin x hrange) hx

/-- An allocation takes the lower end of a block that is large enough. -/
theorem exists_of_alloc (h : alloc.alloc size = some (offset, alloc')) :
    ∃ i block, alloc.freeBlocks[i]? = some block ∧
      alignedOffset size alloc.alignment ≤ block.size ∧ block.offset = offset ∧
      alloc' = { alloc with
        freeBlocks := take (alignedOffset size alloc.alignment) i block alloc.freeBlocks
        maxSize := max alloc.maxSize (offset + alignedOffset size alloc.alignment) } := by
  rw [DynTallocr.alloc] at h
  obtain ⟨i, hchoose, h⟩ := Option.bind_eq_some_iff.mp h
  obtain ⟨block, hblock, h⟩ := Option.bind_eq_some_iff.mp h
  cases h
  obtain ⟨block', hblock', hsize⟩ := choose_spec hchoose
  cases hblock.symm.trans hblock'
  exact ⟨i, block, hblock, hsize, rfl, rfl⟩

theorem alloc_takes (hsep : Separate alloc.freeBlocks)
    (h : alloc.alloc size = some (offset, alloc')) :
    Takes alloc alloc' offset (alignedOffset size alloc.alignment) := by
  obtain ⟨i, block, hblock, hsize, rfl, rfl⟩ := exists_of_alloc h
  obtain ⟨hsep', hcovers⟩ := take_spec hsep hblock hsize
  refine ⟨hsep', fun x hx => ⟨?_, ?_⟩, fun x hx => ((hcovers x).mp hx).1, rfl, rfl⟩
  · refine ⟨block, mem_of_getElem? hblock, hx.1, lt_of_lt_of_le hx.2 ?_⟩
    exact Nat.add_le_add_left hsize _
  · exact fun hfree => ((hcovers x).mp hfree).2 hx

end Alloc

/-! ## Freeing -/

section FreeTensor

variable {alloc alloc' : DynTallocr} {block : FreeBlock}
  {blocks blocks' pre post rest : List FreeBlock} {size offset x : ℕ}

/-- The blocks have a range of offsets more. -/
def Adds (blocks blocks' : List FreeBlock) (offset size : ℕ) : Prop :=
  Separate blocks' ∧ ∀ x, Covers blocks' x ↔ Covers blocks x ∨ InRange offset size x

theorem covers_perm (h : blocks.Perm blocks') : Covers blocks x ↔ Covers blocks' x := by
  simp only [Covers, h.mem_iff]

theorem separate_perm (h : blocks.Perm blocks') : Separate blocks ↔ Separate blocks' :=
  h.pairwise_iff fun h x hx hy => h x hy hx

/-- Some blocks and a range that touches them become one block. -/
theorem adds_of_perm (gone : List FreeBlock) (hsep : Separate blocks)
    (hfresh : ∀ x, InRange offset size x → ¬ Covers blocks x)
    (hgone : blocks.Perm (gone ++ rest)) (hnew : blocks'.Perm (block :: rest))
    (hhas : ∀ x, block.Has x ↔ Covers gone x ∨ InRange offset size x) :
    Adds blocks blocks' offset size := by
  have hboth := (separate_perm hgone).mp hsep
  obtain ⟨_, hrest, hcross⟩ := pairwise_append.mp hboth
  refine ⟨(separate_perm hnew).mpr (separate_cons.mpr ⟨?_, hrest⟩), fun x => ?_⟩
  · rintro x hx ⟨c, hc, hcx⟩
    rcases (hhas x).mp hx with ⟨b, hb, hbx⟩ | hrange
    · exact hcross b hb c hc x hbx hcx
    · refine hfresh x hrange ((covers_perm hgone).mpr ?_)
      exact covers_append.mpr (Or.inr ⟨c, hc, hcx⟩)
  · rw [covers_perm hnew, covers_perm hgone, covers_cons, covers_append, hhas, or_right_comm]

theorem growUp_adds (hsep : Separate (pre ++ block :: post))
    (hfresh : ∀ x, InRange offset size x → ¬ Covers (pre ++ block :: post) x)
    (hend : block.offset + block.size = offset) :
    Adds (pre ++ block :: post) (pre ++ growUp block size post) offset size := by
  have hgrow (x : ℕ) : ({ block with size := block.size + size } : FreeBlock).Has x ↔
      Covers [block] x ∨ InRange offset size x := by
    simp only [covers_cons, not_covers_nil, or_false, FreeBlock.Has, InRange]
    omega
  cases post with
  | nil => exact adds_of_perm [block] hsep hfresh perm_middle perm_middle hgrow
  | cons next post =>
    rw [growUp]
    split
    case isTrue hnext =>
      refine adds_of_perm [block, next] hsep hfresh ?_ perm_middle fun x => ?_
      · exact perm_middle.trans (List.Perm.cons _ perm_middle)
      · simp only [covers_cons, not_covers_nil, or_false, FreeBlock.Has, InRange]
        omega
    case isFalse => exact adds_of_perm [block] hsep hfresh perm_middle perm_middle hgrow

theorem merge_adds (before : List FreeBlock) (hsep : Separate (before.reverse ++ rest))
    (hfresh : ∀ x, InRange offset size x → ¬ Covers (before.reverse ++ rest) x)
    (h : merge offset size before rest = some blocks') :
    Adds (before.reverse ++ rest) blocks' offset size := by
  induction rest generalizing before with
  | nil => cases h
  | cons block rest ih =>
    unfold merge at h
    split at h
    case isTrue hend =>
      cases h
      exact growUp_adds hsep hfresh hend
    case isFalse =>
      split at h
      case isTrue hbegin =>
        have hgrow (x : ℕ) : ({ offset, size := block.size + size } : FreeBlock).Has x ↔
            Covers [block] x ∨ InRange offset size x := by
          simp only [covers_cons, not_covers_nil, or_false, FreeBlock.Has, InRange]
          omega
        cases before with
        | nil =>
          cases h
          exact adds_of_perm [block] hsep hfresh (List.Perm.refl _) (List.Perm.refl _) hgrow
        | cons previous passed =>
          dsimp only at h
          split at h
          case isTrue hprevious =>
            cases h
            rw [reverse_cons, append_assoc, singleton_append] at hsep hfresh ⊢
            refine adds_of_perm [previous, block] hsep hfresh ?_ perm_middle fun x => ?_
            · exact perm_middle.trans (List.Perm.cons _ perm_middle)
            · simp only [covers_cons, not_covers_nil, or_false, FreeBlock.Has, InRange]
              omega
          case isFalse =>
            cases h
            exact adds_of_perm [block] hsep hfresh perm_middle perm_middle hgrow
      case isFalse =>
        have := ih (block :: before)
        rw [reverse_cons, append_assoc, singleton_append] at this
        exact this hsep hfresh h

theorem insert_adds (hsep : Separate blocks)
    (hfresh : ∀ x, InRange offset size x → ¬ Covers blocks x) :
    Adds blocks (insert { offset, size } blocks) offset size := by
  have hhas (x : ℕ) : ({ offset, size } : FreeBlock).Has x ↔
      Covers [] x ∨ InRange offset size x := by
    simp only [not_covers_nil, false_or, FreeBlock.Has]
  refine adds_of_perm [] hsep hfresh (List.Perm.refl _) ?_ hhas
  rw [insert]
  refine perm_middle.trans (List.Perm.cons _ (List.Perm.of_eq ?_))
  exact takeWhile_append_dropWhile

/-- What freeing does: it adds a range to the free offsets. -/
structure Gives (alloc alloc' : DynTallocr) (offset size : ℕ) : Prop where
  separate : Separate alloc'.freeBlocks
  free : ∀ x, alloc'.Free x ↔ alloc.Free x ∨ InRange offset size x
  maxSize : alloc'.maxSize = alloc.maxSize
  alignment : alloc'.alignment = alloc.alignment

theorem freeTensor_gives (hsep : Separate alloc.freeBlocks)
    (hfresh : ∀ x, InRange offset (alignedOffset size alloc.alignment) x → ¬ alloc.Free x)
    (h : alloc.freeTensor offset size = some alloc') :
    Gives alloc alloc' offset (alignedOffset size alloc.alignment) := by
  rw [freeTensor] at h
  split at h
  case h_1 blocks hmerge =>
    cases h
    obtain ⟨hsep', hcovers⟩ := merge_adds [] hsep hfresh hmerge
    exact ⟨hsep', hcovers, rfl, rfl⟩
  case h_2 =>
    split at h
    case isTrue =>
      cases h
      obtain ⟨hsep', hcovers⟩ := insert_adds hsep hfresh
      exact ⟨hsep', hcovers, rfl, rfl⟩
    case isFalse => cases h

end FreeTensor

theorem reset_separate (alignment : ℕ) : Separate (reset alignment).freeBlocks :=
  pairwise_singleton _ _

end DynTallocr

end ExpertPin.Galloc
