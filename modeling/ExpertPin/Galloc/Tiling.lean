import ExpertPin.Galloc.Tallocr
import Mathlib.Algebra.Order.Ring.Nat
import Mathlib.Data.List.TakeWhile

/-!
# Free blocks and allocations tile the buffer

The free blocks are kept in order with something allocated between any two of them (`Tidy`).  What
is free and what is allocated is each offset of the buffer once, so when everything is freed the
blocks are the one that there was at first.
-/

namespace ExpertPin.Galloc

open DynTallocr (covers_perm separate_perm)
open List

/-- The first offset behind a block. -/
def FreeBlock.stop (block : FreeBlock) : ℕ := block.offset + block.size

/-- A block as it is taken out of the free ones. -/
def FreeBlock.rounded (alignment : ℕ) (block : FreeBlock) : FreeBlock :=
  { block with size := alignedOffset block.size alignment }

/-- The blocks are in order and do not touch, and none is empty. -/
structure Tidy (alignment : ℕ) (blocks : List FreeBlock) : Prop where
  apart : blocks.Pairwise fun b c => b.stop < c.offset
  pos : ∀ b ∈ blocks, 0 < b.size
  aligned : ∀ b ∈ blocks, alignment ∣ b.offset

variable {alignment size offset i : ℕ} {block block' : FreeBlock}
  {blocks blocks' pre post : List FreeBlock}

theorem apart_middle : ((pre ++ block :: post).Pairwise fun b c => b.stop < c.offset) ↔
      ((pre ++ post).Pairwise fun b c => b.stop < c.offset) ∧
        (∀ b ∈ pre, b.stop < block.offset) ∧ ∀ c ∈ post, block.stop < c.offset := by
  rw [pairwise_append, pairwise_cons, pairwise_append]
  constructor
  · rintro ⟨hpre, ⟨hblock, hpost⟩, hcross⟩
    exact ⟨⟨hpre, hpost, fun b hb c hc => hcross b hb c (mem_cons_of_mem _ hc)⟩,
      fun b hb => hcross b hb block mem_cons_self, hblock⟩
  · rintro ⟨⟨hpre, hpost, hcross⟩, hbefore, hblock⟩
    refine ⟨hpre, ⟨hblock, hpost⟩, fun b hb c hc => ?_⟩
    rcases mem_cons.mp hc with rfl | hc
    · exact hbefore b hb
    · exact hcross b hb c hc

namespace Tidy

theorem sublist (h : Tidy alignment blocks) (hsub : blocks'.Sublist blocks) :
    Tidy alignment blocks' :=
  ⟨h.apart.sublist hsub, fun b hb => h.pos b (hsub.subset hb), fun b hb =>
    h.aligned b (hsub.subset hb)⟩

/-- A block is put between the others. -/
theorem middle (h : Tidy alignment (pre ++ post)) (hpos : 0 < block.size)
    (haligned : alignment ∣ block.offset) (hpre : ∀ b ∈ pre, b.stop < block.offset)
    (hpost : ∀ c ∈ post, block.stop < c.offset) : Tidy alignment (pre ++ block :: post) where
  apart := apart_middle.mpr ⟨h.apart, hpre, hpost⟩
  pos b hb := by
    rw [mem_append, mem_cons, or_left_comm] at hb
    rcases hb with rfl | hb
    · exact hpos
    · exact h.pos b (mem_append.mpr hb)
  aligned b hb := by
    rw [mem_append, mem_cons, or_left_comm] at hb
    rcases hb with rfl | hb
    · exact haligned
    · exact h.aligned b (mem_append.mpr hb)

theorem rest (h : Tidy alignment (pre ++ block :: post)) : Tidy alignment (pre ++ post) :=
  h.sublist ((sublist_cons_self block post).append_left pre)

theorem take (h : Tidy alignment blocks) (hblock : blocks[i]? = some block)
    (hsize : size ≤ block.size) (hdvd : alignment ∣ size) :
    Tidy alignment (DynTallocr.take size i block blocks) := by
  obtain ⟨hlt, hget⟩ := List.getElem?_eq_some_iff.mp hblock
  have hsplit : blocks.take i ++ block :: blocks.drop (i + 1) = blocks := by
    rw [← hget, List.getElem_cons_drop, List.take_append_drop]
  have hlen : (blocks.take i).length = i := by
    rw [List.length_take, Nat.min_eq_left hlt.le]
  rw [← hsplit] at h ⊢
  rw [DynTallocr.take_middle hlen]
  obtain ⟨-, hpre, hpost⟩ := apart_middle.mp h.apart
  split
  case isTrue =>
    rw [List.append_nil]
    exact h.rest
  case isFalse hpos =>
    rw [List.append_assoc, List.singleton_append]
    refine h.rest.middle (Nat.pos_of_ne_zero hpos) ?_ (fun b hb => ?_) fun c hc => ?_
    · exact Nat.dvd_add (h.aligned block (List.mem_append_right _ List.mem_cons_self)) hdvd
    · exact Nat.lt_add_right _ (hpre b hb)
    · have hstop := hpost c hc
      rw [FreeBlock.stop] at hstop ⊢
      dsimp only
      omega

end Tidy

/-! ## Freeing -/

/-- A range that does not touch a block. -/
def FreeBlock.Untouched (offset size : ℕ) (block : FreeBlock) : Prop :=
  block.stop ≠ offset ∧ offset + size ≠ block.offset

/-- A range and a block without a common offset. -/
theorem beside (hpos : 0 < size) (hblock : 0 < block.size)
    (hfresh : ∀ x, InRange offset size x → ¬block.Has x) :
    block.stop ≤ offset ∨ offset + size ≤ block.offset := by
  rw [FreeBlock.stop]
  by_contra hnot
  rw [not_or, not_le, not_le] at hnot
  refine hfresh (max offset block.offset) ?_ ?_
  · rw [InRange]
    omega
  · rw [FreeBlock.Has, InRange]
    omega

section FreeTensor

variable {before : List FreeBlock} (hpos : 0 < size) (haligned : alignment ∣ offset)

include hpos

theorem tidy_growUp (h : Tidy alignment (pre ++ block :: post))
    (hfresh : ∀ b ∈ post, ∀ x, InRange offset size x → ¬b.Has x) (hstop : block.stop = offset) :
    Tidy alignment (pre ++ DynTallocr.growUp block size post) := by
  obtain ⟨-, hpre, hpost⟩ := apart_middle.mp h.apart
  have hmem : block ∈ pre ++ block :: post := mem_append_right _ mem_cons_self
  have hbehind : ∀ c ∈ post, offset + size ≤ c.offset := by
    intro c hc
    have hcpos := h.pos c (mem_append_right _ (mem_cons_of_mem _ hc))
    refine (beside hpos hcpos (hfresh c hc)).resolve_left fun hle => ?_
    have hlt := hpost c hc
    rw [hstop] at hlt
    rw [FreeBlock.stop] at hle
    omega
  cases post with
  | nil =>
    exact h.rest.middle (Nat.add_pos_right _ hpos) (h.aligned block hmem) hpre nofun
  | cons next post =>
    obtain ⟨-, -, hnext⟩ := apart_middle.mp h.rest.apart
    rw [DynTallocr.growUp]
    rw [FreeBlock.stop] at hstop
    split
    case isTrue heq =>
      refine h.rest.rest.middle (Nat.add_pos_right _ (h.pos next ?_)) (h.aligned block hmem) hpre
        fun c hc => ?_
      · exact mem_append_right _ (mem_cons_of_mem _ mem_cons_self)
      · have hlt := hnext c hc
        rw [FreeBlock.stop] at hlt ⊢
        dsimp only
        omega
    case isFalse hne =>
      refine h.rest.middle (Nat.add_pos_right _ hpos) (h.aligned block hmem) hpre fun c hc => ?_
      have hle := hbehind next mem_cons_self
      rw [FreeBlock.stop]
      dsimp only
      rcases mem_cons.mp hc with rfl | hc
      · omega
      · have hlt := hnext c hc
        rw [FreeBlock.stop] at hlt
        omega

include haligned

theorem tidy_merge (h : Tidy alignment (before.reverse ++ blocks))
    (hfresh : ∀ b ∈ before.reverse ++ blocks, ∀ x, InRange offset size x → ¬b.Has x)
    (hbefore : ∀ b ∈ before, b.Untouched offset size)
    (hmerge : DynTallocr.merge offset size before blocks = some blocks') :
    Tidy alignment blocks' := by
  induction blocks generalizing before with
  | nil => cases hmerge
  | cons block rest ih =>
    unfold DynTallocr.merge at hmerge
    split at hmerge
    case isTrue hstop =>
      cases hmerge
      refine tidy_growUp hpos h (fun b hb => hfresh b ?_) hstop
      exact mem_append_right _ (mem_cons_of_mem _ hb)
    case isFalse hstop =>
      split at hmerge
      case isTrue hbegin =>
        obtain ⟨-, hpre, hpost⟩ := apart_middle.mp h.apart
        have hdown : Tidy alignment
            (before.reverse ++ { offset, size := block.size + size } :: rest) := by
          refine h.rest.middle (Nat.add_pos_right _ hpos) haligned (fun b hb => ?_) fun c hc => ?_
          · have hmem := mem_append_left (block :: rest) hb
            have hlt := hpre b hb
            have huntouched := (hbefore b (mem_reverse.mp hb)).1
            have hside := beside hpos (h.pos b hmem) (hfresh b hmem)
            rw [FreeBlock.stop] at *
            dsimp only
            omega
          · have hlt := hpost c hc
            rw [FreeBlock.stop] at *
            dsimp only
            omega
        cases before with
        | nil =>
          cases hmerge
          exact hdown
        | cons previous passed =>
          dsimp only at hmerge
          have hmerge := (if_neg (hbefore previous mem_cons_self).1).symm.trans hmerge
          cases hmerge
          exact hdown
      case isFalse hbegin =>
        have hstep := @ih (block :: before)
        rw [reverse_cons, append_assoc, singleton_append] at hstep
        refine hstep h hfresh (fun b hb => ?_) hmerge
        rcases mem_cons.mp hb with rfl | hb
        · exact ⟨hstop, hbegin⟩
        · exact hbefore b hb

omit hpos haligned in
theorem untouched_of_merge (h : DynTallocr.merge offset size before blocks = none) :
    ∀ b ∈ blocks, b.Untouched offset size := by
  induction blocks generalizing before with
  | nil => exact fun b hb => by cases hb
  | cons block rest ih =>
    unfold DynTallocr.merge at h
    split at h
    case isTrue => cases h
    case isFalse hstop =>
      split at h
      case isTrue =>
        split at h
        · split at h <;> cases h
        · cases h
      case isFalse hbegin => exact List.forall_mem_cons.mpr ⟨⟨hstop, hbegin⟩, ih h⟩

theorem tidy_insert (h : Tidy alignment blocks)
    (hfresh : ∀ b ∈ blocks, ∀ x, InRange offset size x → ¬b.Has x)
    (hblocks : ∀ b ∈ blocks, b.Untouched offset size) :
    Tidy alignment (DynTallocr.insert { offset, size } blocks) := by
  have hdrop : ∀ c ∈ blocks.dropWhile (·.offset < offset), offset ≤ c.offset := by
    intro c hc
    cases hrest : blocks.dropWhile (·.offset < offset) with
    | nil =>
      rw [hrest] at hc
      cases hc
    | cons first rest =>
      have hfirst : offset ≤ first.offset := by
        have hne : blocks.dropWhile (·.offset < offset) ≠ [] := hrest ▸ cons_ne_nil _ _
        simpa [hrest] using head_dropWhile_not _ hne
      have hsub : (first :: rest).Sublist blocks := hrest ▸ dropWhile_sublist _
      have hapart := h.apart.sublist hsub
      rw [hrest] at hc
      rcases mem_cons.mp hc with rfl | hc
      · exact hfirst
      · have hlt := (pairwise_cons.mp hapart).1 c hc
        rw [FreeBlock.stop] at hlt
        omega
  rw [DynTallocr.insert]
  refine Tidy.middle ?_ hpos haligned (fun b hb => ?_) fun c hc => ?_
  · rwa [takeWhile_append_dropWhile]
  · have hmem := (takeWhile_sublist _).subset hb
    have hlt : b.offset < offset := by simpa using mem_takeWhile_imp hb
    have hside := beside hpos (h.pos b hmem) (hfresh b hmem)
    have huntouched := (hblocks b hmem).1
    rw [FreeBlock.stop] at *
    dsimp only
    omega
  · have hmem := (dropWhile_sublist _).subset hc
    have hge := hdrop c hc
    have hcpos := h.pos c hmem
    have hside := beside hpos hcpos (hfresh c hmem)
    have huntouched := (hblocks c hmem).2
    rw [FreeBlock.stop] at *
    dsimp only
    omega

end FreeTensor

/-! ## Runs -/

/-- The allocator after calls that return, with what is allocated and what has been since the
reset. -/
inductive Run (alignment : ℕ) : DynTallocr → List FreeBlock → List FreeBlock → Prop
  | reset : Run alignment (DynTallocr.reset alignment) [] []
  | alloc {alloc alloc' live all offset size} (h : Run alignment alloc live all) (hpos : 0 < size)
      (hlt : size < sizeMax / 2) (hcall : alloc.alloc size = some (offset, alloc')) :
      Run alignment alloc' ({ offset, size } :: live) ({ offset, size } :: all)
  | free {alloc alloc' live all block} (h : Run alignment alloc live all) (hmem : block ∈ live)
      (hcall : alloc.freeTensor block.offset block.size = some alloc') :
      Run alignment alloc' (live.erase block) all

/-- The free blocks are tidy, and with what is allocated they tile the buffer. -/
structure Tiled (alignment : ℕ) (alloc : DynTallocr) (live all : List FreeBlock) : Prop where
  alignment_eq : alloc.alignment = alignment
  tidy : Tidy alignment alloc.freeBlocks
  separate : Separate (alloc.freeBlocks ++ live.map (·.rounded alignment))
  covers : ∀ x, Covers (alloc.freeBlocks ++ live.map (·.rounded alignment)) x ↔ x < sizeMax / 2
  aligned : ∀ b ∈ live, alignment ∣ b.offset
  pos : ∀ b ∈ live, 0 < (b.rounded alignment).size
  subset : ∀ b ∈ live, b ∈ all
  maxSize : alloc.maxSize = (all.map fun b => (b.rounded alignment).stop).foldr max 0

theorem separate_append : Separate (pre ++ post) ↔
    Separate pre ∧ Separate post ∧ ∀ x, Covers pre x → ¬Covers post x := by
  rw [Separate, pairwise_append]
  refine and_congr_right fun _ => and_congr_right fun _ => ⟨?_, ?_⟩
  · rintro h x ⟨b, hb, hx⟩ ⟨c, hc, hy⟩
    exact h b hb c hc x hx hy
  · exact fun h b hb c hc x hx hy => h x ⟨b, hb, hx⟩ ⟨c, hc, hy⟩

theorem dvd_alignedOffset {k : ℕ} (hk : k < 64) (size : ℕ) :
    2 ^ k ∣ alignedOffset size (2 ^ k) := by
  rw [alignedOffset, Nat.dvd_mod_iff (Nat.pow_dvd_pow 2 hk.le), Nat.dvd_iff_mod_eq_zero,
    Nat.add_mod, Nat.mod_mod, ← Nat.add_mod]
  have hlt := Nat.mod_lt size (Nat.two_pow_pos k)
  have hdiv := Nat.mod_add_div size (2 ^ k)
  rw [show size + (2 ^ k - size % 2 ^ k) = 2 ^ k * (size / 2 ^ k) + 2 ^ k by omega,
    Nat.add_mod_right, Nat.mul_mod_right]

theorem alignedOffset_pos {k : ℕ} (hk : k < 64) (hpos : 0 < size) (hlt : size < sizeMax / 2) :
    0 < alignedOffset size (2 ^ k) := by
  have hle : 2 ^ k ≤ 2 ^ 63 := Nat.pow_le_pow_right (by decide) (Nat.le_of_lt_succ hk)
  rw [sizeMax] at hlt
  exact hpos.trans_le (le_alignedOffset (Nat.two_pow_pos k) (by omega))

namespace Tiled

variable {k : ℕ} {talloc talloc' : DynTallocr} {live all : List FreeBlock}

theorem reset (alignment : ℕ) : Tiled alignment (DynTallocr.reset alignment) [] [] where
  alignment_eq := rfl
  tidy := by
    refine ⟨pairwise_singleton _ _, fun b hb => ?_, fun b hb => ?_⟩
    · rw [mem_singleton.mp hb]
      exact Nat.div_pos (by decide) (by decide)
    · rw [mem_singleton.mp hb]
      exact Nat.dvd_zero _
  separate := pairwise_singleton _ _
  covers x := by
    rw [map_nil, append_nil, DynTallocr.reset, covers_cons, FreeBlock.Has, InRange]
    simp
  aligned := nofun
  pos := nofun
  subset := nofun
  maxSize := rfl

theorem alloc (h : Tiled (2 ^ k) talloc live all) (hk : k < 64) (hpos : 0 < size)
    (hlt : size < sizeMax / 2) (hcall : talloc.alloc size = some (offset, talloc')) :
    Tiled (2 ^ k) talloc' ({ offset, size } :: live) ({ offset, size } :: all) := by
  obtain ⟨i, block, hblock, hsize, rfl, rfl⟩ := DynTallocr.exists_of_alloc hcall
  rw [h.alignment_eq] at hsize ⊢
  obtain ⟨hfree, hlive, hcross⟩ := separate_append.mp h.separate
  obtain ⟨hsep, hcovers⟩ := DynTallocr.take_spec hfree hblock hsize
  have hmem := mem_of_getElem? hblock
  have hrange : ∀ x, InRange block.offset (alignedOffset size (2 ^ k)) x →
      Covers talloc.freeBlocks x :=
    fun x hx => ⟨block, hmem, hx.1, hx.2.trans_le (Nat.add_le_add_left hsize _)⟩
  constructor
  case alignment_eq => rfl
  case tidy => exact h.tidy.take hblock hsize (dvd_alignedOffset hk size)
  case separate =>
    rw [map_cons, separate_middle, separate_append]
    refine ⟨fun x hx hcover => ?_, hsep, hlive, fun x hx => hcross x ((hcovers x).mp hx).1⟩
    rcases covers_append.mp hcover with hcover | hcover
    · exact ((hcovers x).mp hcover).2 hx
    · exact hcross x (hrange x hx) hcover
  case covers =>
    intro x
    have hiff := h.covers x
    rw [covers_append] at hiff
    rw [map_cons, covers_middle, covers_append, hcovers, ← hiff]
    constructor
    · rintro (hx | hx | hx)
      · exact .inl (hrange x hx)
      · exact .inl hx.1
      · exact .inr hx
    · rintro (hx | hx)
      · by_cases hin : InRange block.offset (alignedOffset size (2 ^ k)) x
        · exact .inl hin
        · exact .inr (.inl ⟨hx, hin⟩)
      · exact .inr (.inr hx)
  case aligned => exact forall_mem_cons.mpr ⟨h.tidy.aligned block hmem, h.aligned⟩
  case pos => exact forall_mem_cons.mpr ⟨alignedOffset_pos hk hpos hlt, h.pos⟩
  case subset =>
    exact forall_mem_cons.mpr
      ⟨mem_cons_self, fun b hb => mem_cons_of_mem _ (h.subset b hb)⟩
  case maxSize =>
    rw [map_cons, foldr_cons, ← h.maxSize, max_comm]
    rfl

theorem free (h : Tiled alignment talloc live all) (hmem : block ∈ live)
    (hcall : talloc.freeTensor block.offset block.size = some talloc') :
    Tiled alignment talloc' (live.erase block) all := by
  have hperm := (perm_cons_erase hmem).map (·.rounded alignment)
  obtain ⟨hfree, hlive, hcross⟩ := separate_append.mp h.separate
  have hfresh : ∀ x, InRange block.offset (alignedOffset block.size talloc.alignment) x →
      ¬talloc.Free x := by
    intro x hx hcover
    rw [h.alignment_eq] at hx
    exact hcross x hcover ⟨block.rounded alignment, mem_map_of_mem hmem, hx⟩
  have hgives := DynTallocr.freeTensor_gives hfree hfresh hcall
  rw [h.alignment_eq] at hgives
  have hpos := h.pos block hmem
  rw [separate_perm hperm, map_cons, separate_cons] at hlive
  constructor
  case alignment_eq => exact hgives.alignment.trans h.alignment_eq
  case tidy =>
    have hblocks : ∀ b ∈ talloc.freeBlocks, ∀ x,
        InRange block.offset (alignedOffset block.size alignment) x → ¬b.Has x := by
      intro b hb x hx hbx
      exact hfresh x (h.alignment_eq ▸ hx) ⟨b, hb, hbx⟩
    rw [DynTallocr.freeTensor, h.alignment_eq] at hcall
    split at hcall
    case h_1 blocks hmerge =>
      cases hcall
      refine tidy_merge hpos (h.aligned block hmem) ?_ ?_ (fun b hb => by cases hb) hmerge
      · exact h.tidy
      · exact hblocks
    case h_2 hmerge =>
      split at hcall
      case isTrue =>
        cases hcall
        exact tidy_insert hpos (h.aligned block hmem) h.tidy hblocks (untouched_of_merge hmerge)
      case isFalse => cases hcall
  case separate =>
    refine separate_append.mpr ⟨hgives.separate, hlive.2, fun x hx hcover => ?_⟩
    rcases (hgives.free x).mp hx with hx | hx
    · refine hcross x hx ((covers_perm hperm).mpr ?_)
      exact covers_cons.mpr (.inr hcover)
    · exact hlive.1 x hx hcover
  case covers =>
    intro x
    have hnew : Covers talloc'.freeBlocks x ↔ _ := hgives.free x
    rw [covers_append, hnew, ← h.covers x, covers_append, covers_perm hperm, map_cons,
      covers_cons, or_assoc]
    rfl
  case aligned => exact fun b hb => h.aligned b (mem_of_mem_erase hb)
  case pos => exact fun b hb => h.pos b (mem_of_mem_erase hb)
  case subset => exact fun b hb => h.subset b (mem_of_mem_erase hb)
  case maxSize => exact hgives.maxSize.trans h.maxSize

theorem of_run (h : Run (2 ^ k) talloc live all) (hk : k < 64) : Tiled (2 ^ k) talloc live all := by
  induction h with
  | reset => exact reset _
  | alloc _ hpos hlt hcall ih => exact ih.alloc hk hpos hlt hcall
  | free _ hmem hcall ih => exact ih.free hmem hcall

theorem stop_le (h : Tiled alignment talloc live all) (hmem : block ∈ talloc.freeBlocks) :
    block.stop ≤ sizeMax / 2 := by
  have hpos := h.tidy.pos block hmem
  rw [FreeBlock.stop]
  have hlt := (h.covers (block.offset + block.size - 1)).mp
    ⟨block, mem_append_left _ hmem, by rw [FreeBlock.Has, InRange]; omega⟩
  omega

/-- Behind all that is allocated there is one free block, up to the end of the buffer. -/
theorem exists_last (h : Tiled alignment talloc live all) {x : ℕ} (hx : x < sizeMax / 2)
    (hlive : ∀ b ∈ live, (b.rounded alignment).stop ≤ x) :
    ∃ pre block, talloc.freeBlocks = pre ++ [block] ∧ block.Has x ∧ block.stop = sizeMax / 2 := by
  have hbehind : ∀ y, x ≤ y → y < sizeMax / 2 → Covers talloc.freeBlocks y := by
    intro y hge hlt
    refine (covers_append.mp ((h.covers y).mpr hlt)).resolve_right ?_
    rintro ⟨c, hc, hy⟩
    obtain ⟨b, hb, rfl⟩ := mem_map.mp hc
    exact absurd hy.2 (Nat.not_lt.mpr ((hlive b hb).trans hge))
  obtain ⟨block, hmem, hhas⟩ := hbehind x le_rfl hx
  obtain ⟨pre, post, hsplit⟩ := append_of_mem hmem
  have hapart := h.tidy.apart
  rw [hsplit] at hapart
  obtain ⟨-, hpre, hpost⟩ := apart_middle.mp hapart
  -- The offset behind the block is free only in another block, and none touches this one.
  have hstop : block.stop = sizeMax / 2 := by
    refine (h.stop_le hmem).antisymm (Nat.not_lt.mp fun hlt => ?_)
    obtain ⟨c, hc, hy⟩ := hbehind block.stop hhas.2.le hlt
    rw [hsplit, mem_append, mem_cons] at hc
    rcases hc with hc | rfl | hc
    · have hbefore := hpre c hc
      rw [FreeBlock.stop] at hbefore hy
      exact absurd hy.2 (by omega)
    · exact absurd hy.2 (lt_irrefl _)
    · exact absurd hy.1 (Nat.not_le.mpr (hpost c hc))
  have hnil : post = [] := eq_nil_iff_forall_not_mem.mpr fun c hc => by
    have hle := h.stop_le (hsplit ▸ mem_append_right pre (mem_cons_of_mem _ hc))
    have hlt := hpost c hc
    rw [FreeBlock.stop] at hle
    omega
  exact ⟨pre, block, hnil ▸ hsplit, hhas, hstop⟩

/-- When all is freed the blocks are the one that there was at first. -/
theorem freeBlocks_eq (h : Tiled alignment talloc [] all) :
    talloc.freeBlocks = (DynTallocr.reset alignment).freeBlocks := by
  obtain ⟨pre, ⟨offset, size⟩, hsplit, hzero, hstop⟩ :=
    h.exists_last (Nat.div_pos (by decide) (by decide)) fun b hb => by cases hb
  obtain rfl : offset = 0 := Nat.le_zero.mp hzero.1
  have hapart := h.tidy.apart
  rw [hsplit] at hapart
  have hnil : pre = [] := eq_nil_iff_forall_not_mem.mpr fun b hb =>
    Nat.not_lt_zero _ ((apart_middle.mp hapart).2.1 b hb)
  rw [FreeBlock.stop, Nat.zero_add] at hstop
  rw [hsplit, hnil, nil_append, DynTallocr.reset]
  exact congrArg (fun size => [(⟨0, size⟩ : FreeBlock)]) hstop

theorem le_foldr_max {n : ℕ} {ns : List ℕ} (h : n ∈ ns) : n ≤ ns.foldr max 0 := by
  induction ns with
  | nil => cases h
  | cons m ns ih =>
    rcases mem_cons.mp h with rfl | h
    · exact Nat.le_max_left _ _
    · exact (ih h).trans (Nat.le_max_right _ _)

/-- The last block is large enough as long as the total is not more than the buffer. -/
theorem alloc_isSome (h : Tiled alignment talloc live all) (hpos : 0 < alignedOffset size alignment)
    (htotal : talloc.maxSize + alignedOffset size alignment ≤ sizeMax / 2) :
    (talloc.alloc size).isSome := by
  have hlive : ∀ b ∈ live, (b.rounded alignment).stop ≤ talloc.maxSize := by
    intro b hb
    rw [h.maxSize]
    exact le_foldr_max (mem_map_of_mem (h.subset b hb))
  obtain ⟨pre, block, hsplit, hhas, hstop⟩ := h.exists_last (by omega) hlive
  have hlast : talloc.freeBlocks.getLast? = some block := by
    rw [hsplit, getLast?_concat]
  have hsize : alignedOffset size alignment ≤ block.size := by
    have hle := hhas.1
    rw [FreeBlock.stop] at hstop
    omega
  have hchoose : ∃ i, DynTallocr.choose (alignedOffset size alignment) talloc.freeBlocks =
      some i := by
    rw [DynTallocr.choose]
    split
    case h_1 i _ => exact ⟨i, rfl⟩
    case h_2 =>
      rw [hlast]
      exact ⟨_, if_pos hsize⟩
  obtain ⟨i, hi⟩ := hchoose
  obtain ⟨b, hb, -⟩ := DynTallocr.choose_spec hi
  rw [DynTallocr.alloc, h.alignment_eq]
  rw [hi, Option.bind_eq_bind, Option.bind_some, hb]
  rfl

end Tiled

/-- What holds of the allocator after calls: with what is allocated the free blocks tile the buffer,
when all is freed they are as they were at first, and a call returns as long as there is room behind
all ends so far or a place in the array. -/
structure Serves (alignment : ℕ) (talloc : DynTallocr) (live all : List FreeBlock) : Prop where
  tiled : Tiled alignment talloc live all
  empty : live = [] → talloc.freeBlocks = (DynTallocr.reset alignment).freeBlocks
  alloc : ∀ size, 0 < size → size < sizeMax / 2 →
    talloc.maxSize + alignedOffset size alignment ≤ sizeMax / 2 → (talloc.alloc size).isSome
  free : ∀ block ∈ live, talloc.freeBlocks.length < maxFreeBlocks →
    (talloc.freeTensor block.offset block.size).isSome

theorem Run.serves {k : ℕ} (hk : k < 64) {talloc : DynTallocr} {live all : List FreeBlock}
    (h : Run (2 ^ k) talloc live all) : Serves (2 ^ k) talloc live all where
  tiled := Tiled.of_run h hk
  empty hlive := by
    subst hlive
    exact (Tiled.of_run h hk).freeBlocks_eq
  alloc size hpos hlt := (Tiled.of_run h hk).alloc_isSome (alignedOffset_pos hk hpos hlt)
  free block _ hlength := by
    rw [DynTallocr.freeTensor]
    split
    case h_1 => rfl
    case h_2 =>
      rw [if_pos hlength]
      rfl

/-- Two allocations, of which the first is freed. -/
theorem Run.serves_two : Serves (2 ^ 5) ⟨32, [⟨0, 32⟩, ⟨96, sizeMax / 2 - 96⟩], 96⟩ [⟨32, 40⟩]
    [⟨32, 40⟩, ⟨0, 20⟩] :=
  have hfirst : Run (2 ^ 5) ⟨32, [⟨32, sizeMax / 2 - 32⟩], 32⟩ [⟨0, 20⟩] [⟨0, 20⟩] :=
    .alloc .reset (by decide) (by decide) rfl
  have hsecond : Run (2 ^ 5) ⟨32, [⟨96, sizeMax / 2 - 96⟩], 96⟩ [⟨32, 40⟩, ⟨0, 20⟩]
      [⟨32, 40⟩, ⟨0, 20⟩] :=
    .alloc hfirst (by decide) (by decide) rfl
  Run.serves (by decide) (.free hsecond (mem_cons_of_mem _ mem_cons_self) rfl)

end ExpertPin.Galloc
