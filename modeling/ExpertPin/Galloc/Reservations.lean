import ExpertPin.Galloc.Execution

/-!
# What is reserved

A tensor that is marked as allocated holds a range of its buffer, which is not free and which no
other allocated tensor holds (`Reserved`).  Allocating, taking over the memory of a parent and
freeing keep this, whatever the counts say.
-/

namespace ExpertPin.Galloc

open Option

variable {B : Backend} {G : Graph} {s s' : Gallocr} {n p t u r bufferId offset b x : ℕ}

/-! ## The entries of the table -/

namespace Gallocr

/-- Whether a tensor is allocated, and where it was placed last. -/
def entry (s : Gallocr) (t : ℕ) : Bool × ℕ × ℕ :=
  ((s.hash t).allocated, (s.hash t).bufferId, (s.hash t).offset)

/-- The children and the views of a tensor that are left. -/
def counts (s : Gallocr) (t : ℕ) : ℤ × ℤ := ((s.hash t).nChildren, (s.hash t).nViews)

section Setters

variable {hn : HashNode} {k : ℤ} {a : Bool}

theorem hash_setHash : (s.setHash t hn).hash u = if u = t then hn else s.hash u :=
  Function.update_apply _ _ _ _

theorem entry_addChildren : (s.addChildren t k).entry u = s.entry u := by
  rw [entry, addChildren, hash_setHash, entry]
  split
  case isTrue h => rw [h]
  case isFalse => rfl

theorem entry_addViews : (s.addViews t k).entry u = s.entry u := by
  rw [entry, addViews, hash_setHash, entry]
  split
  case isTrue h => rw [h]
  case isFalse => rfl

theorem counts_setAllocated : (s.setAllocated t a).counts u = s.counts u := by
  rw [counts, setAllocated, hash_setHash, counts]
  split
  case isTrue h => rw [h]
  case isFalse => rfl

theorem counts_setPlace : (s.setPlace t bufferId offset).counts u = s.counts u := by
  rw [counts, setPlace, hash_setHash, counts]
  split
  case isTrue h => rw [h]
  case isFalse => rfl

theorem counts_addChildren : (s.addChildren t k).counts u =
    if u = t then ((s.counts u).1 + k, (s.counts u).2) else s.counts u := by
  rw [counts, addChildren, hash_setHash, counts]
  split
  case isTrue h => rw [h]
  case isFalse => rfl

theorem counts_addViews : (s.addViews t k).counts u =
    if u = t then ((s.counts u).1, (s.counts u).2 + k) else s.counts u := by
  rw [counts, addViews, hash_setHash, counts]
  split
  case isTrue h => rw [h]
  case isFalse => rfl

theorem entry_setAllocated : (s.setAllocated t a).entry u =
    if u = t then (a, (s.entry u).2) else s.entry u := by
  rw [entry, setAllocated, hash_setHash, entry]
  split
  case isTrue h => rw [h]
  case isFalse => rfl

theorem entry_setPlace : (s.setPlace t bufferId offset).entry u =
    if u = t then ((s.entry u).1, bufferId, offset) else s.entry u := by
  rw [entry, setPlace, hash_setHash, entry]
  split
  case isTrue h => rw [h]
  case isFalse => rfl

end Setters

/-- The tensor is allocated. -/
def Allocated (s : Gallocr) (t : ℕ) : Prop := (s.entry t).1 = true

/-- Where the tensor was placed last. -/
def placed (s : Gallocr) (t : ℕ) : ℕ × ℕ := (s.entry t).2

end Gallocr

/-! ## Ranges -/

section Ranges

variable (B G)

/-- The bytes of a buffer that a tensor takes up there. -/
def paddedSize (buft t : ℕ) : ℕ :=
  alignedOffset (B.allocSize buft (G.tensor t).layout) (B.alignment buft)

/-- A tensor at this place takes up the offset in the buffer of this type. -/
def Holds (place : ℕ × ℕ) (t b x : ℕ) : Prop :=
  B.bufts place.1 = b ∧ InRange place.2 (paddedSize B G b t) x

/-- What is allocated is not free, is held by one tensor only, and lies inside of the recorded
maximum size. -/
structure Reserved (s : Gallocr) : Prop where
  alignment : ∀ b, (s.tallocs b).alignment = B.alignment b
  separate : ∀ b, Separate (s.tallocs b).freeBlocks
  planned : ∀ t, s.Allocated t → Planned G t
  held : ∀ t, s.Allocated t → ∀ b x, Holds B G (s.placed t) t b x → ¬ (s.tallocs b).Free x
  apart : ∀ t u, t ≠ u → s.Allocated t → s.Allocated u → ∀ b x,
    Holds B G (s.placed t) t b x → ¬ Holds B G (s.placed u) u b x
  bounded : ∀ t, s.Allocated t → (s.placed t).2 + paddedSize B G (B.bufts (s.placed t).1) t ≤
    (s.tallocs (B.bufts (s.placed t).1)).maxSize

end Ranges

/-- Tensors of one layout take up the same. -/
theorem paddedSize_eq (h : (G.tensor t).layout = (G.tensor u).layout) :
    paddedSize B G b t = paddedSize B G b u := by
  rw [paddedSize, h, paddedSize]

theorem start_reserved : Reserved B G (start B) where
  alignment _ := rfl
  separate b := DynTallocr.reset_separate (B.alignment b)
  planned _ h := by cases h
  held _ h := by cases h
  apart _ _ _ h := by cases h
  bounded _ h := by cases h

/-- Counting changes nothing that is reserved. -/
theorem Reserved.congr (h : Reserved B G s) (hentry : ∀ t, s'.entry t = s.entry t)
    (htallocs : s'.tallocs = s.tallocs) : Reserved B G s' := by
  have hall (t : ℕ) : s'.Allocated t ↔ s.Allocated t := by
    rw [Gallocr.Allocated, hentry, Gallocr.Allocated]
  have hplaced (t : ℕ) : s'.placed t = s.placed t := by
    rw [Gallocr.placed, hentry, Gallocr.placed]
  constructor
  case alignment => exact fun b => htallocs ▸ h.alignment b
  case separate => exact fun b => htallocs ▸ h.separate b
  case planned => exact fun t ht => h.planned t ((hall t).mp ht)
  case held =>
    intro t ht
    rw [hplaced, htallocs]
    exact h.held t ((hall t).mp ht)
  case apart =>
    intro t u hne ht hu
    rw [hplaced, hplaced]
    exact h.apart t u hne ((hall t).mp ht) ((hall u).mp hu)
  case bounded =>
    intro t ht
    rw [hplaced, htallocs]
    exact h.bounded t ((hall t).mp ht)

/-! ## What the calls do to it -/

section Effects

variable {talloc : DynTallocr}

/-- A tensor was allocated from its buffer. -/
structure Fresh (B : Backend) (G : Graph) (s s' : Gallocr) (n bufferId : ℕ) : Prop where
  planned : Planned G n
  entry : ∃ offset, s'.entry n = (true, bufferId, offset) ∧
    ∃ talloc, (s.tallocs (B.bufts bufferId)).alloc
        (B.allocSize (B.bufts bufferId) (G.tensor n).layout) = some (offset, talloc) ∧
      s'.tallocs = Function.update s.tallocs (B.bufts bufferId) talloc
  other : ∀ u, u ≠ n → s'.entry u = s.entry u
  counts : s'.counts = s.counts

/-- A node took over the memory of a parent that only it still needs. -/
structure TakesOver (G : Graph) (s s' : Gallocr) (n p : ℕ) : Prop where
  planned : Planned G n
  inplace : inplaceAt G n p
  source : p ∈ (G.tensor n).sources
  ne : p ≠ n
  allocated : s.Allocated p
  output : (G.tensor p).output = false
  last : s.counts p = (1, 0)
  entry : s'.entry n = (true, s.placed p)
  parent : s'.entry p = (false, s.placed p)
  other : ∀ u, u ≠ n → u ≠ p → s'.entry u = s.entry u
  counts : s'.counts = s.counts
  tallocs : s'.tallocs = s.tallocs

/-- The memory of a tensor was given back. -/
structure Freed (B : Backend) (G : Graph) (s s' : Gallocr) (r : ℕ) : Prop where
  entry : s'.entry r = (false, s.placed r)
  other : ∀ u, u ≠ r → s'.entry u = s.entry u
  tallocs : ∃ talloc, (s.tallocs (B.bufts (s.placed r).1)).freeTensor (s.placed r).2
        (B.allocSize (B.bufts (s.placed r).1) (G.tensor r).layout) = some talloc ∧
      s'.tallocs = Function.update s.tallocs (B.bufts (s.placed r).1) talloc
  counts : s'.counts = s.counts

theorem Gallocr.allocated_congr (h : s'.entry t = s.entry t) : s'.Allocated t ↔ s.Allocated t := by
  rw [Allocated, h, Allocated]

theorem Gallocr.placed_congr (h : s'.entry t = s.entry t) : s'.placed t = s.placed t := by
  rw [placed, h, placed]

theorem Fresh.reserved (h : Fresh B G s s' n bufferId) (hs : Reserved B G s) :
    Reserved B G s' ∧ ∀ b, (s.tallocs b).maxSize ≤ (s'.tallocs b).maxSize := by
  obtain ⟨offset, hn, talloc, halloc, htallocs⟩ := h.entry
  set buft := B.bufts bufferId with hbuft
  have htakes := DynTallocr.alloc_takes (hs.separate buft) halloc
  rw [hs.alignment buft] at htakes
  have hself : s'.tallocs buft = talloc := by rw [htallocs, Function.update_self]
  have hother (b : ℕ) (hb : b ≠ buft) : s'.tallocs b = s.tallocs b := by
    rw [htallocs, Function.update_of_ne hb]
  -- whatever was not free is not free now
  have hfree (b x : ℕ) (hx : (s'.tallocs b).Free x) : (s.tallocs b).Free x := by
    by_cases hb : b = buft
    · subst hb
      rw [hself] at hx
      exact htakes.mono x hx
    · rwa [hother b hb] at hx
  have hmax (b : ℕ) : (s.tallocs b).maxSize ≤ (s'.tallocs b).maxSize := by
    by_cases hb : b = buft
    · subst hb
      rw [hself, htakes.maxSize]
      exact le_max_left _ _
    · rw [hother b hb]
  -- what the node holds now was free
  have hwas (b x : ℕ) (hx : Holds B G (s'.placed n) n b x) :
      (s.tallocs b).Free x ∧ ¬ (s'.tallocs b).Free x := by
    rw [Gallocr.placed, hn] at hx
    obtain ⟨rfl, hx⟩ := hx
    rw [hself]
    exact htakes.free x hx
  refine ⟨?_, hmax⟩
  constructor
  case alignment =>
    intro b
    by_cases hb : b = buft
    · rw [hb, hself, htakes.alignment, hs.alignment]
    · rw [hother b hb, hs.alignment]
  case separate =>
    intro b
    by_cases hb : b = buft
    · rw [hb, hself]
      exact htakes.separate
    · rw [hother b hb]
      exact hs.separate b
  case planned =>
    intro t ht
    by_cases htn : t = n
    · exact htn ▸ h.planned
    · exact hs.planned t ((Gallocr.allocated_congr (h.other t htn)).mp ht)
  case held =>
    intro t ht b x hx
    by_cases htn : t = n
    · subst htn
      exact (hwas b x hx).2
    · rw [Gallocr.placed_congr (h.other t htn)] at hx
      have ht := (Gallocr.allocated_congr (h.other t htn)).mp ht
      exact fun hfreed => hs.held t ht b x hx (hfree b x hfreed)
  case apart =>
    intro t u hne ht hu b x hx hy
    by_cases htn : t = n
    · subst htn
      have hun : u ≠ t := Ne.symm hne
      rw [Gallocr.placed_congr (h.other u hun)] at hy
      have hu := (Gallocr.allocated_congr (h.other u hun)).mp hu
      exact hs.held u hu b x hy (hwas b x hx).1
    · rw [Gallocr.placed_congr (h.other t htn)] at hx
      have ht := (Gallocr.allocated_congr (h.other t htn)).mp ht
      by_cases hun : u = n
      · subst hun
        exact hs.held t ht b x hx (hwas b x hy).1
      · rw [Gallocr.placed_congr (h.other u hun)] at hy
        exact hs.apart t u hne ht ((Gallocr.allocated_congr (h.other u hun)).mp hu) b x hx hy
  case bounded =>
    intro t ht
    by_cases htn : t = n
    · subst htn
      rw [Gallocr.placed, hn, ← hbuft, hself, htakes.maxSize]
      exact le_max_right _ _
    · rw [Gallocr.placed_congr (h.other t htn)]
      have ht := (Gallocr.allocated_congr (h.other t htn)).mp ht
      exact (hs.bounded t ht).trans (hmax _)

theorem TakesOver.reserved (h : TakesOver G s s' n p) (hs : Reserved B G s) : Reserved B G s' := by
  -- the node holds what its parent held
  have hholds (b x : ℕ) : Holds B G (s'.placed n) n b x ↔ Holds B G (s.placed p) p b x := by
    rw [Gallocr.placed, h.entry, Holds, Holds, paddedSize_eq (Layout.same_iff.mp h.inplace.2)]
  have hparent : ¬ s'.Allocated p := by
    rw [Gallocr.Allocated, h.parent]
    exact Bool.false_ne_true
  have hrest (t : ℕ) (ht : s'.Allocated t) (htn : t ≠ n) :
      t ≠ p ∧ s.Allocated t ∧ s'.placed t = s.placed t := by
    have htp : t ≠ p := by
      rintro rfl
      exact hparent ht
    have hentry := h.other t htn htp
    exact ⟨htp, (Gallocr.allocated_congr hentry).mp ht, Gallocr.placed_congr hentry⟩
  constructor
  case alignment => exact fun b => h.tallocs ▸ hs.alignment b
  case separate => exact fun b => h.tallocs ▸ hs.separate b
  case planned =>
    intro t ht
    by_cases htn : t = n
    · exact htn ▸ h.planned
    · exact hs.planned t (hrest t ht htn).2.1
  case held =>
    intro t ht b x hx
    rw [h.tallocs]
    by_cases htn : t = n
    · subst htn
      exact hs.held p h.allocated b x ((hholds b x).mp hx)
    · obtain ⟨_, ht, hplaced⟩ := hrest t ht htn
      exact hs.held t ht b x (hplaced ▸ hx)
  case apart =>
    intro t u hne ht hu b x hx hy
    by_cases htn : t = n
    · subst htn
      obtain ⟨hup, hu, hplaced⟩ := hrest u hu (Ne.symm hne)
      exact hs.apart u p hup hu h.allocated b x (hplaced ▸ hy) ((hholds b x).mp hx)
    · obtain ⟨htp, ht, hplaced⟩ := hrest t ht htn
      rw [hplaced] at hx
      by_cases hun : u = n
      · subst hun
        exact hs.apart t p htp ht h.allocated b x hx ((hholds b x).mp hy)
      · obtain ⟨_, hu, hplaced⟩ := hrest u hu hun
        exact hs.apart t u hne ht hu b x hx (hplaced ▸ hy)
  case bounded =>
    intro t ht
    rw [h.tallocs]
    by_cases htn : t = n
    · subst htn
      have := hs.bounded p h.allocated
      rw [Gallocr.placed, h.entry, paddedSize_eq (Layout.same_iff.mp h.inplace.2)]
      exact this
    · obtain ⟨_, ht, hplaced⟩ := hrest t ht htn
      rw [hplaced]
      exact hs.bounded t ht

theorem Freed.reserved (h : Freed B G s s' r) (hs : Reserved B G s) (hr : s.Allocated r) :
    Reserved B G s' ∧ ∀ b, (s.tallocs b).maxSize ≤ (s'.tallocs b).maxSize := by
  obtain ⟨talloc, hfree, htallocs⟩ := h.tallocs
  set buft := B.bufts (s.placed r).1 with hbuft
  have hgives :
      DynTallocr.Gives (s.tallocs buft) talloc (s.placed r).2 (paddedSize B G buft r) := by
    have hheld (x : ℕ) (hx : InRange (s.placed r).2 (paddedSize B G buft r) x) :
        ¬ (s.tallocs buft).Free x :=
      hs.held r hr buft x ⟨rfl, hx⟩
    rw [paddedSize, ← hs.alignment buft] at hheld ⊢
    exact DynTallocr.freeTensor_gives (hs.separate buft) hheld hfree
  have hself : s'.tallocs buft = talloc := by rw [htallocs, Function.update_self]
  have hother (b : ℕ) (hb : b ≠ buft) : s'.tallocs b = s.tallocs b := by
    rw [htallocs, Function.update_of_ne hb]
  have hmax (b : ℕ) : (s'.tallocs b).maxSize = (s.tallocs b).maxSize := by
    by_cases hb : b = buft
    · rw [hb, hself, hgives.maxSize]
    · rw [hother b hb]
  -- only what the tensor held became free
  have hfreed (b x : ℕ) (hx : (s'.tallocs b).Free x) :
      (s.tallocs b).Free x ∨ Holds B G (s.placed r) r b x := by
    by_cases hb : b = buft
    · subst hb
      rw [hself] at hx
      exact ((hgives.free x).mp hx).imp_right fun hx => ⟨rfl, hx⟩
    · exact Or.inl (hother b hb ▸ hx)
  have hrest (t : ℕ) (ht : s'.Allocated t) : t ≠ r ∧ s.Allocated t ∧ s'.placed t = s.placed t := by
    have htr : t ≠ r := by
      rintro rfl
      rw [Gallocr.Allocated, h.entry] at ht
      cases ht
    have hentry := h.other t htr
    exact ⟨htr, (Gallocr.allocated_congr hentry).mp ht, Gallocr.placed_congr hentry⟩
  refine ⟨?_, fun b => (hmax b).ge⟩
  constructor
  case alignment =>
    intro b
    by_cases hb : b = buft
    · rw [hb, hself, hgives.alignment, hs.alignment]
    · rw [hother b hb, hs.alignment]
  case separate =>
    intro b
    by_cases hb : b = buft
    · rw [hb, hself]
      exact hgives.separate
    · rw [hother b hb]
      exact hs.separate b
  case planned => exact fun t ht => hs.planned t (hrest t ht).2.1
  case held =>
    intro t ht b x hx hfree
    obtain ⟨htr, ht, hplaced⟩ := hrest t ht
    rw [hplaced] at hx
    rcases hfreed b x hfree with hfree | hheld
    · exact hs.held t ht b x hx hfree
    · exact hs.apart t r htr ht hr b x hx hheld
  case apart =>
    intro t u hne ht hu b x
    obtain ⟨_, ht, hplaced⟩ := hrest t ht
    obtain ⟨_, hu, hplaced'⟩ := hrest u hu
    rw [hplaced, hplaced']
    exact hs.apart t u hne ht hu b x
  case bounded =>
    intro t ht
    obtain ⟨_, ht, hplaced⟩ := hrest t ht
    rw [hplaced, hmax]
    exact hs.bounded t ht

/-- A parent is taken over only when it is not a view: a view is never marked as allocated. -/
theorem reuseParent_takesOver (hs : Reserved B G s) (hself : n ∉ (G.tensor n).sources)
    (hplanned : Planned G n) (hinplace : (G.tensor n).op.canInplace = true)
    (hp : p ∈ (G.tensor n).sources)
    (h : reuseParent G (s.setAllocated n true) n p = some s') : TakesOver G s s' n p := by
  have hne : p ≠ n := by
    rintro rfl
    exact hself hp
  have hentry : (s.setAllocated n true).entry p = s.entry p := by
    rw [Gallocr.entry_setAllocated, if_neg hne]
  have hcounts : (s.setAllocated n true).counts p = s.counts p := Gallocr.counts_setAllocated
  rw [reuseParent] at h
  split at h
  case isTrue => cases h
  case isFalse hown =>
  split at h
  case isTrue => cases h
  case isFalse houtput =>
  split at h
  case isTrue => cases h
  case isFalse hlayout =>
  split at h
  case isFalse => cases h
  case isTrue hlast =>
  have hallocated : s.Allocated p := by
    rw [Gallocr.Allocated, ← hentry]
    exact Bool.not_eq_false _ ▸ hown
  rw [(hs.planned p hallocated).2] at h
  cases h
  rw [Bool.or_eq_true, not_or, Bool.not_eq_true] at houtput
  refine
    { planned := hplanned
      inplace := ⟨hinplace, Bool.not_eq_false _ ▸ hlayout⟩
      source := hp
      ne := hne
      allocated := hallocated
      output := houtput.1
      last := ?last
      entry := ?entry
      parent := ?before
      other := fun u hun hup => ?other
      counts := ?counts
      tallocs := rfl }
  case last => exact hcounts.symm.trans (Prod.ext hlast.1 hlast.2)
  case entry =>
    rw [Gallocr.entry_setAllocated, if_neg (Ne.symm hne), Gallocr.entry_setPlace, if_pos rfl,
      Gallocr.entry_setAllocated, if_pos rfl]
    exact congrArg (true, ·) (congrArg Prod.snd hentry)
  case before =>
    rw [Gallocr.entry_setAllocated, if_pos rfl, Gallocr.entry_setPlace, if_neg hne, hentry]
    rfl
  case other =>
    rw [Gallocr.entry_setAllocated, if_neg hup, Gallocr.entry_setPlace, if_neg hun,
      Gallocr.entry_setAllocated, if_neg hun]
  case counts =>
    funext u
    rw [Gallocr.counts_setAllocated, Gallocr.counts_setPlace, Gallocr.counts_setAllocated]

/-- What `ggml_gallocr_allocate_node` can do. -/
theorem allocateNode_cases (hs : Reserved B G s)
    (hself : Planned G n → (G.tensor n).op.canInplace = true → n ∉ (G.tensor n).sources)
    (h : allocateNode B G s n bufferId = some s') :
    (s.Allocated n ∨ ¬ Planned G n) ∧ s' = s ∨ Fresh B G s s' n bufferId ∨
      ∃ p, TakesOver G s s' n p := by
  rw [allocateNode] at h
  dsimp only at h
  split at h
  case isTrue hdone =>
    cases h
    refine Or.inl ⟨?_, rfl⟩
    rw [isAllocated, Bool.or_eq_true, Bool.or_eq_true] at hdone
    rcases hdone with (hdata | hall) | hview
    · refine Or.inr fun hplanned => ?_
      rw [hplanned.1] at hdata
      cases hdata
    · exact Or.inl hall
    · refine Or.inr fun hplanned => ?_
      rw [Tensor.isView, hplanned.2] at hview
      cases hview
  case isFalse hnew =>
    have hplanned : Planned G n := by
      rw [isAllocated, Tensor.isView, Bool.or_eq_true, Bool.or_eq_true] at hnew
      refine ⟨?_, ?_⟩
      · exact not_isSome_iff_eq_none.mp fun hdata => hnew (Or.inl (Or.inl hdata))
      · exact not_isSome_iff_eq_none.mp fun hview => hnew (Or.inr hview)
    right
    split at h
    case h_1 s₁ hreuse =>
      cases h
      split at hreuse
      case isTrue hinplace =>
        obtain ⟨p, hp, hreuse⟩ := List.exists_of_findSome?_eq_some hreuse
        have hself := hself hplanned hinplace
        exact Or.inr ⟨p, reuseParent_takesOver hs hself hplanned hinplace hp hreuse⟩
      case isFalse => cases hreuse
    case h_2 =>
      obtain ⟨⟨offset, talloc⟩, halloc, h⟩ := bind_eq_some_iff.mp h
      cases h
      refine Or.inl ⟨hplanned, ⟨offset, ?_, talloc, halloc, rfl⟩, fun u hu => ?_,
        funext fun u => ?_⟩
      · change ((s.setAllocated n true).setPlace n bufferId offset).entry n = _
        rw [Gallocr.entry_setPlace, if_pos rfl, Gallocr.entry_setAllocated, if_pos rfl]
      · change ((s.setAllocated n true).setPlace n bufferId offset).entry u = _
        rw [Gallocr.entry_setPlace, if_neg hu, Gallocr.entry_setAllocated, if_neg hu]
      · change ((s.setAllocated n true).setPlace n bufferId offset).counts u = _
        rw [Gallocr.counts_setPlace, Gallocr.counts_setAllocated]

/-- There is nothing to do for a tensor that is allocated or not planned. -/
theorem allocateNode_of_allocated (h : s.Allocated n ∨ ¬ Planned G n) :
    allocateNode B G s n bufferId = some s := by
  rw [allocateNode]
  refine if_pos ?_
  rw [isAllocated, Tensor.isView, Bool.or_eq_true, Bool.or_eq_true]
  rcases h with hall | hplanned
  · exact Or.inl (Or.inr hall)
  · rw [Planned, not_and_or] at hplanned
    rcases hplanned with hdata | hview
    · exact Or.inl (Or.inl (isSome_iff_ne_none.mpr hdata))
    · exact Or.inr (isSome_iff_ne_none.mpr hview)

/-- What `ggml_gallocr_free_node` can do. -/
theorem freeNode_cases (h : freeNode B G s r = some s') :
    (G.tensor r).output = true ∧ s' = s ∨ (G.tensor r).output = false ∧ Freed B G s s' r := by
  rw [freeNode] at h
  dsimp only at h
  split at h
  case isTrue hout =>
    cases h
    exact Or.inl ⟨hout, rfl⟩
  case isFalse hout =>
    obtain ⟨talloc, hfree, h⟩ := bind_eq_some_iff.mp h
    cases h
    refine Or.inr ⟨Bool.not_eq_true _ ▸ hout, ?_, fun u hu => ?_, ⟨talloc, hfree, rfl⟩,
      funext fun u => ?_⟩
    · change (s.setAllocated r false).entry r = _
      rw [Gallocr.entry_setAllocated, if_pos rfl]
      rfl
    · change (s.setAllocated r false).entry u = _
      rw [Gallocr.entry_setAllocated, if_neg hu]
    · change (s.setAllocated r false).counts u = _
      rw [Gallocr.counts_setAllocated]

end Effects

end ExpertPin.Galloc
