import ExpertPin.Join.Inventory
import ExpertPin.Lib.Fuel
import Mathlib.Data.List.Pairwise
import Mathlib.Data.List.Sort

/-!
# Where the expert tensors lie

The spans of a shard's tensors follow each other without overlap (`pairwise_spans`), and every
tensor of an inventory that has been compared with the headers is one of them (`Located`).
-/

namespace ExpertPin.Join

open List

/-! ## The spans of a shard -/

variable {tensors : List HeaderTensor} {p : HeaderTensor × ℕ}

theorem offset_le_of_mem_spansUntil {last : ℕ}
    (h : p ∈ spansUntil last tensors) : p.1 ∈ tensors := by
  induction tensors using spansUntil.induct with
  | case1 => cases h
  | case2 t => exact mem_singleton.mpr (congrArg Prod.fst (mem_singleton.mp h))
  | case3 t next tensors ih =>
    rcases mem_cons.mp h with rfl | h
    · exact mem_cons_self
    · exact mem_cons_of_mem t (ih h)

/-- In the order of the offsets each span ends before the next begins. -/
theorem pairwise_spansUntil {last : ℕ}
    (h : tensors.Pairwise fun a b => a.offset ≤ b.offset) :
    (spansUntil last tensors).Pairwise fun p q => p.2 ≤ q.1.offset := by
  induction tensors using spansUntil.induct with
  | case1 => exact List.Pairwise.nil
  | case2 t => exact pairwise_singleton _ _
  | case3 t next tensors ih =>
    obtain ⟨_, htail⟩ := pairwise_cons.mp h
    refine pairwise_cons.mpr ⟨fun q hq => ?_, ih htail⟩
    rcases mem_cons.mp (offset_le_of_mem_spansUntil hq) with hnext | hlater
    · exact (congrArg HeaderTensor.offset hnext).ge
    · exact rel_of_pairwise_cons htail hlater

theorem stop_le_of_mem_spansUntil {last : ℕ}
    (h : ∀ t ∈ tensors, t.offset ≤ last)
    (hp : p ∈ spansUntil last tensors) : p.2 ≤ last := by
  induction tensors using spansUntil.induct with
  | case1 => cases hp
  | case2 t => exact (congrArg Prod.snd (mem_singleton.mp hp)).le
  | case3 t next tensors ih =>
    rcases mem_cons.mp hp with rfl | hp
    · exact h next (mem_cons_of_mem t mem_cons_self)
    · exact ih (fun u hu => h u (mem_cons_of_mem t hu)) hp

theorem pairwise_spans (s : Shard) : s.spans.Pairwise fun p q => p.2 ≤ q.1.offset := by
  have hsorted : s.normalized.Pairwise fun a b => a.offset ≤ b.offset := by
    refine (pairwise_mergeSort ?_ ?_ s.tensors).imp fun h => of_decide_eq_true h
    · intro a b c hab hbc
      exact decide_eq_true ((of_decide_eq_true hab).trans (of_decide_eq_true hbc))
    · intro a b
      rw [Bool.or_eq_true, decide_eq_true_iff, decide_eq_true_iff]
      exact Nat.le_total _ _
  exact pairwise_spansUntil hsorted

/-- One of two spans ends before the other begins. -/
def Apart (p q : HeaderTensor × ℕ) : Prop := p.2 ≤ q.1.offset ∨ q.2 ≤ p.1.offset

instance : Std.Symm Apart := ⟨fun _ _ h => h.symm⟩

/-- Two tensors of a shard with different names have spans that do not overlap. -/
theorem apart_of_mem_spans {s : Shard} {p q : HeaderTensor × ℕ} (hp : p ∈ s.spans)
    (hq : q ∈ s.spans) (hne : p.1.name ≠ q.1.name) : Apart p q := by
  have hall : s.spans.Pairwise Apart := (pairwise_spans s).imp Or.inl
  exact hall.forall hp hq fun h => hne (congrArg (fun p => p.1.name) h)

/-! ## The tensors of an inventory -/

/-- A tensor of the inventory lies in one of the shards: its header has the tensor with the offset
and the span of the inventory, and the span holds all experts. -/
def Located (shards : List Shard) (p : Text × Tensor) : Prop :=
  ∃ s ∈ shards, s.name = p.2.shard ∧ s.start ≤ s.fileSize ∧
    p.2.dataStart = some s.start ∧ p.2.fileSize = some s.fileSize ∧
    ∃ t stop, (t, stop) ∈ s.spans ∧ t.name = p.1 ∧ t.offset = p.2.relativeOffset ∧
      t.dims = p.2.dims ∧ t.ggmlType = p.2.ggmlType ∧
      t.offset + p.2.stride * p.2.experts ≤ stop ∧ stop ≤ s.fileSize - s.start

/-- The tensors by name, while the headers are compared. -/
structure Matching (shards : List Shard) (names : List Text) (seen : Seen) : Prop where
  nodup : names.Nodup
  names : seen.byName.map Prod.fst = names
  stride : ∀ p ∈ seen.byName, expertStride p.2.dims p.2.ggmlType = some p.2.stride
  located : ∀ p ∈ seen.byName, p.1 ∈ seen.experts → Located shards p

theorem map_fst_fill (s : Shard) (name : Text) (byName : ByName) :
    (fill s name byName).map Prod.fst = byName.map Prod.fst := by
  rw [fill, map_map]
  refine map_congr_left fun p _ => ?_
  simp only [Function.comp_apply]
  split
  · rfl
  · rfl

theorem mem_of_lookup {byName : ByName} {name : Text} {t : Tensor}
    (h : byName.lookup name = some t) : (name, t) ∈ byName := by
  obtain ⟨before, after, rfl, _⟩ := lookup_eq_some_iff.mp h
  exact mem_append_right before mem_cons_self

/-- A tensor of a header that is within its shard keeps the comparison. -/
theorem Matching.visit {shards : List Shard} {names : List Text} {s : Shard} {seen seen' : Seen}
    (h : Matching shards names seen) (hs : s ∈ shards)
    (hstart : s.start ≤ s.fileSize) (hp : p ∈ s.spans) (hstop : p.2 ≤ s.fileSize - s.start)
    (hvisit : Join.visit s seen p = some seen') : Matching shards names seen' := by
  obtain ⟨t, stop⟩ := p
  rw [Join.visit] at hvisit
  split at hvisit
  case isTrue => cases hvisit
  case isFalse hlt =>
    split at hvisit
    case isTrue =>
      cases hvisit
      exact h
    case isFalse =>
      obtain ⟨expected, hexpected, hvisit⟩ := Option.bind_eq_some_iff.mp hvisit
      obtain ⟨stride, hstride, hvisit⟩ := Option.bind_eq_some_iff.mp hvisit
      split at hvisit
      case isFalse => cases hvisit
      case isTrue hmatch =>
        obtain ⟨⟨hshard, hdims, htype, hoffset, hspan⟩, hfits⟩ := hmatch
        cases hvisit
        have hmem := mem_of_lookup hexpected
        have hsame (q : Text × Tensor) (hq : q ∈ seen.byName) (hname : q.1 = t.name) :
            q = (t.name, expected) := by
          have hnodup := h.nodup
          rw [← h.names] at hnodup
          exact inj_on_of_nodup_map hnodup hq hmem hname
        refine ⟨h.nodup, ?_, fun q hq => ?_, fun q hq hseen => ?_⟩
        · rw [map_fst_fill]
          exact h.names
        · obtain ⟨q, hold, rfl⟩ := mem_map.mp hq
          split
          · exact h.stride q hold
          · exact h.stride q hold
        · obtain ⟨q, hold, rfl⟩ := mem_map.mp hq
          split at hseen
          case isTrue hname =>
            obtain rfl := hsame q hold hname
            rw [if_pos rfl]
            have hstrideEq : expected.stride = stride := by
              have hexpectedStride := h.stride _ hmem
              rw [hdims, htype, hstride] at hexpectedStride
              exact (Option.some.inj hexpectedStride).symm
            refine ⟨s, hs, hshard.symm, hstart, rfl, rfl, t, stop, hp, rfl, hoffset.symm,
              hdims.symm, htype.symm, ?_, hstop⟩
            change t.offset + expected.stride * expected.dims.getD 2 0 ≤ stop
            rw [hstrideEq, hdims]
            have hle := Nat.add_le_add_left hfits t.offset
            rwa [Nat.add_sub_cancel' (Nat.le_of_not_lt fun hnot => hlt hnot.not_gt)] at hle
          case isFalse hname =>
            rw [if_neg hname]
            refine h.located q hold ?_
            exact (mem_cons.mp hseen).resolve_left hname

/-- The tensors of a shard lie within its data. -/
theorem offset_lt_of_checkTensor {s : Shard} {alignment : ℕ} {names names' : List Text}
    {t : HeaderTensor} (h : checkTensor s alignment names t = some names') :
    t.offset < s.fileSize - s.start := by
  rw [checkTensor] at h
  split at h
  case isTrue hvalid => exact hvalid.2.2.2.2
  case isFalse => cases h

theorem Matching.visitShard {shards : List Shard} {names : List Text} {s : Shard}
    {seen seen' : Seen} (h : Matching shards names seen) (hs : s ∈ shards)
    (hvisit : visitShard seen s = some seen') : Matching shards names seen' := by
  obtain ⟨alignment, _, hvisit⟩ := Option.bind_eq_some_iff.mp hvisit
  obtain ⟨_, hnames, hvisit⟩ := Option.bind_eq_some_iff.mp hvisit
  split at hvisit
  case isFalse => cases hvisit
  case isTrue hvalid =>
    have hoffset (t : HeaderTensor) (ht : t ∈ s.normalized) : t.offset ≤ s.fileSize - s.start := by
      obtain ⟨_, _, hcheck⟩ := exists_of_foldlM hnames (mem_mergeSort.mp ht)
      exact (offset_lt_of_checkTensor hcheck).le
    refine foldlM_invariant_of_mem (P := Matching shards names) ?_ hvisit ?_
    · intro p hp a a' ha hone
      exact ha.visit hs hvalid.2.2.2.1 hp (stop_le_of_mem_spansUntil hoffset hp) hone
    · exact ⟨h.nodup, h.names, h.stride, h.located⟩

/-! ## The inventory as it is loaded -/

theorem stride_of_loadTensor {tensor : Json} {p : Text × Tensor} (h : loadTensor tensor = some p) :
    expertStride p.2.dims p.2.ggmlType = some p.2.stride := by
  -- the name, the shard and the two numbers
  obtain ⟨_, _, h⟩ := Option.bind_eq_some_iff.mp h
  obtain ⟨_, _, h⟩ := Option.bind_eq_some_iff.mp h
  obtain ⟨_, _, h⟩ := Option.bind_eq_some_iff.mp h
  obtain ⟨_, _, h⟩ := Option.bind_eq_some_iff.mp h
  obtain ⟨_, _, h⟩ := Option.bind_eq_some_iff.mp h
  obtain ⟨_, _, h⟩ := Option.bind_eq_some_iff.mp h
  obtain ⟨_, _, h⟩ := Option.bind_eq_some_iff.mp h
  obtain ⟨_, _, h⟩ := Option.bind_eq_some_iff.mp h
  -- the dimensions and the type
  obtain ⟨_, _, h⟩ := Option.bind_eq_some_iff.mp h
  obtain ⟨_, _, h⟩ := Option.bind_eq_some_iff.mp h
  obtain ⟨_, _, h⟩ := Option.bind_eq_some_iff.mp h
  obtain ⟨_, _, h⟩ := Option.bind_eq_some_iff.mp h
  obtain ⟨_, _, h⟩ := Option.bind_eq_some_iff.mp h
  obtain ⟨stride, hstride, h⟩ := Option.bind_eq_some_iff.mp h
  split at h
  case isTrue =>
    cases h
    exact hstride
  case isFalse => cases h

/-- What `load_inventory` makes sure of. -/
structure Loaded (byName : ByName) : Prop where
  nodup : (byName.map Prod.fst).Nodup
  stride : ∀ p ∈ byName, expertStride p.2.dims p.2.ggmlType = some p.2.stride

theorem Loaded.addTensor {byName byName' : ByName} {tensor : Json} (h : Loaded byName)
    (hadd : addTensor byName tensor = some byName') : Loaded byName' := by
  obtain ⟨⟨name, entry⟩, hload, hadd⟩ := Option.bind_eq_some_iff.mp hadd
  dsimp only at hadd
  split at hadd
  case isTrue => cases hadd
  case isFalse hnew =>
    cases hadd
    have hname : name ∉ byName.map Prod.fst := by
      intro hmem
      obtain ⟨p, hp, rfl⟩ := mem_map.mp hmem
      exact hnew (lookup_isSome_iff.mpr ⟨p, hp, beq_self_eq_true p.1⟩)
    refine ⟨?_, fun p hp => ?_⟩
    · rw [map_append, map_singleton]
      refine nodup_append.mpr ⟨h.nodup, nodup_singleton _, ?_⟩
      rintro _ hold _ hnew rfl
      rw [mem_singleton.mp hnew] at hold
      exact hname hold
    · rcases mem_append.mp hp with hold | hone
      · exact h.stride p hold
      · rw [mem_singleton.mp hone]
        exact stride_of_loadTensor hload

theorem loaded_of_loadInventory {inventory : Json} {model : Text} {byName : ByName}
    (h : loadInventory inventory = some (model, byName)) : Loaded byName := by
  obtain ⟨_, _, h⟩ := Option.bind_eq_some_iff.mp h
  obtain ⟨_, _, h⟩ := Option.bind_eq_some_iff.mp h
  obtain ⟨_, _, h⟩ := Option.bind_eq_some_iff.mp h
  obtain ⟨_, _, h⟩ := Option.bind_eq_some_iff.mp h
  obtain ⟨_, _, h⟩ := Option.bind_eq_some_iff.mp h
  obtain ⟨loaded, hloaded, h⟩ := Option.bind_eq_some_iff.mp h
  dsimp only at h
  split at h
  case isFalse => cases h
  case isTrue =>
    cases h
    refine foldlM_invariant (P := Loaded) (fun a b a' ha hone => ha.addTensor hone) hloaded ?_
    exact ⟨nodup_nil, fun p hp => absurd hp not_mem_nil⟩

/-- Every tensor of an inventory that has been validated lies in one of the shards. -/
theorem located_of_validateHeaders {inventory : Json} {model : Text} {directory : Directory}
    {byName byName' : ByName} (hload : loadInventory inventory = some (model, byName))
    (h : validateHeaders inventory directory byName = some byName') :
    (byName'.map Prod.fst).Nodup ∧
      (∀ p ∈ byName', expertStride p.2.dims p.2.ggmlType = some p.2.stride) ∧
      ∀ p ∈ byName', Located directory.shards p := by
  have hloaded := loaded_of_loadInventory hload
  obtain ⟨seen, hseen, h⟩ := Option.bind_eq_some_iff.mp h
  split at h
  case isFalse => cases h
  case isTrue hvalid =>
    cases h
    have hmatching : Matching directory.shards (byName.map Prod.fst) seen := by
      refine foldlM_invariant_of_mem ?_ hseen ?_
      · exact fun s hs a a' ha hone => ha.visitShard hs hone
      · exact ⟨hloaded.nodup, rfl, hloaded.stride, fun p _ hp => absurd hp not_mem_nil⟩
    refine ⟨hmatching.names ▸ hmatching.nodup, hmatching.stride, fun p hp => ?_⟩
    refine hmatching.located p hp ?_
    -- the names are still those of the inventory, all of which have been seen
    have hname : p.1 ∈ byName.map Prod.fst := hmatching.names ▸ mem_map_of_mem hp
    obtain ⟨q, hq, hqname⟩ := mem_map.mp hname
    exact hqname ▸ of_decide_eq_true (all_eq_true.mp hvalid.2.2 q hq)

end ExpertPin.Join
