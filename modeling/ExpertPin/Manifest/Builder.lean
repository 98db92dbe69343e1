import ExpertPin.Lib.Dict
import ExpertPin.Lib.JsonText
import Mathlib.Algebra.GroupWithZero.Nat
import Mathlib.Data.List.Sort

/-!
# Building a manifest of resident experts

`scripts/build-expert-manifest.py`: from a histogram of expert accesses to the text of a manifest
with the most accessed experts of each layer, as many of each layer as fit a budget of bytes.
What is a decimal digit is an input, since Python knows those of all scripts.
-/

namespace ExpertPin.Manifest

open List
open Nat

abbrev Text := List Char

/-! ## The histogram -/

section Histogram

variable (digit : Char → Option ℕ)

/-- What `LAYER_RE` lets follow the number of the layer; its `$` also matches before a final line
break. -/
def suffixes : List Text :=
  [".ffn_up_exps.weight", ".ffn_gate_exps.weight", ".ffn_down_exps.weight",
    ".ffn_up_exps.weight\n", ".ffn_gate_exps.weight\n", ".ffn_down_exps.weight\n"].map String.toList

/-- The layer of a tensor whose name matches `LAYER_RE`. -/
def layerOf (name : Text) : Option ℕ :=
  if "blk.".toList.isPrefixOf name then
    let rest := name.drop 4
    let digits := rest.takeWhile fun c => (digit c).isSome
    let suffix := rest.dropWhile fun c => (digit c).isSome
    if digits ≠ [] ∧ suffix ∈ suffixes then
      some (digits.foldl (fun n c => 10 * n + (digit c).getD 0) 0)
    else none
  else none

/-- The experts of a layer with their counts. -/
abbrev Counts := List (ℕ × ℕ)

/-- The loop over the counts of one tensor, of which the first is the count of expert `idx`. -/
def countTensor (slot : Counts) : ℕ → List ℕ → Counts
  | _, [] => slot
  | idx, c :: counts =>
    countTensor (if c ≠ 0 then Dict.set slot idx (max ((slot.lookup idx).getD 0) c) else slot)
      (idx + 1) counts

/-- One tensor of the histogram. -/
def addTensor (layers : List (ℕ × Counts)) (tensor : Text × List ℕ) : List (ℕ × Counts) :=
  match layerOf digit tensor.1 with
  | none => layers
  | some layer =>
    Dict.set layers layer (countTensor ((layers.lookup layer).getD []) 0 tensor.2)

/-- `load_histogram` of the counts of the tensors. -/
def loadHistogram (tensors : List (Text × List ℕ)) : Option (List (ℕ × Counts)) :=
  let layers := tensors.foldl (addTensor digit) []
  if tensors = [] ∨ layers = [] then none else some layers

end Histogram

/-! ## The experts of each layer -/

/-- The sorting key: more accesses first, then smaller ids. -/
def before (counts : Counts) (a b : ℕ) : Bool :=
  let count (e : ℕ) := (counts.lookup e).getD 0
  count b < count a ∨ count a = count b ∧ a ≤ b

/-- `order_experts` -/
def orderExperts (layers : List (ℕ × Counts)) : List (ℕ × List ℕ) :=
  layers.map fun p => (p.1, (p.2.map Prod.fst).mergeSort (before p.2))

/-! ## How many fit -/

/-- The loop of `choose_k`, with `n` values left. -/
def chooseFrom (perK : ℕ) (budget : ℤ) (best : ℕ) : ℕ → ℕ
  | 0 => best
  | n + 1 =>
    if (((best + 1) * perK : ℕ) : ℤ) ≤ budget then chooseFrom perK budget (best + 1) n else best

/-- The bytes for each further expert of all layers. -/
def bytesPerK (orders : List (ℕ × List ℕ)) (expertBytes : ℕ → ℕ) : ℕ :=
  (orders.map fun p => expertBytes p.1).sum

/-- `choose_k` -/
def chooseK (orders : List (ℕ × List ℕ)) (expertBytes : ℕ → ℕ) (budget : ℤ) : ℕ :=
  let kmax := ((orders.map fun p => p.2.length).min?).getD 0
  chooseFrom (bytesPerK orders expertBytes) budget 0 kmax

/-! ## The manifest -/

/-- The first `k` experts of each layer, in the order of the layers. -/
def chosen (orders : List (ℕ × List ℕ)) (k : ℕ) : List (ℕ × List ℕ) :=
  (orders.mergeSort fun a b => a.1 ≤ b.1).map fun p => (p.1, p.2.take k)

/-- `build_manifest` -/
def buildManifest (orders : List (ℕ × List ℕ)) (k : ℕ) : Option Json :=
  if k < 1 then none
  else
    let layers := (chosen orders k).map fun p =>
      (Nat.toDigits 10 p.1, Json.array (p.2.map fun e : ℕ => .int e))
    some (.object [("layers".toList, .object layers)])

/-- What `main` does with a histogram, the bytes of an expert of each layer and a budget: the number
of experts, and the text of the manifest. -/
def writeManifest (digit : Char → Option ℕ) (tensors : List (Text × List ℕ))
    (expertBytes : ℕ → ℕ) (budget : ℤ) : Option (ℕ × Text) := do
  let layers ← loadHistogram digit tensors
  let orders := orderExperts layers
  let k := chooseK orders expertBytes budget
  let manifest ← buildManifest orders k
  some (k, manifest.write 0 ++ ['\n'])

/-!
## What is chosen

The dictionary that the builder fills has the largest count of each expert
(`counted_loadHistogram`), the list of a layer is in the order of these counts
(`orderExperts_spec`), and the number that is chosen is the largest that fits (`chooseK_spec`).
-/

variable {digit : Char → Option ℕ} {tensors : List (Text × List ℕ)}

/-! ## Counting -/

/-- The accesses of an expert in a layer: the largest of the counts in the layer's tensors. -/
def accesses (digit : Char → Option ℕ) (tensors : List (Text × List ℕ)) (layer e : ℕ) : ℕ :=
  ((tensors.filter fun t => layerOf digit t.1 = some layer).map fun t => t.2.getD e 0).foldl max 0

/-- The layers that the histogram has tensors of. -/
def Recorded (digit : Char → Option ℕ) (tensors : List (Text × List ℕ)) (layer : ℕ) : Prop :=
  ∃ t ∈ tensors, layerOf digit t.1 = some layer

theorem nodup_countTensor {slot : Counts} (h : (slot.map Prod.fst).Nodup) (idx : ℕ)
    (counts : List ℕ) : ((countTensor slot idx counts).map Prod.fst).Nodup := by
  induction counts generalizing slot idx with
  | nil => exact h
  | cons c counts ih =>
    rw [countTensor]
    split
    case isTrue => exact ih (Dict.nodup_set h) _
    case isFalse => exact ih h _

theorem lookup_countTensor (slot : Counts) (idx : ℕ) (counts : List ℕ) (e : ℕ) :
    ((countTensor slot idx counts).lookup e).getD 0 =
      max ((slot.lookup e).getD 0) (if idx ≤ e then counts.getD (e - idx) 0 else 0) := by
  induction counts generalizing slot idx with
  | nil => simp [countTensor]
  | cons c counts ih =>
    rw [countTensor, ih]
    -- the first count is that of `idx`, the others come after it
    rcases Nat.lt_trichotomy e idx with hlt | rfl | hgt
    · have hne : e ≠ idx := hlt.ne
      rw [if_neg (Nat.not_le_of_lt (hlt.trans (Nat.lt_succ_self _))), if_neg (Nat.not_le_of_lt hlt)]
      split
      · rw [Dict.lookup_set, if_neg hne]
      · rfl
    · rw [if_neg (Nat.not_succ_le_self e), if_pos le_rfl, Nat.sub_self, getD_cons_zero,
        Nat.max_zero]
      split
      case isTrue => rw [Dict.lookup_set, if_pos rfl, Option.getD_some]
      case isFalse hc => rw [not_not.mp hc, Nat.max_zero]
    · have hne : e ≠ idx := hgt.ne'
      have hsub : e - idx = e - (idx + 1) + 1 := by omega
      rw [if_pos (Nat.succ_le_of_lt hgt), if_pos hgt.le, hsub, getD_cons_succ]
      split
      · rw [Dict.lookup_set, if_neg hne]
      · rfl

theorem mem_countTensor {slot : Counts} {idx : ℕ} {counts : List ℕ} {e : ℕ}
    (h : e ∈ (countTensor slot idx counts).map Prod.fst) :
    e ∈ slot.map Prod.fst ∨ e < idx + counts.length := by
  induction counts generalizing slot idx with
  | nil => exact .inl h
  | cons c counts ih =>
    rw [countTensor] at h
    have hlen : idx + (c :: counts).length = idx + 1 + counts.length := by
      rw [length_cons]
      omega
    rw [hlen]
    rcases ih h with hslot | hlt
    · split at hslot
      case isTrue =>
        rcases Dict.mem_map_fst_set.mp hslot with hold | rfl
        · exact .inl hold
        · exact .inr (by omega)
      case isFalse => exact .inl hslot
    · exact .inr hlt

/-- What the dictionary of the layers has after some tensors. -/
structure Counted (digit : Char → Option ℕ) (tensors : List (Text × List ℕ))
    (layers : List (ℕ × Counts)) : Prop where
  nodup : (layers.map Prod.fst).Nodup
  recorded : ∀ layer, layer ∈ layers.map Prod.fst ↔ Recorded digit tensors layer
  distinct : ∀ p ∈ layers, (p.2.map Prod.fst).Nodup
  counts : ∀ layer e, (((layers.lookup layer).getD []).lookup e).getD 0 =
    accesses digit tensors layer e
  experts : ∀ p ∈ layers, ∀ e ∈ p.2.map Prod.fst, ∃ t ∈ tensors,
    layerOf digit t.1 = some p.1 ∧ e < t.2.length

theorem accesses_concat (tensors : List (Text × List ℕ)) (t : Text × List ℕ) (layer e : ℕ) :
    accesses digit (tensors ++ [t]) layer e = if layerOf digit t.1 = some layer then
        max (accesses digit tensors layer e) (t.2.getD e 0)
      else accesses digit tensors layer e := by
  rw [accesses, filter_append, map_append, foldl_append]
  split
  case isTrue h =>
    rw [filter_cons_of_pos (by simpa using h)]
    rfl
  case isFalse h =>
    rw [filter_cons_of_neg (by simpa using h)]
    rfl

theorem recorded_concat {t : Text × List ℕ} {layer : ℕ} : Recorded digit (tensors ++ [t]) layer ↔
      Recorded digit tensors layer ∨ layerOf digit t.1 = some layer := by
  simp only [Recorded, mem_append, mem_singleton, or_and_right, exists_or, exists_eq_left]

variable {layers : List (ℕ × Counts)}

/-- The experts of a layer so far, none of them twice. -/
theorem Counted.slot (h : Counted digit tensors layers) (layer : ℕ) :
    (((layers.lookup layer).getD []).map Prod.fst).Nodup ∧
      ∀ e ∈ ((layers.lookup layer).getD []).map Prod.fst, ∃ t ∈ tensors,
        layerOf digit t.1 = some layer ∧ e < t.2.length := by
  cases hlookup : layers.lookup layer with
  | none => exact ⟨nodup_nil, fun e he => absurd he not_mem_nil⟩
  | some slot =>
    have hmem := Dict.mem_of_lookup hlookup
    exact ⟨h.distinct _ hmem, h.experts _ hmem⟩

theorem Counted.addTensor (h : Counted digit tensors layers)
    (t : Text × List ℕ) : Counted digit (tensors ++ [t]) (addTensor digit layers t) := by
  have hmono {layer e : ℕ} (hold : ∃ u ∈ tensors, layerOf digit u.1 = some layer ∧ e < u.2.length) :
      ∃ u ∈ tensors ++ [t], layerOf digit u.1 = some layer ∧ e < u.2.length := by
    obtain ⟨u, hu, hlayer⟩ := hold
    exact ⟨u, mem_append_left _ hu, hlayer⟩
  rw [Manifest.addTensor]
  cases hlayer : layerOf digit t.1 with
  | none =>
    refine ⟨h.nodup, fun other => ?_, h.distinct, fun other e => ?_, fun p hp e he => ?_⟩
    · rw [recorded_concat, hlayer, h.recorded]
      exact (or_iff_left (fun hnone => by cases hnone)).symm
    · rw [accesses_concat, hlayer, if_neg (fun hnone => by cases hnone)]
      exact h.counts other e
    · exact hmono (h.experts p hp e he)
  | some layer =>
    obtain ⟨hdistinct, hexperts⟩ := h.slot layer
    refine ⟨Dict.nodup_set h.nodup, fun other => ?_, fun p hp => ?_, fun other e => ?_,
      fun p hp e he => ?_⟩
    · rw [Dict.mem_map_fst_set, recorded_concat, hlayer, h.recorded, Option.some.injEq,
        eq_comm (a := other)]
    · rcases Dict.mem_set hp with hold | rfl
      · exact h.distinct p hold
      · exact nodup_countTensor hdistinct 0 t.2
    · rw [Dict.lookup_set, accesses_concat, hlayer]
      by_cases hother : other = layer
      · rw [if_pos hother, if_pos (congrArg some hother.symm), Option.getD_some,
          lookup_countTensor, if_pos (Nat.zero_le e), Nat.sub_zero, h.counts, hother]
      · rw [if_neg hother, if_neg fun hsame => hother (Option.some.inj hsame).symm]
        exact h.counts other e
    · rcases Dict.mem_set hp with hold | rfl
      · exact hmono (h.experts p hold e he)
      · rcases mem_countTensor he with hold | hlt
        · exact hmono (hexperts e hold)
        · refine ⟨t, mem_append_right _ (mem_singleton_self t), hlayer, ?_⟩
          rwa [Nat.zero_add] at hlt

theorem counted_foldl (tensors : List (Text × List ℕ)) :
    Counted digit tensors (tensors.foldl (addTensor digit) []) := by
  induction tensors using reverseRecOn with
  | nil =>
    refine ⟨nodup_nil, fun layer => ?_, fun p hp => absurd hp not_mem_nil,
      fun layer e => rfl, fun p hp => absurd hp not_mem_nil⟩
    refine iff_of_false not_mem_nil ?_
    rintro ⟨t, ht, _⟩
    exact not_mem_nil ht
  | append_singleton tensors t ih =>
    rw [foldl_concat]
    exact ih.addTensor t

theorem counted_loadHistogram
    (h : loadHistogram digit tensors = some layers) :
    layers ≠ [] ∧ Counted digit tensors layers := by
  rw [loadHistogram] at h
  split at h
  case isTrue => cases h
  case isFalse hvalid =>
    cases h
    exact ⟨(not_or.mp hvalid).2, counted_foldl tensors⟩

/-! ## The order of the experts -/

theorem before_iff {counts : Counts} {a b : ℕ} : before counts a b = true ↔
      (counts.lookup b).getD 0 < (counts.lookup a).getD 0 ∨
        (counts.lookup a).getD 0 = (counts.lookup b).getD 0 ∧ a ≤ b := by
  simp [before]

/-- The list of a layer has the layer's experts, most accesses first. -/
theorem orderExperts_spec (counts : Counts) :
    let order := (counts.map Prod.fst).mergeSort (before counts)
    (∀ e, e ∈ order ↔ e ∈ counts.map Prod.fst) ∧ ((counts.map Prod.fst).Nodup → order.Nodup) ∧
      order.Pairwise fun a b => (counts.lookup b).getD 0 ≤ (counts.lookup a).getD 0 := by
  refine ⟨fun e => mem_mergeSort, fun h => (mergeSort_perm _ _).nodup_iff.mpr h, ?_⟩
  refine (pairwise_mergeSort ?_ ?_ _).imp fun h => ?_
  · intro a b c hab hbc
    rw [before_iff] at hab hbc ⊢
    omega
  · intro a b
    rw [Bool.or_eq_true, before_iff, before_iff]
    omega
  · rcases before_iff.mp h with hlt | heq
    · exact hlt.le
    · exact heq.1.ge

/-! ## The number that is chosen -/

theorem chooseFrom_spec (perK : ℕ) (budget : ℤ) (best n : ℕ) :
    best ≤ chooseFrom perK budget best n ∧ chooseFrom perK budget best n ≤ best + n ∧
      (best < chooseFrom perK budget best n →
        ((chooseFrom perK budget best n * perK : ℕ) : ℤ) ≤ budget) ∧
      (chooseFrom perK budget best n < best + n →
        budget < (((chooseFrom perK budget best n + 1) * perK : ℕ) : ℤ)) := by
  induction n generalizing best with
  | zero => exact ⟨le_rfl, le_rfl, fun h => absurd h (lt_irrefl _), fun h => absurd h (lt_irrefl _)⟩
  | succ n ih =>
    rw [chooseFrom]
    split
    case isTrue hfits =>
      obtain ⟨hlo, hhi, hbest, hmax⟩ := ih (best + 1)
      refine ⟨le_of_succ_le hlo, by omega, fun _ => ?_, fun h => hmax (by omega)⟩
      rcases lt_or_eq_of_le hlo with hlt | heq
      · exact hbest hlt
      · rwa [← heq]
    case isFalse hnot =>
      exact ⟨le_rfl, le_add_right _ _, fun h => absurd h (lt_irrefl _), fun _ => not_le.mp hnot⟩

/-- What is chosen fits the budget and every list, and nothing larger does. -/
theorem chooseK_spec {orders : List (ℕ × List ℕ)} (horders : orders ≠ []) (expertBytes : ℕ → ℕ)
    (budget : ℤ) (hpos : 0 < chooseK orders expertBytes budget) :
    (∀ p ∈ orders, chooseK orders expertBytes budget ≤ p.2.length) ∧
      ((chooseK orders expertBytes budget * bytesPerK orders expertBytes : ℕ) : ℤ) ≤ budget ∧
      ∀ k, chooseK orders expertBytes budget < k →
        (∀ p ∈ orders, k ≤ p.2.length) → budget < ((k * bytesPerK orders expertBytes : ℕ) : ℤ) := by
  obtain ⟨kmax, hkmax⟩ : ∃ kmax, (orders.map fun p => p.2.length).min? = some kmax := by
    cases hmin : (orders.map fun p => p.2.length).min? with
    | none => exact absurd (map_eq_nil_iff.mp (min?_eq_none_iff.mp hmin)) horders
    | some kmax => exact ⟨kmax, rfl⟩
  obtain ⟨hmem, hleast⟩ := min?_eq_some_iff.mp hkmax
  have hspec := chooseFrom_spec (bytesPerK orders expertBytes) budget 0 kmax
  have hchoose : chooseK orders expertBytes budget =
      chooseFrom (bytesPerK orders expertBytes) budget 0 kmax := by
    rw [chooseK, hkmax]
    rfl
  rw [hchoose] at hpos ⊢
  obtain ⟨_, hhi, hfits, hmax⟩ := hspec
  refine ⟨fun p hp => ?_, hfits hpos, fun k hk hall => ?_⟩
  · rw [zero_add] at hhi
    exact hhi.trans (hleast _ (mem_map.mpr ⟨p, hp, rfl⟩))
  · obtain ⟨p, hp, hlen⟩ := mem_map.mp hmem
    have hkle : k ≤ kmax := hlen ▸ hall p hp
    refine (hmax (by omega)).trans_le ?_
    exact_mod_cast mul_le_mul_right _ (succ_le_of_lt hk)

end ExpertPin.Manifest
