import ExpertPin.Manifest.Builder
import Mathlib.Tactic.NormNum

/-!
# Loading a manifest of resident experts

`src/llama-expert-manifest.cpp`: a manifest is parsed, validated against the dimensions of a model,
and the first experts of a layer are selected.  Errors carry no text here.  An object of the JSON
library is a map, so the last member of a key counts; the order in which its members are visited
decides only which error is reported.
-/

namespace ExpertPin.Manifest

open List

structure ExpertManifest where
  layers : List (ℕ × List ℕ)
  source : List Char
deriving DecidableEq, Repr

/-- `parse_layer_key`: a number of 32 bits without a sign. -/
def parseLayerKey (key : List Char) : Option ℕ :=
  let layer := Nat.ofDigitChars 10 key 0
  if key ≠ [] ∧ key.all Char.isDigit ∧ layer < 2 ^ 32 then some layer else none

/-- `parse_expert_id` -/
def parseExpertId : Json → Option ℕ
  | .int id => if 0 ≤ id ∧ id < 2 ^ 32 then some id.toNat else none
  | _ => none

/-- One layer of the manifest. -/
def addLayer (layers : List (ℕ × List ℕ)) (member : List Char × Json) :
    Option (List (ℕ × List ℕ)) := do
  let layer ← parseLayerKey member.1
  let ids ← (← member.2.array?).mapM parseExpertId
  if ids ≠ [] ∧ ids.Nodup ∧ layer ∉ layers.map Prod.fst then some (layers ++ [(layer, ids)])
  else none

/-- A byte order mark at the beginning is skipped. -/
def skipBom (text : List Char) : List Char :=
  if text.head? = some '\uFEFF' then text.tail else text

/-- `llama_expert_manifest_parse` -/
def parse (text source : List Char) : Option ExpertManifest := do
  let root ← (← Json.read (skipBom text)).object?
  let root := Dict.ofItems root
  let wrappers := (["layers", "pinned_experts", "kept_experts"].map String.toList).filter fun key =>
    (root.lookup key).isSome
  let layerMap ← match wrappers with
    | [] => some root
    | [wrapper] => ((root.lookup wrapper).bind Json.object?).map Dict.ofItems
    | _ => none
  if layerMap = [] then none
  else
    let layers ← layerMap.foldlM addLayer []
    some { layers, source }

/-- A size cast to `int32_t`. -/
def castInt32 (n : ℕ) : ℤ := (n : ℤ).bmod (2 ^ 32)

/-- `llama_expert_manifest_validate`, whether it returns. -/
def validate (manifest : ExpertManifest) (nLayers nExperts : UInt32) (residentExperts : ℤ) :
    Bool :=
  0 ≤ residentExperts ∧ manifest.layers.all fun (layer, ids) =>
    layer < nLayers.toNat ∧ ¬residentExperts > castInt32 ids.length ∧
      ids.all fun id => id < nExperts.toNat

/-- `llama_expert_manifest_select` -/
def select (manifest : ExpertManifest) (layer k : ℕ) : Option (List ℕ) :=
  (manifest.layers.lookup layer).map fun ids => ids.take (min k ids.length)

/-!
## From a histogram to the resident experts

The manifest that the builder writes is accepted by the loader, and the experts that the loader
selects are the most accessed ones of each layer, as many as fit (`manifest_resident`).
-/

/-! ## Reading a manifest back -/

theorem plainChar_of_isDigit {c : Char} (h : c.isDigit = true) : Json.PlainChar c := by
  have hne {d : Char} (hd : d.isDigit = false) : c ≠ d := Json.ne_of_isDigit h hd
  refine ⟨hne (by decide), hne (by decide), ?_⟩
  rw [Char.isDigit, Bool.and_eq_true, decide_eq_true_iff, decide_eq_true_iff] at h
  have hlo : 48 ≤ c.toNat := h.1
  have hhi : c.toNat ≤ 57 := h.2
  omega

theorem isDigit_toDigits (n : ℕ) : ∀ c ∈ Nat.toDigits 10 n, c.isDigit = true :=
  fun _ hc => Nat.isDigit_of_mem_toDigits (by decide) (by decide) hc

theorem parseLayerKey_toDigits {layer : ℕ} (h : layer < 2 ^ 32) :
    parseLayerKey (Nat.toDigits 10 layer) = some layer := by
  rw [parseLayerKey, Nat.ofDigitChars_ten_toDigits]
  exact if_pos ⟨Nat.toDigits_ne_nil, all_eq_true.mpr (isDigit_toDigits layer), h⟩

theorem mapM_parseExpertId {ids : List ℕ} (h : ∀ id ∈ ids, id < 2 ^ 32) :
    (ids.map fun id : ℕ => Json.int id).mapM parseExpertId = some ids := by
  induction ids with
  | nil => rfl
  | cons id ids ih =>
    have hid : parseExpertId (.int id) = some id := by
      have hlt : (id : ℤ) < 2 ^ 32 := by exact_mod_cast h id mem_cons_self
      rw [parseExpertId, if_pos ⟨Int.natCast_nonneg id, hlt⟩, Int.toNat_natCast]
    rw [map_cons, mapM_cons, hid, ih fun other hother =>
      h other (mem_cons_of_mem id hother)]
    rfl

/-- A layer and its list as a member of the manifest. -/
def member (p : ℕ × List ℕ) : Text × Json :=
  (Nat.toDigits 10 p.1, .array (p.2.map fun id : ℕ => .int id))

/-- A layer that can be recorded. -/
structure Recordable (p : ℕ × List ℕ) : Prop where
  layer : p.1 < 2 ^ 32
  ids : ∀ id ∈ p.2, id < 2 ^ 32
  nonempty : p.2 ≠ []
  nodup : p.2.Nodup

theorem addLayer_member {layers : List (ℕ × List ℕ)} {p : ℕ × List ℕ} (h : Recordable p)
    (hnew : p.1 ∉ layers.map Prod.fst) : addLayer layers (member p) = some (layers ++ [p]) := by
  rw [addLayer, member, parseLayerKey_toDigits h.layer, Json.array?]
  dsimp only [Option.bind_eq_bind, Option.bind_some]
  rw [mapM_parseExpertId h.ids, Option.bind_some, if_pos ⟨h.nonempty, h.nodup, hnew⟩]

theorem foldlM_addLayer {layers items : List (ℕ × List ℕ)} (h : ∀ p ∈ items, Recordable p)
    (hnodup : ((layers ++ items).map Prod.fst).Nodup) :
    (items.map member).foldlM addLayer layers = some (layers ++ items) := by
  induction items generalizing layers with
  | nil => rw [append_nil]; rfl
  | cons p items ih =>
    have hnew : p.1 ∉ layers.map Prod.fst := by
      rw [map_append, nodup_append] at hnodup
      exact fun hmem => hnodup.2.2 p.1 hmem p.1 mem_cons_self rfl
    rw [map_cons, foldlM_cons, addLayer_member (h p mem_cons_self) hnew]
    change (items.map member).foldlM addLayer (layers ++ [p]) = _
    rw [ih (fun q hq => h q (mem_cons_of_mem p hq)), append_assoc]
    · rfl
    · rwa [append_assoc]

theorem toDigits_injective : Function.Injective (Nat.toDigits 10) := by
  intro a b h
  have hparsed := congrArg (Nat.ofDigitChars 10 · 0) h
  simpa only [Nat.ofDigitChars_ten_toDigits] using hparsed

theorem nodup_member {items : List (ℕ × List ℕ)} (h : (items.map Prod.fst).Nodup) :
    ((items.map member).map Prod.fst).Nodup := by
  have hkeys : (items.map member).map Prod.fst = (items.map Prod.fst).map (Nat.toDigits 10) := by
    rw [map_map, map_map]
    rfl
  rw [hkeys]
  exact h.map toDigits_injective

/-- The document of a manifest. -/
def document (items : List (ℕ × List ℕ)) : Json :=
  .object [("layers".toList, .object (items.map member))]

theorem plainItems_ids (ids : List ℕ) : Json.PlainItems (ids.map fun id : ℕ => .int id) := by
  induction ids with
  | nil => trivial
  | cons id ids ih => exact ⟨trivial, ih⟩

theorem plain_document (items : List (ℕ × List ℕ)) : (document items).Plain := by
  have hmembers : Json.PlainMembers (items.map member) := by
    induction items with
    | nil => trivial
    | cons p items ih =>
      refine ⟨fun c hc => plainChar_of_isDigit (isDigit_toDigits p.1 c hc), ?_, ih⟩
      exact plainItems_ids p.2
  refine ⟨fun c hc => ?_, hmembers, trivial⟩
  have hletter : c = 'l' ∨ c = 'a' ∨ c = 'y' ∨ c = 'e' ∨ c = 'r' ∨ c = 's' := by simpa using hc
  rcases hletter with rfl | rfl | rfl | rfl | rfl | rfl <;> simp [Json.PlainChar]

/-- The text of a manifest is parsed to what it was made of. -/
theorem parse_document {items : List (ℕ × List ℕ)} (h : ∀ p ∈ items, Recordable p)
    (hnodup : (items.map Prod.fst).Nodup) (hne : items ≠ []) (source : Text) :
    parse ((document items).write 0 ++ ['\n']) source = some { layers := items, source } := by
  have hread : Json.read ((document items).write 0 ++ ['\n']) = some (document items) :=
    Json.read_write (plain_document items) (by decide) (Json.ends_cons (.inr rfl) []) 0
  have hbom : skipBom ((document items).write 0 ++ ['\n']) =
      (document items).write 0 ++ ['\n'] := by
    obtain ⟨text, htext⟩ : ∃ text, (document items).write 0 = '\x7b' :: text := ⟨_, rfl⟩
    rw [htext]
    exact if_neg fun hbom => absurd (Option.some.inj hbom) (by decide)
  have hmembers : items.map member ≠ [] := fun h => hne (map_eq_nil_iff.mp h)
  have hlayers := @foldlM_addLayer [] items h (by rwa [nil_append])
  let root : List (Text × Json) := [("layers".toList, .object (items.map member))]
  have hroot : Dict.ofItems root = root := rfl
  have hwrappers : (["layers", "pinned_experts", "kept_experts"].map String.toList).filter
      (fun key => (root.lookup key).isSome) = ["layers".toList] := rfl
  have hmap : ((root.lookup "layers".toList).bind Json.object?).map Dict.ofItems =
      some (items.map member) := congrArg some (Dict.ofItems_of_nodup (nodup_member hnodup))
  rw [parse, hbom, hread, document, Option.bind_eq_bind, Option.bind_some, Json.object?]
  dsimp only [Option.bind_eq_bind, Option.bind_some]
  rw [hroot, hwrappers]
  dsimp only
  rw [hmap, Option.bind_some, if_neg hmembers, hlayers]
  rfl

/-! ## From a histogram to the resident experts -/

variable {digit : Char → Option ℕ} {tensors : List (Text × List ℕ)} {expertBytes : ℕ → ℕ}
  {budget : ℤ} {k : ℕ} {text : Text}

/-- Each tensor that counts belongs to a layer of the model, and has one count for each expert. -/
def OfModel (digit : Char → Option ℕ) (tensors : List (Text × List ℕ))
    (nLayers nExperts : UInt32) : Prop :=
  ∀ t ∈ tensors, ∀ layer, layerOf digit t.1 = some layer →
    layer < nLayers.toNat ∧ t.2.length = nExperts.toNat

/-- So many experts, none of them twice, the most accessed of the layer and in this order. -/
structure MostAccessed (digit : Char → Option ℕ) (tensors : List (Text × List ℕ)) (layer k : ℕ)
    (ids : List ℕ) : Prop where
  length : ids.length = k
  nodup : ids.Nodup
  ordered : ids.Pairwise fun a b => accesses digit tensors layer b ≤ accesses digit tensors layer a
  most : ∀ e ∉ ids, ∀ i ∈ ids, accesses digit tensors layer e ≤ accesses digit tensors layer i

/-- What was written is the document of what was chosen. -/
theorem written_cases (h : writeManifest digit tensors expertBytes budget = some (k, text)) :
    ∃ layers, loadHistogram digit tensors = some layers ∧ 0 < k ∧
      k = chooseK (orderExperts layers) expertBytes budget ∧
      text = (document (chosen (orderExperts layers) k)).write 0 ++ ['\n'] := by
  rw [writeManifest] at h
  dsimp only [Option.bind_eq_bind] at h
  obtain ⟨layers, hlayers, h⟩ := Option.bind_eq_some_iff.mp h
  obtain ⟨manifest, hmanifest, h⟩ := Option.bind_eq_some_iff.mp h
  cases h
  rw [buildManifest] at hmanifest
  split at hmanifest
  case isTrue => cases hmanifest
  case isFalse hpos =>
    cases hmanifest
    exact ⟨layers, hlayers, not_lt.mp hpos, rfl, rfl⟩

theorem mem_chosen {orders : List (ℕ × List ℕ)} {p : ℕ × List ℕ} :
    p ∈ chosen orders k ↔ ∃ q ∈ orders, (q.1, q.2.take k) = p := by
  simp only [chosen, mem_map, mem_mergeSort]

theorem nodup_chosen {orders : List (ℕ × List ℕ)} (h : (orders.map Prod.fst).Nodup) :
    ((chosen orders k).map Prod.fst).Nodup := by
  have hkeys : (chosen orders k).map Prod.fst =
      (orders.mergeSort fun a b => a.1 ≤ b.1).map Prod.fst := by
    rw [chosen, map_map]
    rfl
  rw [hkeys, ((mergeSort_perm orders _).map Prod.fst).nodup_iff]
  exact h

theorem map_fst_orderExperts (layers : List (ℕ × Counts)) :
    (orderExperts layers).map Prod.fst = layers.map Prod.fst := by
  rw [orderExperts, map_map]
  rfl

/-- The first experts of a layer's list are its most accessed ones. -/
theorem mostAccessed_take {layers : List (ℕ × Counts)} (h : Counted digit tensors layers)
    {p : ℕ × Counts} (hp : p ∈ layers)
    (hk : k ≤ ((p.2.map Prod.fst).mergeSort (before p.2)).length) :
    MostAccessed digit tensors p.1 k (((p.2.map Prod.fst).mergeSort (before p.2)).take k) := by
  obtain ⟨hmem, hnodup, hpairwise⟩ := orderExperts_spec p.2
  have hcount (e : ℕ) : (p.2.lookup e).getD 0 = accesses digit tensors p.1 e := by
    rw [← h.counts, Dict.lookup_of_mem h.nodup hp, Option.getD_some]
  simp only [hcount] at hpairwise
  rw [← take_append_drop k (mergeSort _ _), pairwise_append] at hpairwise
  obtain ⟨hordered, _, hcross⟩ := hpairwise
  refine ⟨length_take_of_le hk, (hnodup (h.distinct p hp)).sublist (take_sublist k _),
    hordered, fun e he i hi => ?_⟩
  by_cases hlisted : e ∈ p.2.map Prod.fst
  case pos =>
    rw [← hmem, ← take_append_drop k (mergeSort _ _), mem_append] at hlisted
    exact hcross i hi e (hlisted.resolve_left he)
  case neg =>
    -- an expert that was never counted has no accesses
    rw [← hcount e, Dict.lookup_eq_none hlisted]
    exact Nat.zero_le _

theorem castInt32_of_lt {n : ℕ} (h : n < 2 ^ 31) : castInt32 n = n := by
  norm_num at h
  exact Int.bmod_eq_of_le (by norm_num) (by norm_num; omega)

theorem validate_of_forall {manifest : ExpertManifest} {nLayers nExperts : UInt32}
    (hk : k < 2 ^ 31) (h : ∀ p ∈ manifest.layers, p.1 < nLayers.toNat ∧ p.2.length = k ∧
      ∀ e ∈ p.2, e < nExperts.toNat) : validate manifest nLayers nExperts k = true := by
  rw [validate, decide_eq_true_iff, all_eq_true]
  refine ⟨Int.natCast_nonneg k, fun p hp => decide_eq_true_iff.mpr ?_⟩
  obtain ⟨hin, hlength, hids⟩ := h p hp
  rw [hlength, castInt32_of_lt hk, all_eq_true]
  exact ⟨hin, lt_irrefl _, fun e he => decide_eq_true_iff.mpr (hids e he)⟩

/-- What is chosen can be recorded. -/
theorem recordable_chosen {layers : List (ℕ × Counts)} {nLayers nExperts : UInt32}
    (h : Counted digit tensors layers) (hmodel : OfModel digit tensors nLayers nExperts)
    (hpos : 0 < k) (hk : ∀ q ∈ orderExperts layers, k ≤ q.2.length) :
    ∀ p ∈ chosen (orderExperts layers) k,
      (p.1 < nLayers.toNat ∧ ∀ e ∈ p.2, e < nExperts.toNat) ∧ Recordable p ∧
        MostAccessed digit tensors p.1 k p.2 := by
  intro p hp
  obtain ⟨q, hq, rfl⟩ := mem_chosen.mp hp
  have hlength := hk q hq
  obtain ⟨l, hl, rfl⟩ := mem_map.mp hq
  have hmost := mostAccessed_take h hl hlength
  obtain ⟨t, ht, hlayer⟩ := (h.recorded l.1).mp (mem_map.mpr ⟨l, hl, rfl⟩)
  have hin := (hmodel t ht l.1 hlayer).1
  have hids : ∀ e ∈ ((l.2.map Prod.fst).mergeSort (before l.2)).take k, e < nExperts.toNat := by
    intro e he
    obtain ⟨t, ht, hlayer, hlt⟩ :=
      h.experts l hl e (((orderExperts_spec l.2).1 e).mp (mem_of_mem_take he))
    rwa [(hmodel t ht l.1 hlayer).2] at hlt
  refine ⟨⟨hin, hids⟩, ⟨hin.trans nLayers.toNat_lt, ?_, ?_, hmost.nodup⟩, hmost⟩
  · exact fun e he => (hids e he).trans nExperts.toNat_lt
  · refine ne_nil_of_length_pos ?_
    rw [hmost.length]
    exact hpos

/-- The loader accepts what the builder writes, and selects the most accessed experts of each layer,
as many as fit the budget and the lists. -/
theorem manifest_resident {nLayers nExperts : UInt32}
    (hmodel : OfModel digit tensors nLayers nExperts)
    (h : writeManifest digit tensors expertBytes budget = some (k, text)) (hk : k < 2 ^ 31)
    (source : Text) :
    ∃ layers manifest, loadHistogram digit tensors = some layers ∧
      parse text source = some manifest ∧ validate manifest nLayers nExperts k ∧
      (∀ layer, Recorded digit tensors layer →
        ∃ ids, select manifest layer k = some ids ∧ MostAccessed digit tensors layer k ids) ∧
      ((k * bytesPerK (orderExperts layers) expertBytes : ℕ) : ℤ) ≤ budget ∧
      ∀ larger, k < larger → (∀ p ∈ orderExperts layers, larger ≤ p.2.length) →
        budget < ((larger * bytesPerK (orderExperts layers) expertBytes : ℕ) : ℤ) := by
  obtain ⟨layers, hlayers, hpos, hchoose, rfl⟩ := written_cases h
  obtain ⟨hne, hcounted⟩ := counted_loadHistogram hlayers
  have horders : orderExperts layers ≠ [] := fun hnil => hne (map_eq_nil_iff.mp hnil)
  obtain ⟨hfits, hbudget, hmax⟩ := chooseK_spec horders expertBytes budget (hchoose ▸ hpos)
  rw [← hchoose] at hfits hbudget hmax
  have hrecordable := recordable_chosen hcounted hmodel hpos hfits
  have hnodup : ((chosen (orderExperts layers) k).map Prod.fst).Nodup := by
    refine nodup_chosen ?_
    rw [map_fst_orderExperts]
    exact hcounted.nodup
  have hchosen : chosen (orderExperts layers) k ≠ [] := by
    obtain ⟨q, hq⟩ := exists_mem_of_ne_nil _ horders
    exact ne_nil_of_mem (mem_chosen.mpr ⟨q, hq, rfl⟩)
  have hparse := parse_document (fun p hp => (hrecordable p hp).2.1) hnodup hchosen source
  refine ⟨layers, _, hlayers, hparse, ?_, fun layer hlayer => ?_, hbudget, hmax⟩
  · refine validate_of_forall hk fun p hp => ?_
    obtain ⟨⟨hin, hids⟩, _, hmost⟩ := hrecordable p hp
    exact ⟨hin, hmost.length, hids⟩
  · obtain ⟨l, hl, rfl⟩ := mem_map.mp ((hcounted.recorded layer).mpr hlayer)
    have hq : (l.1, (l.2.map Prod.fst).mergeSort (before l.2)) ∈ orderExperts layers :=
      mem_map.mpr ⟨l, hl, rfl⟩
    have hp : (l.1, ((l.2.map Prod.fst).mergeSort (before l.2)).take k) ∈
        chosen (orderExperts layers) k := mem_chosen.mpr ⟨_, hq, rfl⟩
    obtain ⟨_, _, hmost⟩ := hrecordable _ hp
    refine ⟨_, ?_, hmost⟩
    rw [select, Dict.lookup_of_mem hnodup hp, Option.map_some, hmost.length, Nat.min_self,
      take_take, Nat.min_self]

/-- The decimal digits of ASCII. -/
def asciiDigit (c : Char) : Option ℕ := if c.isDigit then some (c.toNat - 48) else none

/-- A layer with three experts, of which the first was never accessed. -/
def histogram : List (Text × List ℕ) :=
  [("blk.3.ffn_up_exps.weight".toList, [0, 5, 2]), ("blk.3.ffn_down_exps.weight".toList, [0, 4, 3])]

theorem writeManifest_histogram : writeManifest asciiDigit histogram (fun _ => 10) 15 =
      some (1, (document [(3, [1])]).write 0 ++ ['\n']) := by
  have hlayers : loadHistogram asciiDigit histogram = some [(3, [(1, 5), (2, 3)])] := by decide
  have horders : orderExperts [(3, [(1, 5), (2, 3)])] = [(3, [1, 2])] :=
    congrArg (fun order => [(3, order)]) (mergeSort_of_pairwise (by decide))
  have hk : chooseK [(3, [1, 2])] (fun _ => 10) 15 = 1 := by decide
  have hchosen : chosen [(3, [1, 2])] 1 = [(3, [1])] := by
    rw [chosen, mergeSort_singleton]
    rfl
  rw [writeManifest, hlayers]
  dsimp only [Option.bind_eq_bind, Option.bind_some]
  rw [horders, hk, buildManifest, if_neg (by decide), hchosen]
  rfl

theorem ofModel_histogram : OfModel asciiDigit histogram 4 3 := by
  intro t ht layer hlayer
  have hthree : layerOf asciiDigit t.1 = some 3 ∧ t.2.length = 3 :=
    (by decide : ∀ t ∈ histogram, layerOf asciiDigit t.1 = some 3 ∧ t.2.length = 3) t ht
  rw [hthree.1] at hlayer
  cases hlayer
  exact ⟨by decide, hthree.2⟩

/-- A budget for one expert of three. -/
theorem manifest_resident_histogram :
    ∃ layers manifest, loadHistogram asciiDigit histogram = some layers ∧
      parse ((document [(3, [1])]).write 0 ++ ['\n']) [] = some manifest ∧
      validate manifest 4 3 (1 : ℕ) ∧
      (∀ layer, Recorded asciiDigit histogram layer → ∃ ids, select manifest layer 1 = some ids ∧
          MostAccessed asciiDigit histogram layer 1 ids) ∧
      ((1 * bytesPerK (orderExperts layers) (fun _ => 10) : ℕ) : ℤ) ≤ 15 ∧
      ∀ larger, 1 < larger → (∀ p ∈ orderExperts layers, larger ≤ p.2.length) →
        (15 : ℤ) < ((larger * bytesPerK (orderExperts layers) (fun _ => 10) : ℕ) : ℤ) :=
  manifest_resident ofModel_histogram writeManifest_histogram (by decide) []

end ExpertPin.Manifest
