import ExpertPin.Draft.NgramFiles

/-!
# Saved n-gram caches

A file has the n-grams of the cache in the order of its entries, each with its tokens.  Loading
it puts them into a cache of the same entries (`load_save`).  With that, caches that are fed a
history piece by piece form a commutative monoid under merging whose elements can be stored
(`ngramCaches`).
-/

namespace ExpertPin.Draft.NgramCache

open Records (Reads Reader)
open List

variable {cache : NgramCache} {es : List (Ngram × Token)}

/-! ## Reading fields back -/

theorem reads_guard {p : Prop} [Decidable p] (h : p) : Reads (guard p) [] () := by
  intro rest
  rw [guard, if_pos h]
  rfl

theorem reads_int32 (x : Int32) : Reads readInt32 (int32Bytes x) x :=
  (@Records.reads_word 4 x.toBitVec).map

theorem reads_ngram (ngram : Ngram) : Reads readNgram (ngramBytes ngram) ngram := by
  have hlist : Reads (Records.list (fun _ => readInt32) 0 (List.ofFn ngram).length)
      ((List.ofFn ngram).flatMap int32Bytes) ((List.ofFn ngram).map id) :=
    Records.reads_list_of_mem (fun x _ _ => reads_int32 x) 0
  have htokens : (fun i : Fin ngramMax => ((List.ofFn ngram).map id).getD i.val tokenNull) =
      ngram := by
    funext i
    rw [List.map_id, List.getD_eq_getElem _ _ (by rw [List.length_ofFn]; exact i.isLt),
      List.getElem_ofFn]
  rw [List.length_ofFn] at hlist
  have hread := hlist.map (f := fun tokens (i : Fin ngramMax) => tokens.getD i.val tokenNull)
  rw [htokens] at hread
  exact hread

/-- A token in a file. -/
def tokenBytes (tokenCount : TokenCount) : List UInt8 :=
  int32Bytes tokenCount.1 ++ int32Bytes tokenCount.2

theorem reads_tokens {entries : List TokenCount} (h : ∀ e ∈ entries, 0 < e.2.toInt)
    (part : NgramCachePart) :
    Reads (loadTokens entries.length part) (entries.flatMap tokenBytes)
      (entries.foldl Tables.emplace part) := by
  induction entries generalizing part with
  | nil => exact Records.reads_pure part
  | cons e entries ih =>
    obtain ⟨hpos, hrest⟩ := forall_mem_cons.mp h
    rw [flatMap_cons, tokenBytes, append_assoc]
    exact (reads_int32 e.1).bind ((reads_int32 e.2).bind ((reads_guard hpos).first (ih hrest _)))

/-- An n-gram whose tokens can be written. -/
def Writable (part : NgramCachePart) : Prop :=
  part.entries ≠ [] ∧ part.entries.length < 2 ^ 31 ∧ ∀ e ∈ part.entries, 0 < e.2.toInt

def partBytes (part : NgramCachePart) : List UInt8 :=
  int32Bytes (Int32.ofNat part.entries.length) ++ part.entries.flatMap tokenBytes

/-- The part of an n-gram that is loaded. -/
def reloaded (part : NgramCachePart) : NgramCachePart := part.entries.foldl Tables.emplace ∅

theorem lookup_reloaded (part : NgramCachePart) (token : Token) :
    (reloaded part).lookup token = part.lookup token := by
  rw [reloaded, Tables.lookup_foldl_emplace]
  rfl

variable {part : NgramCachePart}

theorem Writable.toInt_length (h : Writable part) :
    (Int32.ofNat part.entries.length).toInt = part.entries.length ∧ (0 : ℤ) < part.entries.length :=
  ⟨Int32.toInt_ofNat_of_lt h.2.1, Int.natCast_pos.mpr (length_pos_of_ne_nil h.1)⟩

theorem reads_part (h : Writable part) : Reads loadPart (partBytes part) (reloaded part) := by
  obtain ⟨hlength, hpos⟩ := h.toInt_length
  refine (reads_int32 _).bind ((reads_guard (hlength ▸ hpos)).first ?_)
  rw [hlength, Int.toNat_natCast]
  exact reads_tokens h.2.2 ∅

/-! ## Writing -/

theorem mapM_saveToken {entries : List TokenCount} (h : ∀ e ∈ entries, 0 < e.2.toInt) :
    entries.mapM saveToken = some (entries.map tokenBytes) := by
  induction entries with
  | nil => rfl
  | cons e entries ih =>
    obtain ⟨hpos, hrest⟩ := forall_mem_cons.mp h
    rw [mapM_cons, saveToken, if_pos hpos, ih hrest]
    rfl

def itemBytes (item : (_ : Ngram) × NgramCachePart) : List UInt8 :=
  ngramBytes item.1 ++ partBytes item.2

theorem saveNgram_eq {item : (_ : Ngram) × NgramCachePart} (h : Writable item.2) :
    saveNgram item = some (itemBytes item) := by
  obtain ⟨hlength, hpos⟩ := h.toInt_length
  have hlt : 0 < (Int32.ofNat item.2.entries.length).toInt := hlength ▸ hpos
  simp only [saveNgram, guard, if_pos h.1, if_pos hlt, mapM_saveToken h.2.2]
  show some (ngramBytes item.1 ++ _ ++ (item.2.entries.map tokenBytes).flatten) = _
  rw [itemBytes, partBytes, append_assoc, flatMap_def]

theorem mapM_saveNgram {items : List ((_ : Ngram) × NgramCachePart)}
    (h : ∀ item ∈ items, Writable item.2) :
    items.mapM saveNgram = some (items.map itemBytes) := by
  induction items with
  | nil => rfl
  | cons item items ih =>
    obtain ⟨hitem, hrest⟩ := forall_mem_cons.mp h
    rw [mapM_cons, saveNgram_eq hitem, ih hrest]
    rfl

/-! ## Loading -/

theorem readNgram_nil : readNgram [] = none := rfl

theorem length_itemBytes_pos (item : (_ : Ngram) × NgramCachePart) :
    0 < (itemBytes item).length := by
  refine length_pos_of_ne_nil fun hnil => ?_
  have hread := reads_ngram item.1 (partBytes item.2)
  have hbytes : ngramBytes item.1 ++ partBytes item.2 = [] := hnil
  rw [hbytes, readNgram_nil] at hread
  exact nomatch hread

theorem length_le_flatMap (items : List ((_ : Ngram) × NgramCachePart)) :
    items.length ≤ (items.flatMap itemBytes).length := by
  induction items with
  | nil => exact Nat.le_refl 0
  | cons item items ih =>
    rw [flatMap_cons, length_append, length_cons, Nat.add_comm]
    exact Nat.add_le_add (length_itemBytes_pos item) ih

/-- Each turn loads the next n-gram, and the loop ends behind the last one. -/
theorem loadLoop_eq {items : List ((_ : Ngram) × NgramCachePart)}
    (h : ∀ item ∈ items, Writable item.2) (cache : NgramCache) {fuel : ℕ}
    (hfuel : items.length < fuel) :
    loadLoop fuel cache (items.flatMap itemBytes) =
      some ((items.map (.map id fun _ => reloaded)).foldl Tables.emplace cache) := by
  induction items generalizing cache fuel with
  | nil =>
    obtain ⟨fuel, rfl⟩ := Nat.exists_eq_add_one_of_ne_zero (Nat.ne_zero_of_lt hfuel)
    rw [flatMap_nil, loadLoop, readNgram_nil]
    rfl
  | cons item items ih =>
    obtain ⟨hitem, hrest⟩ := forall_mem_cons.mp h
    obtain ⟨fuel, rfl⟩ := Nat.exists_eq_add_one_of_ne_zero (Nat.ne_zero_of_lt hfuel)
    rw [flatMap_cons, loadLoop, itemBytes, append_assoc, reads_ngram item.1]
    dsimp only
    rw [reads_part hitem]
    exact ih hrest _ (Nat.lt_of_succ_lt_succ hfuel)

theorem same_of_lookup {cache cache' : NgramCache} (f : NgramCachePart → NgramCachePart)
    (hf : ∀ part token, (f part).lookup token = part.lookup token)
    (h : ∀ ngram, cache'.lookup ngram = (cache.lookup ngram).map f) : cache'.Same cache := by
  funext ngram
  rw [view, view, h ngram, Option.map_map]
  exact congrArg (fun g => (cache.lookup ngram).map g) (funext fun part => funext (hf part))

theorem load_save (h : ∀ item ∈ cache.entries, Writable item.2) :
    ∃ bytes cache', save cache = some bytes ∧ load bytes = some cache' ∧ cache'.Same cache := by
  refine ⟨cache.entries.flatMap itemBytes, _, ?_,
    loadLoop_eq h ∅ (Nat.lt_succ_of_le (length_le_flatMap cache.entries)), ?_⟩
  · rw [save, mapM_saveNgram h, flatMap_def]
    rfl
  · refine same_of_lookup reloaded lookup_reloaded fun ngram => ?_
    rw [Tables.lookup_foldl_emplace, AList.lookup_empty, Option.none_or]
    exact dlookup_map₂ ngram

/-- What a cache counts can be written. -/
theorem Holds.writable (h : cache.Holds es) (hfits : Fits es)
    (htokens : ∀ item ∈ cache.entries, item.2.entries.length < 2 ^ 31) :
    ∀ item ∈ cache.entries, Writable item.2 := by
  intro item hitem
  have hpart : cache.lookup item.1 = some item.2 := AList.mem_lookup_iff.mpr hitem
  refine ⟨h.entries_ne_nil hpart, htokens item hitem, fun e he => ?_⟩
  exact (h.toInt_of_lookup hfits hpart (AList.mem_lookup_iff.mpr he)).2

/-! ## Caches of histories -/

/-- A history that comes in pieces, and the sizes of n-grams that are counted. -/
structure Feeding where
  ngramMin : ℕ
  ngramMax : ℕ
  pieces : List (List Token)

namespace Feeding

def built (f : Feeding) : NgramCache := feed f.ngramMin f.ngramMax f.pieces

def inp (f : Feeding) : List Token := f.pieces.flatten

/-- The cache after a single call. -/
def builtAtOnce (f : Feeding) : NgramCache :=
  update ∅ f.ngramMin f.ngramMax f.inp f.inp.length

/-- The tokens after n-grams in the history. -/
def entered (f : Feeding) : List (Ngram × Token) := enteredAll f.ngramMin f.ngramMax f.inp

/-- How often a token comes after an n-gram. -/
def seen (f : Feeding) (ngram : Ngram) (token : Token) : ℕ := f.entered.count (ngram, token)

theorem holds_built (f : Feeding) : f.built.Holds f.entered :=
  holds_feed f.ngramMin f.ngramMax f.pieces

end Feeding

/-- The counts of both caches. -/
structure Adds (merged cache cache' : NgramCache) : Prop where
  view_eq : merged.view = Tables.merge cache.view cache'.view
  toInt_count : ∀ ngram token, (merged.count ngram token).toInt =
    (cache.count ngram token).toInt + (cache'.count ngram token).toInt

theorem Holds.adds {cache cache' merged : NgramCache} {es fs : List (Ngram × Token)}
    (h : cache.Holds es) (h' : cache'.Holds fs) (hmerged : merged.Holds (es ++ fs))
    (hfits : Fits (es ++ fs)) : merged.Adds cache cache' := by
  constructor
  case view_eq => rw [hmerged, map_tally_append, h, h']
  case toInt_count =>
    intro ngram token
    rw [hmerged.count_eq, h.count_eq, h'.count_eq, Int32.toInt_ofNat_of_lt (hfits _),
      Int32.toInt_ofNat_of_lt (hfits.of_append_left _),
      Int32.toInt_ofNat_of_lt (hfits.of_append_right _), count_append, Nat.cast_add]

/-- Merging adds the counts of a cache that stays as it is, whichever of the two it is. -/
def MergesWith (cache cache' : NgramCache) : Prop :=
  ∃ merged merged', merge cache cache' = some (merged, cache') ∧ merged.Adds cache cache' ∧
    merge cache' cache = some (merged', cache) ∧ merged.Same merged'

/-- It does not matter which caches are merged first. -/
def Associates (a b c : NgramCache) : Prop :=
  ∃ ab abc bc abc', merge a b = some (ab, b) ∧ merge ab c = some (abc, c) ∧
    merge b c = some (bc, c) ∧ merge a bc = some (abc', bc) ∧ abc.Same abc'

/-- A saved cache is loaded again. -/
def Restores (cache : NgramCache) : Prop :=
  ∃ bytes cache', save cache = some bytes ∧ load bytes = some cache' ∧ cache'.Same cache

theorem Holds.mergesWith {cache cache' : NgramCache} {es fs : List (Ngram × Token)}
    (h : cache.Holds es) (h' : cache'.Holds fs) (hfits : Fits (es ++ fs)) :
    cache.MergesWith cache' := by
  obtain ⟨merged, hmerge, hmerged⟩ := exists_merge h h' hfits
  obtain ⟨merged', hmerge', hmerged'⟩ := exists_merge h' h (hfits.perm perm_append_comm)
  exact ⟨merged, merged', hmerge, h.adds h' hmerged hfits, hmerge',
    hmerged.same hmerged' perm_append_comm⟩

theorem Holds.associates {a b c : NgramCache} {es fs gs : List (Ngram × Token)}
    (ha : a.Holds es) (hb : b.Holds fs) (hc : c.Holds gs) (hfits : Fits (es ++ fs ++ gs)) :
    Associates a b c := by
  have hright : Fits (es ++ (fs ++ gs)) := append_assoc es fs gs ▸ hfits
  obtain ⟨ab, hmergeAb, hab⟩ := exists_merge ha hb hfits.of_append_left
  obtain ⟨abc, hmergeAbc, habc⟩ := exists_merge hab hc hfits
  obtain ⟨bc, hmergeBc, hbc⟩ := exists_merge hb hc hright.of_append_right
  obtain ⟨abc', hmergeAbc', habc'⟩ := exists_merge ha hbc hright
  refine ⟨ab, abc, bc, abc', hmergeAb, hmergeAbc, hmergeBc, hmergeAbc', ?_⟩
  exact habc.same habc' (append_assoc es fs gs ▸ .refl _)

/-- Updates after each piece of a history count as a single one does.  While an `int32_t` has
room for the counts, merging such caches adds them, in any order, and saving keeps them. -/
theorem ngramCaches : (∀ f : Feeding, f.built.Same f.builtAtOnce) ∧
    (∀ f g : Feeding, (∀ ngram token, f.seen ngram token + g.seen ngram token < 2 ^ 31) →
      f.built.MergesWith g.built) ∧
    (∀ f g h : Feeding,
      (∀ ngram token, f.seen ngram token + g.seen ngram token + h.seen ngram token < 2 ^ 31) →
      Associates f.built g.built h.built) ∧
    ∀ f : Feeding, (∀ ngram token, f.seen ngram token < 2 ^ 31) →
      (∀ item ∈ f.built.entries, item.2.entries.length < 2 ^ 31) → f.built.Restores := by
  refine ⟨fun f => feed_same f.ngramMin f.ngramMax f.pieces, ?_, ?_, ?_⟩
  · intro f g hcounts
    refine f.holds_built.mergesWith g.holds_built fun e => ?_
    rw [count_append]
    exact hcounts e.1 e.2
  · intro f g h hcounts
    refine f.holds_built.associates g.holds_built h.holds_built fun e => ?_
    rw [count_append, count_append]
    exact hcounts e.1 e.2
  · intro f hcounts htokens
    exact load_save (f.holds_built.writable (fun e => hcounts e.1 e.2) htokens)

theorem ngramCaches_oneTwo :
    MergesWith (Feeding.mk 1 2 [[1], [2, 1]]).built (Feeding.mk 1 1 [[1, 2]]).built ∧
      (Feeding.mk 1 2 [[1], [2, 1]]).built.Restores := by
  have hseen : ∀ ngram token, (Feeding.mk 1 2 [[1], [2, 1]]).seen ngram token ≤ 3 := fun _ _ =>
    count_le_length
  have hseen' : ∀ ngram token, (Feeding.mk 1 1 [[1, 2]]).seen ngram token ≤ 1 := fun _ _ =>
    count_le_length
  refine ⟨ngramCaches.2.1 _ _ fun ngram token => ?_,
    ngramCaches.2.2.2 _ (fun ngram token => ?_) (by decide)⟩
  · exact Nat.lt_of_le_of_lt (Nat.add_le_add (hseen ngram token) (hseen' ngram token)) (by decide)
  · exact Nat.lt_of_le_of_lt (hseen ngram token) (by decide)

end ExpertPin.Draft.NgramCache
