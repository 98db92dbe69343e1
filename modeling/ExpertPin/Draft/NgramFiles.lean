import ExpertPin.Draft.NgramCache
import ExpertPin.Lib.Records
import ExpertPin.Lib.Tables
import Mathlib.Data.List.GetD

/-!
# Merging, saving and loading n-gram caches

`none` stands for an assertion that fails, or for an `int32_t` that overflows.  A file is the
list of its bytes; numbers are written with the lowest byte first.
-/

namespace ExpertPin.Draft.NgramCache

open Records (Reader bytesOf)

/-! ## `common_ngram_cache_merge` -/

/-- The count of a token that is added to a part. -/
def mergeCount (old : Option Int32) (count : Int32) : Option Int32 :=
  if 0 < count.toInt then
    match old with
    | none => some count
    | some old => (checked (old.toInt + count.toInt)).map fun _ => old + count
  else none

def mergeToken (partMerged : NgramCachePart) (tokenCount : TokenCount) : Option NgramCachePart :=
  Tables.combineEntry mergeCount partMerged tokenCount

/-- The part of an n-gram; one that is not there is taken as it is. -/
def mergePart (old : Option NgramCachePart) (part : NgramCachePart) : Option NgramCachePart :=
  match old with
  | none => some part
  | some partMerged => part.entries.foldlM mergeToken partMerged

/-- The target and the cache that is added to it, after one n-gram of the latter. -/
def mergeNgram (caches : NgramCache × NgramCache) (ngramPart : (_ : Ngram) × NgramCachePart) :
    Option (NgramCache × NgramCache) := do
  let target ← Tables.combineEntry mergePart caches.1 ngramPart
  some (target, caches.2)

/-- `common_ngram_cache_merge`. -/
def merge (target add : NgramCache) : Option (NgramCache × NgramCache) :=
  add.entries.foldlM mergeNgram (target, add)

/-! ## `common_ngram_cache_save` -/

/-- `int32_t` in a file. -/
def int32Bytes (x : Int32) : List UInt8 := bytesOf 4 x.toBitVec.toNat

/-- `common_ngram` in a file. -/
def ngramBytes (ngram : Ngram) : List UInt8 := (List.ofFn ngram).flatMap int32Bytes

def saveToken (tokenCount : TokenCount) : Option (List UInt8) :=
  if 0 < tokenCount.2.toInt then some (int32Bytes tokenCount.1 ++ int32Bytes tokenCount.2)
  else none

def saveNgram (item : (_ : Ngram) × NgramCachePart) : Option (List UInt8) := do
  guard (item.2.entries ≠ [])
  let ntokens := Int32.ofNat item.2.entries.length
  guard (0 < ntokens.toInt)
  let tokenCounts ← item.2.entries.mapM saveToken
  some (ngramBytes item.1 ++ int32Bytes ntokens ++ tokenCounts.flatten)

/-- `common_ngram_cache_save`. -/
def save (cache : NgramCache) : Option (List UInt8) :=
  (cache.entries.mapM saveNgram).map List.flatten

/-! ## `common_ngram_cache_load` -/

def readInt32 : Reader Int32 := Int32.ofBitVec <$> Records.word 4

/-- `read(ngramc, sizeof(common_ngram))`. -/
def readNgram : Reader Ngram :=
  (fun tokens i => tokens.getD i.val tokenNull) <$> Records.list (fun _ => readInt32) 0 ngramMax

/-- The loop over the tokens of an n-gram. -/
def loadTokens : ℕ → NgramCachePart → Reader NgramCachePart
  | 0, tokenCounts => pure tokenCounts
  | n + 1, tokenCounts => do
      let token ← readInt32
      let count ← readInt32
      guard (0 < count.toInt)
      loadTokens n (Tables.emplace tokenCounts ⟨token, count⟩)

def loadPart : Reader NgramCachePart := do
  let ntokens ← readInt32
  guard (0 < ntokens.toInt)
  loadTokens ntokens.toInt.toNat ∅

/-- The loop over the n-grams.  It ends where there are not enough bytes for another one. -/
def loadLoop : ℕ → NgramCache → List UInt8 → Option NgramCache
  | 0, _, _ => none
  | fuel + 1, cache, bytes =>
    match readNgram bytes with
    | none => some cache
    | some (ngram, bytes) => do
        let (tokenCounts, bytes) ← loadPart bytes
        loadLoop fuel (Tables.emplace cache ⟨ngram, tokenCounts⟩) bytes

/-- `common_ngram_cache_load`.  Each turn reads some bytes. -/
def load (bytes : List UInt8) : Option NgramCache := loadLoop (bytes.length + 1) ∅ bytes

end ExpertPin.Draft.NgramCache

/-!
## The algebra of n-gram caches

A cache holds the n-grams and tokens that were entered into it, however they came in.  What an
update with all tokens enters, is entered by the updates after each piece of them as well, in
another order (`entered_append`).  Merging appends what is held, and so it does not matter what
is merged first; a file gives back the cache that was saved.
-/

namespace ExpertPin.Draft.NgramCache

open Tables (Row Table tally tallyRow)
open List
open Option

variable {cache cache' : NgramCache} {es fs : List (Ngram × Token)}

/-! ## What a cache holds -/

/-- The counts of a cache, whatever the order of its entries. -/
def view (cache : NgramCache) : Table Ngram Token Int32 := fun ngram =>
  (cache.lookup ngram).map fun part token => part.lookup token

/-- Both caches have the same entries. -/
def Same (cache cache' : NgramCache) : Prop := cache.view = cache'.view

/-- The cache counts what is in the list. -/
def Holds (cache : NgramCache) (es : List (Ngram × Token)) : Prop :=
  cache.view = Tables.map Int32.ofNat (tally es)

theorem holds_empty : Holds ∅ [] := rfl

theorem Holds.perm (h : cache.Holds es) (hperm : es.Perm fs) : cache.Holds fs := by
  rw [Holds, ← Tables.tally_perm hperm]
  exact h

theorem Holds.same (h : cache.Holds es) (h' : cache'.Holds fs) (hperm : es.Perm fs) :
    cache.Same cache' :=
  (h.perm hperm).trans h'.symm

theorem view_insert_self (cache : NgramCache) (ngram : Ngram) (part : NgramCachePart) :
    view (cache.insert ngram part) ngram = some fun token => part.lookup token := by
  rw [view, AList.lookup_insert]
  rfl

theorem view_insert_of_ne {ngram ngram' : Ngram} (h : ngram' ≠ ngram) (part : NgramCachePart) :
    view (cache.insert ngram part) ngram' = cache.view ngram' := by
  rw [view, AList.lookup_insert_ne h]
  rfl

/-- A row with one token. -/
def once (token : Token) : Row Token Int32 := fun token' =>
  if token' = token then some 1 else none

theorem lookup_insert_once {part : NgramCachePart} {token : Token} {count : Int32}
    (h : (part.lookup token).merge (· + ·) (some 1) = some count) :
    (fun token' => (part.insert token count).lookup token') =
      Tables.mergeRows (fun token' => part.lookup token') (once token) := by
  funext token'
  unfold Tables.mergeRows once
  by_cases htoken : token' = token
  · subst htoken
    rw [AList.lookup_insert, if_pos rfl, h]
  · rw [AList.lookup_insert_ne htoken, if_neg htoken, merge_none_right]

theorem tally_singleton_self (ngram : Ngram) (token : Token) :
    Tables.map Int32.ofNat (tally [(ngram, token)]) ngram = some (once token) := by
  rw [Tables.map, tally, map_singleton, if_pos (mem_singleton_self _)]
  refine congrArg some (funext fun token' => ?_)
  unfold Tables.mapRow tallyRow once
  by_cases htoken : token' = token
  · subst htoken
    rw [if_pos rfl, if_pos (mem_singleton_self _), count_singleton_self]
    rfl
  · rw [if_neg htoken, if_neg fun hmem => htoken (congrArg Prod.snd (mem_singleton.mp hmem))]
    rfl

theorem tally_singleton_of_ne {ngram ngram' : Ngram} (h : ngram' ≠ ngram) (token : Token) :
    Tables.map Int32.ofNat (tally [(ngram, token)]) ngram' = none := by
  rw [Tables.map, tally, map_singleton, if_neg fun hmem => h (mem_singleton.mp hmem)]
  rfl

theorem view_add (cache : NgramCache) (ngram : Ngram) (token : Token) :
    (cache.add ngram token).view =
      Tables.merge cache.view (Tables.map Int32.ofNat (tally [(ngram, token)])) := by
  funext ngram'
  unfold Tables.merge
  by_cases hngram : ngram' = ngram
  · subst hngram
    rw [tally_singleton_self]
    unfold add
    cases hpart : cache.lookup ngram' with
    | none =>
      have hview : cache.view ngram' = none := by
        rw [view, hpart]
        rfl
      have hone : (fun token' => (AList.singleton token 1 : NgramCachePart).lookup token') =
          Tables.mergeRows (fun _ => none) (once token) :=
        @lookup_insert_once ∅ token 1 rfl
      rw [view_insert_self, hview, merge_none_left, hone]
      exact congrArg some (funext fun token' => merge_none_left)
    | some part =>
      have hview : cache.view ngram' = some fun token' => part.lookup token' := by
        rw [view, hpart]
        rfl
      rw [hview]
      cases hcount : part.lookup token with
      | none | some count =>
        simp only [hcount]
        rw [view_insert_self, lookup_insert_once (by rw [hcount]; rfl)]
        rfl
  · rw [tally_singleton_of_ne hngram, merge_none_right]
    unfold add
    split
    · exact view_insert_of_ne hngram _
    · split
      · exact view_insert_of_ne hngram _
      · exact view_insert_of_ne hngram _

theorem map_tally_append (es fs : List (Ngram × Token)) :
    Tables.map Int32.ofNat (tally (es ++ fs)) =
      Tables.merge (Tables.map Int32.ofNat (tally es)) (Tables.map Int32.ofNat (tally fs)) := by
  rw [Tables.tally_append, Tables.map_merge Int32.ofNat_add]

theorem Holds.add (h : cache.Holds es) (ngram : Ngram) (token : Token) :
    (cache.add ngram token).Holds (es ++ [(ngram, token)]) := by
  rw [Holds, view_add, h, map_tally_append]

theorem Holds.foldl (h : cache.Holds es) (fs : List (Ngram × Token)) :
    (fs.foldl (fun cache e => cache.add e.1 e.2) cache).Holds (es ++ fs) := by
  induction fs generalizing cache es with
  | nil =>
    rw [append_nil]
    exact h
  | cons f fs ih =>
    rw [foldl_cons, append_cons]
    exact ih (h.add f.1 f.2)

/-! ## Updates -/

variable {ngramMin ngramMax : ℕ}

/-- What an update enters for one size of n-grams. -/
def enteredSize (inp : List Token) (nnew : ℤ) (ngramSize : ℕ) : List (Ngram × Token) :=
  let iStart := (max (inp.length - nnew) ngramSize).toNat
  (List.range' iStart (inp.length - iStart)).map fun i =>
    (.make (inp.drop (i - ngramSize)) ngramSize, inp.getD i tokenNull)

/-- What an update enters. -/
def entered (ngramMin ngramMax : ℕ) (inp : List Token) (nnew : ℤ) : List (Ngram × Token) :=
  (List.range' ngramMin (ngramMax + 1 - ngramMin)).flatMap (enteredSize inp nnew)

theorem update_eq (cache : NgramCache) (ngramMin ngramMax : ℕ) (inp : List Token) (nnew : ℤ) :
    cache.update ngramMin ngramMax inp nnew =
      (entered ngramMin ngramMax inp nnew).foldl (fun cache e => cache.add e.1 e.2) cache := by
  rw [entered, foldl_flatMap, update]
  refine congrArg (fun f => foldl f cache _) (funext fun cache => funext fun size => ?_)
  rw [enteredSize, foldl_map]
  rfl

theorem Holds.update (h : cache.Holds es) (ngramMin ngramMax : ℕ) (inp : List Token) (nnew : ℤ) :
    (cache.update ngramMin ngramMax inp nnew).Holds (es ++ entered ngramMin ngramMax inp nnew) := by
  rw [update_eq]
  exact h.foldl _

/-- An n-gram does not depend on what comes after it. -/
theorem make_append {before piece : List Token} {size : ℕ} (h : size ≤ before.length) :
    Ngram.make (before ++ piece) size = Ngram.make before size := by
  funext i
  unfold Ngram.make
  by_cases hi : i.val < size
  · rw [if_pos hi, if_pos hi, getD_append _ _ _ _ (Nat.lt_of_lt_of_le hi h)]
  · rw [if_neg hi, if_neg hi]

/-- The tokens before the cut and those behind it are all the tokens. -/
theorem enteredSize_append (before piece : List Token) (size : ℕ) :
    enteredSize (before ++ piece) (before ++ piece).length size =
      enteredSize before before.length size ++ enteredSize (before ++ piece) piece.length size := by
  have hall : (max (((before ++ piece).length : ℤ) - (before ++ piece).length) size).toNat =
      size := by
    rw [Int.sub_self, max_eq_right (Int.natCast_nonneg size), Int.toNat_natCast]
  have hbefore : (max ((before.length : ℤ) - before.length) size).toNat = size := by
    rw [Int.sub_self, max_eq_right (Int.natCast_nonneg size), Int.toNat_natCast]
  have hpiece : (max (((before ++ piece).length : ℤ) - piece.length) size).toNat =
      max before.length size := by
    rw [length_append]
    omega
  have hsame : enteredSize before before.length size =
      (range' size (before.length - size)).map fun i =>
        (Ngram.make ((before ++ piece).drop (i - size)) size,
          (before ++ piece).getD i tokenNull) := by
    unfold enteredSize
    rw [hbefore]
    refine map_congr_left fun i hi => ?_
    obtain ⟨hlo, hhi⟩ := mem_range'_1.mp hi
    have hlt : i < before.length := by omega
    have hsize : size ≤ (before.drop (i - size)).length := by
      rw [length_drop]
      omega
    rw [drop_append_of_le_length (by omega), make_append hsize, getD_append _ _ _ _ hlt]
  rw [hsame]
  unfold enteredSize
  rw [hall, hpiece, ← map_append]
  refine congrArg (map _) ?_
  rw [length_append]
  rcases Nat.le_total size before.length with hle | hle
  · rw [Nat.max_eq_left hle, Nat.add_sub_cancel_left]
    have hcut := range'_append_1 (s := size) (m := before.length - size) (n := piece.length)
    rw [Nat.add_sub_cancel' hle] at hcut
    rw [hcut, Nat.sub_add_comm hle]
  · rw [Nat.max_eq_right hle, Nat.sub_eq_zero_of_le hle]
    rfl

theorem entered_append (before piece : List Token) :
    (entered ngramMin ngramMax (before ++ piece) (before ++ piece).length).Perm
      (entered ngramMin ngramMax before before.length ++
        entered ngramMin ngramMax (before ++ piece) piece.length) := by
  unfold entered
  rw [funext (enteredSize_append before piece)]
  exact (flatMap_append_perm _ _ _).symm

/-- One more piece of the history. -/
def append (ngramMin ngramMax : ℕ) (s : NgramCache × List Token) (piece : List Token) :
    NgramCache × List Token :=
  (s.1.update ngramMin ngramMax (s.2 ++ piece) piece.length, s.2 ++ piece)

/-- The cache after an update for each piece of the history. -/
def feed (ngramMin ngramMax : ℕ) (pieces : List (List Token)) : NgramCache :=
  (pieces.foldl (append ngramMin ngramMax) (∅, [])).1

/-- What a single update with the whole history enters. -/
def enteredAll (ngramMin ngramMax : ℕ) (inp : List Token) : List (Ngram × Token) :=
  entered ngramMin ngramMax inp inp.length

theorem enteredAll_nil : enteredAll ngramMin ngramMax [] = [] := by
  unfold enteredAll entered
  refine flatMap_eq_nil_iff.mpr fun size _ => ?_
  dsimp only [enteredSize]
  rw [length_nil, Nat.zero_sub]
  rfl

theorem holds_append {inp : List Token}
    (h : cache.Holds (enteredAll ngramMin ngramMax inp)) (pieces : List (List Token)) :
    (pieces.foldl (append ngramMin ngramMax) (cache, inp)).1.Holds
      (enteredAll ngramMin ngramMax (inp ++ pieces.flatten)) := by
  induction pieces generalizing cache inp with
  | nil =>
    rw [flatten_nil, append_nil]
    exact h
  | cons piece pieces ih =>
    rw [foldl_cons, flatten_cons, ← append_assoc]
    exact ih ((h.update ngramMin ngramMax (inp ++ piece) piece.length).perm
      (entered_append inp piece).symm)

theorem holds_feed (ngramMin ngramMax : ℕ) (pieces : List (List Token)) :
    (feed ngramMin ngramMax pieces).Holds (enteredAll ngramMin ngramMax pieces.flatten) := by
  refine holds_append ?_ pieces
  rw [enteredAll_nil]
  exact holds_empty

theorem feed_same (ngramMin ngramMax : ℕ) (pieces : List (List Token)) :
    (feed ngramMin ngramMax pieces).Same
      (update ∅ ngramMin ngramMax pieces.flatten pieces.flatten.length) :=
  (holds_feed ngramMin ngramMax pieces).same
    (holds_empty.update ngramMin ngramMax pieces.flatten pieces.flatten.length) (.refl _)

/-! ## Counts -/

/-- An `int32_t` has room for each count. -/
def Fits (es : List (Ngram × Token)) : Prop := ∀ e, es.count e < 2 ^ 31

theorem Fits.of_append_left (h : Fits (es ++ fs)) : Fits es := by
  intro e
  have hboth := h e
  rw [count_append] at hboth
  exact Nat.lt_of_le_of_lt (Nat.le_add_right _ _) hboth

theorem Fits.of_append_right (h : Fits (es ++ fs)) : Fits fs := by
  intro e
  have hboth := h e
  rw [count_append] at hboth
  exact Nat.lt_of_le_of_lt (Nat.le_add_left _ _) hboth

theorem Fits.perm (h : Fits es) (hperm : es.Perm fs) : Fits fs := fun e => hperm.count_eq e ▸ h e

variable {ngram : Ngram} {token : Token} {part : NgramCachePart} {count : Int32}

/-- The tokens after an n-gram. -/
theorem Holds.part_eq (h : cache.Holds es) (hpart : cache.lookup ngram = some part) :
    (fun token => part.lookup token) = Tables.mapRow Int32.ofNat (tallyRow es ngram) ∧
      (tally es ngram).isSome := by
  have hat := congrFun h ngram
  rw [view, hpart, Tables.map] at hat
  unfold tally at hat ⊢
  split at hat
  case isTrue hmem =>
    rw [if_pos hmem]
    exact ⟨some.inj hat, rfl⟩
  case isFalse => exact nomatch hat

theorem Holds.count_of_lookup (h : cache.Holds es) (hpart : cache.lookup ngram = some part)
    (htoken : part.lookup token = some count) :
    0 < es.count (ngram, token) ∧ count = Int32.ofNat (es.count (ngram, token)) := by
  have hat := congrFun (h.part_eq hpart).1 token
  obtain ⟨n, hn, rfl⟩ := map_eq_some_iff.mp (hat.symm.trans htoken)
  obtain ⟨hpos, rfl⟩ := Tables.tallyRow_eq_some hn
  exact ⟨hpos, rfl⟩

theorem Holds.toInt_of_lookup (h : cache.Holds es) (hfits : Fits es)
    (hpart : cache.lookup ngram = some part) (htoken : part.lookup token = some count) :
    count.toInt = es.count (ngram, token) ∧ 0 < count.toInt := by
  obtain ⟨hpos, rfl⟩ := h.count_of_lookup hpart htoken
  rw [Int32.toInt_ofNat_of_lt (hfits _)]
  exact ⟨rfl, Int.natCast_pos.mpr hpos⟩

theorem Holds.entries_ne_nil (h : cache.Holds es) (hpart : cache.lookup ngram = some part) :
    part.entries ≠ [] := by
  obtain ⟨hrow, hsome⟩ := h.part_eq hpart
  obtain ⟨token, htoken⟩ := Tables.exists_of_tally hsome
  intro hnil
  have hnone : part.lookup token = none := by
    rw [AList.lookup, hnil]
    rfl
  have hat := congrFun hrow token
  rw [hnone] at hat
  rw [map_eq_none_iff.mp hat.symm] at htoken
  exact absurd htoken Bool.false_ne_true

theorem Holds.count_eq (h : cache.Holds es) (ngram : Ngram) (token : Token) :
    cache.count ngram token = Int32.ofNat (es.count (ngram, token)) := by
  have hat := congrFun h ngram
  unfold NgramCache.count
  rw [view, Tables.map] at hat
  cases hpart : cache.lookup ngram with
  | none =>
    rw [hpart] at hat
    have hnot : (ngram, token) ∉ es := by
      intro hmem
      rw [tally, if_pos (mem_map_of_mem hmem)] at hat
      exact some_ne_none _ hat.symm
    rw [count_eq_zero_of_not_mem hnot]
    rfl
  | some part =>
    have hrow := congrFun (h.part_eq hpart).1 token
    rw [bind_some, hrow, Tables.mapRow, tallyRow]
    split
    case isTrue => rfl
    case isFalse hnot =>
      rw [count_eq_zero_of_not_mem hnot]
      rfl

/-! ## Merging -/

theorem mergeCount_eq {old : Option Int32} (h : (mergeCount old count).isSome) :
    mergeCount old count = old.merge (· + ·) (some count) := by
  unfold mergeCount at h ⊢
  split at h
  case isTrue hpos =>
    rw [if_pos hpos]
    cases old with
    | none => rfl
    | some old =>
      obtain ⟨x, hx⟩ := isSome_iff_exists.mp (isSome_map.symm.trans h)
      dsimp only
      rw [hx]
      rfl
  case isFalse => exact absurd h Bool.false_ne_true

theorem checked_isSome {x : ℤ} (hlo : 0 ≤ x) (hhi : x < 2 ^ 31) : (checked x).isSome := by
  rw [checked, if_pos ⟨by omega, hhi⟩]
  rfl

variable {target add : NgramCache} {partMerged : NgramCachePart}

theorem mergeCount_isSome (ht : target.Holds es) (ha : add.Holds fs) (hfits : Fits (es ++ fs))
    (hmerged : target.lookup ngram = some partMerged) (hpart : add.lookup ngram = some part)
    (htoken : part.lookup token = some count) :
    (mergeCount (partMerged.lookup token) count).isSome := by
  obtain ⟨hcount, hpos⟩ := ha.toInt_of_lookup hfits.of_append_right hpart htoken
  unfold mergeCount
  rw [if_pos hpos]
  cases hold : partMerged.lookup token with
  | none => rfl
  | some old =>
    obtain ⟨hcountOld, -⟩ := ht.toInt_of_lookup hfits.of_append_left hmerged hold
    have hsum : old.toInt + count.toInt = (es ++ fs).count (ngram, token) := by
      rw [hcountOld, hcount, count_append, Nat.cast_add]
    rw [isSome_map, hsum]
    exact checked_isSome (Int.natCast_nonneg _) (Int.ofNat_lt.mpr (hfits _))

/-- The loop over the tokens after an n-gram that both caches have. -/
theorem mergeTokens (ht : target.Holds es) (ha : add.Holds fs) (hfits : Fits (es ++ fs))
    (hmerged : target.lookup ngram = some partMerged) (hpart : add.lookup ngram = some part) :
    ∃ partMerged', part.entries.foldlM mergeToken partMerged = some partMerged' ∧
      (fun token => partMerged'.lookup token) =
        Tables.mergeRows (fun token => partMerged.lookup token) fun token => part.lookup token := by
  have hsome : ∀ e ∈ part.entries, (mergeCount (partMerged.lookup e.1) e.2).isSome := by
    intro e he
    exact mergeCount_isSome ht ha hfits hmerged hpart (AList.mem_lookup_iff.mpr he)
  obtain ⟨partMerged', hloop⟩ := Tables.exists_foldlM part.nodupKeys hsome
  refine ⟨partMerged', hloop, funext fun token => ?_⟩
  rw [Tables.lookup_foldlM part.nodupKeys hloop token, Tables.mergeRows]
  show (part.lookup token).elim _ _ = _
  cases htoken : part.lookup token with
  | none => exact merge_none_right.symm
  | some count => exact mergeCount_eq (mergeCount_isSome ht ha hfits hmerged hpart htoken)

theorem foldlM_mergeNgram (items : List ((_ : Ngram) × NgramCachePart)) (target add : NgramCache) :
    items.foldlM mergeNgram (target, add) =
      (items.foldlM (Tables.combineEntry mergePart) target).map fun target => (target, add) := by
  induction items generalizing target with
  | nil => rfl
  | cons item items ih =>
    rw [foldlM_cons, foldlM_cons, mergeNgram]
    cases Tables.combineEntry mergePart target item with
    | none => rfl
    | some target => exact ih target

/-- Merging counts what either cache has counted, and leaves the one that is added as it is. -/
theorem exists_merge (ht : target.Holds es) (ha : add.Holds fs) (hfits : Fits (es ++ fs)) :
    ∃ merged, merge target add = some (merged, add) ∧ merged.Holds (es ++ fs) := by
  have hsome : ∀ item ∈ add.entries, (mergePart (target.lookup item.1) item.2).isSome := by
    intro item hitem
    unfold mergePart
    cases hmerged : target.lookup item.1 with
    | none => rfl
    | some partMerged =>
      obtain ⟨_, hloop, -⟩ :=
        mergeTokens ht ha hfits hmerged (AList.mem_lookup_iff.mpr hitem)
      exact isSome_iff_exists.mpr ⟨_, hloop⟩
  obtain ⟨merged, hloop⟩ := Tables.exists_foldlM add.nodupKeys hsome
  refine ⟨merged, ?_, ?_⟩
  · rw [merge, foldlM_mergeNgram, hloop]
    rfl
  · rw [Holds, map_tally_append, ← ht, ← ha]
    funext ngram
    unfold Tables.merge
    have hlookup := Tables.lookup_foldlM add.nodupKeys hloop ngram
    change _ = (add.lookup ngram).elim _ _ at hlookup
    rw [view, hlookup, view, view]
    cases hpart : add.lookup ngram with
    | none => exact merge_none_right.symm
    | some part =>
      rw [elim_some]
      unfold mergePart
      cases hmerged : target.lookup ngram with
      | none => rfl
      | some partMerged =>
        obtain ⟨partMerged', hloop, hrow⟩ := mergeTokens ht ha hfits hmerged hpart
        dsimp only
        rw [hloop]
        exact congrArg some hrow

end ExpertPin.Draft.NgramCache
