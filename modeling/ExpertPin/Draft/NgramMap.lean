import ExpertPin.Draft.SuffixTree

/-!
# The n-gram map of a token history

`common_ngram_map` drafts the tokens that followed the last n-gram where it occurred before.
The map keeps positions in the history: of the key n-grams that were looked for, of the
m-grams that came after them, and by hash of all n-grams.

Reading a history or one of the vectors of the map fails where the position is not in it.
-/

namespace ExpertPin.Draft

/-- What ends a call: `GGML_ABORT`, or an index that is out of range. -/
inductive Fault where
  | abort
  | outOfRange
deriving DecidableEq, Repr

/-- An element of a vector. -/
def at' {α : Type} (xs : List α) (i : ℕ) : Except Fault α :=
  match xs[i]? with
  | none => .error .outOfRange
  | some x => .ok x

/-! ## The map -/

/-- `COMMON_NGRAM_MAX_VALUES`. -/
def maxValues : ℕ := 4

/-- `COMMON_NGRAM_HASH_MAP_SIZE`. -/
def hashMapSize : ℕ := 262144

/-- `COMMON_NGRAM_MAX_VALUE_COUNT`. -/
def maxValueCount : ℕ := 16380

structure NgramValue where
  valueIdx : ℕ := 0
  valueNum : ℕ := 0
  nAccepted : Int16 := -1
deriving DecidableEq, Repr

structure NgramKey where
  keyIdx : ℕ
  statIdx : ℕ
  keyNum : ℕ
  values : List NgramValue
deriving DecidableEq, Repr

structure NgramMap where
  sizeKey : UInt16
  sizeValue : UInt16
  keyOnly : Bool
  keys : List NgramKey := []
  minHits : UInt16
  sizeLastBegin : ℕ := 0
  lastDraftCreated : Bool := false
  lastDraftKeyIdx : ℕ := 0
  lastDraftValueIdx : ℕ := 0
  idxLastCheck : ℕ := 0
  keyMap : List ℕ
  keyMapLastIdx : ℕ := 0
deriving DecidableEq, Repr

namespace NgramMap

/-- The constructor. -/
def create (szKey szValue : UInt16) (onlyKeys : Bool) (minHits : UInt16) : NgramMap where
  sizeKey := szKey
  sizeValue := szValue
  keyOnly := onlyKeys
  minHits := minHits
  keyMap := List.replicate hashMapSize 0

def n (map : NgramMap) : ℕ := map.sizeKey.toNat

def m (map : NgramMap) : ℕ := map.sizeValue.toNat

/-! ## The begin of a request -/

/-- The values from the last on, where those at or after `bound` are deleted: the ones behind
move up, and the last one is cleared. -/
def refreshValues (bound : ℕ) (values : List NgramValue) : ℕ → List NgramValue
  | 0 => values
  | j + 1 =>
    match values[j]? with
    | none => refreshValues bound values j
    | some value =>
      if bound ≤ value.valueIdx then
        let cleared := (values.drop (maxValues - 1)).map fun last =>
          { last with valueIdx := 0, valueNum := 0 }
        refreshValues bound (values.eraseIdx j ++ cleared) j
      else refreshValues bound values j

/-- The key after a refresh, if it stays. -/
def refreshKey (bound : ℕ) (keyOnly : Bool) (key : NgramKey) : Option NgramKey :=
  if bound ≤ key.keyIdx then none
  else if keyOnly then some key
  else
    let values := refreshValues bound key.values maxValues
    if (values.head?.map NgramValue.valueIdx).getD 0 = 0 then none else some { key with values }

/-- The index of the loop over the keys is an `int32_t`. -/
def refreshKeys (bound : ℕ) (keyOnly : Bool) (keys : List NgramKey) : List NgramKey :=
  let count := (toInt (keys.length - 1) + 1).toNat
  (keys.take count).filterMap (refreshKey bound keyOnly) ++ keys.drop count

/-- The positions of outdated n-grams are cleared. -/
def clearHashes (map : NgramMap) (sizeBegin : ℕ) : NgramMap :=
  if map.keyMap ≠ [] ∧ sizeBegin < map.idxLastCheck then
    { map with
      keyMap := map.keyMap.map fun keyIdx => if map.sizeLastBegin ≤ keyIdx then 0 else keyIdx
      keyMapLastIdx := (map.sizeLastBegin - 1) % 2 ^ 32 }
  else map

/-- The outdated keys and values are deleted. -/
def clearKeys (map : NgramMap) (sizeBegin : ℕ) : NgramMap :=
  if sizeBegin < map.idxLastCheck ∧ map.keys ≠ [] then
    { map with keys := refreshKeys map.sizeLastBegin map.keyOnly map.keys }
  else map

/-- `common_ngram_map_begin`. -/
def begin' (map : NgramMap) (tokens : List Token) : NgramMap :=
  { (map.clearHashes tokens.length).clearKeys tokens.length with
    idxLastCheck := tokens.length
    sizeLastBegin := tokens.length }

/-! ## Reading the history -/

/-- `common_ngram_map_hash`, which computes with 64 bits and keeps 32. -/
def hash (inp : List Token) (acc : UInt32) (start : ℕ) : ℕ → Except Fault UInt32
  | 0 => .ok acc
  | len + 1 => do
      let token ← at' inp start
      hash inp (acc * 2654435761 + token.toUInt32) (start + 1) len

/-- The tokens from a position on begin with some others. -/
def matchesAt (inp : List Token) (start : ℕ) : List Token → Except Fault Bool
  | [] => .ok true
  | token :: tokens => do
      let token' ← at' inp start
      if token' ≠ token then return false
      matchesAt inp (start + 1) tokens

/-- So many tokens are the same at two positions. -/
def sameAt (inp : List Token) (start start' : ℕ) : ℕ → Except Fault Bool
  | 0 => .ok true
  | len + 1 => do
      let token ← at' inp start
      let token' ← at' inp start'
      if token ≠ token' then return false
      sameAt inp (start + 1) (start' + 1) len

/-- Some tokens from a position on. -/
def readTokens (inp : List Token) (start : ℕ) : ℕ → Except Fault (List Token)
  | 0 => .ok []
  | len + 1 => do
      let token ← at' inp start
      let tokens ← readTokens inp (start + 1) len
      return token :: tokens

/-! ## Looking for the last n-gram -/

/-- The last position after `last` and up to another at which the key occurs, and zero if
there is none. -/
def searchDown (inp key : List Token) (last : ℕ) : ℕ → Except Fault ℕ
  | 0 => .ok 0
  | j + 1 =>
    if j + 1 ≤ last then .ok 0
    else do
      if ← matchesAt inp (j + 1) key then return j + 1
      searchDown inp key last j

/-- The position of the key by its hash. -/
def lookup (map : NgramMap) (inp key : List Token) : Except Fault ℕ :=
  if map.keyMap = [] then .ok 0
  else do
    let hash ← hash key 0 0 map.n
    let idxKey ← at' map.keyMap (hash.toNat % map.keyMap.length)
    if idxKey ≠ 0 ∧ idxKey < inp.length - map.n - map.m - 1 then
      if ← matchesAt inp idxKey key then return idxKey
    return 0

/-- The part of the history that is there since the last `begin`. -/
def searchBegun (map : NgramMap) (inp key : List Token) (matchPos : ℕ) : Except Fault ℕ :=
  if matchPos = 0 ∧ map.n + map.m + 1 < map.sizeLastBegin then
    searchDown inp key map.keyMapLastIdx (map.sizeLastBegin - map.n - map.m - 1)
  else .ok matchPos

/-- The part behind it. -/
def searchNew (map : NgramMap) (inp key : List Token) (matchPos : ℕ) : Except Fault ℕ :=
  if matchPos = 0 then
    searchDown inp key (max map.sizeLastBegin map.keyMapLastIdx) (inp.length - map.n - map.m - 1)
  else .ok matchPos

/-- Where the key occurs, and zero if it does not. -/
def findMatch (map : NgramMap) (inp key : List Token) : Except Fault ℕ := do
  let matchPos ← map.lookup inp key
  let matchPos ← map.searchBegun inp key matchPos
  map.searchNew inp key matchPos

/-- The n-grams after `last` and up to a position are entered by their hashes. -/
def addHashes (inp : List Token) (n last : ℕ) (keyMap : List ℕ) : ℕ → Except Fault (List ℕ)
  | 0 => .ok keyMap
  | j + 1 =>
    if j + 1 ≤ last then .ok keyMap
    else do
      let hash ← hash inp 0 (j + 1) n
      let idxHash := hash.toNat % keyMap.length
      let entry ← at' keyMap idxHash
      addHashes inp n last (if entry = 0 then keyMap.set idxHash (j + 1) else keyMap) j

def addBegun (map : NgramMap) (inp : List Token) : Except Fault (List ℕ) :=
  if map.n + map.m + 1 < map.sizeLastBegin then
    addHashes inp map.n map.keyMapLastIdx map.keyMap (map.sizeLastBegin - map.n - map.m - 1)
  else .ok map.keyMap

def addNgrams (map : NgramMap) (inp : List Token) : Except Fault NgramMap :=
  if map.keyMap = [] then .ok map
  else do
    let keyMap ← map.addBegun inp
    let newest := inp.length - map.n - map.m - 1
    let keyMap ← addHashes inp map.n (max map.sizeLastBegin map.keyMapLastIdx) keyMap newest
    return { map with keyMap, keyMapLastIdx := max newest map.keyMapLastIdx }

/-! ## The statistics of a key -/

/-- The offset of the key, which is the number of keys if it is new. -/
def findKey (inp key : List Token) (offset : ℕ) : List NgramKey → Except Fault ℕ
  | [] => .ok offset
  | entry :: entries => do
      if ← matchesAt inp entry.keyIdx key then return offset
      findKey inp key (offset + 1) entries

def newKey (map : NgramMap) (matchPos : ℕ) : NgramKey where
  keyIdx := matchPos
  statIdx := 0
  keyNum := 0
  values := List.replicate maxValues { nAccepted := map.sizeValue.toInt16 }

/-- The slot of the m-gram at a position, which may be a new one. -/
def findValue (map : NgramMap) (inp : List Token) (start v : ℕ) :
    List NgramValue → Except Fault (Option ℕ × List NgramValue)
  | [] => .ok (none, [])
  | value :: values =>
    if value.valueIdx = 0 then
      let nAccepted := map.sizeValue.toInt16
      .ok (some v, { valueIdx := start, valueNum := 0, nAccepted } :: values)
    else do
      if ← sameAt inp start value.valueIdx map.m then return (some v, value :: values)
      let p ← findValue map inp start (v + 1) values
      return (p.1, value :: p.2)

def hit (value : NgramValue) : NgramValue :=
  { value with valueNum := min (value.valueNum + 1) maxValueCount }

/-- The m-grams after the occurrences of the key from a position on, `len` positions of
them. -/
def countValues (map : NgramMap) (inp key : List Token) (values : List NgramValue) (i : ℕ) :
    ℕ → Except Fault (List NgramValue)
  | 0 => .ok values
  | len + 1 => do
      if ← matchesAt inp i key then
        let p ← map.findValue inp (i + map.n) 0 values
        let values := match p.1 with
          | none => p.2
          | some v => p.2.modify v hit
        countValues map inp key values (i + 1) len
      else countValues map inp key values (i + 1) len

/-- The slot with the most hits, the first if there are several. -/
def slotMax (values : List NgramValue) : ℕ × ℕ :=
  values.zipIdx.foldl
    (fun best p => if best.1 < p.1.valueNum then (p.1.valueNum, p.2) else best) (0, 0)

/-- The log shows the values of a key. -/
def logValues (log : Bool) (inp : List Token) (m : ℕ) : List NgramValue → Except Fault Unit
  | [] => .ok ()
  | value :: values =>
    if log ∧ value.valueIdx ≠ 0 then do
      let _ ← readTokens inp value.valueIdx m
      logValues log inp m values
    else logValues log inp m values

/-- The tokens after the match, as many as were accepted the last time. -/
def draftTokens (map : NgramMap) (inp : List Token) (matchPos : ℕ) (nAccepted : Int16) :
    Except Fault (List Token) :=
  readTokens inp (matchPos + map.n) (min (map.m : ℤ) nAccepted.toInt).toNat

/-- What is drafted after the key at `offset`.  With `log` the log shows what it is chosen
from. -/
def draftKey (log : Bool) (map : NgramMap) (inp key : List Token) (matchPos offset : ℕ) :
    Except Fault (NgramMap × List Token) := do
  let curr ← at' map.keys offset
  let curr := { curr with keyNum := min (curr.keyNum + 1) maxValueCount }
  if map.keyOnly then
    let value ← at' curr.values 0
    let draft ← map.draftTokens inp matchPos value.nAccepted
    return ({ map with
      keys := map.keys.set offset curr
      lastDraftCreated := true
      lastDraftKeyIdx := offset
      lastDraftValueIdx := 0 }, draft)
  else if curr.keyNum < map.minHits.toNat then
    return ({ map with keys := map.keys.set offset curr }, [])
  else
    let values ← map.countValues inp key curr.values curr.statIdx (matchPos + 1 - curr.statIdx)
    let curr := { curr with values, statIdx := matchPos }
    let map := { map with keys := map.keys.set offset curr }
    let (maxOccur, slot) := slotMax values
    let sumOccur := ((values.eraseIdx slot).map NgramValue.valueNum).sum
    let _ ← logValues log inp map.m values
    if 0 < sumOccur ∧ maxOccur < 2 * sumOccur then return (map, [])
    else
      let value ← at' values slot
      let draft ← map.draftTokens inp matchPos value.nAccepted
      return ({ map with
        lastDraftCreated := true
        lastDraftKeyIdx := offset
        lastDraftValueIdx := slot }, draft)

/-- The map with the key at `offset`, which may be a new one. -/
def addKey (map : NgramMap) (matchPos offset : ℕ) : NgramMap :=
  if offset = map.keys.length then { map with keys := map.keys ++ [map.newKey matchPos] } else map

/-- What is drafted from a history that is long enough. -/
def draftFrom (log : Bool) (map : NgramMap) (inp : List Token) (sampled : Token) :
    Except Fault (NgramMap × List Token) := do
  let before ← readTokens inp (inp.length - map.n + 1) (map.n - 1)
  let key := before ++ [sampled]
  let matchPos ← map.findMatch inp key
  let map ← map.addNgrams inp
  if matchPos = 0 then return (map, [])
  let offset ← findKey inp key 0 map.keys
  (map.addKey matchPos offset).draftKey log inp key matchPos offset

/-- `common_ngram_map_draft`. -/
def draft (log : Bool) (map : NgramMap) (inp : List Token) (sampled : Token) :
    Except Fault (NgramMap × List Token) :=
  let map := { map with lastDraftCreated := false, lastDraftKeyIdx := 0, lastDraftValueIdx := 0 }
  if inp.length < 2 * map.n + map.m then .ok (map, [])
  else if 2 ^ 32 - 1 ≤ inp.length then .error .abort
  else { map with idxLastCheck := inp.length }.draftFrom log inp sampled

/-- `common_ngram_map_accept`. -/
def accept (map : NgramMap) (nAccepted : UInt16) : Except Fault NgramMap :=
  if ¬map.lastDraftCreated then .ok map
  else do
    let curr ← at' map.keys map.lastDraftKeyIdx
    let value ← at' curr.values map.lastDraftValueIdx
    let value := { value with nAccepted := nAccepted.toInt16 }
    let curr := { curr with values := curr.values.set map.lastDraftValueIdx value }
    return { map with keys := map.keys.set map.lastDraftKeyIdx curr }

end NgramMap

end ExpertPin.Draft
