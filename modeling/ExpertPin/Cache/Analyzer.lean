import ExpertPin.Cache.Lru
import ExpertPin.Lib.Binary64

/-!
# The offline capacity analysis

`validate_stats` and `analyze` of `scripts/analyze-expert-cache.py`, and the
`cache_sim` object that `llama_moe_prefetch_stats_to_json` of
`src/llama-expert-stats.cpp` writes for them.  The script sees the counters of
one run only, and answers for every requested capacity what a replay of the same
trace must do there.

A JSON value is modelled as far as the script tells values apart.  Its errors are
`ValueError`s with their texts, and the `OverflowError` of converting an integer
or a quotient that no double can hold.
-/

namespace ExpertPin.Cache

open Binary64

/-- A decoded JSON value; `other` stands for strings, lists, booleans and null. -/
inductive Value where
  | int (n : ℤ)
  | float (x : ℚ)
  | nonFinite
  | dict (fields : List (String × Value))
  | other

inductive PyError where
  | valueError (text : String)
  | overflowError
deriving DecidableEq, Repr

abbrev Py := Except PyError

def raiseIf (bad : Prop) [Decidable bad] (text : String) : Py Unit :=
  if bad then .error (.valueError text) else .ok ()

/-- The double a number is converted to. -/
def toDouble (x : ℚ) : Py ℚ :=
  if overflow ≤ |round64 x| then .error .overflowError else .ok (round64 x)

/-- The integer counters of an observation, in the order of `COUNTERS`. -/
structure Counters where
  requests : ℕ
  hits : ℕ
  misses : ℕ
  evictions : ℕ
  evictedBytes : ℕ
  bypasses : ℕ
  residentBytes : ℕ
  capacityBytes : ℕ
deriving DecidableEq, Repr

/-- `1e-12`. -/
def tolerance : ℚ := 4951760157141521 / 2 ^ 92

/-! ## The observation -/

/-- `double(hits) / requests`, or zero. -/
def hitRate (hits requests : ℕ) : ℚ :=
  if requests = 0 then 0 else round64 (round64 hits / round64 requests)

/-- The `cache_sim` object of the statistics document. -/
def cacheSimFields (s : CacheStats) : List (String × Value) :=
  [("requests", .int s.requests.toNat), ("hits", .int s.hits.toNat),
    ("misses", .int s.misses.toNat), ("evictions", .int s.evictions.toNat),
    ("evicted_bytes", .int s.evictedBytes.toNat), ("bypasses", .int s.bypasses.toNat),
    ("resident_bytes", .int s.residentBytes.toNat),
    ("capacity_bytes", .int s.capacityBytes.toNat),
    ("hit_rate", .float (hitRate s.hits.toNat s.requests.toNat))]

def statsToJson (s : CacheStats) : Value := .dict [("cache_sim", .dict (cacheSimFields s))]

/-! ## Validation -/

def readStats : Value → Py (List (String × Value))
  | .dict fields =>
    match fields.lookup "cache_sim" with
    | some (.dict stats) => .ok stats
    | _ => .error (.valueError "expected a cache_sim object")
  | _ => .error (.valueError "expected a cache_sim object")

/-- One turn of the loop over `COUNTERS`. -/
def readCounter (stats : List (String × Value)) (name : String) : Py ℕ :=
  let text := "cache_sim." ++ name ++ " must be a nonnegative integer"
  match stats.lookup name with
  | some (.int n) => if n < 0 then .error (.valueError text) else .ok n.toNat
  | _ => .error (.valueError text)

def readCounters (stats : List (String × Value)) : Py Counters := do
  let requests ← readCounter stats "requests"
  let hits ← readCounter stats "hits"
  let misses ← readCounter stats "misses"
  let evictions ← readCounter stats "evictions"
  let evictedBytes ← readCounter stats "evicted_bytes"
  let bypasses ← readCounter stats "bypasses"
  let residentBytes ← readCounter stats "resident_bytes"
  let capacityBytes ← readCounter stats "capacity_bytes"
  return { requests, hits, misses, evictions, evictedBytes, bypasses, residentBytes, capacityBytes }

/-- The comparisons of the counters with each other. -/
def checkCounters (stats : Counters) : Py Unit := do
  raiseIf (stats.requests = 0 ∨ stats.capacityBytes = 0)
    "need a nonempty, enabled shadow observation"
  raiseIf (stats.requests ≠ stats.hits + stats.misses) "requests must equal hits + misses"
  raiseIf (stats.residentBytes > stats.capacityBytes) "resident bytes exceed capacity"
  -- the difference is not negative where it is evaluated
  raiseIf (stats.bypasses > stats.misses ∨ stats.evictions > stats.misses - stats.bypasses)
    "more bypasses/evictions than inserted misses"
  raiseIf (¬(stats.evictions = 0 ↔ stats.evictedBytes = 0)) "eviction count and bytes disagree"
  raiseIf (stats.evictedBytes < stats.evictions)
    "evicted bytes must cover at least one byte per evicted entry"

/-- Whether a rate is a finite number close to the quotient of the counters. -/
def rateAgrees (stats : Counters) : Option Value → Py Bool
  | some (.int n) => do
      let rate ← toDouble n
      let quotient ← toDouble (stats.hits / stats.requests)
      return isclose rate quotient tolerance tolerance
  | some (.float rate) => do
      let quotient ← toDouble (stats.hits / stats.requests)
      return isclose rate quotient tolerance tolerance
  | _ => return false

def validateStats (document : Value) : Py Counters := do
  let fields ← readStats document
  let stats ← readCounters fields
  checkCounters stats
  let agrees ← rateAgrees stats (fields.lookup "hit_rate")
  raiseIf (agrees = false) "hit_rate must agree with count-based counters"
  return stats

/-! ## Analysis -/

inductive Basis where
  | conditionalExactFittingReplay
  | orderingUnknown
deriving DecidableEq, Repr

/-- What is reported for one requested capacity. -/
structure CapacityResult where
  capacityBytes : ℕ
  basis : Basis
  hits : Option ℕ
  missesLowerBound : Option ℕ
  missesUpperBound : Option ℕ
  logicalWorkingSetExcessBytes : Option ℕ
  evictions : Option ℕ
deriving DecidableEq, Repr

/-- The report, without its fixed texts and the fields that are always null. -/
structure Analysis where
  assertedStable : Bool
  observed : Counters
  countHitRate : ℚ
  uniqueSlices : Option ℕ
  logicalWorkingSetBytes : Option ℕ
  meanUniqueSliceBytes : Option ℚ
  capacities : List CapacityResult
deriving DecidableEq

def readCapacity : Value → Py ℕ
  | .int n =>
    if n ≤ 0 then .error (.valueError "capacities must be positive integer byte counts")
    else .ok n.toNat
  | _ => .error (.valueError "capacities must be positive integer byte counts")

def readCapacities (capacities : List Value) : Py (List ℕ) := do
  raiseIf (capacities.isEmpty = true) "capacities must be positive integer byte counts"
  let caps ← capacities.mapM readCapacity
  raiseIf (caps.dedup.length ≠ caps.length) "capacities must be distinct"
  return caps

/-- Whether the observation determines the working set. -/
def proven (stats : Counters) (stableColdStart : Bool) : Bool :=
  stableColdStart && stats.evictions = 0 && stats.bypasses = 0

/-- The body of the loop over the capacities. -/
def capacityResult (stats : Counters) (proven : Bool) (cap : ℕ) : CapacityResult :=
  let fits := proven && stats.residentBytes ≤ cap
  { capacityBytes := cap
    basis := if fits then .conditionalExactFittingReplay else .orderingUnknown
    hits := if fits then some stats.hits else none
    missesLowerBound := if proven then some stats.misses else none
    missesUpperBound :=
      if proven then some (if fits then stats.misses else stats.requests) else none
    logicalWorkingSetExcessBytes := if proven then some (stats.residentBytes - cap) else none
    evictions := if fits then some 0 else none }

def analyze (document : Value) (capacities : List Value) (stableColdStart : Bool) :
    Py Analysis := do
  let stats ← validateStats document
  let caps ← readCapacities capacities
  let proven := proven stats stableColdStart
  raiseIf (proven = true ∧ (stats.misses = 0 ∨ stats.residentBytes < stats.misses))
    "fresh stable no-bypass observation needs positive bytes per unique miss"
  raiseIf (stableColdStart = true ∧ stats.evictions > 0 ∧
      stats.residentBytes + stats.evictedBytes ≤ stats.capacityBytes)
    "stable cold-start evictions require inserted bytes exceeding capacity"
  let countHitRate ← toDouble (stats.hits / stats.requests)
  let meanUniqueSliceBytes ←
    if proven then some <$> toDouble (stats.residentBytes / stats.misses) else pure none
  return {
    assertedStable := stableColdStart
    observed := stats
    countHitRate
    uniqueSlices := if proven then some stats.misses else none
    logicalWorkingSetBytes := if proven then some stats.residentBytes else none
    meanUniqueSliceBytes
    capacities := caps.map (capacityResult stats proven) }

end ExpertPin.Cache
