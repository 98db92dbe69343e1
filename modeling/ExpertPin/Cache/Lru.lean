import Mathlib.Data.Nat.Notation
import Mathlib.Logic.Function.Basic

/-!
# The expert-cache shadow

`ggml_moe_cache_lru` of `ggml/src/ggml-moe-cache-lru.{h,cpp}`: a byte-bounded
LRU over expert slices that decides residency only.  Its recency order is a
linked list of entries, and a hash index maps each key to its list node.

A list node is modelled with its address, an iterator is the address it holds,
and the allocator hands out addresses that were never used before.  Following
an iterator whose node is gone is undefined in the source; here the access has
no result then.  `size_t` and `uint64_t` are both `UInt64`, with its wrapping
arithmetic.
-/

namespace ExpertPin.Cache

/-- `ggml_moe_cache_key`; the tensor pointer is only ever compared. -/
structure CacheKey where
  tensorData : UInt64
  expertStride : UInt64
  expert : UInt32
deriving DecidableEq, Repr

/-- `ggml_moe_cache_access`: what one access reports. -/
structure CacheAccess where
  hit : Bool := false
  cached : Bool := false
  bypassed : Bool := false
  evictedEntries : UInt64 := 0
  evictedBytes : UInt64 := 0
deriving DecidableEq, Repr

/-- `ggml_moe_cache_stats`. -/
structure CacheStats where
  capacityBytes : UInt64 := 0
  residentBytes : UInt64 := 0
  requests : UInt64 := 0
  hits : UInt64 := 0
  misses : UInt64 := 0
  evictions : UInt64 := 0
  evictedBytes : UInt64 := 0
  bypasses : UInt64 := 0
deriving DecidableEq, Repr

/-- A node of the recency list: its address and the `entry` stored in it. -/
structure Node where
  addr : ℕ
  key : CacheKey
  bytes : UInt64
deriving DecidableEq, Repr

/-- `ggml_moe_cache_lru`; `fresh` is the next address of the allocator. -/
structure Lru where
  entries : List Node
  index : CacheKey → Option ℕ
  stats : CacheStats
  fresh : ℕ

namespace Lru

def reset (c : Lru) (capacityBytes : UInt64) : Lru :=
  { c with entries := [], index := fun _ => none, stats := { capacityBytes } }

/-- The constructor. -/
def new (capacityBytes : UInt64) : Lru :=
  reset { entries := [], index := fun _ => none, stats := {}, fresh := 0 } capacityBytes

/-- The node an iterator points to, if it is still in the list. -/
def deref (c : Lru) (it : ℕ) : Option Node := c.entries.find? fun n => n.addr = it

def countRequest (c : Lru) : Lru := { c with stats.requests := c.stats.requests + 1 }

def countMiss (c : Lru) : Lru := { c with stats.misses := c.stats.misses + 1 }

/-- The hit branch: splice the node to the front. -/
def promote (c : Lru) (found : Node) : Lru :=
  { c with
    entries := found :: c.entries.erase found
    stats.hits := c.stats.hits + 1 }

/-- Drop the entry of a key that is accessed with another size than it has. -/
def invalidate (c : Lru) (found : Node) (key : CacheKey) : Lru :=
  { c with
    stats.residentBytes := c.stats.residentBytes - found.bytes
    entries := c.entries.erase found
    index := Function.update c.index key none }

/-- The body of the eviction loop: drop the least recently used entry. -/
def evictBack (c : Lru) (victim : Node) : Lru :=
  { c with
    stats.residentBytes := c.stats.residentBytes - victim.bytes
    index := Function.update c.index victim.key none
    entries := c.entries.dropLast }

/-- The eviction loop.  Every turn drops an entry, so a turn for each entry is
enough (`evict_spec`). -/
def evictLoop (bytes : UInt64) : ℕ → Lru → CacheAccess → Lru × CacheAccess
  | 0, c, result => (c, result)
  | turns + 1, c, result =>
    match c.entries.getLast? with
    | none => (c, result)
    | some victim =>
      -- the free space is a difference, so that the test cannot overflow
      if bytes > c.stats.capacityBytes - c.stats.residentBytes then
        evictLoop bytes turns (c.evictBack victim) { result with
            evictedBytes := result.evictedBytes + victim.bytes
            evictedEntries := result.evictedEntries + 1 }
      else (c, result)

def evict (c : Lru) (bytes : UInt64) : Lru × CacheAccess :=
  evictLoop bytes c.entries.length c {}

/-- Insert an entry at the front and book what was evicted for it. -/
def pushFront (c : Lru) (key : CacheKey) (bytes : UInt64) (result : CacheAccess) : Lru :=
  { entries := ⟨c.fresh, key, bytes⟩ :: c.entries
    index := Function.update c.index key (some c.fresh)
    stats :=
      { c.stats with
        residentBytes := c.stats.residentBytes + bytes
        evictions := c.stats.evictions + result.evictedEntries
        evictedBytes := c.stats.evictedBytes + result.evictedBytes }
    fresh := c.fresh + 1 }

/-- The miss branch, once a stale entry of the key is gone. -/
def onMiss (c : Lru) (key : CacheKey) (bytes : UInt64) : CacheAccess × Lru :=
  if bytes = 0 ∨ c.stats.capacityBytes = 0 ∨ bytes > c.stats.capacityBytes then
    ({ bypassed := true }, { c with stats.bypasses := c.stats.bypasses + 1 })
  else
    let evicted := c.evict bytes
    ({ evicted.2 with cached := true }, evicted.1.pushFront key bytes evicted.2)

/-- One access; `none` if it follows a dangling iterator. -/
def access (c : Lru) (key : CacheKey) (bytes : UInt64) : Option (CacheAccess × Lru) :=
  let c := c.countRequest
  match c.index key with
  | none => some (c.countMiss.onMiss key bytes)
  | some it =>
    match c.deref it with
    | none => none
    | some found =>
      if found.bytes = bytes then
        some ({ hit := true, cached := true }, c.promote found)
      else some ((c.countMiss.invalidate found key).onMiss key bytes)

def contains (c : Lru) (key : CacheKey) : Bool := (c.index key).isSome

end Lru

/-! ## Runs -/

/-- The calls that change a cache. -/
inductive CacheOp where
  | access (key : CacheKey) (bytes : UInt64)
  | reset (capacityBytes : UInt64)
deriving DecidableEq, Repr

/-- One call, together with the accesses reported since the last reset, oldest
first. -/
def CacheOp.apply (s : Lru × List CacheAccess) : CacheOp → Option (Lru × List CacheAccess)
  | .access key bytes => (s.1.access key bytes).map fun r => (r.2, s.2 ++ [r.1])
  | .reset capacityBytes => some (s.1.reset capacityBytes, [])

/-- A sequence of calls. -/
def runOps (c : Lru) (ops : List CacheOp) : Option (Lru × List CacheAccess) :=
  ops.foldlM CacheOp.apply (c, [])

end ExpertPin.Cache
