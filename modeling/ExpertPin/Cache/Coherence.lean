import ExpertPin.Cache.Lru
import ExpertPin.Lib.Budget

/-!
# Coherence of the list, the index and the resident bytes

`Coherent` is the representation invariant of `ggml_moe_cache_lru`: the index
holds exactly the keys of the list, each with the address of its own node, and
the resident bytes are the sum of the entries' sizes and within the capacity.
Each helper of `access` keeps it, and what each does to the list of entries is
stated next to it.
-/

namespace ExpertPin.Cache

open Budget
open List

/-- The size of an entry as a number. -/
def Node.size (n : Node) : ℕ := n.bytes.toNat

namespace Lru

/-- The representation invariant. -/
structure Coherent (c : Lru) : Prop where
  keys_nodup : (c.entries.map Node.key).Nodup
  addrs_nodup : (c.entries.map Node.addr).Nodup
  addr_lt : ∀ n ∈ c.entries, n.addr < c.fresh
  index_iff : ∀ k it, c.index k = some it ↔ ∃ n ∈ c.entries, n.key = k ∧ n.addr = it
  pos : ∀ n ∈ c.entries, 0 < n.size
  resident_eq : c.stats.residentBytes.toNat = weight Node.size c.entries
  resident_le : c.stats.residentBytes ≤ c.stats.capacityBytes

theorem coherent_reset (c : Lru) (capacityBytes : UInt64) : (c.reset capacityBytes).Coherent where
  keys_nodup := nodup_nil
  addrs_nodup := nodup_nil
  addr_lt := by simp [reset]
  index_iff := by simp [reset]
  pos := by simp [reset]
  resident_eq := rfl
  resident_le := UInt64.zero_le

namespace Coherent

variable {c : Lru}

theorem entries_nodup (h : c.Coherent) : c.entries.Nodup := h.keys_nodup.of_map

/-- A key determines its entry. -/
theorem eq_of_key_eq (h : c.Coherent) {m n : Node} (hm : m ∈ c.entries) (hn : n ∈ c.entries)
    (hk : m.key = n.key) : m = n :=
  inj_on_of_nodup_map h.keys_nodup hm hn hk

/-- An address determines its entry. -/
theorem eq_of_addr_eq (h : c.Coherent) {m n : Node} (hm : m ∈ c.entries) (hn : n ∈ c.entries)
    (ha : m.addr = n.addr) : m = n :=
  inj_on_of_nodup_map h.addrs_nodup hm hn ha

variable {n : Node}

theorem size_le_resident (h : c.Coherent) (hn : n ∈ c.entries) :
    n.bytes ≤ c.stats.residentBytes := by
  rw [UInt64.le_iff_toNat_le, h.resident_eq]
  exact le_weight_of_mem Node.size hn

/-- Following the iterator of an entry finds the entry. -/
theorem deref_addr (h : c.Coherent) (hn : n ∈ c.entries) : c.deref n.addr = some n := by
  unfold deref
  cases hf : c.entries.find? (fun m => m.addr = n.addr) with
  | none =>
    have hno := find?_eq_none.mp hf n hn
    simp at hno
  | some m =>
    have ha : m.addr = n.addr := by simpa using find?_some hf
    rw [h.eq_of_addr_eq (mem_of_find?_eq_some hf) hn ha]

/-- A key that is not in the index is not in the list. -/
theorem index_eq_none_iff (h : c.Coherent) {k : CacheKey} :
    c.index k = none ↔ ∀ n ∈ c.entries, n.key ≠ k := by
  constructor
  · intro hi n hn hk
    have := (h.index_iff k n.addr).mpr ⟨n, hn, hk, rfl⟩
    rw [hi] at this
    exact absurd this (by simp)
  · intro hno
    cases hi : c.index k with
    | none => rfl
    | some it =>
      obtain ⟨n, hn, hk, -⟩ := (h.index_iff k it).mp hi
      exact absurd hk (hno n hn)

/-- An iterator of the index points to the entry of its key. -/
theorem deref_of_index (h : c.Coherent) {k : CacheKey} {it : ℕ} (hi : c.index k = some it) :
    ∃ n ∈ c.entries, n.key = k ∧ c.deref it = some n := by
  obtain ⟨n, hn, hk, rfl⟩ := (h.index_iff k it).mp hi
  exact ⟨n, hn, hk, h.deref_addr hn⟩

/-- Event counters are no part of the invariant. -/
theorem of_eq {d : Lru} (h : c.Coherent) (he : d.entries = c.entries) (hi : d.index = c.index)
    (hf : d.fresh = c.fresh) (hr : d.stats.residentBytes = c.stats.residentBytes)
    (hc : d.stats.capacityBytes = c.stats.capacityBytes) : d.Coherent where
  keys_nodup := he ▸ h.keys_nodup
  addrs_nodup := he ▸ h.addrs_nodup
  addr_lt := by rw [he, hf]; exact h.addr_lt
  index_iff := by rw [he, hi]; exact h.index_iff
  pos := he ▸ h.pos
  resident_eq := by rw [he, hr]; exact h.resident_eq
  resident_le := by rw [hr, hc]; exact h.resident_le

/-- Splicing an entry to the front keeps the invariant: addresses stay. -/
theorem promote (h : c.Coherent) (hn : n ∈ c.entries) : (c.promote n).Coherent := by
  have hp : (c.promote n).entries.Perm c.entries := (perm_cons_erase hn).symm
  exact {
    keys_nodup := (hp.map _).nodup_iff.mpr h.keys_nodup
    addrs_nodup := (hp.map _).nodup_iff.mpr h.addrs_nodup
    addr_lt := fun m hm => h.addr_lt m (hp.mem_iff.mp hm)
    index_iff := fun k it => by
      simp only [hp.mem_iff]
      exact h.index_iff k it
    pos := fun m hm => h.pos m (hp.mem_iff.mp hm)
    resident_eq := by rw [weight_perm _ hp]; exact h.resident_eq
    resident_le := h.resident_le }

/-- Dropping one entry, from the list, from the index and from the resident
bytes, keeps the invariant.  Invalidation and eviction are both this. -/
theorem drop {d : Lru} (h : c.Coherent) (hn : n ∈ c.entries)
    (he : d.entries = c.entries.erase n) (hi : d.index = Function.update c.index n.key none)
    (hf : d.fresh = c.fresh)
    (hr : d.stats.residentBytes = c.stats.residentBytes - n.bytes)
    (hc : d.stats.capacityBytes = c.stats.capacityBytes) : d.Coherent := by
  have hsub : d.entries.Sublist c.entries := he ▸ erase_sublist
  have hmem : ∀ m, m ∈ d.entries ↔ m ≠ n ∧ m ∈ c.entries := fun m => by
    rw [he]; exact h.entries_nodup.mem_erase_iff
  have hle : n.bytes ≤ c.stats.residentBytes := h.size_le_resident hn
  have hw : weight Node.size c.entries = n.size + weight Node.size d.entries := by
    rw [weight_perm _ (perm_cons_erase hn), weight_cons, he]
  have hres : d.stats.residentBytes.toNat = c.stats.residentBytes.toNat - n.size := by
    rw [hr, UInt64.toNat_sub_of_le _ _ hle]; rfl
  exact {
    keys_nodup := h.keys_nodup.sublist (hsub.map _)
    addrs_nodup := h.addrs_nodup.sublist (hsub.map _)
    addr_lt := fun m hm => hf ▸ h.addr_lt m (hsub.subset hm)
    index_iff := by
      intro k it
      rw [hi]
      by_cases hk : k = n.key
      · subst hk
        rw [Function.update_self]
        constructor
        · exact fun hc => absurd hc (by simp)
        · rintro ⟨m, hm, hmk, -⟩
          obtain ⟨hne, hm⟩ := (hmem m).mp hm
          exact absurd (h.eq_of_key_eq hm hn hmk) hne
      · rw [Function.update_of_ne hk, h.index_iff]
        constructor
        · rintro ⟨m, hm, rfl, rfl⟩
          exact ⟨m, (hmem m).mpr ⟨fun hc => hk (hc ▸ rfl), hm⟩, rfl, rfl⟩
        · rintro ⟨m, hm, hmk, hma⟩
          exact ⟨m, hsub.subset hm, hmk, hma⟩
    pos := fun m hm => h.pos m (hsub.subset hm)
    resident_eq := by rw [hres, h.resident_eq, hw, Nat.add_sub_cancel_left]
    resident_le := by
      have := UInt64.le_iff_toNat_le.mp h.resident_le
      rw [UInt64.le_iff_toNat_le, hres, hc]
      omega }

theorem invalidate (h : c.Coherent) (hn : n ∈ c.entries) :
    (c.invalidate n n.key).Coherent := h.drop hn rfl rfl rfl rfl rfl

/-- Evicting the last entry keeps the invariant. -/
theorem evictBack (h : c.Coherent) {l : List Node} (he : c.entries = l ++ [n]) :
    (c.evictBack n).Coherent := by
  have hnd : (l ++ [n]).Nodup := he ▸ h.entries_nodup
  have hnl : n ∉ l := fun hc => (nodup_append.mp hnd).2.2 n hc n (by simp) rfl
  refine h.drop (d := c.evictBack n) (by simp [he]) ?_ rfl rfl rfl rfl
  change c.entries.dropLast = c.entries.erase n
  rw [he, dropLast_concat, erase_append_right _ hnl]
  simp

/-- Inserting a fitting entry whose key is not in the list keeps the
invariant. -/
theorem pushFront (h : c.Coherent) {key : CacheKey} {bytes : UInt64} (result : CacheAccess)
    (hk : ∀ n ∈ c.entries, n.key ≠ key) (hb : 0 < bytes.toNat)
    (hfit : weight Node.size c.entries + bytes.toNat ≤ c.stats.capacityBytes.toNat) :
    (c.pushFront key bytes result).Coherent := by
  have hfresh : ∀ n ∈ c.entries, n.addr ≠ c.fresh := fun n hn => (h.addr_lt n hn).ne
  have hlt := c.stats.capacityBytes.toNat_lt
  have hres : (c.stats.residentBytes + bytes).toNat = weight Node.size c.entries + bytes.toNat := by
    rw [UInt64.toNat_add, h.resident_eq]
    exact Nat.mod_eq_of_lt (by omega)
  exact {
    keys_nodup := nodup_cons.mpr ⟨by simpa using hk, h.keys_nodup⟩
    addrs_nodup := nodup_cons.mpr ⟨by simpa using hfresh, h.addrs_nodup⟩
    addr_lt := by
      intro n hn
      rcases mem_cons.mp hn with rfl | hn
      · exact Nat.lt_succ_self _
      · exact (h.addr_lt n hn).trans (Nat.lt_succ_self _)
    index_iff := by
      intro k it
      change Function.update c.index key (some c.fresh) k = some it ↔ _
      by_cases hkk : k = key
      · subst hkk
        rw [Function.update_self]
        constructor
        · intro hit
          exact ⟨_, mem_cons_self, rfl, Option.some.inj hit⟩
        · rintro ⟨n, hn, hnk, rfl⟩
          rcases mem_cons.mp hn with rfl | hn
          · rfl
          · exact absurd hnk (hk n hn)
      · rw [Function.update_of_ne hkk, h.index_iff]
        constructor
        · rintro ⟨n, hn, hnk, rfl⟩
          exact ⟨n, mem_cons_of_mem _ hn, hnk, rfl⟩
        · rintro ⟨n, hn, hnk, rfl⟩
          rcases mem_cons.mp hn with rfl | hn
          · exact absurd hnk.symm hkk
          · exact ⟨n, hn, hnk, rfl⟩
    pos := by
      intro n hn
      rcases mem_cons.mp hn with rfl | hn
      · exact hb
      · exact h.pos n hn
    resident_eq := by
      change (c.stats.residentBytes + bytes).toNat = weight Node.size (⟨_, _, _⟩ :: c.entries)
      rw [hres, weight_cons, Nat.add_comm]
      rfl
    resident_le := by
      rw [UInt64.le_iff_toNat_le]
      change (c.stats.residentBytes + bytes).toNat ≤ _
      rw [hres]
      exact hfit }

end Coherent

/-! ## The eviction loop -/

/-- What the eviction loop of a coherent cache does: it drops a tail of the
entries, leaving the longest prefix that makes room for `bytes`, and reports
the number and the sizes of what it dropped. -/
theorem evictLoop_spec {bytes : UInt64} (turns : ℕ) (c : Lru) (result : CacheAccess)
    (h : c.Coherent) (hturns : c.entries.length ≤ turns)
    (hb : bytes ≤ c.stats.capacityBytes) :
    ∃ d evicted, evictLoop bytes turns c result = (d, { result with
          evictedEntries := result.evictedEntries + UInt64.ofNat evicted.length
          evictedBytes := result.evictedBytes + UInt64.ofNat (weight Node.size evicted) }) ∧
      d.Coherent ∧ c.entries = d.entries ++ evicted ∧
      d.entries = fit Node.size (c.stats.capacityBytes.toNat - bytes.toNat) c.entries ∧
      d.stats = { c.stats with residentBytes := d.stats.residentBytes } := by
  induction turns generalizing c result with
  | zero =>
    have hnil : c.entries = [] := eq_nil_of_length_eq_zero (Nat.le_zero.mp hturns)
    refine ⟨c, [], ?_, h, by simp, by simp [hnil], rfl⟩
    simp [evictLoop]
  | succ turns ih =>
    rcases eq_nil_or_concat c.entries with hnil | ⟨l, n, hl⟩
    · refine ⟨c, [], ?_, h, by simp, by simp [hnil], rfl⟩
      simp [evictLoop, hnil]
    · have hbn := UInt64.le_iff_toNat_le.mp hb
      have hroom : bytes > c.stats.capacityBytes - c.stats.residentBytes ↔
          c.stats.capacityBytes.toNat - bytes.toNat < weight Node.size c.entries := by
        have hrn := UInt64.le_iff_toNat_le.mp h.resident_le
        rw [gt_iff_lt, UInt64.lt_iff_toNat_lt, UInt64.toNat_sub_of_le _ _ h.resident_le,
          ← h.resident_eq]
        omega
      rw [concat_eq_append] at hl
      have hlast : c.entries.getLast? = some n := by rw [hl, getLast?_concat]
      simp only [evictLoop, hlast]
      by_cases hover : c.stats.capacityBytes.toNat - bytes.toNat < weight Node.size c.entries
      · rw [if_pos (hroom.mpr hover)]
        have hd : (c.evictBack n).entries = l := by
          change c.entries.dropLast = l
          rw [hl, dropLast_concat]
        have hlen : (c.evictBack n).entries.length ≤ turns := by
          rw [hl, length_append, length_singleton] at hturns
          rw [hd]
          omega
        obtain ⟨d, evicted, hloop, hcoh, happ, hfit, hstats⟩ :=
          ih (c.evictBack n) { result with
            evictedBytes := result.evictedBytes + n.bytes
            evictedEntries := result.evictedEntries + 1 } (h.evictBack hl) hlen hb
        refine ⟨d, evicted ++ [n], ?_, hcoh, ?_, ?_, hstats⟩
        · have hcount : result.evictedEntries + 1 + UInt64.ofNat evicted.length =
              result.evictedEntries + UInt64.ofNat (evicted ++ [n]).length := by
            rw [length_append, length_singleton, UInt64.ofNat_add,
              UInt64.add_assoc, UInt64.add_comm 1]
            rfl
          have hbytes : result.evictedBytes + n.bytes + UInt64.ofNat (weight Node.size evicted) =
              result.evictedBytes + UInt64.ofNat (weight Node.size (evicted ++ [n])) := by
            rw [weight_append, weight_cons, weight_nil, UInt64.ofNat_add, UInt64.add_assoc,
              UInt64.add_comm n.bytes, Nat.add_zero, Node.size, UInt64.ofNat_toNat]
          rw [hloop, hcount, hbytes]
        · rw [hl, ← append_assoc, ← happ, hd]
        · rw [hfit, hd, hl, fit_append_singleton_of_lt Node.size (hl ▸ hover)]
          rfl
      · rw [if_neg (mt hroom.mp hover)]
        refine ⟨c, [], by simp, h, by simp, ?_, rfl⟩
        rw [fit_eq_self Node.size (not_lt.mp hover)]

theorem evict_spec {c : Lru} (h : c.Coherent) {bytes : UInt64}
    (hb : bytes ≤ c.stats.capacityBytes) :
    ∃ d evicted, c.evict bytes = (d, {
          evictedEntries := UInt64.ofNat evicted.length
          evictedBytes := UInt64.ofNat (weight Node.size evicted) }) ∧
      d.Coherent ∧ c.entries = d.entries ++ evicted ∧
      d.entries = fit Node.size (c.stats.capacityBytes.toNat - bytes.toNat) c.entries ∧
      d.stats = { c.stats with residentBytes := d.stats.residentBytes } := by
  obtain ⟨d, evicted, hloop, hrest⟩ := evictLoop_spec c.entries.length c {} h le_rfl hb
  refine ⟨d, evicted, ?_, hrest⟩
  rw [evict, hloop]
  simp

end Lru

end ExpertPin.Cache
