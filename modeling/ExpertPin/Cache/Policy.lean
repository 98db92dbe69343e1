import ExpertPin.Lib.Budget

/-!
# Byte-bounded LRU, as a policy

What the shadow is for, without its list nodes and its index: a capacity, and
the resident slices with their sizes, most recently used first.  An access to a
resident slice of the same size is a hit and makes it the most recent.  Any
other access forgets what is resident under that key, and then either bypasses
the cache or inserts the slice before the longest prefix that still fits.

A `Residency` carries its own bound: one cannot be built that repeats a key,
holds an empty slice or exceeds its capacity.
-/

namespace ExpertPin.Cache

open Budget

universe u

/-- The resident slices of a cache, most recently used first. -/
@[ext]
structure Residency (K : Type u) where
  /-- The budget in bytes. -/
  capacity : ℕ
  /-- The resident slices: key and size. -/
  slices : List (K × ℕ)
  keys_nodup : (slices.map Prod.fst).Nodup
  pos : ∀ p ∈ slices, 0 < p.2
  fits : weight Prod.snd slices ≤ capacity

/-- What an access does to a residency. -/
inductive Outcome (K : Type u) where
  | hit
  | bypass
  | insert (evicted : List (K × ℕ))
deriving DecidableEq, Repr

namespace Residency

variable {K : Type u}

/-- The empty residency of a given capacity. -/
def empty (capacity : ℕ) : Residency K := ⟨capacity, [], List.nodup_nil, by simp, Nat.zero_le _⟩

/-- The resident keys, most recently used first. -/
def keys (r : Residency K) : List K := r.slices.map Prod.fst

theorem slices_nodup (r : Residency K) : r.slices.Nodup := r.keys_nodup.of_map

/-- A resident slice is no larger than the capacity. -/
theorem le_capacity (r : Residency K) {p : K × ℕ} (h : p ∈ r.slices) : p.2 ≤ r.capacity :=
  (le_weight_of_mem Prod.snd h).trans r.fits

variable [DecidableEq K]

/-- Forget what is resident under a key. -/
def forget (r : Residency K) (k : K) : Residency K where
  capacity := r.capacity
  slices := r.slices.filter fun p => p.1 ≠ k
  keys_nodup := r.keys_nodup.sublist (List.filter_sublist.map _)
  pos p hp := r.pos p (List.mem_filter.mp hp).1
  fits := (weight_le_of_sublist _ List.filter_sublist).trans r.fits

theorem notMem_keys_forget (r : Residency K) (k : K) : k ∉ (r.forget k).keys := by
  simp [keys, forget]

theorem forget_eq_self {r : Residency K} {k : K} (h : k ∉ r.keys) : r.forget k = r := by
  refine Residency.ext rfl (List.filter_eq_self.mpr fun p hp => ?_)
  have : p.1 ≠ k := fun hk => h (hk ▸ List.mem_map_of_mem hp)
  simpa using this

/-- Make a resident slice the most recent one. -/
def touch (r : Residency K) (p : K × ℕ) (h : p ∈ r.slices) : Residency K where
  capacity := r.capacity
  slices := promote p r.slices
  keys_nodup := ((promote_perm h).map _).nodup_iff.mpr r.keys_nodup
  pos q hq := r.pos q ((promote_perm h).mem_iff.mp hq)
  fits := (weight_perm _ (promote_perm h)).le.trans r.fits

/-- The longest prefix that leaves room for `b` bytes. -/
def keep (r : Residency K) (b : ℕ) : List (K × ℕ) := fit Prod.snd (r.capacity - b) r.slices

/-- Insert a fitting slice whose key is not resident. -/
def insert (r : Residency K) (k : K) (b : ℕ) (hk : k ∉ r.keys) (hb : 0 < b)
    (hC : b ≤ r.capacity) : Residency K where
  capacity := r.capacity
  slices := (k, b) :: r.keep b
  keys_nodup := by
    have hsub : ((r.keep b).map Prod.fst).Sublist r.keys := ((isPrefix_fit _ _ _).sublist).map _
    exact List.nodup_cons.mpr ⟨fun h => hk (hsub.subset h), r.keys_nodup.sublist hsub⟩
  pos p hp := by
    rcases List.mem_cons.mp hp with rfl | hp
    · exact hb
    · exact r.pos p ((isPrefix_fit _ _ _).subset hp)
  fits := by
    have := weight_fit_le Prod.snd (r.capacity - b) r.slices
    rw [weight_cons]
    change b + weight _ (fit _ _ _) ≤ r.capacity
    omega

/-- What an access to `b` bytes under the key `k` amounts to. -/
def outcome (r : Residency K) (k : K) (b : ℕ) : Outcome K :=
  if (k, b) ∈ r.slices then .hit
  else if b = 0 ∨ r.capacity < b then .bypass
  else .insert ((r.forget k).slices.drop ((r.forget k).keep b).length)

/-- The residency after the access. -/
def access (r : Residency K) (k : K) (b : ℕ) : Residency K :=
  if h : (k, b) ∈ r.slices then r.touch (k, b) h
  else if h : b = 0 ∨ r.capacity < b then r.forget k
  else (r.forget k).insert k b (r.notMem_keys_forget k)
    (Nat.pos_of_ne_zero fun hb => h (.inl hb)) (not_lt.mp fun hC => h (.inr hC))

@[simp] theorem capacity_access (r : Residency K) (k : K) (b : ℕ) :
    (r.access k b).capacity = r.capacity := by
  unfold access
  split_ifs <;> rfl

section Branches

variable {r : Residency K} {k : K} {b : ℕ}

theorem outcome_hit (h : (k, b) ∈ r.slices) : r.outcome k b = .hit := if_pos h

theorem slices_access_hit (h : (k, b) ∈ r.slices) :
    (r.access k b).slices = promote (k, b) r.slices := by
  rw [access, dif_pos h, touch]

theorem outcome_bypass (h : (k, b) ∉ r.slices) (hb : b = 0 ∨ r.capacity < b) :
    r.outcome k b = .bypass := by
  rw [outcome, if_neg h, if_pos hb]

theorem slices_access_bypass (h : (k, b) ∉ r.slices) (hb : b = 0 ∨ r.capacity < b) :
    (r.access k b).slices = (r.forget k).slices := by
  rw [access, dif_neg h, dif_pos hb]

theorem outcome_insert (h : (k, b) ∉ r.slices) (hb : ¬(b = 0 ∨ r.capacity < b)) :
    r.outcome k b = .insert ((r.forget k).slices.drop ((r.forget k).keep b).length) := by
  rw [outcome, if_neg h, if_neg hb]

theorem slices_access_insert (h : (k, b) ∉ r.slices) (hb : ¬(b = 0 ∨ r.capacity < b)) :
    (r.access k b).slices = (k, b) :: (r.forget k).keep b := by
  rw [access, dif_neg h, dif_neg hb, insert]

omit [DecidableEq K] in
theorem notMem_slices_of_notMem_keys (h : k ∉ r.keys) : (k, b) ∉ r.slices :=
  fun hm => h (List.mem_map_of_mem hm)

/-- An access that is not a hit may as well forget its key first. -/
theorem outcome_forget (h : (k, b) ∉ r.slices) : (r.forget k).outcome k b = r.outcome k b := by
  have hk : k ∉ (r.forget k).keys := r.notMem_keys_forget k
  have hcap : (r.forget k).capacity = r.capacity := rfl
  by_cases hb : b = 0 ∨ r.capacity < b
  · rw [outcome_bypass (notMem_slices_of_notMem_keys hk) (hcap ▸ hb), outcome_bypass h hb]
  · rw [outcome_insert (notMem_slices_of_notMem_keys hk) (hcap ▸ hb), outcome_insert h hb,
      forget_eq_self hk]

theorem access_forget (h : (k, b) ∉ r.slices) : (r.forget k).access k b = r.access k b := by
  have hk : k ∉ (r.forget k).keys := r.notMem_keys_forget k
  have hcap : (r.forget k).capacity = r.capacity := rfl
  refine Residency.ext (by simp [hcap]) ?_
  by_cases hb : b = 0 ∨ r.capacity < b
  · rw [slices_access_bypass (notMem_slices_of_notMem_keys hk) (hcap ▸ hb),
      slices_access_bypass h hb, forget_eq_self hk]
  · rw [slices_access_insert (notMem_slices_of_notMem_keys hk) (hcap ▸ hb),
      slices_access_insert h hb, forget_eq_self hk]

/-- An empty or oversized slice is never resident, so it always bypasses. -/
theorem outcome_eq_bypass_iff : r.outcome k b = .bypass ↔ b = 0 ∨ r.capacity < b := by
  constructor
  · unfold outcome
    split_ifs with h hb
    · exact fun hc => absurd hc (by simp)
    · exact fun _ => hb
    · exact fun hc => absurd hc (by simp)
  · intro hb
    refine outcome_bypass (fun hm => ?_) hb
    have hpos : 0 < b := r.pos _ hm
    have hle : b ≤ r.capacity := r.le_capacity hm
    omega

theorem outcome_eq_hit_iff : r.outcome k b = .hit ↔ (k, b) ∈ r.slices := by
  unfold outcome
  split_ifs with h hb <;> simp [h]

end Branches

omit [DecidableEq K] in
/-- What is evicted for a slice and what is kept before it make up what was
resident. -/
theorem keep_append_evicted (r : Residency K) (b : ℕ) :
    r.keep b ++ r.slices.drop (r.keep b).length = r.slices := by
  obtain ⟨t, ht⟩ := isPrefix_fit Prod.snd (r.capacity - b) r.slices
  have hk : r.keep b ++ t = r.slices := ht
  conv_lhs => rw [← hk, List.drop_left]
  exact hk

omit [DecidableEq K] in
/-- Slices are not empty, so there are no more of them than bytes. -/
theorem length_le_weight {l : List (K × ℕ)} (h : ∀ p ∈ l, 0 < p.2) :
    l.length ≤ weight Prod.snd l := by
  induction l with
  | nil => exact Nat.zero_le _
  | cons p l ih =>
    have hp := h p List.mem_cons_self
    have hl := ih fun q hq => h q (List.mem_cons_of_mem _ hq)
    rw [List.length_cons, weight_cons]
    omega

section Insert

variable {r : Residency K} {k : K} {b : ℕ} {evicted : List (K × ℕ)}

/-- An insertion is neither a hit nor a bypass, and its evicted slices were
resident behind the kept ones. -/
theorem insert_spec (h : r.outcome k b = .insert evicted) :
    (k, b) ∉ r.slices ∧ ¬(b = 0 ∨ r.capacity < b) ∧
      (r.access k b).slices = (k, b) :: (r.forget k).keep b ∧
      (r.forget k).keep b ++ evicted = (r.forget k).slices := by
  have hm : (k, b) ∉ r.slices := fun hc => by
    rw [outcome_hit hc] at h; exact absurd h (by simp)
  have hb : ¬(b = 0 ∨ r.capacity < b) := fun hc => by
    rw [outcome_bypass hm hc] at h; exact absurd h (by simp)
  rw [outcome_insert hm hb, Outcome.insert.injEq] at h
  exact ⟨hm, hb, slices_access_insert hm hb, h ▸ keep_append_evicted _ _⟩

/-- Bytes are conserved by an insertion. -/
theorem weight_insert (h : r.outcome k b = .insert evicted) :
    weight Prod.snd (r.access k b).slices + weight Prod.snd evicted =
      weight Prod.snd (r.forget k).slices + b := by
  obtain ⟨-, -, hs, happ⟩ := insert_spec h
  rw [hs, ← happ, weight_cons, weight_append]
  omega

/-- Slices are conserved by an insertion. -/
theorem length_insert (h : r.outcome k b = .insert evicted) :
    (r.access k b).slices.length + evicted.length = (r.forget k).slices.length + 1 := by
  obtain ⟨-, -, hs, happ⟩ := insert_spec h
  rw [hs, ← happ, List.length_cons, List.length_append]
  omega

theorem evicted_subset (h : r.outcome k b = .insert evicted) :
    ∀ p ∈ evicted, p ∈ (r.forget k).slices := by
  obtain ⟨-, -, -, happ⟩ := insert_spec h
  exact fun p hp => happ ▸ List.mem_append_right _ hp

theorem weight_evicted_le (h : r.outcome k b = .insert evicted) :
    weight Prod.snd evicted ≤ r.capacity := by
  obtain ⟨-, -, -, happ⟩ := insert_spec h
  have hf := (r.forget k).fits
  rw [← happ, weight_append] at hf
  exact (Nat.le_add_left _ _).trans hf

theorem length_evicted_le (h : r.outcome k b = .insert evicted) :
    evicted.length ≤ weight Prod.snd evicted :=
  length_le_weight fun p hp => (r.forget k).pos p (evicted_subset h p hp)

end Insert

end Residency

end ExpertPin.Cache
