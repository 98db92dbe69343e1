import Mathlib.Data.List.Induction
import Mathlib.Data.List.Nodup

/-!
# Dictionaries in insertion order

A dictionary as a list of items.  A key that is set for the first time goes to the end, and one
that is set again keeps its place.
-/

namespace ExpertPin.Dict

open List

universe u v

variable {K : Type u} {V : Type v} [DecidableEq K]

def set (d : List (K × V)) (key : K) (value : V) : List (K × V) :=
  if key ∈ d.map Prod.fst then d.map fun p => if p.1 = key then (key, value) else p
  else d ++ [(key, value)]

/-- The dictionary of some items, of which the last of a key counts. -/
def ofItems (items : List (K × V)) : List (K × V) :=
  items.foldl (fun d p => set d p.1 p.2) []

variable {d : List (K × V)} {key : K} {value : V}

theorem set_of_not_mem (h : key ∉ d.map Prod.fst) : set d key value = d ++ [(key, value)] :=
  if_neg h

theorem map_fst_set_of_mem (h : key ∈ d.map Prod.fst) :
    (set d key value).map Prod.fst = d.map Prod.fst := by
  rw [set, if_pos h, map_map]
  refine map_congr_left fun p _ => ?_
  simp only [Function.comp_apply]
  split
  case isTrue hp => exact hp.symm
  case isFalse => rfl

theorem nodup_set (h : (d.map Prod.fst).Nodup) : ((set d key value).map Prod.fst).Nodup := by
  by_cases hmem : key ∈ d.map Prod.fst
  case pos => rwa [map_fst_set_of_mem hmem]
  case neg =>
    rw [set_of_not_mem hmem, map_append, map_singleton]
    refine nodup_append.mpr ⟨h, nodup_singleton _, ?_⟩
    rintro other hother _ hkey rfl
    rw [mem_singleton.mp hkey] at hother
    exact hmem hother

theorem mem_map_fst_set {other : K} :
    other ∈ (set d key value).map Prod.fst ↔ other ∈ d.map Prod.fst ∨ other = key := by
  by_cases hmem : key ∈ d.map Prod.fst
  case pos =>
    rw [map_fst_set_of_mem hmem]
    refine ⟨.inl, ?_⟩
    rintro (hother | rfl)
    · exact hother
    · exact hmem
  case neg => rw [set_of_not_mem hmem, map_append, mem_append, map_singleton,
    mem_singleton]

theorem mem_set {p : K × V} (h : p ∈ set d key value) : p ∈ d ∨ p = (key, value) := by
  rw [set] at h
  split at h
  case isTrue =>
    obtain ⟨q, hq, rfl⟩ := mem_map.mp h
    split
    · exact .inr rfl
    · exact .inl hq
  case isFalse =>
    rcases mem_append.mp h with h | h
    · exact .inl h
    · exact .inr (mem_singleton.mp h)

theorem lookup_cons_eq (p : K × V) (d : List (K × V)) (key : K) :
    (p :: d).lookup key = if key = p.1 then some p.2 else d.lookup key := by
  obtain ⟨other, value⟩ := p
  by_cases h : key = other
  case pos => rw [if_pos h, h, lookup_cons_self]
  case neg => rw [if_neg h, lookup_cons, beq_eq_false_iff_ne.mpr h]

theorem lookup_eq_none (h : key ∉ d.map Prod.fst) : d.lookup key = none := by
  induction d with
  | nil => rfl
  | cons p d ih =>
    rw [map_cons, mem_cons, not_or] at h
    rw [lookup_cons_eq, if_neg h.1, ih h.2]

theorem lookup_of_mem (h : (d.map Prod.fst).Nodup) (hmem : (key, value) ∈ d) :
    d.lookup key = some value := by
  induction d with
  | nil => cases hmem
  | cons p d ih =>
    rw [map_cons, nodup_cons] at h
    rw [lookup_cons_eq]
    rcases mem_cons.mp hmem with rfl | hmem
    · exact if_pos rfl
    · have hne : key ≠ p.1 := by
        rintro rfl
        exact h.1 (mem_map.mpr ⟨(p.1, value), hmem, rfl⟩)
      rw [if_neg hne, ih h.2 hmem]

theorem mem_of_lookup (h : d.lookup key = some value) : (key, value) ∈ d := by
  induction d with
  | nil => cases h
  | cons p d ih =>
    rw [lookup_cons_eq] at h
    split at h
    case isTrue hkey =>
      cases h
      exact hkey ▸ mem_cons_self
    case isFalse => exact mem_cons_of_mem p (ih h)

theorem lookup_map_of_ne {other : K} (h : other ≠ key) :
    (d.map fun p => if p.1 = key then (key, value) else p).lookup other = d.lookup other := by
  induction d with
  | nil => rfl
  | cons p d ih =>
    rw [map_cons, lookup_cons_eq, lookup_cons_eq, ih]
    split
    case isTrue hp =>
      have hne : other ≠ p.1 := fun hsame => h (hsame.trans hp)
      rw [if_neg hne]
    case isFalse => rfl

theorem lookup_map_self (h : key ∈ d.map Prod.fst) :
    (d.map fun p => if p.1 = key then (key, value) else p).lookup key = some value := by
  induction d with
  | nil => cases h
  | cons p d ih =>
    rw [map_cons, lookup_cons_eq]
    split
    case isTrue => exact if_pos rfl
    case isFalse hp =>
      rw [if_neg (Ne.symm hp)]
      exact ih ((mem_cons.mp h).resolve_left (Ne.symm hp))

theorem lookup_set (d : List (K × V)) (key : K) (value : V) (other : K) :
    (set d key value).lookup other = if other = key then some value else d.lookup other := by
  by_cases hmem : key ∈ d.map Prod.fst
  case pos =>
    rw [set, if_pos hmem]
    split
    case isTrue hother => rw [hother, lookup_map_self hmem]
    case isFalse hother => exact lookup_map_of_ne hother
  case neg =>
    rw [set_of_not_mem hmem, lookup_append, lookup_cons_eq]
    split
    case isTrue hother => rw [hother, lookup_eq_none hmem, Option.none_or]
    case isFalse => rw [lookup_nil, Option.or_none]

/-- Items with different keys are the dictionary that they make. -/
theorem ofItems_of_nodup {items : List (K × V)} (h : (items.map Prod.fst).Nodup) :
    ofItems items = items := by
  induction items using reverseRecOn with
  | nil => rfl
  | append_singleton items p ih =>
    rw [map_append, nodup_append] at h
    have hnew : p.1 ∉ items.map Prod.fst := fun hmem =>
      h.2.2 p.1 hmem p.1 (mem_singleton_self _) rfl
    rw [ofItems, foldl_concat]
    change set (ofItems items) p.1 p.2 = _
    rw [ih h.1, set_of_not_mem hnew]

end ExpertPin.Dict
