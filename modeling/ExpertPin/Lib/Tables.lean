import Mathlib.Data.List.AList

/-!
# Tables of counts

A row has counts in some columns, and a table has some rows.  A table says how often each pair of
a row and a column is in a list (`tally`); merging two tables adds the counts, and is what
appending the lists is for them (`tally_append`).

The second part is about association lists that are changed by a loop over the entries of
another one.
-/

namespace ExpertPin.Tables

open List
open Option

universe u v w x

variable {K : Type u} {T : Type v} {C : Type w} {D : Type x}

/-! ## Tables -/

abbrev Row (T : Type v) (C : Type w) := T → Option C

abbrev Table (K : Type u) (T : Type v) (C : Type w) := K → Option (Row T C)

def mapRow (f : C → D) (p : Row T C) : Row T D := fun t => (p t).map f

def map (f : C → D) (a : Table K T C) : Table K T D := fun k => (a k).map (mapRow f)

section Merging

variable [Add C] [Add D]

def mergeRows (p q : Row T C) : Row T C := fun t => (p t).merge (· + ·) (q t)

def merge (a b : Table K T C) : Table K T C := fun k => (a k).merge mergeRows (b k)

theorem map_optionMerge {α : Type u} {β : Type v} {f : α → β} {add : α → α → α}
    {add' : β → β → β} (h : ∀ a b, f (add a b) = add' (f a) (f b)) (x y : Option α) :
    (x.merge add y).map f = (x.map f).merge add' (y.map f) := by
  cases x with
  | none => rw [merge_none_left, map_none, merge_none_left]
  | some a =>
    cases y with
    | none => rfl
    | some b => exact congrArg some (h a b)

theorem map_mergeRows {f : C → D} (hf : ∀ c d, f (c + d) = f c + f d) (p q : Row T C) :
    mapRow f (mergeRows p q) = mergeRows (mapRow f p) (mapRow f q) :=
  funext fun t => map_optionMerge hf (p t) (q t)

theorem map_merge {f : C → D} (hf : ∀ c d, f (c + d) = f c + f d) (a b : Table K T C) :
    map f (merge a b) = merge (map f a) (map f b) :=
  funext fun k => map_optionMerge (map_mergeRows hf) (a k) (b k)

end Merging

/-! ## What a list has -/

section Tally

variable [DecidableEq K] [DecidableEq T] {es fs : List (K × T)} {k : K} {t : T}

def tallyRow (es : List (K × T)) (k : K) : Row T ℕ := fun t =>
  if (k, t) ∈ es then some (es.count (k, t)) else none

def tally (es : List (K × T)) : Table K T ℕ := fun k =>
  if k ∈ es.map Prod.fst then some (tallyRow es k) else none

theorem tally_perm (h : es.Perm fs) : tally es = tally fs := by
  funext k
  unfold tally
  refine ite_congr (propext (h.map Prod.fst).mem_iff) (fun _ => congrArg some ?_) fun _ => rfl
  funext t
  unfold tallyRow
  rw [h.count_eq]
  exact ite_congr (propext h.mem_iff) (fun _ => rfl) fun _ => rfl

theorem tallyRow_eq_none (h : k ∉ es.map Prod.fst) : tallyRow es k = fun _ => none := by
  funext t
  exact if_neg fun hmem => h (mem_map_of_mem hmem)

theorem tallyRow_append (es fs : List (K × T)) (k : K) :
    tallyRow (es ++ fs) k = mergeRows (tallyRow es k) (tallyRow fs k) := by
  funext t
  unfold mergeRows tallyRow
  rw [count_append]
  by_cases hes : (k, t) ∈ es
  · rw [if_pos (mem_append_left _ hes), if_pos hes]
    by_cases hfs : (k, t) ∈ fs
    · rw [if_pos hfs]
      rfl
    · rw [if_neg hfs, count_eq_zero_of_not_mem hfs]
      rfl
  · rw [if_neg hes, count_eq_zero_of_not_mem hes]
    by_cases hfs : (k, t) ∈ fs
    · rw [if_pos (mem_append_right _ hfs), if_pos hfs, Nat.zero_add]
      rfl
    · rw [if_neg fun hmem => (mem_append.mp hmem).elim hes hfs, if_neg hfs]
      rfl

/-- Appending lists merges their tables. -/
theorem tally_append (es fs : List (K × T)) : tally (es ++ fs) = merge (tally es) (tally fs) := by
  funext k
  unfold merge tally
  rw [map_append, tallyRow_append]
  by_cases hes : k ∈ es.map Prod.fst
  · rw [if_pos (mem_append_left _ hes), if_pos hes]
    by_cases hfs : k ∈ fs.map Prod.fst
    · rw [if_pos hfs]
      rfl
    · rw [if_neg hfs, tallyRow_eq_none hfs]
      refine congrArg some (funext fun t => ?_)
      exact merge_none_right ..
  · rw [if_neg hes]
    by_cases hfs : k ∈ fs.map Prod.fst
    · rw [if_pos (mem_append_right _ hfs), if_pos hfs, tallyRow_eq_none hes]
      refine congrArg some (funext fun t => ?_)
      exact merge_none_left ..
    · rw [if_neg fun hmem => (mem_append.mp hmem).elim hes hfs, if_neg hfs]
      rfl

/-- A row that is there has a column. -/
theorem exists_of_tally (h : (tally es k).isSome) : ∃ t, (tallyRow es k t).isSome := by
  have hmem : k ∈ es.map Prod.fst := by
    by_contra hmem
    rw [tally, if_neg hmem] at h
    exact absurd h Bool.false_ne_true
  obtain ⟨e, he, rfl⟩ := mem_map.mp hmem
  refine ⟨e.2, ?_⟩
  rw [tallyRow, if_pos he]
  rfl

theorem tallyRow_eq_some {n : ℕ} (h : tallyRow es k t = some n) : 0 < n ∧ n = es.count (k, t) := by
  unfold tallyRow at h
  split at h
  case isTrue hmem =>
    obtain rfl := some.inj h
    exact ⟨count_pos_iff.mpr hmem, rfl⟩
  case isFalse => exact nomatch h

end Tally

/-! ## Loops over association lists -/

section Loops

variable {V : Type w} [DecidableEq K] {combine : Option V → V → Option V}
  {m m' : AList fun _ : K => V} {es : List ((_ : K) × V)}

/-- One turn: the entry is combined with what is there. -/
def combineEntry (combine : Option V → V → Option V) (m : AList fun _ : K => V)
    (e : (_ : K) × V) : Option (AList fun _ : K => V) :=
  (combine (m.lookup e.1) e.2).map fun v => m.insert e.1 v

/-- The loop combines each entry with what was there before it. -/
theorem lookup_foldlM (hes : es.NodupKeys) (h : es.foldlM (combineEntry combine) m = some m')
    (k : K) :
    m'.lookup k = (es.dlookup k).elim (m.lookup k) (combine (m.lookup k)) := by
  induction es generalizing m with
  | nil =>
    obtain rfl := some.inj h
    rfl
  | cons e es ih =>
    obtain ⟨hnot, hes⟩ := nodupKeys_cons.mp hes
    rw [foldlM_cons] at h
    obtain ⟨next, hnext, h⟩ := bind_eq_some_iff.mp h
    obtain ⟨v, hv, rfl⟩ := map_eq_some_iff.mp hnext
    have hlater := ih hes h
    by_cases hk : k = e.1
    · subst hk
      rw [hlater, dlookup_eq_none.mpr hnot, dlookup_cons_eq, AList.lookup_insert]
      exact hv.symm
    · rw [hlater, dlookup_cons_ne es e hk, AList.lookup_insert_ne hk]

/-- The loop ends if each entry can be combined with what is there before it. -/
theorem exists_foldlM (hes : es.NodupKeys) (h : ∀ e ∈ es, (combine (m.lookup e.1) e.2).isSome) :
    ∃ m', es.foldlM (combineEntry combine) m = some m' := by
  induction es generalizing m with
  | nil => exact ⟨m, rfl⟩
  | cons e es ih =>
    obtain ⟨hnot, hes⟩ := nodupKeys_cons.mp hes
    obtain ⟨hhead, htail⟩ := forall_mem_cons.mp h
    obtain ⟨v, hv⟩ := isSome_iff_exists.mp hhead
    have hnext : combineEntry combine m e = some (m.insert e.1 v) := by
      rw [combineEntry, hv]
      rfl
    rw [foldlM_cons, hnext]
    refine ih hes fun e' he' => ?_
    have hne : e'.1 ≠ e.1 := by
      intro heq
      exact hnot (heq ▸ mem_keys_of_mem he')
    rw [AList.lookup_insert_ne hne]
    exact htail e' he'

/-- An entry whose key is not there yet. -/
def emplace (m : AList fun _ : K => V) (e : (_ : K) × V) : AList fun _ : K => V :=
  match m.lookup e.1 with
  | none => m.insert e.1 e.2
  | some _ => m

theorem lookup_emplace_self (m : AList fun _ : K => V) (e : (_ : K) × V) :
    (emplace m e).lookup e.1 = (m.lookup e.1).or (some e.2) := by
  unfold emplace
  cases h : m.lookup e.1 with
  | none => exact AList.lookup_insert m
  | some v => exact h

theorem lookup_emplace_of_ne {e : (_ : K) × V} {k : K} (h : k ≠ e.1) :
    (emplace m e).lookup k = m.lookup k := by
  unfold emplace
  split
  · exact AList.lookup_insert_ne h
  · rfl

/-- The first entry with a key stays. -/
theorem lookup_foldl_emplace (es : List ((_ : K) × V)) (m : AList fun _ : K => V) (k : K) :
    (es.foldl emplace m).lookup k = (m.lookup k).or (es.dlookup k) := by
  induction es generalizing m with
  | nil => exact (Option.or_none).symm
  | cons e es ih =>
    rw [foldl_cons, ih]
    by_cases hk : k = e.1
    · subst hk
      rw [lookup_emplace_self, dlookup_cons_eq, Option.or_assoc]
      rfl
    · rw [lookup_emplace_of_ne hk, dlookup_cons_ne es e hk]

end Loops

end ExpertPin.Tables
