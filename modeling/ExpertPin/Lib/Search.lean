import Mathlib.Data.Finset.Card

/-!
# Worklist search

A node is visited once: it is emitted, or its successors are pushed, or the search is
aborted.  The worklist is a stack.  A search that returns has seen exactly the reachable
nodes and emitted exactly the reachable ones to emit (`search_spec`).  It returns where
finitely many nodes are reachable and none of them aborts (`exists_search`).
-/

namespace ExpertPin.Search

open List

universe u

variable {σ : Type u}

/-- What the visit of a node finds. -/
inductive Verdict (σ : Type u)
  | emit
  | push (next : List σ)
  | abort

section Defs

variable [DecidableEq σ] (visit : σ → Verdict σ)

/-- The search: what is to do (next one first), what has been seen, and the output. -/
def search : ℕ → List σ → List σ → List σ → Option (List σ)
  | _, [], _, out => some out
  | 0, _ :: _, _, _ => none
  | fuel + 1, s :: todo, seen, out =>
    if s ∈ seen then search fuel todo seen out
    else
      match visit s with
      | .emit => search fuel todo (s :: seen) (if s ∈ out then out else out ++ [s])
      | .push next => search fuel (next.reverse ++ todo) (s :: seen) out
      | .abort => none

end Defs

variable {visit : σ → Verdict σ}

/-- The visit of `s` pushes `t`. -/
def Pushes (visit : σ → Verdict σ) (s t : σ) : Prop := ∃ next, visit s = .push next ∧ t ∈ next

def Reach (visit : σ → Verdict σ) : σ → σ → Prop := Relation.ReflTransGen (Pushes visit)

variable [DecidableEq σ] {fuel : ℕ} {todo seen out out' : List σ} {s t : σ}

theorem search_succ (h : search visit fuel todo seen out = some out') :
    search visit (fuel + 1) todo seen out = some out' := by
  induction fuel generalizing todo seen out with
  | zero =>
    cases todo with
    | nil => exact h
    | cons s todo => cases h
  | succ fuel ih =>
    cases todo with
    | nil => exact h
    | cons s todo =>
      rw [search] at h ⊢
      split at h
      case isTrue hseen =>
        rw [if_pos hseen]
        exact ih h
      case isFalse hnew =>
        rw [if_neg hnew]
        cases hvisit : visit s with
        | emit =>
          rw [hvisit] at h
          exact ih h
        | push next =>
          rw [hvisit] at h
          exact ih h
        | abort =>
          rw [hvisit] at h
          cases h

/-- More fuel does not change the result. -/
theorem search_mono {fuel' : ℕ} (hle : fuel ≤ fuel')
    (h : search visit fuel todo seen out = some out') :
    search visit fuel' todo seen out = some out' := by
  induction hle with
  | refl => exact h
  | step _ ih => exact search_succ ih

/-- What has been seen, with its successors seen or to do. -/
structure Explored (visit : σ → Verdict σ) (todo seen : List σ) : Prop where
  closed : ∀ s ∈ seen, ∀ t, Pushes visit s t → t ∈ seen ∨ t ∈ todo
  sound : ∀ s ∈ seen, visit s ≠ .abort

theorem Explored.nil (visit : σ → Verdict σ) (todo : List σ) : Explored visit todo [] where
  closed _ hs := absurd hs not_mem_nil
  sound _ hs := absurd hs not_mem_nil

theorem Explored.skip (h : Explored visit (s :: todo) seen) (hs : s ∈ seen) :
    Explored visit todo seen where
  closed r hr t ht := by
    rcases h.closed r hr t ht with hseen | htodo
    · exact .inl hseen
    · rcases mem_cons.mp htodo with rfl | htodo
      · exact .inl hs
      · exact .inr htodo
  sound := h.sound

theorem Explored.add (h : Explored visit (s :: todo) seen) {next : List σ}
    (hpush : ∀ t, Pushes visit s t → t ∈ next) (hs : visit s ≠ .abort) :
    Explored visit (next ++ todo) (s :: seen) where
  closed r hr t ht := by
    rcases mem_cons.mp hr with rfl | hr
    · exact .inr (mem_append_left _ (hpush t ht))
    · rcases h.closed r hr t ht with hseen | htodo
      · exact .inl (mem_cons_of_mem _ hseen)
      · rcases mem_cons.mp htodo with rfl | htodo
        · exact .inl mem_cons_self
        · exact .inr (mem_append_right _ htodo)
  sound r hr := by
    rcases mem_cons.mp hr with rfl | hr
    · exact hs
    · exact h.sound r hr

/-- The nodes a search has seen when it returns. -/
structure Found (visit : σ → Verdict σ) (todo seen out out' seen' : List σ) : Prop where
  explored : Explored visit [] seen'
  kept : ∀ s ∈ seen, s ∈ seen'
  visited : ∀ s ∈ todo, s ∈ seen'
  reach : ∀ s ∈ seen', s ∈ seen ∨ ∃ r ∈ todo, Reach visit r s
  emitted : ∀ t, t ∈ out' ↔ t ∈ out ∨ t ∈ seen' ∧ t ∉ seen ∧ visit t = .emit

theorem Found.cons (next : List σ) {out₁ seen' : List σ}
    (h : Found visit (next ++ todo) (s :: seen) out₁ out' seen') (hs : s ∉ seen)
    (hnext : ∀ t ∈ next, Pushes visit s t)
    (hout : ∀ t, t ∈ out₁ ↔ t ∈ out ∨ t = s ∧ visit t = .emit) :
    Found visit (s :: todo) seen out out' seen' where
  explored := h.explored
  kept r hr := h.kept r (mem_cons_of_mem _ hr)
  visited r hr := by
    rcases mem_cons.mp hr with rfl | hr
    · exact h.kept r mem_cons_self
    · exact h.visited r (mem_append_right _ hr)
  reach r hr := by
    rcases h.reach r hr with hseen | ⟨q, hq, hreach⟩
    · rcases mem_cons.mp hseen with rfl | hseen
      · exact .inr ⟨r, mem_cons_self, .refl⟩
      · exact .inl hseen
    · rcases mem_append.mp hq with hq | hq
      · exact .inr ⟨s, mem_cons_self, .head (hnext q hq) hreach⟩
      · exact .inr ⟨q, mem_cons_of_mem _ hq, hreach⟩
  emitted t := by
    have hmem : s ∈ seen' := h.kept s mem_cons_self
    rw [h.emitted, hout]
    constructor
    · rintro ((hout | ⟨rfl, hemit⟩) | ⟨hseen, hnot, hemit⟩)
      · exact .inl hout
      · exact .inr ⟨hmem, hs, hemit⟩
      · exact .inr ⟨hseen, fun hm => hnot (mem_cons_of_mem _ hm), hemit⟩
    · rintro (hout | ⟨hseen, hnot, hemit⟩)
      · exact .inl (.inl hout)
      · by_cases hts : t = s
        · exact .inl (.inr ⟨hts, hemit⟩)
        · refine .inr ⟨hseen, fun hm => ?_, hemit⟩
          rcases mem_cons.mp hm with heq | hm
          · exact hts heq
          · exact hnot hm

theorem exists_found (h : search visit fuel todo seen out = some out')
    (hexp : Explored visit todo seen) : ∃ seen', Found visit todo seen out out' seen' := by
  induction fuel generalizing todo seen out with
  | zero =>
    cases todo with
    | nil =>
      obtain rfl := Option.some.inj h
      exact ⟨seen, hexp, fun _ hs => hs, fun _ hs => absurd hs not_mem_nil,
        fun _ hs => .inl hs, fun t => ⟨.inl, fun ht => ht.elim id fun hn => absurd hn.1 hn.2.1⟩⟩
    | cons s todo => cases h
  | succ fuel ih =>
    cases todo with
    | nil =>
      obtain rfl := Option.some.inj h
      exact ⟨seen, hexp, fun _ hs => hs, fun _ hs => absurd hs not_mem_nil,
        fun _ hs => .inl hs, fun t => ⟨.inl, fun ht => ht.elim id fun hn => absurd hn.1 hn.2.1⟩⟩
    | cons s todo =>
      rw [search] at h
      split at h
      case isTrue hseen =>
        obtain ⟨seen', hfound⟩ := ih h (hexp.skip hseen)
        refine ⟨seen', hfound.explored, hfound.kept, ?_, ?_, hfound.emitted⟩
        · intro r hr
          rcases mem_cons.mp hr with rfl | hr
          · exact hfound.kept r hseen
          · exact hfound.visited r hr
        · intro r hr
          rcases hfound.reach r hr with hold | ⟨q, hq, hreach⟩
          · exact .inl hold
          · exact .inr ⟨q, mem_cons_of_mem _ hq, hreach⟩
      case isFalse hnew =>
        cases hvisit : visit s with
        | emit =>
          rw [hvisit] at h
          have hnone : ∀ t, Pushes visit s t → t ∈ ([] : List σ) := by
            rintro t ⟨next, hpush, _⟩
            rw [hvisit] at hpush
            cases hpush
          obtain ⟨seen', hfound⟩ := ih h (hexp.add hnone (by rw [hvisit]; exact nofun))
          refine ⟨seen', hfound.cons [] hnew (fun t ht => absurd ht not_mem_nil)
            fun t => ?_⟩
          split
          case isTrue hmem =>
            exact ⟨.inl, fun ht => ht.elim id fun heq => heq.1 ▸ hmem⟩
          case isFalse =>
            rw [mem_append, mem_singleton]
            refine or_congr Iff.rfl ⟨fun heq => ⟨heq, heq ▸ hvisit⟩, And.left⟩
        | push next =>
          rw [hvisit] at h
          have hnext : ∀ t, Pushes visit s t ↔ t ∈ next.reverse := by
            intro t
            rw [mem_reverse]
            constructor
            · rintro ⟨next', hpush, ht⟩
              rw [hvisit] at hpush
              cases hpush
              exact ht
            · exact fun ht => ⟨next, hvisit, ht⟩
          obtain ⟨seen', hfound⟩ :=
            ih h (hexp.add (fun t => (hnext t).mp) (by rw [hvisit]; exact nofun))
          refine ⟨seen', hfound.cons _ hnew (fun t => (hnext t).mpr) fun t => ?_⟩
          refine ⟨.inl, fun ht => ht.elim id fun heq => ?_⟩
          obtain ⟨rfl, hemit⟩ := heq
          rw [hvisit] at hemit
          cases hemit
        | abort =>
          rw [hvisit] at h
          cases h

/-- A search that returns has seen what is reachable, and emitted what is to emit of it. -/
theorem search_spec (h : search visit fuel [s] [] out = some out') :
    ∃ seen : List σ, (∀ t, t ∈ seen ↔ Reach visit s t) ∧ (∀ t, Reach visit s t → visit t ≠ .abort) ∧
      ∀ t, t ∈ out' ↔ t ∈ out ∨ Reach visit s t ∧ visit t = .emit := by
  obtain ⟨seen, hfound⟩ := exists_found h (Explored.nil visit [s])
  have hseen : ∀ t, t ∈ seen ↔ Reach visit s t := by
    intro t
    constructor
    · intro ht
      rcases hfound.reach t ht with hno | ⟨r, hr, hreach⟩
      · exact absurd hno not_mem_nil
      · exact mem_singleton.mp hr ▸ hreach
    · intro hreach
      induction hreach with
      | refl => exact hfound.visited s mem_cons_self
      | tail _ hpush ih =>
        exact (hfound.explored.closed _ ih _ hpush).resolve_right not_mem_nil
  refine ⟨seen, hseen, fun t ht => hfound.explored.sound t ((hseen t).mpr ht), fun t => ?_⟩
  rw [hfound.emitted, hseen]
  exact or_congr Iff.rfl ⟨fun ht => ⟨ht.1, ht.2.2⟩, fun ht => ⟨ht.1, not_mem_nil, ht.2⟩⟩

/-- A search within finitely many nodes returns. -/
theorem exists_search (all : Finset σ) (hclosed : ∀ s ∈ all, ∀ t, Pushes visit s t → t ∈ all)
    (hsound : ∀ s ∈ all, visit s ≠ .abort) (n : ℕ) :
    ∀ seen todo out, (all.filter (· ∉ seen)).card ≤ n → (∀ s ∈ todo, s ∈ all) →
      ∃ fuel out', search visit fuel todo seen out = some out' := by
  induction n with
  | zero =>
    intro seen todo out hcard htodo
    have hall : ∀ s ∈ all, s ∈ seen := by
      intro s hs
      by_contra hnot
      have hempty := Finset.card_eq_zero.mp (Nat.le_zero.mp hcard)
      exact absurd (Finset.mem_filter.mpr ⟨hs, hnot⟩) (hempty ▸ Finset.notMem_empty s)
    induction todo with
    | nil => exact ⟨0, out, rfl⟩
    | cons s todo ih =>
      obtain ⟨fuel, out', hsearch⟩ := ih fun r hr => htodo r (mem_cons_of_mem _ hr)
      refine ⟨fuel + 1, out', ?_⟩
      rw [search, if_pos (hall s (htodo s mem_cons_self))]
      exact hsearch
  | succ n ih =>
    intro seen todo out hcard htodo
    induction todo generalizing out with
    | nil => exact ⟨0, out, rfl⟩
    | cons s todo ihtodo =>
      have hs := htodo s mem_cons_self
      have hrest : ∀ r ∈ todo, r ∈ all := fun r hr => htodo r (mem_cons_of_mem _ hr)
      by_cases hseen : s ∈ seen
      · obtain ⟨fuel, out', hsearch⟩ := ihtodo out hrest
        refine ⟨fuel + 1, out', ?_⟩
        rw [search, if_pos hseen]
        exact hsearch
      · have hless : (all.filter (· ∉ s :: seen)).card ≤ n := by
          have hlt : (all.filter (· ∉ s :: seen)).card < (all.filter (· ∉ seen)).card := by
            apply Finset.card_lt_card
            refine ⟨fun r hr => ?_, fun hsub => ?_⟩
            · obtain ⟨hr, hnot⟩ := Finset.mem_filter.mp hr
              exact Finset.mem_filter.mpr ⟨hr, fun hm => hnot (mem_cons_of_mem _ hm)⟩
            · have hm := hsub (Finset.mem_filter.mpr ⟨hs, hseen⟩)
              exact (Finset.mem_filter.mp hm).2 mem_cons_self
          exact Nat.le_of_lt_succ (hlt.trans_le hcard)
        cases hvisit : visit s with
        | emit =>
          obtain ⟨fuel, out', hsearch⟩ :=
            ih (s :: seen) todo (if s ∈ out then out else out ++ [s]) hless hrest
          refine ⟨fuel + 1, out', ?_⟩
          rw [search, if_neg hseen, hvisit]
          exact hsearch
        | push next =>
          have hnext : ∀ r ∈ next.reverse ++ todo, r ∈ all := by
            intro r hr
            rcases mem_append.mp hr with hr | hr
            · exact hclosed s hs r ⟨next, hvisit, mem_reverse.mp hr⟩
            · exact hrest r hr
          obtain ⟨fuel, out', hsearch⟩ := ih (s :: seen) _ out hless hnext
          refine ⟨fuel + 1, out', ?_⟩
          rw [search, if_neg hseen, hvisit]
          exact hsearch
        | abort => exact absurd hvisit (hsound s hs)

/-! ## The output -/

/-- What a run gives, as a set: whether it returns, and what is in the list that it returns. -/
structure Yields (r : Option (List σ)) (ok : Prop) (P : σ → Prop) : Prop where
  isSome_iff : r.isSome ↔ ok
  mem_iff : ∀ out, r = some out → ∀ s, s ∈ out ↔ P s

theorem mem_of_search (h : search visit fuel todo seen out = some out') : ∀ s ∈ out, s ∈ out' := by
  induction fuel generalizing todo seen out with
  | zero =>
    cases todo with
    | nil => exact Option.some.inj h ▸ fun _ hs => hs
    | cons s todo => cases h
  | succ fuel ih =>
    cases todo with
    | nil => exact Option.some.inj h ▸ fun _ hs => hs
    | cons s todo =>
      rw [search] at h
      split at h
      case isTrue => exact ih h
      case isFalse =>
        cases hvisit : visit s with
        | abort =>
          rw [hvisit] at h
          cases h
        | push next =>
          rw [hvisit] at h
          exact ih h
        | emit =>
          rw [hvisit] at h
          intro t ht
          refine ih h t ?_
          split
          · exact ht
          · exact mem_append_left _ ht

/-- What is in the output at the start makes no difference to what is added. -/
theorem search_yields (visit : σ → Verdict σ) (fuel : ℕ) (todo seen out : List σ) :
    Yields (search visit fuel todo seen out) (search visit fuel todo seen []).isSome fun s =>
      s ∈ out ∨ ∃ out', search visit fuel todo seen [] = some out' ∧ s ∈ out' := by
  -- any two searches with the same nodes to do and seen
  have hall : ∀ (fuel : ℕ) (todo seen out₁ out₂ : List σ),
      (search visit fuel todo seen out₁ = none ∧ search visit fuel todo seen out₂ = none) ∨
      ∃ r₁ r₂, search visit fuel todo seen out₁ = some r₁ ∧
        search visit fuel todo seen out₂ = some r₂ ∧
        ∀ s, s ∈ r₁ ∨ s ∈ out₂ ↔ s ∈ r₂ ∨ s ∈ out₁ := by
    intro fuel
    induction fuel with
    | zero =>
      intro todo seen out₁ out₂
      cases todo with
      | nil => exact .inr ⟨out₁, out₂, rfl, rfl, fun _ => or_comm⟩
      | cons s todo => exact .inl ⟨rfl, rfl⟩
    | succ fuel ih =>
      intro todo seen out₁ out₂
      cases todo with
      | nil => exact .inr ⟨out₁, out₂, rfl, rfl, fun _ => or_comm⟩
      | cons s todo =>
        rw [search, search]
        by_cases hseen : s ∈ seen
        · rw [if_pos hseen, if_pos hseen]
          exact ih todo seen out₁ out₂
        · rw [if_neg hseen, if_neg hseen]
          cases visit s with
          | abort => exact .inl ⟨rfl, rfl⟩
          | push next => exact ih _ _ out₁ out₂
          | emit =>
            have hmem : ∀ (out : List σ) t,
                t ∈ (if s ∈ out then out else out ++ [s]) ↔ t ∈ out ∨ t = s := by
              intro out t
              split
              case isTrue hs => exact ⟨.inl, fun h => h.elim id fun heq => heq ▸ hs⟩
              case isFalse => rw [mem_append, mem_singleton]
            rcases ih todo (s :: seen) (if s ∈ out₁ then out₁ else out₁ ++ [s])
              (if s ∈ out₂ then out₂ else out₂ ++ [s]) with hnone | ⟨r₁, r₂, h₁, h₂, hiff⟩
            · exact .inl hnone
            · refine .inr ⟨r₁, r₂, h₁, h₂, fun t => ?_⟩
              have ht := hiff t
              rw [hmem, hmem] at ht
              have hs : s ∈ r₁ ∧ s ∈ r₂ := by
                have hkept := fun out r (h : search visit fuel todo (s :: seen) out = some r)
                  => mem_of_search h s
                exact ⟨hkept _ _ h₁ ((hmem out₁ s).mpr (.inr rfl)),
                  hkept _ _ h₂ ((hmem out₂ s).mpr (.inr rfl))⟩
              by_cases heq : t = s
              · subst heq
                exact iff_of_true (.inl hs.1) (.inl hs.2)
              · simpa [heq] using ht
  rcases hall fuel todo seen out [] with ⟨hnone, hnone'⟩ | ⟨r, r', hr, hr', hiff⟩
  · rw [hnone, hnone']
    exact ⟨Iff.rfl, fun out h => nomatch h⟩
  · rw [hr, hr']
    refine ⟨Iff.rfl, fun out' hout s => ?_⟩
    obtain rfl := Option.some.inj hout
    have hs := hiff s
    simp only [not_mem_nil, or_false] at hs
    rw [hs, or_comm]
    exact or_congr Iff.rfl ⟨fun h => ⟨r', rfl, h⟩, fun ⟨_, heq, h⟩ => Option.some.inj heq ▸ h⟩

/-- A fold of runs that add to a list. -/
theorem Yields.foldlM {τ : Type*} {f : List σ → τ → Option (List σ)} {ok : τ → Prop}
    {P : τ → σ → Prop} {xs : List τ}
    (hf : ∀ x ∈ xs, ∀ out, Yields (f out x) (ok x) fun s => s ∈ out ∨ P x s) (out : List σ) :
    Yields (xs.foldlM f out) (∀ x ∈ xs, ok x) fun s => s ∈ out ∨ ∃ x ∈ xs, P x s := by
  induction xs generalizing out with
  | nil =>
    refine ⟨iff_of_true rfl (forall_mem_nil _), fun out' hout s => ?_⟩
    obtain rfl := Option.some.inj hout
    exact ⟨.inl, fun h => h.elim id fun ⟨_, hx, _⟩ => absurd hx not_mem_nil⟩
  | cons x xs ih =>
    have hone := hf x mem_cons_self out
    have hrest := fun out => ih (fun y hy => hf y (mem_cons_of_mem x hy)) out
    rw [foldlM_cons]
    cases hx : f out x with
    | none =>
      have hno : ¬ok x := fun hok => by simpa [hx] using hone.isSome_iff.mpr hok
      refine ⟨iff_of_false Bool.false_ne_true fun hall => ?_, fun _ h => nomatch h⟩
      exact hno (hall x mem_cons_self)
    | some out₁ =>
      have hok : ok x := hone.isSome_iff.mp (by rw [hx]; rfl)
      refine ⟨?_, fun out' hout s => ?_⟩
      · rw [forall_mem_cons, and_iff_right hok]
        exact (hrest out₁).isSome_iff
      · rw [(hrest out₁).mem_iff out' hout s, hone.mem_iff out₁ hx s, or_assoc,
          exists_mem_cons_iff]

end ExpertPin.Search
