import ExpertPin.Galloc.Planning

/-!
# Counting

Before the first node is planned, the leafs and the inputs are allocated and the children and views
of every tensor are counted.  Nothing is freed then, but an input that works in place may take over
a source, since the counts are not complete: that it finds no source to take over is a condition on
the graph (`InputsApart`).
-/

namespace ExpertPin.Galloc

open List

variable {B : Backend} {G : Graph} {s s' : Gallocr} {n p t u r bufferId : ℕ}
  {uses seen before after : List ℕ} {done : ℕ → Prop}

/-- When an input that works in place is reached, no source of its layout that may be taken over and
is allocated by then has one use that was counted and no view. -/
def InputsApart (G : Graph) : Prop :=
  ∀ before n after, G.nodes = before ++ n :: after → Planned G n → (G.tensor n).input = true →
    (G.tensor n).op.canInplace = true → ∀ p ∈ (G.tensor n).sources, Planned G p →
      p ∈ G.leafs ∨ (G.tensor p).input = true → (G.tensor p).output = false →
        (G.tensor n).layout.same (G.tensor p).layout = true → (usesOf G before).count p = 1 →
          ∃ v ∈ before, IsViewOf G v p

/-- The uses and views that were counted, and the tensors that were allocated. -/
structure Early (B : Backend) (G : Graph) (s : Gallocr) (uses seen : List ℕ) (done : ℕ → Prop) :
    Prop where
  reserved : Reserved B G s
  early : ∀ t, s.Allocated t → t ∈ G.leafs ∨ (G.tensor t).input = true
  lives : ∀ t, Planned G t → done t → s.Allocated t
  children : ∀ t, (s.counts t).1 = uses.count t
  views : ∀ r, (s.counts r).2 = seen.countP fun v => IsViewOf G v r

/-- A tensor that is allocated before the nodes are. -/
def IsEarly (G : Graph) (n : ℕ) : Prop :=
  n ∈ G.leafs ∨ n ∈ G.nodes ∧ (G.tensor n).input = true

theorem Early.allocateNode (hG : G.WellFormed B) (hn : Planned G n → IsEarly G n)
    (hno : ∀ p, ¬ TakesOver G s s' n p) (h : Early B G s uses seen done)
    (halloc : allocateNode B G s n bufferId = some s') :
    Early B G s' uses seen fun t => done t ∨ t = n := by
  have hself (hplanned : Planned G n) (hinplace : (G.tensor n).op.canInplace = true) :
      n ∉ (G.tensor n).sources := by
    rcases hn hplanned with hleaf | ⟨hnode, _⟩
    · rw [hG.leaf_op n hleaf] at hinplace
      cases hinplace
    · obtain ⟨before, after, hsplit⟩ := append_of_mem hnode
      exact source_ne hG hsplit hplanned.1
  rcases allocateNode_cases h.reserved hself halloc with ⟨hdone, rfl⟩ | hfresh | ⟨p, htakes⟩
  · refine ⟨h.reserved, h.early, fun t hplanned ht => ?_, h.children, h.views⟩
    rcases ht with ht | rfl
    · exact h.lives t hplanned ht
    · exact hdone.resolve_right (not_not_intro hplanned)
  · have hallocated : s'.Allocated n := by
      obtain ⟨offset, hentry, _⟩ := hfresh.entry
      rw [Gallocr.Allocated, hentry]
    refine ⟨(hfresh.reserved h.reserved).1, fun t ht => ?_, fun t hplanned ht => ?_,
      fun t => hfresh.counts ▸ h.children t, fun r => hfresh.counts ▸ h.views r⟩
    · by_cases htn : t = n
      · subst htn
        exact (hn hfresh.planned).imp_right And.right
      · exact h.early t ((Gallocr.allocated_congr (hfresh.other t htn)).mp ht)
    · by_cases htn : t = n
      · exact htn ▸ hallocated
      · refine (Gallocr.allocated_congr (hfresh.other t htn)).mpr ?_
        exact h.lives t hplanned (ht.resolve_right htn)
  · exact absurd htakes (hno p)

/-- An input node takes nothing over when it is reached. -/
theorem Early.not_takesOver (hinputs : InputsApart G) (hsplit : G.nodes = before ++ n :: after)
    (hinput : (G.tensor n).input = true)
    (h : Early B G s (usesOf G before) (before ++ [n]) done) : ¬ TakesOver G s s' n p := by
  intro htakes
  have hp := h.reserved.planned p htakes.allocated
  have hcount : (usesOf G before).count p = 1 := by
    have := h.children p
    rw [htakes.last] at this
    exact (Int.ofNat.inj this).symm
  have hviews : ((before ++ [n]).countP fun v => IsViewOf G v p) = 0 := by
    have := h.views p
    rw [htakes.last] at this
    exact (Int.ofNat.inj this).symm
  obtain ⟨v, hv, hview⟩ := hinputs before n after hsplit htakes.planned hinput htakes.inplace.1 p
    htakes.source hp (h.early p htakes.allocated) htakes.output htakes.inplace.2 hcount
  have hnot := countP_eq_zero.mp hviews v (mem_append_left _ hv)
  rw [decide_eq_true_iff] at hnot
  exact hnot hview

/-- Counting a child. -/
theorem Early.addChildren (h : Early B G s uses seen done) :
    Early B G (s.addChildren p 1) (uses ++ [p]) seen done := by
  have hentry (t : ℕ) : (s.addChildren p 1).entry t = s.entry t := Gallocr.entry_addChildren
  refine ⟨h.reserved.congr hentry rfl, fun t ht => ?_, fun t hplanned ht => ?_, fun t => ?_,
    fun r => ?_⟩
  · exact h.early t ((Gallocr.allocated_congr (hentry t)).mp ht)
  · exact (Gallocr.allocated_congr (hentry t)).mpr (h.lives t hplanned ht)
  · rw [Gallocr.counts_addChildren, count_append, count_singleton]
    split
    case isTrue htp =>
      subst htp
      simp [h.children]
    case isFalse htp =>
      simp [h.children, Ne.symm htp]
  · rw [Gallocr.counts_addChildren, ← h.views r]
    split <;> rfl

/-- Counting a view. -/
theorem Early.countView (h : Early B G s uses seen done) :
    Early B G (countView G s n) uses (seen ++ [n]) done := by
  have hcountP (r : ℕ) : (seen ++ [n]).countP (fun v => IsViewOf G v r) =
      (seen.countP fun v => IsViewOf G v r) + if IsViewOf G n r then 1 else 0 := by
    rw [countP_append, countP_singleton]
    simp
  have hnot (hno : ∀ r, ¬ IsViewOf G n r) : Early B G s uses (seen ++ [n]) done := by
    refine ⟨h.reserved, h.early, h.lives, h.children, fun r => ?_⟩
    rw [hcountP, if_neg (hno r)]
    exact h.views r
  rw [Galloc.countView]
  split
  case h_2 hnone =>
    refine hnot fun r hview => ?_
    rw [hview.1] at hnone
    cases hnone
  case h_1 v hview =>
    split
    case isFalse hop => exact hnot fun r hview => hop hview.2
    case isTrue hop =>
      have hentry (t : ℕ) : (s.addViews v 1).entry t = s.entry t := Gallocr.entry_addViews
      refine ⟨h.reserved.congr hentry rfl, fun t ht => ?_, fun t hplanned ht => ?_, fun t => ?_,
        fun r => ?_⟩
      · exact h.early t ((Gallocr.allocated_congr (hentry t)).mp ht)
      · exact (Gallocr.allocated_congr (hentry t)).mpr (h.lives t hplanned ht)
      · rw [Gallocr.counts_addViews, ← h.children t]
        split <;> rfl
      · have hiff : IsViewOf G n r ↔ r = v := by
          rw [IsViewOf, hview, Option.some.injEq, and_iff_left hop, eq_comm]
        rw [Gallocr.counts_addViews, hcountP]
        split
        case isTrue hrv =>
          rw [if_pos (hiff.mpr hrv), h.views]
          rfl
        case isFalse hrv =>
          rw [if_neg (fun hview => hrv (hiff.mp hview)), h.views]
          rfl

theorem Early.imp {done' : ℕ → Prop} (h : Early B G s uses seen done)
    (himp : ∀ t, done' t → done t) : Early B G s uses seen done' :=
  { h with lives := fun t hplanned ht => h.lives t hplanned (himp t ht) }

/-- Counting the children of the sources of a node, which are allocated when they are inputs. -/
theorem Early.countSources {sources : List ℕ}
    (hsources : ∀ p ∈ sources, (G.tensor p).input = true → Planned G p → done p)
    (h : Early B G s uses seen done)
    (hcount : sources.foldlM (countSource B G bufferId) s = some s') :
    Early B G s' (uses ++ sources) seen done := by
  induction sources generalizing s uses with
  | nil =>
    cases hcount
    rwa [append_nil]
  | cons p sources ih =>
    obtain ⟨s₁, hfirst, hrest⟩ := Option.bind_eq_some_iff.mp hcount
    have h₁ : Early B G s₁ (uses ++ [p]) seen done := by
      rw [countSource] at hfirst
      split at hfirst
      case isTrue hinput =>
        have hall : (s.addChildren p 1).Allocated p ∨ ¬ Planned G p := by
          by_cases hplanned : Planned G p
          · refine Or.inl (h.addChildren.lives p hplanned ?_)
            exact hsources p mem_cons_self hinput hplanned
          · exact Or.inr hplanned
        rw [allocateNode_of_allocated hall] at hfirst
        cases hfirst
        exact h.addChildren
      case isFalse =>
        cases hfirst
        exact h.addChildren
    have := ih (fun q hq => hsources q (mem_cons_of_mem p hq)) h₁ hrest
    rwa [append_assoc, singleton_append] at this

/-- One turn of the loop that counts. -/
theorem Early.countNode (hG : G.WellFormed B) (hinputs : InputsApart G)
    (hsplit : G.nodes = before ++ n :: after)
    (h : Early B G s (usesOf G before) before
      fun t => t ∈ G.leafs ∨ t ∈ before ∧ (G.tensor t).input = true)
    (hcount : countNode B G s (n, bufferId) = some s') :
    Early B G s' (usesOf G (before ++ [n])) (before ++ [n])
      fun t => t ∈ G.leafs ∨ t ∈ before ++ [n] ∧ (G.tensor t).input = true := by
  have hrest (s₁ : Gallocr) (h₁ : Early B G s₁ (usesOf G before) (before ++ [n])
      fun t => t ∈ G.leafs ∨ t ∈ before ++ [n] ∧ (G.tensor t).input = true)
      (hcount : (G.tensor n).sources.foldlM (countSource B G bufferId) s₁ = some s') :
      Early B G s' (usesOf G (before ++ [n])) (before ++ [n])
        fun t => t ∈ G.leafs ∨ t ∈ before ++ [n] ∧ (G.tensor t).input = true := by
    have h₂ := h₁.countSources (fun p hp hinput hplanned => ?_) hcount
    · rwa [usesOf_append, usesOf_cons, usesOf, usesOf, flatMap_nil, append_nil]
    · refine (source_started hG hsplit hp hplanned).imp_right fun hmem => ?_
      exact ⟨mem_append_left _ hmem, hinput⟩
  rw [Galloc.countNode] at hcount
  split at hcount
  case isTrue hinput =>
    obtain ⟨s₁, hfirst, hsources⟩ := Option.bind_eq_some_iff.mp hcount
    refine hrest s₁ ?_ hsources
    have h₁ := h.countView.allocateNode hG (fun _ => Or.inr ⟨mem_of_split hsplit, hinput⟩)
      (fun p => h.countView.not_takesOver hinputs hsplit hinput) hfirst
    refine h₁.imp fun t ht => ?_
    rcases ht with hleaf | ⟨hmem, ht⟩
    · exact Or.inl (Or.inl hleaf)
    · rcases mem_append.mp hmem with hmem | hmem
      · exact Or.inl (Or.inr ⟨hmem, ht⟩)
      · exact Or.inr (mem_singleton.mp hmem)
  case isFalse hinput =>
    refine hrest _ (h.countView.imp fun t ht => ?_) hcount
    refine ht.imp_right fun ht => ⟨?_, ht.2⟩
    refine (mem_append.mp ht.1).resolve_right fun hmem => hinput ?_
    exact mem_singleton.mp hmem ▸ ht.2

theorem Early.countNodes (hG : G.WellFormed B) (hinputs : InputsApart G)
    {nodes : List (ℕ × ℕ)} (hsplit : G.nodes = before ++ nodes.map Prod.fst)
    (h : Early B G s (usesOf G before) before
      fun t => t ∈ G.leafs ∨ t ∈ before ∧ (G.tensor t).input = true)
    (hcount : nodes.foldlM (Galloc.countNode B G) s = some s') :
    Early B G s' (usesOf G G.nodes) G.nodes (IsEarly G) := by
  induction nodes generalizing s before with
  | nil =>
    cases hcount
    rw [map_nil, append_nil] at hsplit
    rwa [← hsplit] at h
  | cons node nodes ih =>
    obtain ⟨n, bufferId⟩ := node
    obtain ⟨s₁, hfirst, hrest⟩ := Option.bind_eq_some_iff.mp hcount
    rw [map_cons] at hsplit
    refine ih ?_ (h.countNode hG hinputs hsplit hfirst) hrest
    rw [hsplit, append_assoc, singleton_append]

/-- Allocating the leafs, none of which has an operation. -/
theorem Early.allocateLeafs (hG : G.WellFormed B) {leafs : List (ℕ × ℕ)}
    (hleafs : leafs.map Prod.fst ⊆ G.leafs) (h : Early B G s uses seen done)
    (halloc : leafs.foldlM (fun s leaf => Galloc.allocateNode B G s leaf.1 leaf.2) s = some s') :
    Early B G s' uses seen fun t => done t ∨ t ∈ leafs.map Prod.fst := by
  induction leafs generalizing s done with
  | nil =>
    cases halloc
    exact h.imp fun t ht => ht.resolve_right not_mem_nil
  | cons leaf leafs ih =>
    obtain ⟨s₁, hfirst, hrest⟩ := Option.bind_eq_some_iff.mp halloc
    rw [map_cons] at hleafs ⊢
    obtain ⟨hleaf, hleafs⟩ := cons_subset.mp hleafs
    have hno (p : ℕ) : ¬ TakesOver G s s₁ leaf.1 p := by
      intro htakes
      have hinplace := htakes.inplace.1
      rw [hG.leaf_op leaf.1 hleaf] at hinplace
      cases hinplace
    refine (ih hleafs (h.allocateNode hG (fun _ => Or.inl hleaf) hno hfirst) hrest).imp
      fun t ht => ?_
    rw [mem_cons, ← or_assoc] at ht
    exact ht

/-! ## The whole plan -/

theorem start_early : Early B G (start B) [] [] fun _ => False where
  reserved := start_reserved
  early _ h := by cases h
  lives _ _ h := h.elim
  children _ := rfl
  views _ := rfl

/-- When everything was counted, the counts are those of all uses and views. -/
theorem Early.livesAll (h : Early B G s (usesOf G G.nodes) G.nodes (IsEarly G)) :
    Lives B G s (usesOf G G.nodes) (Started G []) none where
  reserved := h.reserved
  counted :=
    { children := h.children
      views := fun r _ => by
        rw [h.views r, countP_eq_length_filter]
        refine congrArg Nat.cast (Eq.symm (countP_eq_length.mpr fun v _ => ?_))
        rw [decide_eq_true_iff]
        exact Decidable.em _ }
  lives t hplanned ht _ := by
    refine Or.inl (h.lives t hplanned (ht.imp_right fun ht => ?_))
    exact ht.resolve_left not_mem_nil

theorem withBuffers_fst (tensors : List ℕ) (ids : Option (ℕ → ℕ)) :
    (withBuffers tensors ids).map Prod.fst = tensors := by
  rw [withBuffers, map_map]
  exact zipIdx_map_fst 0 tensors

/-- The places of the tensors are good for executing the graph. -/
structure SpotSafe (B : Backend) (G : Graph) (spot : ℕ → ℕ × ℕ) : Prop where
  /-- No node shares anything with what is needed when it is executed. -/
  nodes : ∀ before n after, G.nodes = before ++ n :: after → NodeSafe B G spot n after
  /-- The tensors that are allocated first do not overlap. -/
  early : ∀ t u, t ≠ u → Planned G t → Planned G u → IsEarly G t → IsEarly G u →
    SpansApart B G spot t u

theorem allocGraphImpl_safe (hG : G.WellFormed B) (hinputs : InputsApart G)
    (houtputs : OutputsKept G) {nodeBufferIds leafBufferIds : Option (ℕ → ℕ)}
    (hplan : allocGraphImpl B G nodeBufferIds leafBufferIds = some s) :
    SpotSafe B G s.placed ∧ ∀ t, t ∈ G.nodes ∨ t ∈ G.leafs → Planned G t → Bounded B G s t := by
  rw [allocGraphImpl] at hplan
  obtain ⟨s₁, hleafs, hplan⟩ := Option.bind_eq_some_iff.mp hplan
  obtain ⟨s₂, hcount, hplan⟩ := Option.bind_eq_some_iff.mp hplan
  have hall (tensors : List ℕ) (ids : Option (ℕ → ℕ)) :
      tensors = [] ++ (withBuffers tensors ids).map Prod.fst := by
    rw [withBuffers_fst, nil_append]
  have h₁ := start_early.allocateLeafs hG (fun t ht => by rwa [withBuffers_fst] at ht) hleafs
  have h₂ := Early.countNodes hG hinputs (hall _ nodeBufferIds) (h₁.imp fun t ht => ?_) hcount
  case refine_1 =>
    rw [withBuffers_fst]
    exact Or.inr (ht.resolve_right fun ht => not_mem_nil ht.1)
  obtain ⟨hstays, hmax, hbounded, hsafe⟩ := planNodes_safe hG houtputs (hall _ nodeBufferIds)
    (by rw [withBuffers_fst]; exact h₂.livesAll) hplan
  rw [withBuffers_fst] at hbounded hsafe
  have hearly (t : ℕ) (hplanned : Planned G t) (ht : IsEarly G t) :
      s₂.Allocated t ∧ s.placed t = s₂.placed t :=
    ⟨h₂.lives t hplanned ht, hstays t hplanned (ht.imp_right Or.inr)⟩
  refine ⟨⟨hsafe, fun t u hne ht hu hearlyt hearlyu => ?_⟩, fun t ht hplanned => ?_⟩
  · obtain ⟨hallt, hplacedt⟩ := hearly t ht hearlyt
    obtain ⟨hallu, hplacedu⟩ := hearly u hu hearlyu
    exact apart_of_reserved h₂.reserved hne hallt hallu hplacedt hplacedu
  · rcases ht with hnode | hleaf
    · exact hbounded t hnode hplanned
    · obtain ⟨hall, hplaced⟩ := hearly t hplanned (Or.inl hleaf)
      rw [Bounded, hplaced]
      exact (h₂.reserved.bounded t hall).trans (hmax _)

end ExpertPin.Galloc

/-!
## Memory plans

A plan is as good as memories of their own when executing the nodes in the planned memory gives
every node and every output the same value.  It is, unless an input takes over a source that is used
elsewhere, or an output is a view of a tensor that is freed.
-/

namespace ExpertPin.Galloc

universe u

variable {B : Backend} {G : Graph} {s : Gallocr} {spot : ℕ → ℕ × ℕ} {β : Type u} {kernel : Kernel β}

/-- Executing the nodes with the tensors at these places is as good as in memories of their own. -/
structure Faithful (B : Backend) (G : Graph) (spot : ℕ → ℕ × ℕ) (kernel : Kernel β) : Prop where
  /-- There is room for all bytes that are given. -/
  room : ∀ o : Option ℕ × ℕ → β, ∃ m : Loc → β,
    Storage.Agree (cell B G) (placeAt B spot) own (given G) m o
  values : ∀ (m : Loc → β) (o : Option ℕ × ℕ → β),
    Storage.Agree (cell B G) (placeAt B spot) own (given G) m o →
      (runGraph B G (placeAt B spot) kernel m).2 = (runGraph B G own kernel o).2
  outputs : ∀ (m : Loc → β) (o : Option ℕ × ℕ → β),
    Storage.Agree (cell B G) (placeAt B spot) own (given G) m o →
      ∀ t, t ∈ G.nodes ∨ t ∈ G.leafs → (G.tensor t).output = true →
        value B G (placeAt B spot) (runGraph B G (placeAt B spot) kernel m).1 t =
          value B G own (runGraph B G own kernel o).1 t

/-- What is planned lies inside of the recorded maximum size of its buffer. -/
def Inside (B : Backend) (G : Graph) (s : Gallocr) : Prop :=
  ∀ t, t ∈ G.nodes ∨ t ∈ G.leafs → Planned G t →
    (s.hash t).offset + B.allocSize (B.bufts (s.hash t).bufferId) (G.tensor t).layout ≤
      (s.tallocs (B.bufts (s.hash t).bufferId)).maxSize

theorem placeAt_injective (v : Option ℕ) : Function.Injective (placeAt B spot v) := by
  intro i j h
  cases v with
  | none => exact Loc.ext.inj h
  | some t => exact Nat.add_left_cancel (Loc.buffer.inj h).2

/-- What is needed at the beginning is given. -/
theorem neededBy_given (hG : G.WellFormed B) : neededBy G G.nodes ⊆ given G := by
  intro u hu
  rcases u with _ | r
  · trivial
  · obtain ⟨hr, hpresent, _⟩ := neededBy_present hG (List.nil_append G.nodes).symm hu
    exact ⟨hr, hpresent.imp_right fun h => h.resolve_left List.not_mem_nil⟩

/-- What is given is placed without overlaps. -/
theorem SpotSafe.given_inj (h : SpotSafe B G spot) {v w : Option ℕ} {i j : ℕ} (hv : v ∈ given G)
    (hw : w ∈ given G) (hi : cell B G v i) (hj : cell B G w j)
    (heq : placeAt B spot v i = placeAt B spot w j) : (v, i) = (w, j) := by
  by_cases hvw : v = w
  · subst hvw
    rw [placeAt_injective v heq]
  · exfalso
    rcases v with _ | t <;> rcases w with _ | u
    · exact hvw rfl
    · cases heq
    · cases heq
    · obtain ⟨hbuft, hoffset⟩ := Loc.buffer.inj heq
      have hearly {r : ℕ} (hr : some r ∈ given G) : IsEarly G r :=
        hr.2.imp_right fun hr => ⟨hr.1, hr.2.2⟩
      refine h.early t u (fun htu => hvw (congrArg some htu)) hv.1 hw.1 (hearly hv) (hearly hw) _ _
        (spans_of_cell hi) ?_
      rw [hbuft, hoffset]
      exact spans_of_cell hj

theorem SpotSafe.room (h : SpotSafe B G spot) (o : Option ℕ × ℕ → β) :
    ∃ m : Loc → β, Storage.Agree (cell B G) (placeAt B spot) own (given G) m o := by
  have hloc (l : Loc) :
      ∃ y, ∀ v ∈ given G, ∀ k, cell B G v k → placeAt B spot v k = l → y = o (v, k) := by
    by_cases hl : ∃ v ∈ given G, ∃ k, cell B G v k ∧ placeAt B spot v k = l
    · obtain ⟨v, hv, k, hk, rfl⟩ := hl
      refine ⟨o (v, k), fun w hw j hj heq => ?_⟩
      rw [h.given_inj hv hw hk hj heq.symm]
    · refine ⟨o (none, 0), fun v hv k hk heq => absurd ⟨v, hv, k, hk, heq⟩ hl⟩
  choose m hm using hloc
  exact ⟨m, fun v hv k hk => hm _ v hv k hk rfl⟩

/-- Where the places are safe, executing is as good as in memories of their own. -/
theorem SpotSafe.faithful (hG : G.WellFormed B) (h : SpotSafe B G spot)
    (hkernel : Tolerant B G kernel) : Faithful B G spot kernel := by
  have hsame (m : Loc → β) (o : Option ℕ × ℕ → β)
      (hagree : Storage.Agree (cell B G) (placeAt B spot) own (given G) m o) :
      Same B G (placeAt B spot) (outputs G) (runGraph B G (placeAt B spot) kernel m)
        (runGraph B G own kernel o) :=
    runGraph_same hG (noClobber_of_nodeSafe hG h.nodes) placeAt_injective hkernel
      (hagree.mono (neededBy_given hG))
  refine ⟨h.room, fun m o hagree => (hsame m o hagree).2, fun m o hagree t ht houtput => ?_⟩
  exact value_eq hG (hsame m o hagree).1 ⟨t, ht, houtput, rfl⟩

/-- The plan of `ggml_gallocr_reserve_n` is as good as memories of their own. -/
theorem allocGraph_faithful (hG : G.WellFormed B) (hinputs : InputsApart G)
    (houtputs : OutputsKept G) {nodeBufferIds leafBufferIds : Option (ℕ → ℕ)}
    (hplan : allocGraphImpl B G nodeBufferIds leafBufferIds = some s)
    (kernel : Kernel β) (hkernel : Tolerant B G kernel) :
    Faithful B G s.spot kernel ∧ Inside B G s := by
  obtain ⟨hsafe, hbounded⟩ := allocGraphImpl_safe hG hinputs houtputs hplan
  refine ⟨hsafe.faithful hG hkernel, fun t ht hplanned => ?_⟩
  refine (Nat.add_le_add_left ?_ _).trans (hbounded t ht hplanned)
  exact le_alignedOffset (B.alignment_pos _) (B.allocSize_le _ _)

/-! ## Two graphs -/

/-- One buffer type without alignment, and one type of one byte. -/
def bytes : Backend where
  traits _ := { blckSize := 1, typeSize := 1, rowMetaSize := 0 }
  bufts _ := 0
  alignment _ := 1
  allocSize _ l := (Ggml.nbytes (fun _ => { blckSize := 1, typeSize := 1, rowMetaSize := 0 })
    l.type l.ne l.nb).toNat
  alignment_pos _ := Nat.one_pos
  nbytes_le _ _ := le_rfl
  allocSize_le _ _ := UInt64.toNat_lt _

/-- A tensor of one byte. -/
def byte (op : Op) (src : List ℕ) (viewSrc : Option ℕ) (output : Bool) : Tensor where
  layout := { type := 0, ne := fun _ => 1, nb := fun _ => 1 }
  op := op
  src := src.map some
  viewSrc := viewSrc
  viewOffs := 0
  data := none
  input := false
  output := output

/-- A leaf `x`, and `a = f(x)`, `v = view(a)`, `b = g(v)` and `c = h(b)`, where `v` and `c` may be
outputs. -/
def chain (viewOutput : Bool) : Graph where
  tensor
    | 0 => byte .none [] none false
    | 1 => byte (.other 0) [0] none false
    | 2 => byte .view [1] (some 1) viewOutput
    | 3 => byte (.other 1) [2] none false
    | 4 => byte (.other 2) [3] none true
    | _ => byte .none [] none false
  nodes := [1, 2, 3, 4]
  leafs := [0]

/-- Every node computes its own number. -/
def number : Kernel ℕ := fun node _ _ _ => node

theorem number_tolerant : Tolerant B G number := fun _ _ _ _ _ => rfl

/-- The only view is the one of `a`. -/
theorem chain_viewSrc {viewOutput : Bool} {t v : ℕ}
    (h : ((chain viewOutput).tensor t).viewSrc = some v) : t = 2 ∧ v = 1 := by
  rcases t with _ | _ | _ | _ | _ | t <;> cases h
  exact ⟨rfl, rfl⟩

/-- What holds at every place of a list holds of every way to split it. -/
theorem forall_split {l : List ℕ} {P : List ℕ → ℕ → Prop}
    (h : ∀ i : Fin l.length, P (l.take i) l[i]) (before : List ℕ) (n : ℕ) (after : List ℕ)
    (hsplit : l = before ++ n :: after) : P before n := by
  subst hsplit
  have := h ⟨before.length, by simp⟩
  simpa using this

theorem chain_wellFormed (viewOutput : Bool) : (chain viewOutput).WellFormed bytes where
  nodup := by cases viewOutput <;> decide
  leaf_node := by cases viewOutput <;> decide
  leaf_op := by cases viewOutput <;> decide
  base t v h := by
    obtain ⟨rfl, rfl⟩ := chain_viewSrc h
    rfl
  inside t v h := by
    obtain ⟨rfl, rfl⟩ := chain_viewSrc h
    cases viewOutput <;> decide
  external t v h _ := by
    obtain ⟨rfl, rfl⟩ := chain_viewSrc h
    rfl
  view_op t h := by
    rcases t with _ | _ | _ | _ | _ | t <;> first | rfl | cases h
  source before node after h := forall_split (P := fun before node =>
    ∀ s ∈ ((chain viewOutput).tensor node).sources, ((chain viewOutput).tensor s).data ≠ none ∨
      ((chain viewOutput).tensor s).viewSrc = none ∧ (s ∈ (chain viewOutput).leafs ∨ s ∈ before) ∨
      ((chain viewOutput).tensor s).op.isView = true ∧ s ∈ before)
    (by cases viewOutput <;> decide) before node after h
  viewed before node after h v hview _ := by
    obtain ⟨rfl, rfl⟩ := chain_viewSrc hview
    exact Or.inr (Or.inr (forall_split (P := fun before node => node = 2 → 1 ∈ before)
      (by cases viewOutput <;> decide) before 2 after h rfl))
  known t v _ h := by
    obtain ⟨rfl, rfl⟩ := chain_viewSrc h
    exact Or.inr (Or.inr List.mem_cons_self)

/-- The plan of a graph. -/
def chainPlan (viewOutput : Bool) : Gallocr :=
  (allocGraphImpl bytes (chain viewOutput) none none).get (by cases viewOutput <;> decide +kernel)

theorem chainPlan_eq (viewOutput : Bool) :
    allocGraphImpl bytes (chain viewOutput) none none = some (chainPlan viewOutput) :=
  (Option.some_get _).symm

/-- Without the output flag at the view, the plan is as good as memories of their own. -/
theorem allocGraph_faithful_chain : Faithful bytes (chain false) (chainPlan false).spot number ∧
      Inside bytes (chain false) (chainPlan false) :=
  allocGraph_faithful (chain_wellFormed false) (by
      intro before n after hsplit _ hinput
      have hmem := mem_of_split hsplit
      have hnone : ∀ n ∈ (chain false).nodes, ((chain false).tensor n).input = false := by decide
      rw [hnone n hmem] at hinput
      cases hinput)
    (by
      intro t _ houtput r hview
      obtain ⟨rfl, rfl⟩ := chain_viewSrc hview
      cases houtput)
    (chainPlan_eq false) number number_tolerant

/-- An output that is a view of a tensor that is no output is overwritten: after `b` the tensor `a`
is freed, and `c` is computed in its place. -/
theorem allocGraph_not_faithful :
    (chain true).WellFormed bytes ∧ Tolerant bytes (chain true) number ∧
      allocGraphImpl bytes (chain true) none none = some (chainPlan true) ∧
        ¬ Faithful bytes (chain true) (chainPlan true).spot number := by
  refine ⟨chain_wellFormed true, number_tolerant, chainPlan_eq true, fun h => ?_⟩
  have hvalue := h.outputs (fun _ => 0) (fun _ => 0) (fun _ _ _ _ => rfl) 2 (by decide) rfl
  revert hvalue
  decide +kernel

end ExpertPin.Galloc
