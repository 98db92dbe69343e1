import ExpertPin.Galloc.Lifetimes

/-!
# The loop that allocates the tensors

Before a node is planned, what the remaining nodes and the outputs need is allocated; planning the
node keeps this, and it moves no tensor that was placed before.
-/

namespace ExpertPin.Galloc

open List

variable {B : Backend} {G : Graph} {s s' : Gallocr} {n p t u r v bufferId : ℕ}
  {before after rest : List ℕ}

/-- The tensor has its place before the nodes that follow. -/
def Started (G : Graph) (before : List ℕ) (t : ℕ) : Prop :=
  t ∈ G.leafs ∨ t ∈ before ∨ t ∈ G.nodes ∧ (G.tensor t).input = true

/-- The bytes of the tensor are there before the nodes that follow. -/
def Present (G : Graph) (before : List ℕ) (t : ℕ) : Prop :=
  t ∈ G.leafs ∨ t ∈ before ∨ t ∈ G.nodes ∧ (G.tensor t).op = .none ∧ (G.tensor t).input = true

theorem Present.started (h : Present G before t) : Started G before t :=
  h.imp_right fun h => h.imp_right fun h => ⟨h.1, h.2.2⟩

theorem Started.append (h : Started G before t) : Started G (before ++ rest) t :=
  h.imp_right fun h => h.imp_left fun h => mem_append_left rest h

theorem mem_usesOf {l : List ℕ} : t ∈ usesOf G l ↔ ∃ n ∈ l, t ∈ (G.tensor n).sources :=
  mem_flatMap

theorem usesOf_cons : usesOf G (n :: after) = (G.tensor n).sources ++ usesOf G after :=
  flatMap_cons

theorem usesOf_append : usesOf G (before ++ after) = usesOf G before ++ usesOf G after :=
  flatMap_append

/-! ## Topological order -/

section Order

variable (hG : G.WellFormed B) (hsplit : G.nodes = before ++ n :: after)

include hG hsplit

theorem head_notMem : n ∉ before ∧ n ∉ after := by
  have hnodup := hG.nodup
  rw [hsplit, nodup_middle, nodup_cons, mem_append, not_or] at hnodup
  exact hnodup.1

/-- A planned source of a node comes before it. -/
theorem source_started (hs : p ∈ (G.tensor n).sources) (hp : Planned G p) :
    p ∈ G.leafs ∨ p ∈ before := by
  rcases hG.source before n after hsplit p hs with hdata | ⟨_, h⟩ | ⟨_, h⟩
  · exact absurd hp.1 hdata
  · exact h
  · exact Or.inr h

theorem source_accounted (hs : p ∈ (G.tensor n).sources) : Accounted G p := by
  rcases hG.source before n after hsplit p hs with hdata | ⟨hview, _⟩ | ⟨hop, hmem⟩
  · exact Or.inl hdata
  · exact Or.inr (Or.inl hview)
  · refine Or.inr (Or.inr ⟨?_, ?_⟩)
    · rw [hsplit]
      exact mem_append_left _ hmem
    · intro hnone
      rw [hnone] at hop
      cases hop

theorem source_ne (hn : (G.tensor n).data = none) : n ∉ (G.tensor n).sources := by
  intro hs
  rcases hG.source before n after hsplit n hs with hdata | ⟨_, hleaf | hmem⟩ | ⟨_, hmem⟩
  · exact hdata hn
  · exact hG.leaf_node n hleaf (mem_of_split hsplit)
  · exact (head_notMem hG hsplit).1 hmem
  · exact (head_notMem hG hsplit).1 hmem

/-- All uses of a node come after it. -/
theorem usesOf_after (hn : (G.tensor n).data = none) (huses : n ∈ usesOf G G.nodes) :
    n ∈ usesOf G after := by
  rw [hsplit, usesOf_append, usesOf_cons, mem_append, mem_append] at huses
  rcases huses with huses | huses | huses
  · obtain ⟨m, hm, hs⟩ := mem_usesOf.mp huses
    obtain ⟨b, b', rfl⟩ := append_of_mem hm
    have hsplit' : G.nodes = b ++ m :: (b' ++ n :: after) := by
      rw [hsplit, append_assoc, cons_append]
    obtain ⟨hbefore, _⟩ := head_notMem hG hsplit
    rcases hG.source b m _ hsplit' n hs with hdata | ⟨_, hleaf | hmem⟩ | ⟨_, hmem⟩
    · exact absurd hn hdata
    · exact absurd (mem_of_split hsplit) (hG.leaf_node n hleaf)
    · exact absurd (mem_append_left _ hmem) hbefore
    · exact absurd (mem_append_left _ hmem) hbefore
  · exact absurd huses (source_ne hG hsplit hn)
  · exact huses

/-- A view of a node comes after it. -/
theorem view_after (hn : (G.tensor n).data = none) (hv : v ∈ viewsOf G n) : v ∈ after := by
  obtain ⟨hmem, hview, hop⟩ := mem_viewsOf.mp hv
  obtain ⟨b, a, hsplit'⟩ := append_of_mem hmem
  have hnode := mem_of_split hsplit
  rcases hG.viewed b v a hsplit' n hview hop with hdata | hleaf | hb
  · exact absurd hn hdata
  · exact absurd hnode (hG.leaf_node n hleaf)
  · -- the node stands before the view in a list without duplicates
    obtain ⟨c, c', rfl⟩ := append_of_mem hb
    have heq : before ++ n :: after = c ++ n :: (c' ++ v :: a) := by
      rw [← hsplit, hsplit', append_assoc, cons_append]
    obtain ⟨hbefore, hafter⟩ := head_notMem hG hsplit
    obtain ⟨_, _, rfl⟩ := (append_cons_inj_of_notMem hbefore hafter).mp heq
    exact mem_append_right _ mem_cons_self

/-- A node is needed when it was executed. -/
theorem needed_after (hn : Planned G n) : Needed G (usesOf G after) n := by
  by_cases huses : n ∈ usesOf G G.nodes
  case pos => exact Or.inl (usesOf_after hG hsplit hn.1 huses)
  case neg =>
    by_cases hviews : viewsOf G n = []
    case pos => exact Or.inr (Or.inr (Or.inr (Or.inr ⟨huses, hviews⟩)))
    case neg =>
      obtain ⟨v, hv⟩ := exists_mem_of_ne_nil _ hviews
      refine Or.inr (Or.inl ⟨v, hv, ?_⟩)
      by_cases hused : v ∈ usesOf G G.nodes
      case neg => exact Or.inr hused
      case pos =>
        obtain ⟨a, a', rfl⟩ := append_of_mem (view_after hG hsplit hn.1 hv)
        have hsplit' : G.nodes = (before ++ n :: a) ++ v :: a' := by
          rw [hsplit, append_assoc, cons_append]
        have hdata := hG.external v n (mem_viewsOf.mp hv).2.1 hn.1
        have hlater := usesOf_after hG hsplit' hdata hused
        rw [usesOf_append, usesOf_cons]
        exact Or.inl (mem_append_right _ (mem_append_right _ hlater))

/-- A view whose node is still to come, or that has a use to come, waits. -/
theorem needed_of_view (hv : (G.tensor n).viewSrc = some r) (hop : (G.tensor n).op ≠ .none)
    (hr : (G.tensor r).data = none) : Needed G (usesOf G after) r := by
  refine Or.inr (Or.inl ⟨n, mem_viewsOf.mpr ⟨mem_of_split hsplit, hv, hop⟩, ?_⟩)
  by_cases huses : n ∈ usesOf G G.nodes
  · exact Or.inl (usesOf_after hG hsplit (hG.external n r hv hr) huses)
  · exact Or.inr huses

end Order

theorem Needed.uses_cons (h : Needed G (usesOf G after) t) :
    Needed G (usesOf G (n :: after)) t := by
  rw [usesOf_cons]
  exact h.append

/-! ## What executing needs is what planning keeps -/

/-- Every output that is a view is a view of a tensor that is never freed. -/
def OutputsKept (G : Graph) : Prop :=
  ∀ t, (t ∈ G.nodes ∨ t ∈ G.leafs) → (G.tensor t).output = true →
    ∀ r, (G.tensor t).viewSrc = some r → (G.tensor r).data = none → Kept G r

/-- A planned node that does not compute is an input without an operation. -/
theorem input_of_not_whole (hG : G.WellFormed B) (hn : Planned G n) (h : ¬ whole G n) :
    (G.tensor n).op = .none ∧ (G.tensor n).input = true := by
  have hcomputes : ¬ computes G n = true := fun hcomputes => h ⟨hcomputes, hn.home⟩
  rw [computes] at hcomputes
  split at hcomputes
  case isTrue hop =>
    rw [Tensor.isView, hn.1, hn.2] at hcomputes
    exact ⟨hop, by simpa using hcomputes⟩
  case isFalse =>
    have hview := hG.view_op n (by simpa using hcomputes)
    rw [Tensor.isView, hn.2] at hview
    cases hview

theorem started_of_view (hG : G.WellFormed B) (hsplit : G.nodes = before ++ n :: after)
    (hr : Planned G r) (hv : (G.tensor n).viewSrc = some r) (hop : (G.tensor n).op ≠ .none) :
    r ∈ G.leafs ∨ r ∈ before := by
  rcases hG.viewed before n after hsplit r hv hop with hdata | h
  · exact absurd hr.1 hdata
  · exact h

/-- What a node reads was placed before and is needed. -/
theorem reads_needed (hG : G.WellFormed B) (hsplit : G.nodes = before ++ n :: after)
    (h : some r ∈ reads G n) :
    Planned G r ∧ Present G before r ∧ Needed G (usesOf G (n :: after)) r := by
  rcases h with ⟨p, hp, hhome⟩ | ⟨hvalue, hwhole, hhome⟩
  · obtain ⟨hr, rfl | ⟨hview, hdata⟩⟩ := hG.planned_of_home hhome
    · refine ⟨hr, (source_started hG hsplit hp hr).imp_right Or.inl, Or.inl ?_⟩
      rw [usesOf_cons]
      exact mem_append_left _ hp
    · rcases hG.source before n after hsplit p hp with hdata' | ⟨hnone, _⟩ | ⟨hop, hmem⟩
      · exact absurd hdata hdata'
      · rw [hview] at hnone
        cases hnone
      · have hne : (G.tensor p).op ≠ .none := by
          intro hnone
          rw [hnone] at hop
          cases hop
        obtain ⟨b, b', rfl⟩ := append_of_mem hmem
        have hsplit' : G.nodes = b ++ p :: (b' ++ n :: after) := by
          rw [hsplit, append_assoc, cons_append]
        refine ⟨hr, ?_, Or.inr (Or.inl ⟨p, ?_, Or.inl ?_⟩)⟩
        · exact (started_of_view hG hsplit' hr hview hne).imp_right
            fun h => Or.inl (mem_append_left _ h)
        · exact mem_viewsOf.mpr ⟨mem_of_split hsplit', hview, hne⟩
        · rw [usesOf_cons]
          exact mem_append_left _ hp
  · obtain ⟨hr, rfl | ⟨hview, hdata⟩⟩ := hG.planned_of_home hhome
    · refine ⟨hr, Or.inr (Or.inr ⟨mem_of_split hsplit, input_of_not_whole hG hr hwhole⟩), ?_⟩
      exact (needed_after hG hsplit hr).uses_cons
    · have hop : (G.tensor n).op ≠ .none := by
        rw [hasValue, Tensor.isView, hview] at hvalue
        simpa using hvalue
      refine ⟨hr, (started_of_view hG hsplit hr hview hop).imp_right Or.inl, ?_⟩
      exact (needed_of_view hG hsplit hview hop hr.1).uses_cons

/-- What later nodes and the outputs need was placed before, and planning keeps it unless only an
output views it. -/
theorem neededBy_present (hG : G.WellFormed B) (hsplit : G.nodes = before ++ after)
    (h : some r ∈ neededBy G after) :
    Planned G r ∧ Present G before r ∧ (Needed G (usesOf G after) r ∨
      ∃ t, (t ∈ G.nodes ∨ t ∈ G.leafs) ∧ (G.tensor t).output = true ∧
        (G.tensor t).viewSrc = some r) := by
  induction after generalizing before with
  | nil =>
    rw [append_nil] at hsplit
    obtain ⟨t, ht, houtput, hhome⟩ := h
    obtain ⟨hr, rfl | ⟨hview, hdata⟩⟩ := hG.planned_of_home hhome
    · refine ⟨hr, ?_, Or.inl (Or.inr (Or.inr (Or.inl houtput)))⟩
      exact ht.symm.imp_right fun ht => Or.inl (hsplit ▸ ht)
    · refine ⟨hr, ?_, Or.inr ⟨t, ht, houtput, hview⟩⟩
      rcases hG.known t r ht hview with hdata' | hleaf | hnode
      · exact absurd hr.1 hdata'
      · exact Or.inl hleaf
      · exact Or.inr (Or.inl (hsplit ▸ hnode))
  | cons n after ih =>
    rcases h with ⟨h, hkill⟩ | h
    · have hsplit' : G.nodes = (before ++ [n]) ++ after := by
        rw [hsplit, append_assoc, singleton_append]
      obtain ⟨hr, hpresent, hneeded⟩ := ih hsplit' h
      refine ⟨hr, ?_, hneeded.imp_left Needed.uses_cons⟩
      rcases hpresent with hleaf | hmem | hinput
      · exact Or.inl hleaf
      · rcases mem_append.mp hmem with hmem | hmem
        · exact Or.inr (Or.inl hmem)
        · obtain rfl := mem_singleton.mp hmem
          refine Or.inr (Or.inr ⟨mem_of_split hsplit, input_of_not_whole hG hr ?_⟩)
          exact fun hwhole => hkill ⟨hwhole, rfl⟩
      · exact Or.inr (Or.inr hinput)
    · obtain ⟨hr, hpresent, hneeded⟩ := reads_needed hG hsplit h
      exact ⟨hr, hpresent, Or.inl hneeded⟩

theorem neededBy_needed (hG : G.WellFormed B) (houtputs : OutputsKept G)
    (hsplit : G.nodes = before ++ after) (h : some r ∈ neededBy G after) :
    Planned G r ∧ Present G before r ∧ Needed G (usesOf G after) r := by
  obtain ⟨hr, hpresent, hneeded | ⟨t, ht, houtput, hview⟩⟩ := neededBy_present hG hsplit h
  · exact ⟨hr, hpresent, hneeded⟩
  · exact ⟨hr, hpresent, Or.inr (Or.inr (houtputs t ht houtput r hview hr.1))⟩

/-! ## One turn of the loop -/

section Turn

variable {pend : List ℕ}

/-- The parents of a node are allocated already. -/
theorem allocateParents_eq (hG : G.WellFormed B) (hsplit : G.nodes = before ++ n :: after)
    (h : Lives B G s (usesOf G (n :: after)) (Started G before) none) {sources : List ℕ}
    (hsources : sources ⊆ (G.tensor n).sources) :
    sources.foldlM (fun s parent => allocateNode B G s parent bufferId) s = some s := by
  induction sources with
  | nil => rfl
  | cons p sources ih =>
    obtain ⟨hp, hrest⟩ := cons_subset.mp hsources
    have hall : s.Allocated p ∨ ¬ Planned G p := by
      by_cases hplanned : Planned G p
      case neg => exact Or.inr hplanned
      case pos =>
        have hstarted : Started G before p :=
          (source_started hG hsplit hp hplanned).imp_right Or.inl
        have huse : p ∈ usesOf G (n :: after) := by
          rw [usesOf_cons]
          exact mem_append_left _ hp
        exact (h.lives p hplanned hstarted (Or.inl huse)).imp_right fun hnone => nomatch hnone
    rw [foldlM_cons, allocateNode_of_allocated hall]
    exact ih hrest

/-- What is placed when a node was just allocated: the node, and everything that is needed then, but
for a parent in whose place the node is. -/
structure Mid (B : Backend) (G : Graph) (s₂ : Gallocr) (before : List ℕ) (n : ℕ)
    (after : List ℕ) : Prop where
  reserved : Reserved B G s₂
  node : Planned G n → s₂.Allocated n
  lives : ∀ r, Planned G r → Started G before r → Needed G (usesOf G (n :: after)) r → r ≠ n →
    s₂.Allocated r ∨ Planned G n ∧ inplaceAt G n r ∧ s₂.placed n = s₂.placed r ∧
      ∀ v ∈ viewsOf G r, ¬ Waiting G (usesOf G (n :: after)) v

/-- The place of a tensor is not changed any more. -/
def Stays (G : Graph) (before : List ℕ) (s s' : Gallocr) : Prop :=
  ∀ t, Planned G t → Started G before t → s'.placed t = s.placed t

/-- Allocating the node itself. -/
theorem allocateNode_lives (hG : G.WellFormed B) (hsplit : G.nodes = before ++ n :: after)
    (h : Lives B G s (usesOf G (n :: after)) (Started G before) none)
    (halloc : allocateNode B G s n bufferId = some s') :
    ∃ taken, Lives B G s' (usesOf G (n :: after)) (Started G (before ++ [n])) taken ∧
      Mid B G s' before n after ∧ Stays G before s s' ∧
      (∀ b, (s.tallocs b).maxSize ≤ (s'.tallocs b).maxSize) ∧
      ∀ p, taken = some p → ¬ Needed G (usesOf G after) p := by
  -- what has started is the node or had started before
  have hbefore (t : ℕ) (ht : Started G (before ++ [n]) t) (htn : t ≠ n) : Started G before t := by
    refine ht.imp_right fun ht => ht.imp_left fun ht => ?_
    exact (mem_append.mp ht).resolve_right fun ht => htn (mem_singleton.mp ht)
  have hlives (t : ℕ) (hplanned : Planned G t) (ht : Started G before t)
      (hneeded : Needed G (usesOf G (n :: after)) t) : s.Allocated t :=
    (h.lives t hplanned ht hneeded).resolve_right fun hnone => nomatch hnone
  by_cases hdone : s.Allocated n ∨ ¬ Planned G n
  case pos =>
    rw [allocateNode_of_allocated hdone] at halloc
    cases halloc
    have hnode (hplanned : Planned G n) : s.Allocated n :=
      hdone.resolve_right (not_not_intro hplanned)
    refine ⟨none, ⟨h.reserved, h.counted, fun t hplanned ht hneeded => Or.inl ?_⟩, ⟨h.reserved,
      hnode, fun r hr hstarted hneeded _ => Or.inl (hlives r hr hstarted hneeded)⟩,
      fun _ _ _ => rfl, fun _ => le_rfl, fun p hp => nomatch hp⟩
    by_cases htn : t = n
    · exact htn ▸ hnode (htn ▸ hplanned)
    · exact hlives t hplanned (hbefore t ht htn) hneeded
  case neg =>
    obtain ⟨hfresh, hplanned⟩ := not_or.mp hdone
    replace hplanned := not_not.mp hplanned
    have hnew (ht : Started G before n) : False :=
      hfresh (hlives n hplanned ht (needed_after hG hsplit hplanned).uses_cons)
    have hstays (hother : ∀ t, t ≠ n → s'.placed t = s.placed t) : Stays G before s s' := by
      intro t _ ht
      refine hother t ?_
      rintro rfl
      exact hnew ht
    rcases allocateNode_cases h.reserved (fun hn _ => source_ne hG hsplit hn.1) halloc with
      ⟨hdone', _⟩ | hfresh' | ⟨p, htakes⟩
    · exact absurd hdone' hdone
    · obtain ⟨hreserved, hmax⟩ := hfresh'.reserved h.reserved
      have hallocated : s'.Allocated n := by
        obtain ⟨offset, hentry, _⟩ := hfresh'.entry
        rw [Gallocr.Allocated, hentry]
      have hrest (t : ℕ) (ht : s.Allocated t) : s'.Allocated t := by
        by_cases htn : t = n
        · exact htn ▸ hallocated
        · exact (Gallocr.allocated_congr (hfresh'.other t htn)).mpr ht
      refine ⟨none, ⟨hreserved, ⟨?_, ?_⟩, fun t hplanned ht hneeded => Or.inl ?_⟩, ⟨hreserved,
        fun _ => hallocated, fun r hr hstarted hneeded _ => Or.inl ?_⟩, ?_, hmax,
        fun p hp => nomatch hp⟩
      · exact fun t => hfresh'.counts ▸ h.counted.children t
      · exact fun r => hfresh'.counts ▸ h.counted.views r
      · by_cases htn : t = n
        · exact htn ▸ hallocated
        · exact hrest t (hlives t hplanned (hbefore t ht htn) hneeded)
      · exact hrest r (hlives r hr hstarted hneeded)
      · exact hstays fun t htn => Gallocr.placed_congr (hfresh'.other t htn)
    · have hreserved := htakes.reserved h.reserved
      have hallocated : s'.Allocated n := by
        rw [Gallocr.Allocated, htakes.entry]
      have hrest (t : ℕ) (ht : s.Allocated t) (htp : t ≠ p) : s'.Allocated t := by
        by_cases htn : t = n
        · exact htn ▸ hallocated
        · exact (Gallocr.allocated_congr (htakes.other t htn htp)).mpr ht
      have hp := h.reserved.planned p htakes.allocated
      have hplaced (t : ℕ) (htn : t ≠ n) : s'.placed t = s.placed t := by
        by_cases htp : t = p
        · rw [htp, Gallocr.placed, htakes.parent]
        · exact Gallocr.placed_congr (htakes.other t htn htp)
      -- the parent has this use only, and no view that waits
      have hcount : (usesOf G (n :: after)).count p = 1 := by
        have := h.counted.children p
        rw [htakes.last] at this
        exact (Int.ofNat.inj this).symm
      have hviews : ((viewsOf G p).countP fun v => Waiting G (usesOf G (n :: after)) v) = 0 := by
        have := h.counted.views p hp.1
        rw [htakes.last] at this
        exact (Int.ofNat.inj this).symm
      have hwaiting (v : ℕ) (hv : v ∈ viewsOf G p) : ¬ Waiting G (usesOf G (n :: after)) v := by
        simpa using countP_eq_zero.mp hviews v hv
      refine ⟨some p, ⟨hreserved, ⟨?_, ?_⟩, fun t hplanned ht hneeded => ?_⟩, ⟨hreserved,
        fun _ => hallocated, fun r hr hstarted hneeded hrn => ?_⟩, hstays hplaced,
        fun b => by rw [htakes.tallocs], ?_⟩
      · exact fun t => htakes.counts ▸ h.counted.children t
      · exact fun r => htakes.counts ▸ h.counted.views r
      · by_cases htp : t = p
        · exact Or.inr (congrArg some htp.symm)
        · refine Or.inl ?_
          by_cases htn : t = n
          · exact htn ▸ hallocated
          · exact hrest t (hlives t hplanned (hbefore t ht htn) hneeded) htp
      · by_cases hrp : r = p
        · subst hrp
          refine Or.inr ⟨hplanned, htakes.inplace, ?_, hwaiting⟩
          rw [hplaced r hrn, Gallocr.placed, htakes.entry]
        · exact Or.inl (hrest r (hlives r hr hstarted hneeded) hrp)
      · rintro q hq hneeded
        cases hq
        have huses : p ∈ usesOf G G.nodes :=
          mem_usesOf.mpr ⟨n, mem_of_split hsplit, htakes.source⟩
        have hlast : p ∉ usesOf G after := by
          rw [usesOf_cons, count_append] at hcount
          have := count_pos_iff.mpr htakes.source
          exact count_eq_zero.mp (by omega)
        have houtput := output_of_needed (Or.inl huses) hlast ?_ hneeded
        · rw [htakes.output] at houtput
          cases houtput
        · rw [countP_eq_zero] at hviews ⊢
          intro v hv
          have := hwaiting v hv
          rw [decide_eq_true_iff]
          intro hwait
          refine this (hwait.imp_left fun hmem => ?_)
          rw [usesOf_cons]
          exact mem_append_right _ hmem

/-- One turn of the loop. -/
theorem planNode_lives (hG : G.WellFormed B) (hsplit : G.nodes = before ++ n :: after)
    (h : Lives B G s (usesOf G (n :: after)) (Started G before) none)
    (hplan : planNode B G s (n, bufferId) = some s') :
    Lives B G s' (usesOf G after) (Started G (before ++ [n])) none ∧
      (∃ s₂, Mid B G s₂ before n after ∧ s₂.placed = s'.placed) ∧ Stays G before s s' ∧
      ∀ b, (s.tallocs b).maxSize ≤ (s'.tallocs b).maxSize := by
  rw [planNode] at hplan
  obtain ⟨s₁, hparents, hplan⟩ := Option.bind_eq_some_iff.mp hplan
  rw [allocateParents_eq hG hsplit h fun _ hp => hp] at hparents
  cases hparents
  obtain ⟨s₂, halloc, hupdate⟩ := Option.bind_eq_some_iff.mp hplan
  obtain ⟨taken, hlives, hmid, hstays, hmax, htaken⟩ := allocateNode_lives hG hsplit h halloc
  have hsources (p : ℕ) (hp : p ∈ (G.tensor n).sources) : Accounted G p ∧ p ∈ usesOf G G.nodes :=
    ⟨source_accounted hG hsplit hp, mem_usesOf.mpr ⟨n, mem_of_split hsplit, hp⟩⟩
  rw [usesOf_cons] at hlives
  obtain ⟨hend, hsettles⟩ := updateParents_lives hG hsources hlives hupdate
  refine ⟨⟨hend.reserved, hend.counted, fun t hplanned ht hneeded => Or.inl ?_⟩,
    ⟨s₂, hmid, hsettles.placed.symm⟩, fun t hplanned ht => ?_, fun b => ?_⟩
  · exact (hend.lives t hplanned ht hneeded).resolve_right fun htake => htaken t htake hneeded
  · rw [hsettles.placed]
    exact hstays t hplanned ht
  · exact (hmax b).trans (hsettles.maxSize b)

end Turn

/-! ## The whole loop -/

section Loop

variable {nodes : List (ℕ × ℕ)} {sf : Gallocr}

/-- A tensor there spans the offset. -/
def Spans (B : Backend) (G : Graph) (spot : ℕ × ℕ) (t b x : ℕ) : Prop :=
  B.bufts spot.1 = b ∧ InRange spot.2 (B.allocSize b (G.tensor t).layout) x

/-- Two tensors share nothing. -/
def SpansApart (B : Backend) (G : Graph) (spot : ℕ → ℕ × ℕ) (t u : ℕ) : Prop :=
  ∀ b x, Spans B G (spot t) t b x → ¬ Spans B G (spot u) u b x

/-- A node shares nothing with what is needed, and with its sources but for one in whose place it
works. -/
structure NodeSafe (B : Backend) (G : Graph) (spot : ℕ → ℕ × ℕ) (n : ℕ) (after : List ℕ) :
    Prop where
  later : computes G n = true → ∀ d r, (home G n).1 = some d → some r ∈ neededBy G after →
    d ≠ r → SpansApart B G spot d r
  sources : computes G n = true → ∀ p ∈ (G.tensor n).sources, ∀ d r, (home G n).1 = some d →
    (home G p).1 = some r → d ≠ r → SpansApart B G spot d r ∨
      inplaceAt G n p ∧ d = n ∧ r = p ∧ spot n = spot p

theorem Spans.holds {spot : ℕ × ℕ} {b x : ℕ} (h : Spans B G spot t b x) : Holds B G spot t b x :=
  ⟨h.1, h.2.1, h.2.2.trans_le (Nat.add_le_add_left
    (le_alignedOffset (B.alignment_pos b) (B.allocSize_le b _)) _)⟩

/-- The cells of a tensor lie in its span. -/
theorem spans_of_cell {spot : ℕ → ℕ × ℕ} {k : ℕ} (hk : cell B G (some t) k) :
    Spans B G (spot t) t (B.bufts (spot t).1) ((spot t).2 + k) :=
  ⟨rfl, Nat.le_add_right _ _, Nat.add_lt_add_left (hk.trans_le (B.nbytes_le _ _)) _⟩

/-- Two tensors that are reserved share nothing. -/
theorem apart_of_reserved (hs : Reserved B G s) {u d : ℕ} (hne : d ≠ u) (hd : s.Allocated d)
    (hu : s.Allocated u) (hplaced : sf.placed d = s.placed d)
    (hplaced' : sf.placed u = s.placed u) : SpansApart B G sf.placed d u := by
  intro b x hx hy
  rw [hplaced] at hx
  rw [hplaced'] at hy
  exact hs.apart d u hne hd hu b x hx.holds hy.holds

theorem op_ne_none (hview : (G.tensor n).viewSrc = some r) (h : computes G n = true) :
    (G.tensor n).op ≠ .none := by
  intro hop
  rw [computes, hop, Tensor.isView, hview] at h
  cases h

theorem nodeSafe_of_lives (hG : G.WellFormed B) (houtputs : OutputsKept G)
    (hsplit : G.nodes = before ++ n :: after)
    (h : Lives B G s' (usesOf G after) (Started G (before ++ [n])) none) {s₂ : Gallocr}
    (hmid : Mid B G s₂ before n after) (hplaced : s₂.placed = s'.placed)
    (hstays : Stays G (before ++ [n]) s' sf) : NodeSafe B G sf.placed n after := by
  have hsplit' : G.nodes = (before ++ [n]) ++ after := by
    rw [hsplit, append_assoc, singleton_append]
  have hlives {t : ℕ} (ht : Planned G t) (hstarted : Started G (before ++ [n]) t)
      (hneeded : Needed G (usesOf G after) t) : s'.Allocated t :=
    (h.lives t ht hstarted hneeded).resolve_right fun hnone => nomatch hnone
  have hsame {t : ℕ} (ht : Planned G t) (hstarted : Started G before t) :
      sf.placed t = s₂.placed t := by
    rw [hplaced]
    exact hstays t ht hstarted.append
  constructor
  case later =>
    intro hcomputes d r hhome hu hdr
    obtain ⟨hr, hrpresent, hrneeded⟩ := neededBy_needed hG houtputs hsplit' hu
    obtain ⟨hd, hnode⟩ := hG.planned_of_home hhome
    have hdlives : Started G (before ++ [n]) d ∧ Needed G (usesOf G after) d := by
      rcases hnode with rfl | ⟨hview, _⟩
      · refine ⟨Or.inr (Or.inl ?_), needed_after hG hsplit hd⟩
        exact mem_append_right _ mem_cons_self
      · have hop := op_ne_none hview hcomputes
        have hbefore : Started G before d :=
          (started_of_view hG hsplit hd hview hop).imp_right Or.inl
        exact ⟨hbefore.append, needed_of_view hG hsplit hview hop hd.1⟩
    exact apart_of_reserved h.reserved hdr (hlives hd hdlives.1 hdlives.2)
      (hlives hr hrpresent.started hrneeded) (hstays d hd hdlives.1)
      (hstays r hr hrpresent.started)
  case sources =>
    intro hcomputes p hp d r hhome hsource hdr
    obtain ⟨hr, hrpresent, hrneeded⟩ :=
      reads_needed hG hsplit (r := r) (Or.inl ⟨p, hp, hsource⟩)
    have hrstarted := hrpresent.started
    obtain ⟨hd, hnode⟩ := hG.planned_of_home hhome
    rcases hnode with rfl | ⟨hview, _⟩
    · have hnstays : sf.placed n = s₂.placed n := by
        rw [hplaced]
        exact hstays n hd (Or.inr (Or.inl (mem_append_right _ mem_cons_self)))
      rcases hmid.lives r hr hrstarted hrneeded (Ne.symm hdr) with
        hallocated | ⟨_, hinplace, hshared, hviews⟩
      · exact Or.inl (apart_of_reserved hmid.reserved hdr (hmid.node hd) hallocated hnstays
          (hsame hr hrstarted))
      · have hpr : p = r := by
          refine (hG.planned_of_home hsource).2.resolve_right ?_
          rintro ⟨hview, _⟩
          refine hviews p ?_ (Or.inl ?_)
          · exact (source_accounted hG hsplit hp).mem_viewsOf hG hview hr.1
          · rw [usesOf_cons]
            exact mem_append_left _ hp
        subst hpr
        refine Or.inr ⟨hinplace, rfl, rfl, ?_⟩
        rw [hnstays, hshared, hsame hr hrstarted]
    · have hop := op_ne_none hview hcomputes
      have hnot : ¬ Planned G n := by
        intro hplanned
        rw [hplanned.2] at hview
        cases hview
      have hallocated {t : ℕ} (ht : Planned G t) (hstarted : Started G before t)
          (hneeded : Needed G (usesOf G (n :: after)) t) : s₂.Allocated t := by
        refine (hmid.lives t ht hstarted hneeded ?_).resolve_right fun hinplace => hnot hinplace.1
        rintro rfl
        exact hnot ht
      have hdstarted : Started G before d :=
        (started_of_view hG hsplit hd hview hop).imp_right Or.inl
      exact Or.inl (apart_of_reserved hmid.reserved hdr
        (hallocated hd hdstarted (needed_of_view hG hsplit hview hop hd.1).uses_cons)
        (hallocated hr hrstarted hrneeded) (hsame hd hdstarted) (hsame hr hrstarted))

/-- Where every node is safe, nothing is clobbered. -/
theorem noClobber_of_nodeSafe (hG : G.WellFormed B) {spot : ℕ → ℕ × ℕ}
    (h : ∀ before n after, G.nodes = before ++ n :: after → NodeSafe B G spot n after) :
    NoClobber B G (placeAt B spot) := by
  have hapart {n d r : ℕ} (hhome : (home G n).1 = some d) (hdr : SpansApart B G spot d r) :
      Storage.Apart (cell B G) (placeAt B spot) (some d) (home G n).2 (size B G n) (some r) := by
    intro i hi k hk heq
    have hcell := hG.cell_home hi
    rw [hhome] at hcell
    obtain ⟨hbuft, hoffset⟩ := Loc.buffer.inj heq
    refine hdr _ _ (spans_of_cell hcell) ?_
    rw [hbuft, hoffset]
    exact spans_of_cell hk
  -- memory from before shares nothing with a buffer
  have hext {u w : Option ℕ} {first m : ℕ} (hne : u ≠ w) (hnone : u = none ∨ w = none) :
      Storage.Apart (cell B G) (placeAt B spot) w first m u := by
    intro i _ j _ heq
    rcases u with _ | u <;> rcases w with _ | w
    · exact hne rfl
    · cases heq
    · cases heq
    · rcases hnone with hnone | hnone <;> cases hnone
  constructor
  case later =>
    intro before n after hsplit hcomputes u hu hne
    rcases u with _ | r
    · exact hext hne (Or.inl rfl)
    · cases hhome : (home G n).1 with
      | none => exact hext (hhome ▸ hne) (Or.inr rfl)
      | some d =>
        refine hapart hhome ((h before n after hsplit).later hcomputes d r hhome hu ?_)
        rintro rfl
        exact hne hhome.symm
  case sources =>
    intro n hn hcomputes p hp hne
    obtain ⟨before, after, hsplit⟩ := append_of_mem hn
    cases hhome : (home G n).1 with
    | none => exact Or.inl (hext (hhome ▸ hne) (Or.inr rfl))
    | some d =>
      cases hsource : (home G p).1 with
      | none => exact Or.inl (hext (fun h => nomatch h) (Or.inl rfl))
      | some r =>
        have hdr : d ≠ r := by
          rintro rfl
          exact hne (hsource.trans hhome.symm)
        rcases (h before n after hsplit).sources hcomputes p hp d r hhome hsource hdr with
          hapart' | ⟨hinplace, rfl, rfl, hspot⟩
        · exact Or.inl (hapart hhome hapart')
        · refine Or.inr ⟨hinplace, (hG.planned_of_home hhome).1.home,
            (hG.planned_of_home hsource).1.home, funext fun k => ?_⟩
          rw [placeAt, placeAt, hspot]

/-- The range of a tensor lies inside of the recorded maximum size of its buffer. -/
def Bounded (B : Backend) (G : Graph) (s : Gallocr) (t : ℕ) : Prop :=
  (s.placed t).2 + paddedSize B G (B.bufts (s.placed t).1) t ≤
    (s.tallocs (B.bufts (s.placed t).1)).maxSize

/-- The loop over all nodes. -/
theorem planNodes_safe (hG : G.WellFormed B) (houtputs : OutputsKept G)
    (hsplit : G.nodes = before ++ nodes.map Prod.fst)
    (h : Lives B G s (usesOf G (nodes.map Prod.fst)) (Started G before) none)
    (hplan : nodes.foldlM (planNode B G) s = some sf) :
    Stays G before s sf ∧ (∀ b, (s.tallocs b).maxSize ≤ (sf.tallocs b).maxSize) ∧
      (∀ t ∈ nodes.map Prod.fst, Planned G t → Bounded B G sf t) ∧
      ∀ pre n after, nodes.map Prod.fst = pre ++ n :: after → NodeSafe B G sf.placed n after := by
  induction nodes generalizing s before with
  | nil =>
    cases hplan
    refine ⟨fun _ _ _ => rfl, fun _ => le_rfl, fun t ht => (not_mem_nil ht).elim, ?_⟩
    intro pre n after hnil
    exact absurd hnil.symm (append_ne_nil_of_right_ne_nil _ (cons_ne_nil _ _))
  | cons node nodes ih =>
    obtain ⟨n, bufferId⟩ := node
    obtain ⟨s₁, hfirst, hrest⟩ := Option.bind_eq_some_iff.mp hplan
    rw [map_cons] at hsplit h ⊢
    obtain ⟨hlives, ⟨s₂, hmid, hplaced⟩, hstays₁, hmax₁⟩ := planNode_lives hG hsplit h hfirst
    have hsplit' : G.nodes = (before ++ [n]) ++ nodes.map Prod.fst := by
      rw [hsplit, append_assoc, singleton_append]
    obtain ⟨hstays, hmax, hbounded, hsafe⟩ := ih hsplit' hlives hrest
    have hstarted : Started G (before ++ [n]) n :=
      Or.inr (Or.inl (mem_append_right _ mem_cons_self))
    refine ⟨fun t ht hbefore => ?_, fun b => (hmax₁ b).trans (hmax b), fun t ht hplanned => ?_, ?_⟩
    · rw [hstays t ht hbefore.append, hstays₁ t ht hbefore]
    · rcases mem_cons.mp ht with rfl | ht
      · have hallocated : s₁.Allocated t :=
          (hlives.lives t hplanned hstarted (needed_after hG hsplit hplanned)).resolve_right
            fun hnone => nomatch hnone
        rw [Bounded, hstays t hplanned hstarted]
        exact (hlives.reserved.bounded t hallocated).trans (hmax _)
      · exact hbounded t ht hplanned
    · intro pre m after heq
      cases pre with
      | nil =>
        obtain ⟨rfl, rfl⟩ := cons.inj heq
        exact nodeSafe_of_lives hG houtputs hsplit hlives hmid hplaced hstays
      | cons a pre => exact hsafe pre m after (cons.inj heq).2

end Loop

end ExpertPin.Galloc
