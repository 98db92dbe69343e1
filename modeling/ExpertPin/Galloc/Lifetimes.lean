import ExpertPin.Galloc.Reservations

/-!
# Lifetimes

While the nodes are planned, a tensor is needed as long as a later node uses it or a view of it
waits for its last use; a view that no node uses waits for ever.  The counts of the table are those
of the uses and views still to come, and so a tensor that is needed is not freed.
-/

namespace ExpertPin.Galloc

open List
open Option

variable {B : Backend} {G : Graph} {s s' : Gallocr} {n p t u r v bufferId : ℕ}
  {pend before after : List ℕ}

section Needs

variable (G)

/-- The uses of tensors as sources of some nodes. -/
def usesOf (nodes : List ℕ) : List ℕ := nodes.flatMap fun n => (G.tensor n).sources

/-- The node is a view of the tensor that is counted. -/
def IsViewOf (v r : ℕ) : Prop := (G.tensor v).viewSrc = some r ∧ (G.tensor v).op ≠ .none

instance : Decidable (IsViewOf G v r) := inferInstanceAs (Decidable (_ ∧ _))

/-- The views of a tensor that are counted. -/
def viewsOf (r : ℕ) : List ℕ := G.nodes.filter fun v => IsViewOf G v r

/-- The view has a use to come, or it has none at all. -/
def Waiting (pend : List ℕ) (v : ℕ) : Prop := v ∈ pend ∨ v ∉ usesOf G G.nodes

instance : Decidable (Waiting G pend v) := inferInstanceAs (Decidable (_ ∨ _))

/-- The tensor is never freed, since it is an output, or a view of it is never used, or neither it
nor a view of it ever is. -/
def Kept (t : ℕ) : Prop :=
  (G.tensor t).output = true ∨ (∃ v ∈ viewsOf G t, v ∉ usesOf G G.nodes) ∨
    t ∉ usesOf G G.nodes ∧ viewsOf G t = []

/-- With these uses to come, the tensor is still needed. -/
def Needed (pend : List ℕ) (t : ℕ) : Prop :=
  t ∈ pend ∨ (∃ v ∈ viewsOf G t, Waiting G pend v) ∨ Kept G t

end Needs

theorem mem_viewsOf : v ∈ viewsOf G r ↔ v ∈ G.nodes ∧ IsViewOf G v r := by
  rw [viewsOf, mem_filter, decide_eq_true_iff]

theorem Waiting.cons (h : Waiting G pend v) : Waiting G (p :: pend) v :=
  h.imp_left (mem_cons_of_mem p)

theorem Needed.cons (h : Needed G pend t) : Needed G (p :: pend) t := by
  rcases h with h | ⟨v, hv, hwait⟩ | h
  · exact Or.inl (mem_cons_of_mem p h)
  · exact Or.inr (Or.inl ⟨v, hv, hwait.cons⟩)
  · exact Or.inr (Or.inr h)

theorem Needed.append {l : List ℕ} (h : Needed G pend t) : Needed G (l ++ pend) t := by
  induction l with
  | nil => exact h
  | cons p l ih => exact ih.cons

/-! ## The counts -/

section Counts

variable (B G)

/-- The counts are those of the uses and views to come. -/
structure Counted (s : Gallocr) (pend : List ℕ) : Prop where
  children : ∀ t, (s.counts t).1 = pend.count t
  views : ∀ r, (G.tensor r).data = none →
    (s.counts r).2 = (viewsOf G r).countP fun v => Waiting G pend v

end Counts

theorem countP_waiting_congr (h : p ∈ pend ∨ p ∉ viewsOf G r) :
    (viewsOf G r).countP (fun v => Waiting G (p :: pend) v) =
      (viewsOf G r).countP fun v => Waiting G pend v := by
  refine countP_congr fun v hv => ?_
  rw [decide_eq_true_iff, decide_eq_true_iff]
  refine ⟨?_, Waiting.cons⟩
  rintro (hmem | hnever)
  · rcases mem_cons.mp hmem with rfl | hmem
    · exact Or.inl (h.resolve_right (not_not_intro hv))
    · exact Or.inl hmem
  · exact Or.inr hnever

/-- A list without duplicates has one more that satisfies the one predicate. -/
theorem countP_succ {l : List ℕ} {f g : ℕ → Bool} (hl : l.Nodup) (hp : p ∈ l) (hf : f p = true)
    (hg : g p = false) (h : ∀ v, v ≠ p → f v = g v) : l.countP f = l.countP g + 1 := by
  induction l with
  | nil => cases hp
  | cons a l ih =>
    obtain ⟨hal, hl⟩ := nodup_cons.mp hl
    rcases mem_cons.mp hp with rfl | hp
    · rw [countP_cons_of_pos hf,
        countP_cons_of_neg (by rw [hg]; exact Bool.false_ne_true)]
      refine congrArg (· + 1) (countP_congr fun v hv => ?_)
      rw [h v fun heq => hal (heq ▸ hv)]
    · have hap : a ≠ p := fun heq => hal (heq ▸ hp)
      rw [countP_cons, countP_cons, ih hl hp, h a hap]
      exact Nat.add_right_comm _ _ _

/-- The last use of a view. -/
theorem countP_waiting_succ (hnodup : G.nodes.Nodup) (hp : p ∉ pend)
    (huses : p ∈ usesOf G G.nodes) (hview : p ∈ viewsOf G r) :
    (viewsOf G r).countP (fun v => Waiting G (p :: pend) v) =
      ((viewsOf G r).countP fun v => Waiting G pend v) + 1 := by
  refine countP_succ (hnodup.filter _) hview ?_ ?_ fun v hv => ?_
  · exact decide_eq_true (Or.inl mem_cons_self)
  · exact decide_eq_false fun h => h.elim hp fun hnever => hnever huses
  · refine decide_eq_decide.mpr (or_congr_left ?_)
    rw [mem_cons, or_iff_right hv]

/-! ## The invariant -/

section Invariant

variable (B G)

/-- What is needed is allocated, but for a parent that was just taken over. -/
structure Lives (s : Gallocr) (pend : List ℕ) (started : ℕ → Prop) (taken : Option ℕ) : Prop where
  reserved : Reserved B G s
  counted : Counted G s pend
  lives : ∀ t, Planned G t → started t → Needed G pend t → s.Allocated t ∨ taken = some t

/-- The places are the same, and no buffer got smaller. -/
structure Settles (s s' : Gallocr) : Prop where
  placed : s'.placed = s.placed
  maxSize : ∀ b, (s.tallocs b).maxSize ≤ (s'.tallocs b).maxSize

end Invariant

theorem Settles.refl (s : Gallocr) : Settles s s := ⟨rfl, fun _ => le_rfl⟩

theorem Settles.trans {s'' : Gallocr} (h : Settles s s') (h' : Settles s' s'') : Settles s s'' :=
  ⟨h'.placed.trans h.placed, fun b => (h.maxSize b).trans (h'.maxSize b)⟩

section Update

variable {started : ℕ → Prop} {taken : Option ℕ}

/-- Changing counts alone. -/
theorem Lives.recount (h : Lives B G s (p :: pend) started taken) (hentry : s'.entry = s.entry)
    (htallocs : s'.tallocs = s.tallocs) (hcounted : Counted G s' pend) :
    Lives B G s' pend started taken where
  reserved := h.reserved.congr (congrFun hentry) htallocs
  counted := hcounted
  lives t hplanned hstarted hneeded := by
    rw [Gallocr.allocated_congr (congrFun hentry t)]
    exact h.lives t hplanned hstarted hneeded.cons

theorem Settles.of_entry (hentry : s'.entry = s.entry) (htallocs : s'.tallocs = s.tallocs) :
    Settles s s' := by
  refine ⟨funext fun t => Gallocr.placed_congr (congrFun hentry t), fun b => ?_⟩
  rw [htallocs]

/-- Freeing a tensor that nothing needs. -/
theorem Lives.free (h : Lives B G s pend started taken) (hr : s.Allocated r)
    (hneeded : Needed G pend r → (G.tensor r).output = true)
    (hfree : freeNode B G s r = some s') :
    Lives B G s' pend started taken ∧ Settles s s' := by
  rcases freeNode_cases hfree with ⟨_, rfl⟩ | ⟨houtput, hfreed⟩
  · exact ⟨h, Settles.refl _⟩
  · obtain ⟨hreserved, hmax⟩ := hfreed.reserved h.reserved hr
    refine ⟨⟨hreserved, ?_, fun t hplanned hstarted ht => ?_⟩, funext fun t => ?_, hmax⟩
    · exact ⟨fun t => hfreed.counts ▸ h.counted.children t,
        fun r => hfreed.counts ▸ h.counted.views r⟩
    · have htr : t ≠ r := by
        rintro rfl
        rw [hneeded ht] at houtput
        cases houtput
      rw [Gallocr.allocated_congr (hfreed.other t htr)]
      exact h.lives t hplanned hstarted ht
    · by_cases htr : t = r
      · rw [htr, Gallocr.placed, hfreed.entry]
      · exact Gallocr.placed_congr (hfreed.other t htr)

/-- A tensor that is used, has no use to come and no view that waits, is needed only as an
output. -/
theorem output_of_needed (huses : r ∈ usesOf G G.nodes ∨ viewsOf G r ≠ []) (hpend : r ∉ pend)
    (hviews : ((viewsOf G r).countP fun v => Waiting G pend v) = 0) (h : Needed G pend r) :
    (G.tensor r).output = true := by
  rw [countP_eq_zero] at hviews
  have hnone (v : ℕ) (hv : v ∈ viewsOf G r) : ¬ Waiting G pend v := by
    simpa using hviews v hv
  rcases h with h | ⟨v, hv, hwait⟩ | h | ⟨v, hv, hnever⟩ | ⟨hnever, hnil⟩
  · exact absurd h hpend
  · exact absurd hwait (hnone v hv)
  · exact h
  · exact absurd (Or.inr hnever) (hnone v hv)
  · exact absurd hnever (huses.elim not_not_intro fun hne => absurd hnil hne)

/-- A source that `ggml_gallocr_alloc_graph_impl` can account for. -/
def Accounted (G : Graph) (p : ℕ) : Prop :=
  (G.tensor p).data ≠ none ∨ (G.tensor p).viewSrc = none ∨ p ∈ G.nodes ∧ (G.tensor p).op ≠ .none

/-- A tensor that is not planned or not a view is no view of a planned tensor. -/
theorem Accounted.mem_viewsOf (hG : G.WellFormed B) (hp : Accounted G p)
    (hview : (G.tensor p).viewSrc = some v) (hv : (G.tensor v).data = none) : p ∈ viewsOf G v := by
  rcases hp with hdata | hnone | ⟨hnode, hop⟩
  · exact absurd (hG.external p v hview hv) hdata
  · rw [hview] at hnone
    cases hnone
  · exact Galloc.mem_viewsOf.mpr ⟨hnode, hview, hop⟩

/-- A view has no views. -/
theorem viewsOf_eq_nil (hG : G.WellFormed B) (hview : (G.tensor p).viewSrc = some v) :
    viewsOf G p = [] := by
  refine filter_eq_nil_iff.mpr fun u _ => ?_
  rw [decide_eq_true_iff]
  intro hu
  rw [hG.base u p hu.1] at hview
  cases hview

theorem updateParent_lives (hG : G.WellFormed B) (hp : Accounted G p)
    (huses : p ∈ usesOf G G.nodes) (h : Lives B G s (p :: pend) started taken)
    (hupdate : updateParent B G s p = some s') :
    Lives B G s' pend started taken ∧ Settles s s' := by
  rw [updateParent] at hupdate
  set s₁ := s.addChildren p (-1) with hs₁
  have hentry₁ : s₁.entry = s.entry := funext fun _ => Gallocr.entry_addChildren
  have hchildren (t : ℕ) : (s₁.counts t).1 = pend.count t := by
    rw [hs₁, Gallocr.counts_addChildren]
    split
    case isTrue ht =>
      rw [h.counted.children, ht, count_cons_self]
      omega
    case isFalse ht => rw [h.counted.children, count_cons_of_ne (Ne.symm ht)]
  have hviews (r : ℕ) (hr : (G.tensor r).data = none) :
      (s₁.counts r).2 = (viewsOf G r).countP fun v => Waiting G (p :: pend) v := by
    rw [← h.counted.views r hr, hs₁, Gallocr.counts_addChildren]
    split <;> rfl
  have hcounted (hlast : ∀ r, (G.tensor r).data = none → p ∈ pend ∨ p ∉ viewsOf G r) :
      Lives B G s₁ pend started taken := by
    refine h.recount hentry₁ rfl ⟨hchildren, fun r hr => ?_⟩
    rw [hviews r hr, countP_waiting_congr (hlast r hr)]
  split at hupdate
  case isFalse hmore =>
    -- when only the views count, they are those of the parent itself
    obtain rfl := some.inj hupdate
    refine ⟨hcounted fun r hr => ?_, Settles.of_entry hentry₁ rfl⟩
    by_contra hlast
    obtain ⟨hpend, hview⟩ := not_or.mp hlast
    obtain ⟨hview, _⟩ := (mem_viewsOf.mp (not_not.mp hview)).2
    refine hmore ⟨?_, ?_⟩
    · exact (hchildren p).trans (congrArg Nat.cast (count_eq_zero.mpr hpend))
    · exact (hviews p (hG.external p r hview hr)).trans (by rw [viewsOf_eq_nil hG hview]; rfl)
  case isTrue hlast =>
    have hpend : p ∉ pend := by
      refine count_eq_zero.mp (Int.ofNat_eq_zero.mp ?_)
      exact (hchildren p).symm.trans hlast.1
    split at hupdate
    case h_1 v hview =>
      set s₂ := s₁.addViews v (-1) with hs₂
      have hentry₂ : s₂.entry = s.entry := by
        rw [← hentry₁]
        exact funext fun _ => Gallocr.entry_addViews
      have hcounts (r : ℕ) : s₂.counts r =
          if r = v then ((s₁.counts r).1, (s₁.counts r).2 + -1) else s₁.counts r :=
        Gallocr.counts_addViews
      have hchildren₂ (t : ℕ) : (s₂.counts t).1 = pend.count t := by
        rw [← hchildren t, hcounts]
        split <;> rfl
      have hviews₂ (r : ℕ) (hr : (G.tensor r).data = none) :
          (s₂.counts r).2 = (viewsOf G r).countP fun v => Waiting G pend v := by
        rw [hcounts]
        split
        case isTrue hrv =>
          have hmem := hp.mem_viewsOf hG hview (hrv ▸ hr)
          rw [hviews r hr, hrv, countP_waiting_succ hG.nodup hpend huses hmem]
          dsimp only
          omega
        case isFalse hrv =>
          rw [hviews r hr, countP_waiting_congr (Or.inr fun hmem => hrv ?_)]
          exact some.inj ((mem_viewsOf.mp hmem).2.1.symm.trans hview)
      have h₂ : Lives B G s₂ pend started taken := h.recount hentry₂ rfl ⟨hchildren₂, hviews₂⟩
      have hsettles₂ : Settles s s₂ := Settles.of_entry hentry₂ rfl
      dsimp only at hupdate
      split at hupdate
      case isFalse =>
        obtain rfl := some.inj hupdate
        exact ⟨h₂, hsettles₂⟩
      case isTrue hfree =>
        obtain ⟨hnoviews, hnochildren, hallocated⟩ := hfree
        have hdata := (h₂.reserved.planned v hallocated).1
        have hmem := hp.mem_viewsOf hG hview hdata
        obtain ⟨h', hsettles⟩ := h₂.free hallocated
          (output_of_needed (Or.inr (ne_nil_of_mem hmem))
            (count_eq_zero.mp (Int.ofNat_eq_zero.mp ((hchildren₂ v).symm.trans hnochildren)))
            (Int.ofNat_eq_zero.mp ((hviews₂ v hdata).symm.trans hnoviews))) hupdate
        exact ⟨h', hsettles₂.trans hsettles⟩
    case h_2 hview =>
      have hnot (r : ℕ) : p ∉ viewsOf G r := by
        intro hmem
        rw [(mem_viewsOf.mp hmem).2.1] at hview
        cases hview
      have h₁ := hcounted fun r _ => Or.inr (hnot r)
      have hsettles₁ : Settles s s₁ := Settles.of_entry hentry₁ rfl
      split at hupdate
      case isFalse =>
        obtain rfl := some.inj hupdate
        exact ⟨h₁, hsettles₁⟩
      case isTrue hallocated =>
        have hdata := (h₁.reserved.planned p hallocated).1
        have hnoviews := (hviews p hdata).symm.trans hlast.2
        rw [countP_waiting_congr (Or.inr (hnot p))] at hnoviews
        obtain ⟨h', hsettles⟩ := h₁.free hallocated
          (output_of_needed (Or.inl huses) hpend (Int.ofNat_eq_zero.mp hnoviews)) hupdate
        exact ⟨h', hsettles₁.trans hsettles⟩

/-- Updating all parents of a node. -/
theorem updateParents_lives (hG : G.WellFormed B) {sources : List ℕ}
    (hsources : ∀ p ∈ sources, Accounted G p ∧ p ∈ usesOf G G.nodes)
    (h : Lives B G s (sources ++ pend) started taken)
    (hupdate : sources.foldlM (updateParent B G) s = some s') :
    Lives B G s' pend started taken ∧ Settles s s' := by
  induction sources generalizing s with
  | nil =>
    cases hupdate
    exact ⟨h, Settles.refl _⟩
  | cons p sources ih =>
    obtain ⟨s₁, hfirst, hrest⟩ := bind_eq_some_iff.mp hupdate
    obtain ⟨haccounted, huses⟩ := hsources p mem_cons_self
    obtain ⟨h₁, hsettles₁⟩ := updateParent_lives hG haccounted huses h hfirst
    obtain ⟨h', hsettles⟩ := ih (fun q hq => hsources q (mem_cons_of_mem p hq)) h₁ hrest
    exact ⟨h', hsettles₁.trans hsettles⟩

end Update

end ExpertPin.Galloc
