import ExpertPin.Tokenizer.Bigrams

/-!
# The queue merges greedily

A chain of cells says which symbols are left, in their order, with their texts.  The queue has an
entry for each two neighbours in the chain that may be merged, and each of its entries is for two
cells one of which has left the chain, or that are neighbours still, the right one perhaps longer
than it was.
-/

namespace ExpertPin.Tokenizer

open GreedyMerging
open Function
open List
open Option
open Nat

/-- The index of a symbol and its text. -/
abbrev Cell := ℕ × List UInt8

/-- The bytes of some cells. -/
def textOf (cells : List Cell) : List UInt8 := (cells.map Prod.snd).flatten

def indices (cells : List Cell) : List ℕ := cells.map Prod.fst

/-! ## The linked symbols -/

/-- The symbols are linked as the cells are, from an offset on, after the symbol `prev`. -/
inductive Linked (symbols : ℕ → Symbol) : Option ℕ → ℕ → List Cell → Prop
  | nil {prev : Option ℕ} {offset : ℕ} : Linked symbols prev offset []
  | cons {prev : Option ℕ} {offset i : ℕ} {t : List UInt8} {cells : List Cell}
      (sym : symbols i = ⟨prev, (indices cells).head?, offset, t.length⟩)
      (rest : Linked symbols (some i) (offset + t.length) cells) :
      Linked symbols prev offset ((i, t) :: cells)

section Linked

variable {symbols symbols' : ℕ → Symbol} {prev : Option ℕ} {offset i left right : ℕ}
  {t a b : List UInt8} {x y cells : List Cell}

@[simp] theorem textOf_cons {c : Cell} : textOf (c :: cells) = c.2 ++ textOf cells := rfl

@[simp] theorem textOf_append : textOf (x ++ y) = textOf x ++ textOf y := by
  simp [textOf]

@[simp] theorem indices_cons {c : Cell} : indices (c :: cells) = c.1 :: indices cells := rfl

@[simp] theorem indices_append : indices (x ++ y) = indices x ++ indices y := map_append

theorem mem_of_pair {j : ℕ} (h : [(i, a), (j, b)] <:+: cells) : (i, a) ∈ cells ∧ (j, b) ∈ cells :=
  ⟨h.subset mem_cons_self, h.subset (mem_cons_of_mem _ mem_cons_self)⟩

theorem mem_indices_of_pair {j : ℕ} (h : [(i, a), (j, b)] <:+: cells) : i ∈ indices cells :=
  mem_map_of_mem (mem_of_pair h).1

theorem Linked.sym (h : Linked symbols prev offset (x ++ (i, t) :: y)) :
    symbols i = ⟨(indices x).getLast?.or prev, (indices y).head?,
      offset + (textOf x).length, t.length⟩ := by
  induction x generalizing prev offset with
  | nil =>
    cases h with
    | cons sym rest => exact sym
  | cons c x ih =>
    cases h with
    | cons sym rest =>
      rw [ih rest, textOf_cons, length_append, add_assoc, indices_cons, getLast?_cons]
      cases (indices x).getLast? <;> rfl

theorem Linked.congr (h : Linked symbols prev offset cells)
    (hsym : ∀ i ∈ indices cells, symbols' i = symbols i) :
    Linked symbols' prev offset cells := by
  induction h with
  | nil => exact .nil
  | cons sym rest ih =>
    exact .cons ((hsym _ mem_cons_self).trans sym)
      (ih fun i hi => hsym i (mem_cons_of_mem _ hi))

/-- The two symbols and the one after them are all that a merge changes. -/
theorem unlink_of_ne (hl : i ≠ left) (hr : i ≠ right) (hnext : some i ≠ (symbols right).next) :
    Session.unlink symbols left right i = symbols i := by
  rw [Session.unlink]
  cases h : (symbols right).next with
  | none =>
    dsimp only
    rw [update_of_ne hr, update_of_ne hl]
  | some next =>
    have hne : i ≠ next := fun heq => hnext (by rw [h, heq])
    dsimp only
    rw [update_of_ne hne, update_of_ne hr, update_of_ne hl]

theorem unlink_left (hne : left ≠ right) (hnext : some left ≠ (symbols right).next) :
    Session.unlink symbols left right left = { symbols left with
        n := (symbols left).n + (symbols right).n, next := (symbols right).next } := by
  rw [Session.unlink]
  cases h : (symbols right).next with
  | none =>
    dsimp only
    rw [update_of_ne hne, update_self]
  | some next =>
    have hne' : left ≠ next := fun heq => hnext (by rw [h, heq])
    dsimp only
    rw [update_of_ne hne', update_of_ne hne, update_self]

theorem unlink_right_n (hnext : some right ≠ (symbols right).next) :
    (Session.unlink symbols left right right).n = 0 := by
  rw [Session.unlink]
  cases h : (symbols right).next with
  | none =>
    dsimp only
    rw [update_self]
  | some next =>
    have hne : right ≠ next := fun heq => hnext (by rw [h, heq])
    dsimp only
    rw [update_of_ne hne, update_self]

theorem unlink_next (h : (symbols right).next = some i) (hl : i ≠ left) (hr : i ≠ right) :
    Session.unlink symbols left right i = { symbols i with prev := some left } := by
  rw [Session.unlink, h]
  dsimp only
  rw [update_self, update_of_ne hr, update_of_ne hl]

/-- A merge of two neighbours is one of their cells. -/
theorem Linked.unlink (h : Linked symbols prev offset (x ++ (left, a) :: (right, b) :: y))
    (hnodup : (indices (x ++ (left, a) :: (right, b) :: y)).Nodup)
    (hnext : (symbols right).next = (indices y).head?) :
    Linked (Session.unlink symbols left right) prev offset (x ++ (left, a ++ b) :: y) := by
  induction x generalizing prev offset with
  | nil =>
    cases h with
    | cons hleft rest =>
      cases rest with
      | cons hright rest =>
        simp only [nil_append, indices_cons, nodup_cons, mem_cons, not_or] at hnodup
        obtain ⟨⟨hne, hlefty⟩, hrighty, hy⟩ := hnodup
        have hnext_mem : ∀ i, some i = (symbols right).next → i ∈ indices y := fun i hi =>
          mem_of_mem_head? (hi.trans hnext).symm
        refine .cons ?_ ?_
        · rw [unlink_left hne fun h => hlefty (hnext_mem left h), hleft, hright,
            length_append]
        · rw [length_append, ← add_assoc]
          cases rest with
          | nil => exact .nil
          | @cons _ _ j c y hj rest =>
            rw [indices_cons, mem_cons, not_or] at hlefty hrighty
            rw [indices_cons, nodup_cons] at hy
            refine .cons ?_ (rest.congr fun i hi => unlink_of_ne ?_ ?_ ?_)
            · rw [unlink_next hnext (Ne.symm hlefty.1) (Ne.symm hrighty.1), hj]
            · rintro rfl
              exact hlefty.2 hi
            · rintro rfl
              exact hrighty.2 hi
            · rw [hnext]
              rintro heq
              cases heq
              exact hy.1 hi
  | cons c x ih =>
    cases h with
    | cons sym rest =>
      rw [cons_append, indices_cons, nodup_cons] at hnodup
      obtain ⟨hnot, hnodup⟩ := hnodup
      simp only [indices_append, indices_cons, mem_append, mem_cons, not_or] at hnot
      obtain ⟨-, hleft, hright, hy⟩ := hnot
      refine .cons ?_ (ih rest hnodup)
      rw [unlink_of_ne hleft hright, sym]
      · cases x <;> rfl
      · rw [hnext]
        intro heq
        exact hy (mem_of_mem_head? heq.symm)

end Linked

/-! ## Chains of cells -/

/-- A symbol is next to another, and the bytes of the two are next to each other. -/
structure Reads (word : List UInt8) (left right : Symbol) (a b : List UInt8) : Prop where
  split : ∃ before after, word = before ++ (a ++ (b ++ after)) ∧ left.text = before.length
  right_text : right.text = left.text + a.length
  left_n : left.n = a.length
  right_n : right.n = b.length

/-- The cells are the symbols that are left of a word. -/
structure Chained (word : List UInt8) (symbols : ℕ → Symbol) (cells : List Cell) : Prop where
  linked : Linked symbols none 0 cells
  sorted : (indices cells).Pairwise (· < ·)
  text : textOf cells = word
  ne_nil : ∀ c ∈ cells, c.2 ≠ []
  dead : ∀ i ∉ indices cells, (symbols i).n = 0

section Reads

variable {word a b : List UInt8} {left right : Symbol}

theorem Reads.left_string (h : Reads word left right a b) : left.string word = a := by
  obtain ⟨before, after, rfl, htext⟩ := h.split
  rw [Symbol.string, slice, htext, h.left_n, drop_left, take_left]

theorem Reads.right_string (h : Reads word left right a b) : right.string word = b := by
  obtain ⟨before, after, rfl, htext⟩ := h.split
  rw [Symbol.string, slice, h.right_text, htext, h.right_n, ← append_assoc,
    ← length_append, drop_left, take_left]

theorem Reads.slice (h : Reads word left right a b) :
    slice word left.text (left.n + right.n) = a ++ b := by
  obtain ⟨before, after, rfl, htext⟩ := h.split
  rw [Tokenizer.slice, htext, h.left_n, h.right_n, drop_left, ← append_assoc,
    ← length_append, take_left]

end Reads

namespace Chained

variable {word a b a' b' : List UInt8} {symbols : ℕ → Symbol} {cells x y : List Cell}
  {i i' j left right : ℕ}

theorem exists_split (hi : i ∈ indices cells) : ∃ x t y, cells = x ++ (i, t) :: y := by
  obtain ⟨⟨i, t⟩, hmem, rfl⟩ := mem_map.mp hi
  obtain ⟨x, y, rfl⟩ := append_of_mem hmem
  exact ⟨x, t, y, rfl⟩

theorem n_ne_zero_iff (h : Chained word symbols cells) : (symbols i).n ≠ 0 ↔ i ∈ indices cells := by
  constructor
  · exact fun hn => by_contra fun hi => hn (h.dead i hi)
  · intro hi
    obtain ⟨x, t, y, rfl⟩ := exists_split hi
    rw [h.linked.sym]
    exact fun hn => h.ne_nil (i, t) (by simp) (length_eq_zero_iff.mp hn)

theorem reads (h : Chained word symbols cells) (hp : [(i, a), (j, b)] <:+: cells) :
    Reads word (symbols i) (symbols j) a b ∧ (symbols i).next = some j ∧
      (symbols j).prev = some i := by
  obtain ⟨x, y, hcells⟩ := hp
  have hi : cells = x ++ (i, a) :: (j, b) :: y := by
    rw [← hcells, append_assoc]
    rfl
  have hj : cells = (x ++ [(i, a)]) ++ (j, b) :: y := by
    rw [hi, append_assoc]
    rfl
  have hsymi := (hi ▸ h.linked).sym
  have hsymj := (hj ▸ h.linked).sym
  rw [hsymi, hsymj]
  refine ⟨⟨⟨textOf x, textOf y, ?_, zero_add _⟩, ?_, rfl, rfl⟩, rfl, ?_⟩
  · rw [← h.text, hi, textOf_append, textOf_cons, textOf_cons]
  · simp [textOf]
  · simp [indices]

theorem of_next (h : Chained word symbols cells) (hi : i ∈ indices cells)
    (hnext : (symbols i).next = some j) : ∃ a b, [(i, a), (j, b)] <:+: cells := by
  obtain ⟨x, t, y, rfl⟩ := exists_split hi
  rw [h.linked.sym] at hnext
  cases y with
  | nil => cases hnext
  | cons c y =>
    cases hnext
    exact ⟨t, c.2, x, y, by simp⟩

theorem of_prev (h : Chained word symbols cells) (hj : j ∈ indices cells)
    (hprev : (symbols j).prev = some i) : ∃ a b, [(i, a), (j, b)] <:+: cells := by
  obtain ⟨x, t, y, rfl⟩ := exists_split hj
  rw [h.linked.sym] at hprev
  cases x using reverseRecOn with
  | nil => cases hprev
  | append_singleton x c =>
    rw [indices_append, getLast?_append] at hprev
    cases hprev
    exact ⟨c.2, t, x, y, by simp⟩

/-- The cell before one is the only one. -/
theorem unique (h : Chained word symbols cells) (hp : [(i, a), (j, b)] <:+: cells)
    (hp' : [(i', a'), (j, b')] <:+: cells) : i = i' ∧ a = a' ∧ b = b' := by
  obtain ⟨hreads, -, hprev⟩ := h.reads hp
  obtain ⟨hreads', -, hprev'⟩ := h.reads hp'
  obtain rfl : i = i' := some.inj (hprev.symm.trans hprev')
  exact ⟨rfl, hreads.left_string.symm.trans hreads'.left_string,
    hreads.right_string.symm.trans hreads'.right_string⟩

theorem unlink (h : Chained word symbols (x ++ (left, a) :: (right, b) :: y)) :
    Chained word (Session.unlink symbols left right) (x ++ (left, a ++ b) :: y) := by
  have hnodup : (indices (x ++ (left, a) :: (right, b) :: y)).Nodup :=
    h.sorted.imp fun h => h.ne
  have hnext : (symbols right).next = (indices y).head? := by
    have hsym := (show Linked symbols none 0 ((x ++ [(left, a)]) ++ (right, b) :: y) by
      simpa using h.linked).sym
    rw [hsym]
  refine ⟨h.linked.unlink hnodup hnext, ?_, ?_, ?_, ?_⟩
  · refine h.sorted.sublist ?_
    simp
  · rw [← h.text]
    simp
  · intro c hc
    rcases mem_append.mp hc with hx | hc
    · exact h.ne_nil c (mem_append_left _ hx)
    · rcases mem_cons.mp hc with rfl | hy
      · intro hnil
        exact h.ne_nil (left, a) (by simp) (append_eq_nil_iff.mp hnil).1
      · exact h.ne_nil c (by simp [hy])
  · intro i hi
    have hne_next : ∀ i ∉ indices y, some i ≠ (symbols right).next := fun i hi heq =>
      hi (mem_of_mem_head? (heq.trans hnext).symm)
    simp only [indices_append, indices_cons, mem_append, mem_cons, not_or] at hi
    obtain ⟨hx, hleft, hy⟩ := hi
    by_cases hright : i = right
    · subst hright
      exact unlink_right_n (hne_next i hy)
    · rw [unlink_of_ne hleft hright (hne_next i hy)]
      exact h.dead i (by simp [hx, hleft, hright, hy])

end Chained

/-! ## What is in the queue -/

variable {K : Type}

/-- The neighbours that may be merged have entries, except for those whose right one is missing, and
an entry whose cells are both there is one of neighbours, the right one of which may have become
longer. -/
structure Queued (key : List UInt8 → List UInt8 → Option K) (cells : List Cell)
    (missing : ℕ → Prop) (queue : List (Bigram K)) : Prop where
  complete {i j : ℕ} {a b : List UInt8} {k : K} (hp : [(i, a), (j, b)] <:+: cells)
    (hj : ¬missing j) (hk : key a b = some k) : ⟨i, j, a ++ b, k, (a ++ b).length⟩ ∈ queue
  sound {bigram : Bigram K} (hb : bigram ∈ queue) : ∃ a b, bigram.text = a ++ b ∧
    bigram.size = (a ++ b).length ∧ key a b = some bigram.key ∧
      (bigram.left ∈ indices cells → bigram.right ∈ indices cells →
        ∃ b', [(bigram.left, a), (bigram.right, b ++ b')] <:+: cells)

/-- What a session must look up: the keys of the pairs, of texts that its assertions hold of. -/
structure Session.Lawful (S : Session K) (P : List UInt8 → Prop)
    (key : List UInt8 → List UInt8 → Option K) : Prop where
  append {a b : List UInt8} (ha : P a) (hb : P b) : P (a ++ b)
  candidate {word a b : List UInt8} {left right : Symbol} (h : Reads word left right a b)
    (ha : P a) (hb : P b) :
    S.candidate word left right = some ((key a b).map fun k => (a ++ b, k))
  isOutdated {word a b b' : List UInt8} {left right : Symbol} {bigram : Bigram K}
    (h : Reads word left right a (b ++ b')) (htext : bigram.text = a ++ b)
    (hsize : bigram.size = (a ++ b).length) :
    S.isOutdated word left right bigram ↔ b' ≠ []

section Queued

variable {S : Session K} {P : List UInt8 → Prop} {key : List UInt8 → List UInt8 → Option K}
  {word a b : List UInt8} {symbols : ℕ → Symbol} {cells x y : List Cell}
  {missing missing' : ℕ → Prop} {queue queue' : List (Bigram K)} {i j left right : ℕ}
  {bigram : Bigram K}

/-- With a new entry the pair is no longer missing. -/
theorem Queued.add (h : Queued key cells missing queue) (hchain : Chained word symbols cells)
    (hp : [(i, a), (j, b)] <:+: cells) {k : K} (hk : key a b = some k) :
    Queued key cells (fun j' => missing j' ∧ j' ≠ j)
      (⟨i, j, a ++ b, k, (a ++ b).length⟩ :: queue) where
  complete {i' j' a' b' k'} hp' hj' hk' := by
    by_cases heq : j' = j
    · subst heq
      obtain ⟨rfl, rfl, rfl⟩ := hchain.unique hp hp'
      obtain rfl := some.inj (hk.symm.trans hk')
      exact mem_cons_self
    · exact mem_cons_of_mem _ (h.complete hp' (fun hm => hj' ⟨hm, heq⟩) hk')
  sound hb := by
    rcases mem_cons.mp hb with rfl | hb
    · exact ⟨a, b, rfl, rfl, hk, fun _ _ => ⟨[], by rw [append_nil]; exact hp⟩⟩
    · exact h.sound hb

theorem Queued.mono (h : Queued key cells missing queue)
    (hmissing : ∀ i a j b, [(i, a), (j, b)] <:+: cells → (key a b).isSome → missing j →
      missing' j) : Queued key cells missing' queue where
  complete {i j a b k} hp hj hk :=
    h.complete hp (fun hm => hj (hmissing i a j b hp (by rw [hk]; rfl) hm)) hk
  sound := h.sound

theorem Session.Lawful.addBigram (hS : S.Lawful P key) (hchain : Chained word symbols cells)
    (hP : ∀ c ∈ cells, P c.2) (h : Queued key cells missing queue)
    (hp : [(i, a), (j, b)] <:+: cells) :
    ∃ queue', S.addBigram word (some i) (some j) ⟨symbols, queue⟩ = some ⟨symbols, queue'⟩ ∧
      Queued key cells (fun j' => missing j' ∧ j' ≠ j) queue' ∧
      queue'.length ≤ queue.length + 1 := by
  have hcandidate := hS.candidate (hchain.reads hp).1 (hP (i, a) (mem_of_pair hp).1)
    (hP (j, b) (mem_of_pair hp).2)
  cases hk : key a b with
  | none =>
    refine ⟨queue, ?_, h.mono ?_, le_succ _⟩
    · simp only [Session.addBigram, hcandidate, hk]
      rfl
    · intro i' a' j' b' hp' hsome hm
      refine ⟨hm, ?_⟩
      rintro rfl
      obtain ⟨rfl, rfl, rfl⟩ := hchain.unique hp hp'
      rw [hk] at hsome
      cases hsome
  | some k =>
    refine ⟨⟨i, j, a ++ b, k, (a ++ b).length⟩ :: queue, ?_, h.add hchain hp hk, le_rfl⟩
    simp only [Session.addBigram, hcandidate, hk]
    rfl

/-- The pair of a symbol and the one before it. -/
theorem Session.Lawful.addPrev (hS : S.Lawful P key) (hchain : Chained word symbols cells)
    (hP : ∀ c ∈ cells, P c.2) (h : Queued key cells missing queue) (hj : j ∈ indices cells) :
    ∃ queue', S.addBigram word (symbols j).prev (some j) ⟨symbols, queue⟩ = some ⟨symbols, queue'⟩ ∧
      Queued key cells (fun j' => missing j' ∧ j' ≠ j) queue' ∧
      queue'.length ≤ queue.length + 1 := by
  cases hprev : (symbols j).prev with
  | none =>
    refine ⟨queue, rfl, h.mono ?_, le_succ _⟩
    rintro i a j' b hp - hm
    refine ⟨hm, ?_⟩
    rintro rfl
    rw [(hchain.reads hp).2.2] at hprev
    cases hprev
  | some i =>
    obtain ⟨a, b, hp⟩ := hchain.of_prev hj hprev
    exact hS.addBigram hchain hP h hp

/-- The pair of a symbol and the one after it. -/
theorem Session.Lawful.addNext (hS : S.Lawful P key) (hchain : Chained word symbols cells)
    (hP : ∀ c ∈ cells, P c.2) (h : Queued key cells missing queue) (hi : i ∈ indices cells) :
    ∃ queue', S.addBigram word (some i) (symbols i).next ⟨symbols, queue⟩ = some ⟨symbols, queue'⟩ ∧
      Queued key cells (fun j => missing j ∧ (symbols i).next ≠ some j) queue' ∧
      queue'.length ≤ queue.length + 1 := by
  cases hnext : (symbols i).next with
  | none =>
    exact ⟨queue, rfl, h.mono fun _ _ _ _ _ _ hm => ⟨hm, (some_ne_none _).symm⟩,
      le_succ _⟩
  | some j =>
    obtain ⟨a, b, hp⟩ := hchain.of_next hi hnext
    obtain ⟨queue', hadd, hqueue, hlen⟩ := hS.addBigram hchain hP h hp
    refine ⟨queue', hadd, hqueue.mono ?_, hlen⟩
    rintro _ _ j' _ _ _ ⟨hm, hne⟩
    exact ⟨hm, fun heq => hne (some.inj heq).symm⟩

/-- The entry for two neighbours comes out, and they are merged: the pairs with the merged one are
missing. -/
theorem Queued.unlink
    (h : Queued key (x ++ (left, a) :: (right, b) :: y) (fun _ => False) (bigram :: queue))
    (hleft : bigram.left = left)
    (hnodup : (indices (x ++ (left, a) :: (right, b) :: y)).Nodup) :
    Queued key (x ++ (left, a ++ b) :: y) (fun j => j = left ∨ (indices y).head? = some j)
      queue := by
  simp only [indices_append, indices_cons, nodup_append, nodup_cons, mem_cons,
    not_or] at hnodup
  obtain ⟨-, ⟨⟨hne, hlefty⟩, hrighty, -⟩, hx⟩ := hnodup
  have hright : right ∉ indices (x ++ (left, a ++ b) :: y) := by
    simp only [indices_append, indices_cons, mem_append, mem_cons, not_or]
    exact ⟨fun hmem => hx right hmem right (.inr (.inl rfl)) rfl, Ne.symm hne, hrighty⟩
  constructor
  · intro i j c d k hp hj hk
    have hold : [(i, c), (j, d)] <:+: x ∨ [(i, c), (j, d)] <:+: y := by
      rcases pair_infix_append_cons.mp hp with hp | ⟨-, heq⟩ | ⟨-, hhead⟩ | hp
      · exact .inl hp
      · exact absurd (.inl (congrArg Prod.fst heq)) hj
      · exact absurd (.inr (by rw [indices, head?_map, hhead]; rfl)) hj
      · exact .inr hp
    have hne : i ≠ left := by
      rintro rfl
      rcases hold with hp | hp
      · exact hx i (mem_indices_of_pair hp) i (.inl rfl) rfl
      · exact hlefty (mem_indices_of_pair hp)
    have hp' : [(i, c), (j, d)] <:+: x ++ (left, a) :: (right, b) :: y := by
      rcases hold with hp | hp
      · exact hp.trans (infix_append' [] x _)
      · exact hp.trans ⟨x ++ [(left, a), (right, b)], [], by simp⟩
    rcases mem_cons.mp (h.complete hp' id hk) with heq | hmem
    · exact absurd ((congrArg Bigram.left heq).trans hleft) hne
    · exact hmem
  · intro entry hentry
    obtain ⟨c, d, htext, hsize, hk, hadjacent⟩ := h.sound (mem_cons_of_mem _ hentry)
    refine ⟨c, d, htext, hsize, hk, fun hl hr => ?_⟩
    have hold : ∀ i ∈ indices (x ++ (left, a ++ b) :: y),
        i ∈ indices (x ++ (left, a) :: (right, b) :: y) := by
      intro i hi
      simp only [indices_append, indices_cons, mem_append, mem_cons] at hi ⊢
      tauto
    obtain ⟨d', hp⟩ := hadjacent (hold _ hl) (hold _ hr)
    rcases pair_infix_append_cons.mp hp with hp | ⟨hlast, heq⟩ | ⟨-, hhead⟩ | hp
    · exact ⟨d', pair_infix_append_cons.mpr (.inl hp)⟩
    · refine ⟨d' ++ b, pair_infix_append_cons.mpr (.inr (.inl ⟨hlast, ?_⟩))⟩
      rw [← append_assoc, (Prod.mk.inj heq).2, (Prod.mk.inj heq).1]
    · cases hhead
      exact absurd hr hright
    · rcases pair_infix_append_cons (x := []).mp hp with hp | ⟨hlast, -⟩ | ⟨heq, -⟩ | hp
      · exact absurd (mem_of_pair hp).1 not_mem_nil
      · cases hlast
      · exact absurd ((Prod.mk.inj heq).1 ▸ hl) hright
      · exact ⟨d', pair_infix_append_cons.mpr (.inr (.inr (.inr hp)))⟩

end Queued

/-! ## The loop -/

/-- What holds between two rounds. -/
structure Merging (key : List UInt8 → List UInt8 → Option K) (P : List UInt8 → Prop)
    (word : List UInt8) (s : State K) (cells : List Cell) : Prop where
  chained : Chained word s.symbols cells
  holds : ∀ c ∈ cells, P c.2
  queued : Queued key cells (fun _ => False) s.workQueue

section Loop

variable {S : Session K} {P : List UInt8 → Prop}
  {key : List UInt8 → List UInt8 → Option K} {word a b : List UInt8} {symbols : ℕ → Symbol}
  {cells x y : List Cell} {queue : List (Bigram K)} {left right : ℕ} {bigram : Bigram K}
  {s : State K}

/-- An entry that is outdated may be forgotten. -/
theorem Merging.skip (h : Merging key P word ⟨symbols, bigram :: queue⟩ cells) (hS : S.Lawful P key)
    (hskip : (symbols bigram.left).n = 0 ∨ (symbols bigram.right).n = 0 ∨
      S.isOutdated word (symbols bigram.left) (symbols bigram.right) bigram) :
    Merging key P word ⟨symbols, queue⟩ cells where
  chained := h.chained
  holds := h.holds
  queued := {
    complete := fun {i j a b k} hp hj hk => by
      rcases mem_cons.mp (h.queued.complete hp hj hk) with rfl | hmem
      · have hreads := (h.chained.reads hp).1
        rw [← append_nil b] at hreads
        have hout : S.isOutdated word (symbols i) (symbols j)
            ⟨i, j, a ++ b, k, (a ++ b).length⟩ ↔ ([] : List UInt8) ≠ [] :=
          hS.isOutdated hreads rfl rfl
        rcases hskip with hn | hn | hn
        · exact absurd hn (h.chained.n_ne_zero_iff.mpr (mem_indices_of_pair hp))
        · exact absurd hn (h.chained.n_ne_zero_iff.mpr
            (mem_map_of_mem (f := Prod.fst) (mem_of_pair hp).2))
        · exact absurd rfl (hout.mp hn)
      · exact hmem
    sound := fun hb => h.queued.sound (mem_cons_of_mem _ hb) }

/-- An entry that is not outdated is for neighbours. -/
theorem Merging.exists_pair (h : Merging key P word ⟨symbols, bigram :: queue⟩ cells)
    (hS : S.Lawful P key) (hl : (symbols bigram.left).n ≠ 0) (hr : (symbols bigram.right).n ≠ 0)
    (hout : ¬S.isOutdated word (symbols bigram.left) (symbols bigram.right) bigram) :
    ∃ a b, key a b = some bigram.key ∧ [(bigram.left, a), (bigram.right, b)] <:+: cells := by
  obtain ⟨a, b, htext, hsize, hk, hadjacent⟩ := h.queued.sound mem_cons_self
  obtain ⟨b', hp⟩ := hadjacent (h.chained.n_ne_zero_iff.mp hl) (h.chained.n_ne_zero_iff.mp hr)
  have hiff := hS.isOutdated (h.chained.reads hp).1 htext hsize
  obtain rfl : b' = [] := by_contra fun hne => hout (hiff.mpr hne)
  rw [append_nil] at hp
  exact ⟨a, b, hk, hp⟩

theorem Merging.substitute (h : Merging key P word ⟨symbols, bigram :: queue⟩
      (x ++ (bigram.left, a) :: (bigram.right, b) :: y)) (hS : S.Lawful P key) :
    ∃ s, ((S.addBigram word (Session.unlink symbols bigram.left bigram.right bigram.left).prev
        (some bigram.left) ⟨Session.unlink symbols bigram.left bigram.right, queue⟩).bind fun s =>
          S.addBigram word (some bigram.left) (s.symbols bigram.left).next s) = some s ∧
      Merging key P word s (x ++ (bigram.left, a ++ b) :: y) ∧
      s.workQueue.length ≤ queue.length + 2 := by
  have hchain := h.chained.unlink
  have hmem : bigram.left ∈ indices (x ++ (bigram.left, a ++ b) :: y) := by simp
  have hholds : ∀ c ∈ x ++ (bigram.left, a ++ b) :: y, P c.2 := by
    intro c hc
    rcases mem_append.mp hc with hx | hc
    · exact h.holds c (mem_append_left _ hx)
    · rcases mem_cons.mp hc with rfl | hy
      · exact hS.append (h.holds (bigram.left, a) (by simp)) (h.holds (bigram.right, b) (by simp))
      · exact h.holds c (by simp [hy])
  have hqueue := h.queued.unlink rfl (h.chained.sorted.imp fun h => h.ne)
  obtain ⟨queue₁, hadd₁, hqueue₁, hlen₁⟩ := hS.addPrev hchain hholds hqueue hmem
  obtain ⟨queue₂, hadd₂, hqueue₂, hlen₂⟩ := hS.addNext hchain hholds hqueue₁ hmem
  refine ⟨⟨_, queue₂⟩, bind_eq_some_iff.mpr ⟨_, hadd₁, hadd₂⟩, ⟨hchain, hholds, ?_⟩,
    hlen₂.trans (succ_le_succ hlen₁)⟩
  refine hqueue₂.mono ?_
  rintro i c j d hp - ⟨⟨hj | hj, hne⟩, hnext⟩
  · exact hne hj
  · refine hnext ?_
    rw [hchain.linked.sym]
    exact hj

variable [LinearOrder K]

/-- The texts of the cells when neighbours are merged greedily. -/
def merged (key : List UInt8 → List UInt8 → Option K) (cells : List Cell) : List (List UInt8) :=
  greedy key (· ++ ·) (cells.map Prod.snd)

/-- The entry that comes first is for the leftmost neighbours of the least key. -/
theorem Queued.merged_eq
    (h : Queued key (x ++ (left, a) :: (right, b) :: y) (fun _ => False) (bigram :: queue))
    (hsorted : (indices (x ++ (left, a) :: (right, b) :: y)).Pairwise (· < ·))
    (hfirst : ∀ c ∈ queue, ¬bigram.After c) (hleft : bigram.left = left)
    (hk : key a b = some bigram.key) :
    merged key (x ++ (left, a) :: (right, b) :: y) = merged key (x ++ (left, a ++ b) :: y) := by
  rw [merged, merged, map_append, map_append]
  refine greedy_of_least hk fun x' a' b' y' k' hsplit hk' => ?_
  rw [length_map]
  have hmap : (x ++ (left, a) :: (right, b) :: y).map Prod.snd = x' ++ a' :: b' :: y' := by
    rw [map_append]
    exact hsplit
  obtain ⟨x'', rest, hcells, rfl, hrest⟩ := map_eq_append_iff.mp hmap
  obtain ⟨⟨i, c⟩, rest', rfl, hc, hrest'⟩ := map_eq_cons_iff.mp hrest
  obtain ⟨⟨j, d⟩, y'', rfl, hd, rfl⟩ := map_eq_cons_iff.mp hrest'
  obtain rfl : c = a' := hc
  obtain rfl : d = b' := hd
  have hle : bigram.key < k' ∨ bigram.key = k' ∧ left ≤ i := by
    have hp : [(i, c), (j, d)] <:+: x ++ (left, a) :: (right, b) :: y :=
      ⟨x'', y'', by rw [hcells, append_assoc]; rfl⟩
    rcases mem_cons.mp (h.complete hp id hk') with heq | hmem
    · exact .inr ⟨(congrArg Bigram.key heq).symm, hleft ▸ (congrArg Bigram.left heq).ge⟩
    · have hafter := hfirst _ hmem
      rw [Bigram.After, not_or, not_and] at hafter
      rcases (not_lt.mp hafter.1).lt_or_eq with hlt | heq
      · exact .inl hlt
      · exact .inr ⟨heq, hleft ▸ not_lt.mp (hafter.2 heq)⟩
  refine hle.imp_right fun hboth => ⟨hboth.1, ?_⟩
  obtain ⟨-, hij⟩ := hboth
  -- An earlier cell has a lesser index.
  rw [length_map]
  by_contra hlt
  rcases append_eq_append_iff.mp hcells with ⟨z, rfl, -⟩ | ⟨z, rfl, hz⟩
  · rw [length_append] at hlt
    omega
  · cases z with
    | nil => simp at hlt
    | cons c' z =>
      obtain ⟨rfl, -⟩ := cons.inj hz
      rw [indices_append, pairwise_append] at hsorted
      exact absurd (hsorted.2.2 i (by simp [indices]) left (by simp)) (not_lt.mpr hij)

/-- One round: the cells are merged greedily to the same texts, and there is less to do. -/
theorem Merging.round (h : Merging key P word ⟨symbols, bigram :: queue⟩ cells)
    (hS : S.Lawful P key) (hfirst : ∀ c ∈ queue, ¬bigram.After c) :
    ∃ s cells', S.round word bigram ⟨symbols, queue⟩ = some s ∧ Merging key P word s cells' ∧
      merged key cells' = merged key cells ∧ (indices cells').Sublist (indices cells) ∧
      (indices cells').head? = (indices cells).head? ∧
      s.workQueue.length + 3 * cells'.length < queue.length + 1 + 3 * cells.length := by
  rw [Session.round]
  dsimp only
  split_ifs with hskip
  · exact ⟨_, cells, rfl, h.skip hS hskip, rfl, List.Sublist.refl _, rfl,
      Nat.add_lt_add_right (Nat.lt_succ_self _) _⟩
  · rw [not_or, not_or] at hskip
    obtain ⟨hl, hr, hout⟩ := hskip
    obtain ⟨a, b, hk, x, y, rfl⟩ := h.exists_pair hS hl hr hout
    have hcells : x ++ [(bigram.left, a), (bigram.right, b)] ++ y =
        x ++ (bigram.left, a) :: (bigram.right, b) :: y := by simp
    rw [hcells] at h ⊢
    obtain ⟨s, hround, hmerging, hlen⟩ := h.substitute hS
    refine ⟨s, _, hround, hmerging,
      (h.queued.merged_eq h.chained.sorted hfirst rfl hk).symm, ?_, ?_, ?_⟩
    · simp
    · cases x <;> rfl
    · simp only [length_append, length_cons]
      omega

variable {Q : PriorityQueue (Bigram.After (K := K))} {s : State K}

theorem Merging.of_pop (h : Merging key P word s cells)
    (hpop : Q.pop s.workQueue = some (bigram, queue)) :
    Merging key P word ⟨s.symbols, bigram :: queue⟩ cells where
  chained := h.chained
  holds := h.holds
  queued := {
    complete := fun hp hj hk => (Q.perm_of_pop hpop).subset (h.queued.complete hp hj hk)
    sound := fun hb => h.queued.sound ((Q.perm_of_pop hpop).symm.subset hb) }

/-- With an empty queue no neighbours are left to merge. -/
theorem Merging.merged_eq (h : Merging key P word s cells) (hnil : s.workQueue = []) :
    merged key cells = cells.map Prod.snd := by
  refine greedy_of_none fun x a b y hsplit => ?_
  obtain ⟨x', rest, rfl, rfl, hrest⟩ := map_eq_append_iff.mp hsplit
  obtain ⟨⟨i, c⟩, rest', rfl, hc, hrest'⟩ := map_eq_cons_iff.mp hrest
  obtain ⟨⟨j, d⟩, y', rfl, hd, rfl⟩ := map_eq_cons_iff.mp hrest'
  obtain rfl : c = a := hc
  obtain rfl : d = b := hd
  cases hk : key c d with
  | none => rfl
  | some k =>
    have hmem := h.queued.complete (i := i) (j := j) ⟨x', y', by simp⟩ id hk
    rw [hnil] at hmem
    exact absurd hmem not_mem_nil

/-- The loop ends with the cells that greedy merging gives. -/
theorem Merging.merges (h : Merging key P word s cells) (hS : S.Lawful P key) (fuel : ℕ)
    (hfuel : s.workQueue.length + 3 * cells.length < fuel) :
    ∃ s' cells', S.merges word Q fuel s = some s' ∧ Chained word s'.symbols cells' ∧
      cells'.map Prod.snd = merged key cells ∧ (indices cells').Sublist (indices cells) ∧
      (indices cells').head? = (indices cells).head? := by
  induction fuel generalizing s cells with
  | zero => exact absurd hfuel (not_lt_zero _)
  | succ fuel ih =>
    rw [Session.merges]
    cases hpop : Q.pop s.workQueue with
    | none =>
      have hnil : s.workQueue = [] := by
        by_contra hne
        obtain ⟨b, rest, hsome⟩ := Q.exists_pop _ hne
        rw [hpop] at hsome
        cases hsome
      exact ⟨s, cells, rfl, h.chained, (h.merged_eq hnil).symm, List.Sublist.refl _, rfl⟩
    | some p =>
      obtain ⟨bigram, queue⟩ := p
      obtain ⟨s₁, cells₁, hround, h₁, hmerged, hsub, hhead, hlt⟩ :=
        (h.of_pop hpop).round hS (Q.not_after_of_pop hpop)
      have hlen := (Q.perm_of_pop hpop).length_eq
      rw [length_cons] at hlen
      obtain ⟨s', cells', hrun, hchain, htexts, hsub', hhead'⟩ := ih h₁ (by omega)
      refine ⟨s', cells', ?_, hchain, htexts.trans hmerged, hsub'.trans hsub, hhead'.trans hhead⟩
      dsimp only
      rw [hround]
      exact hrun

end Loop

/-! ## The initial symbols -/

/-- The cells of the pieces, from an index on. -/
def cellsFrom (index : ℕ) : List (List UInt8) → List Cell
  | [] => []
  | piece :: pieces => (index, piece) :: cellsFrom (index + 1) pieces

section Initial

variable (index : ℕ) {offset i : ℕ} {pieces : List (List UInt8)} {symbols : ℕ → Symbol}

theorem map_snd_cellsFrom : (cellsFrom index pieces).map Prod.snd = pieces := by
  induction pieces generalizing index with
  | nil => rfl
  | cons piece pieces ih => exact congrArg (piece :: ·) (ih _)

theorem indices_cellsFrom : indices (cellsFrom index pieces) = List.range' index pieces.length := by
  induction pieces generalizing index with
  | nil => rfl
  | cons piece pieces ih => exact congrArg (index :: ·) (ih _)

theorem mem_of_mem_cellsFrom {c : Cell} (hc : c ∈ cellsFrom index pieces) : c.2 ∈ pieces := by
  have hmem : c.2 ∈ (cellsFrom index pieces).map Prod.snd := mem_map_of_mem hc
  rwa [map_snd_cellsFrom] at hmem

theorem length_symbolsFrom : (Session.symbolsFrom index offset pieces).length = pieces.length := by
  induction pieces generalizing index offset with
  | nil => rfl
  | cons piece pieces ih => exact congrArg (· + 1) (ih _)

theorem linked_symbolsFrom (h : ∀ k sym, (Session.symbolsFrom index offset pieces)[k]? = some sym →
      symbols (index + k) = sym) :
    Linked symbols (if index = 0 then none else some (index - 1)) offset
      (cellsFrom index pieces) := by
  induction pieces generalizing index offset with
  | nil => exact .nil
  | cons piece pieces ih =>
    refine .cons ((h 0 _ rfl).trans ?_) ?_
    · cases pieces <;> rfl
    · refine ih (index + 1) fun k sym hk => ?_
      rw [add_assoc, add_comm 1]
      exact h (k + 1) sym hk

/-- The symbols that a word begins with. -/
def initialSymbols (pieces : List (List UInt8)) (i : ℕ) : Symbol :=
  (Session.symbolsFrom 0 0 pieces).getD i ⟨none, none, 0, 0⟩

theorem chained_initialSymbols (hpieces : ∀ p ∈ pieces, p ≠ []) :
    Chained pieces.flatten (initialSymbols pieces) (cellsFrom 0 pieces) where
  linked := linked_symbolsFrom 0 fun k sym hk => by
    rw [initialSymbols, zero_add, getD_eq_getElem?_getD, hk]
    rfl
  sorted := by
    rw [indices_cellsFrom]
    exact pairwise_lt_range'
  text := by rw [textOf, map_snd_cellsFrom]
  ne_nil c hc := by
    refine hpieces c.2 ?_
    exact mem_of_mem_cellsFrom 0 hc
  dead i hi := by
    rw [indices_cellsFrom, mem_range'_1] at hi
    rw [initialSymbols, getD_eq_getElem?_getD, getElem?_eq_none]
    · rfl
    · rw [length_symbolsFrom]
      omega

variable {S : Session K} {P : List UInt8 → Prop} {key : List UInt8 → List UInt8 → Option K}
  {word : List UInt8} {cells : List Cell} {missing : ℕ → Prop} {queue : List (Bigram K)}

/-- Entries are made for the pairs of some symbols, each with the one before it. -/
theorem Session.Lawful.seed (hS : S.Lawful P key) (hchain : Chained word symbols cells)
    (hP : ∀ c ∈ cells, P c.2) {is : List ℕ}
    (his : ∀ i ∈ is, i ∈ indices cells ∧ (symbols i).prev = some (i - 1))
    (h : Queued key cells missing queue) :
    ∃ queue', is.foldlM (fun s i => S.addBigram word (some (i - 1)) (some i) s)
        (⟨symbols, queue⟩ : State K) = some ⟨symbols, queue'⟩ ∧
      Queued key cells (fun j => missing j ∧ j ∉ is) queue' ∧
      queue'.length ≤ queue.length + is.length := by
  induction is generalizing missing queue with
  | nil => exact ⟨queue, rfl, h.mono fun _ _ _ _ _ _ hm => ⟨hm, not_mem_nil⟩, le_rfl⟩
  | cons i is ih =>
    obtain ⟨hi, hprev⟩ := his i mem_cons_self
    obtain ⟨queue₁, hadd, hqueue₁, hlen₁⟩ := hS.addPrev hchain hP h hi
    obtain ⟨queue', hrest, hqueue, hlen⟩ :=
      ih (fun j hj => his j (mem_cons_of_mem _ hj)) hqueue₁
    rw [hprev] at hadd
    refine ⟨queue', ?_, hqueue.mono ?_, ?_⟩
    · rw [foldlM_cons]
      exact bind_eq_some_iff.mpr ⟨_, hadd, hrest⟩
    · rintro _ _ j _ _ _ ⟨⟨hm, hne⟩, hnot⟩
      exact ⟨hm, fun hj => (mem_cons.mp hj).elim hne hnot⟩
    · rw [length_cons]
      omega

theorem prev_symbolsFrom {k : ℕ} {sym : Symbol}
    (h : (Session.symbolsFrom index offset pieces)[k]? = some sym) :
    sym.prev = if index + k = 0 then none else some (index + k - 1) := by
  induction pieces generalizing index offset k with
  | nil => cases h
  | cons piece pieces ih =>
    cases k with
    | zero =>
      cases h
      rfl
    | succ k =>
      rw [ih (index + 1) h, add_assoc, add_comm 1]

theorem prev_initialSymbols (h0 : i ≠ 0) (hi : i < pieces.length) :
    (initialSymbols pieces i).prev = some (i - 1) := by
  have hlen : i < (Session.symbolsFrom 0 0 pieces).length := by rwa [length_symbolsFrom]
  rw [initialSymbols, getD_eq_getElem?_getD, getElem?_eq_getElem hlen, getD_some,
    prev_symbolsFrom 0 (getElem?_eq_getElem hlen), zero_add, if_neg h0]

/-- The session ends with the cells that greedy merging gives. -/
theorem Session.Lawful.symbolsOf [LinearOrder K] {Q : PriorityQueue (Bigram.After (K := K))}
    (hS : S.Lawful P key) (hne : pieces ≠ []) (hpieces : ∀ p ∈ pieces, p ≠ [])
    (hP : ∀ p ∈ pieces, P p) :
    ∃ symbols cells, S.symbolsOf Q pieces = some symbols ∧ Chained pieces.flatten symbols cells ∧
      cells.map Prod.snd = greedy key (· ++ ·) pieces ∧
      (indices cells).Sublist (List.range pieces.length) ∧ (indices cells).head? = some 0 := by
  have hpos := length_pos_of_ne_nil hne
  have hchain := chained_initialSymbols hpieces
  have hempty : Queued key (cellsFrom 0 pieces) (fun _ => True) ([] : List (Bigram K)) :=
    ⟨fun _ hj => absurd trivial hj, fun hb => absurd hb not_mem_nil⟩
  have his : ∀ i ∈ range' 1 (pieces.length - 1), i ∈ indices (cellsFrom 0 pieces) ∧
      (initialSymbols pieces i).prev = some (i - 1) := by
    intro i hi
    rw [mem_range'_1] at hi
    refine ⟨?_, prev_initialSymbols (by omega) (by omega)⟩
    rw [indices_cellsFrom, mem_range'_1]
    omega
  have hholds : ∀ c ∈ cellsFrom 0 pieces, P c.2 := fun c hc =>
    hP c.2 (mem_of_mem_cellsFrom 0 hc)
  obtain ⟨queue, hseed, hqueue, hlen⟩ := hS.seed hchain hholds his hempty
  have hmerging : Merging key P pieces.flatten ⟨initialSymbols pieces, queue⟩
      (cellsFrom 0 pieces) := by
    refine ⟨hchain, hholds, hqueue.mono ?_⟩
    rintro i a j b hp - ⟨-, hnot⟩
    refine hnot ?_
    have hj : j ∈ indices (cellsFrom 0 pieces) :=
      mem_map_of_mem (f := Prod.fst) (mem_of_pair hp).2
    have hj0 : j ≠ 0 := by
      rintro rfl
      have hlt := hchain.sorted.sublist (hp.sublist.map Prod.fst)
      simp at hlt
    rw [indices_cellsFrom, mem_range'_1] at hj
    rw [mem_range'_1]
    omega
  have hcount : (cellsFrom 0 pieces).length = pieces.length := by
    rw [← length_map Prod.snd, map_snd_cellsFrom]
  obtain ⟨s, cells, hmerges, hfinal, htexts, hsub, hhead⟩ :=
    hmerging.merges (Q := Q) hS (4 * pieces.length) (by
      rw [length_range', length_nil] at hlen
      dsimp only
      omega)
  refine ⟨s.symbols, cells, ?_, hfinal, ?_, ?_, ?_⟩
  · rw [Session.symbolsOf, Session.seed]
    refine bind_eq_some_iff.mpr ⟨_, hseed, ?_⟩
    rw [hmerges]
    rfl
  · rw [htexts, merged, map_snd_cellsFrom]
  · rw [indices_cellsFrom, ← range_eq_range'] at hsub
    exact hsub
  · rw [hhead, indices_cellsFrom, head?_range', if_neg hpos.ne']

end Initial

end ExpertPin.Tokenizer
