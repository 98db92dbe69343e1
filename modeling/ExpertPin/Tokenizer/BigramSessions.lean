import ExpertPin.Tokenizer.BigramsGreedy

/-!
# The two sessions

`chains_greedy`: what the session for ranked merges and the session for scored tokens end with is
what greedy merging gives.
-/

namespace ExpertPin.Tokenizer

open GreedyMerging
open List

/-! ## Reading the last chain -/

namespace Chained

variable {word t : List UInt8} {symbols : ℕ → Symbol} {cells : List Cell} {i n : ℕ}

theorem string (h : Chained word symbols cells) (hc : (i, t) ∈ cells) :
    (symbols i).string word = t := by
  obtain ⟨x, y, rfl⟩ := append_of_mem hc
  rw [h.linked.sym, Symbol.string, slice, ← h.text, textOf_append, textOf_cons, Nat.zero_add,
    drop_left, take_left]

theorem map_string (h : Chained word symbols cells) :
    ((indices cells).map symbols).map (Symbol.string word) = cells.map Prod.snd := by
  rw [indices, map_map, map_map]
  exact map_congr_left fun c hc => h.string hc

/-- The symbols with bytes are those of the chain. -/
theorem filter_range (h : Chained word symbols cells)
    (hsub : (indices cells).Sublist (List.range n)) :
    ((List.range n).map symbols).filter (fun sym => 0 < sym.n) =
      (indices cells).map symbols := by
  rw [filter_map]
  refine congrArg (map symbols) ?_
  refine List.Pairwise.eq_of_mem_iff (r := (· < ·))
    (List.Pairwise.filter _ pairwise_lt_range) h.sorted fun i => ?_
  rw [mem_filter, Function.comp_apply, decide_eq_true_eq, Nat.pos_iff_ne_zero, h.n_ne_zero_iff]
  exact ⟨And.right, fun hi => ⟨hsub.subset hi, hi⟩⟩

end Chained

/-- The links are followed along the cells. -/
theorem Linked.following {symbols : ℕ → Symbol} {prev : Option ℕ} {offset fuel : ℕ}
    {cells : List Cell} (h : Linked symbols prev offset cells) (hfuel : cells.length ≤ fuel) :
    SpmVocab.following symbols fuel (indices cells).head? = some ((indices cells).map symbols) := by
  induction h generalizing fuel with
  | nil => cases fuel <;> rfl
  | @cons prev offset i t cells sym rest ih =>
    cases fuel with
    | zero => exact absurd hfuel (Nat.not_succ_le_zero _)
    | succ fuel =>
      rw [indices_cons, head?_cons, SpmVocab.following, sym]
      dsimp only
      rw [ih (Nat.le_of_succ_le_succ hfuel), map_cons, sym]
      rfl

/-! ## What the sessions look up -/

variable {pieces : List (List UInt8)}

namespace BpeVocab

variable (V : BpeVocab)

/-- The rank of the merge of two texts. -/
def rank (left right : List UInt8) : Option ℤ := (V.bpeRanks left right).map fun r => (r : ℤ)

theorem session_lawful : V.session.Lawful (32 ∉ ·) V.rank where
  append ha hb hmem := (mem_append.mp hmem).elim ha hb
  candidate {word a b left right} h ha hb := by
    have hfind : V.findBpeRank a b = some ((V.rank a b).getD (-1)) := by
      rw [findBpeRank, if_neg (not_or.mpr ⟨ha, hb⟩), rank]
      cases V.bpeRanks a b <;> rfl
    dsimp only [session]
    rw [h.left_string, h.right_string, hfind, rank]
    cases hr : V.bpeRanks a b with
    | none => rfl
    | some r => exact congrArg some (if_neg (not_lt.mpr (Int.natCast_nonneg r)))
  isOutdated {word a b b' left right bigram} h htext hsize := by
    dsimp only [session]
    rw [h.left_string, h.right_string, htext, decide_eq_true_eq, ← append_assoc, ne_eq,
      append_right_eq_self]

variable {Q : PriorityQueue (Bigram.After (K := ℤ))}

theorem chain_eq_greedy (hne : pieces ≠ []) (hpieces : ∀ p ∈ pieces, p ≠ [])
    (hblank : ∀ p ∈ pieces, 32 ∉ p) :
    V.chain Q pieces = some (greedy V.rank (· ++ ·) pieces) := by
  obtain ⟨symbols, cells, hrun, hchain, htexts, hsub, -⟩ :=
    V.session_lawful.symbolsOf (Q := Q) hne hpieces hblank
  rw [chain, hrun, Option.map_some, hchain.filter_range hsub, hchain.map_string, htexts]

/-- A word of one piece is not looked at. -/
theorem chain_singleton {p : List UInt8} (hp : p ≠ []) : V.chain Q [p] = some [p] := by
  have hpos := length_pos_of_ne_nil hp
  simp [chain, Session.symbolsOf, Session.seed, Session.merges, Session.symbolsFrom, Q.pop_nil,
    Symbol.string, slice, hpos]

/-- A fold that returns has looked up each pair, and the symbols are the same. -/
theorem isSome_candidate {K : Type} {S : Session K} {word : List UInt8} {symbols : ℕ → Symbol}
    {workQueue : List (Bigram K)} {is : List ℕ} {s : State K}
    (h : is.foldlM (fun s i => S.addBigram word (some (i - 1)) (some i) s) ⟨symbols, workQueue⟩ =
      some s) {i : ℕ} (hi : i ∈ is) :
    (S.candidate word (symbols (i - 1)) (symbols i)).isSome := by
  induction is generalizing workQueue with
  | nil => exact absurd hi not_mem_nil
  | cons j is ih =>
    rw [foldlM_cons] at h
    obtain ⟨⟨symbols', workQueue'⟩, hadd, hrest⟩ := Option.bind_eq_some_iff.mp h
    obtain ⟨found, hfound, hs⟩ := Option.map_eq_some_iff.mp hadd
    obtain rfl : symbols = symbols' := by
      cases found with
      | none => exact congrArg State.symbols hs
      | some p => exact congrArg State.symbols hs
    rcases mem_cons.mp hi with rfl | hi
    · exact Option.isSome_iff_exists.mpr ⟨found, hfound⟩
    · exact ih hrest hi

/-- The assertions of the look-ups fail where one of several pieces has a blank. -/
theorem chain_eq_none (hpieces : ∀ p ∈ pieces, p ≠ []) (hlen : 2 ≤ pieces.length)
    {p : List UInt8} (hp : p ∈ pieces) (hblank : 32 ∈ p) : V.chain Q pieces = none := by
  have hchain := chained_initialSymbols hpieces
  have hmap : (cellsFrom 0 pieces).map Prod.snd = pieces := map_snd_cellsFrom 0
  obtain ⟨⟨k, _⟩, hk, rfl⟩ := mem_map.mp (hmap.symm ▸ hp)
  have hmem : ∀ i, i ∈ indices (cellsFrom 0 pieces) ↔ i < pieces.length := by
    intro i
    rw [indices_cellsFrom, ← range_eq_range', mem_range]
  have hlt := (hmem k).mp (mem_map_of_mem hk)
  -- The pair that the piece is in, as the left one if it is the first.
  obtain ⟨i, hi0, hi, hki⟩ : ∃ i, i ≠ 0 ∧ i < pieces.length ∧ (k = i - 1 ∨ k = i) := by
    rcases Nat.eq_zero_or_pos k with rfl | hpos
    · exact ⟨1, Nat.one_ne_zero, hlen, .inl rfl⟩
    · exact ⟨k, hpos.ne', hlt, .inr rfl⟩
  obtain ⟨a, b, hpair⟩ := hchain.of_prev ((hmem i).mpr hi) (prev_initialSymbols hi0 hi)
  have hreads := (hchain.reads hpair).1
  have hab : 32 ∈ a ∨ 32 ∈ b := by
    rw [← hchain.string hk] at hblank
    rcases hki with rfl | rfl
    · exact .inl (hreads.left_string ▸ hblank)
    · exact .inr (hreads.right_string ▸ hblank)
  have hnone : V.session.candidate pieces.flatten (initialSymbols pieces (i - 1))
      (initialSymbols pieces i) = none := by
    dsimp only [session]
    rw [hreads.left_string, hreads.right_string, findBpeRank, if_pos hab]
    rfl
  rw [chain, Session.symbolsOf]
  cases hseed : V.session.seed pieces.flatten 1 (pieces.length - 1) ⟨initialSymbols pieces, []⟩ with
  | none =>
    rw [show (fun i => (Session.symbolsFrom 0 0 pieces).getD i ⟨none, none, 0, 0⟩) =
      initialSymbols pieces from rfl, hseed]
    rfl
  | some s =>
    have hsome := isSome_candidate hseed (i := i) (by
      rw [mem_range'_1]
      omega)
    rw [hnone] at hsome
    cases hsome

end BpeVocab

namespace SpmVocab

variable (V : SpmVocab)

/-- The score of the token that is the concatenation of two texts. -/
def score (left right : List UInt8) : Option ℚᵒᵈ :=
  (V.tokens.find? fun t => t.1 = left ++ right).map fun t => OrderDual.toDual t.2

theorem session_lawful : V.session.Lawful (fun _ => True) V.score where
  append _ _ := trivial
  candidate {word a b left right} h _ _ := by
    dsimp only [session]
    rw [h.slice, textToToken, score, find?_eq_bind_findIdx?_getElem?]
    cases V.tokens.findIdx? fun t => t.1 = a ++ b with
    | none => rfl
    | some token => cases htoken : V.tokens[token]? <;> simp [htoken]
  isOutdated {word a b b' left right bigram} h htext hsize := by
    dsimp only [session]
    rw [h.left_n, h.right_n, hsize, decide_eq_true_eq, length_append, length_append,
      ← Nat.add_assoc, ne_eq, Nat.add_eq_left, length_eq_zero_iff]

variable {Q : PriorityQueue (Bigram.After (K := ℚᵒᵈ))}

theorem chain_eq_greedy (hne : pieces ≠ []) (hpieces : ∀ p ∈ pieces, p ≠ []) :
    V.chain Q pieces = some (greedy V.score (· ++ ·) pieces) := by
  obtain ⟨symbols, cells, hrun, hchain, htexts, hsub, hhead⟩ :=
    V.session_lawful.symbolsOf (Q := Q) hne hpieces fun _ _ => trivial
  have hlen : cells.length ≤ pieces.length := by
    rw [← length_map Prod.fst, ← length_range (n := pieces.length)]
    exact hsub.length_le
  rw [chain, hrun, Option.bind_some, ← hhead, hchain.linked.following hlen, Option.map_some,
    hchain.map_string, htexts]

end SpmVocab

/-! ## The pieces of a word -/

/-- Pieces of a word, none of them empty. -/
def IsSplit (word : List UInt8) (pieces : List (List UInt8)) : Prop :=
  pieces.flatten = word ∧ ∀ p ∈ pieces, p ≠ []

theorem isSplit_characters (word : List UInt8) : IsSplit word (characters word) := by
  induction word using characters.induct with
  | case1 =>
    rw [characters]
    exact ⟨rfl, forall_mem_nil _⟩
  | case2 lead more n ih =>
    have hpos : 0 < n := Nat.lt_min.mpr ⟨Nat.succ_pos _, Utf8.charLength_pos lead⟩
    rw [characters]
    refine ⟨?_, fun p hp => ?_⟩
    · rw [flatten_cons, ih.1, take_append_drop]
    · rcases mem_cons.mp hp with rfl | hp
      · obtain ⟨m, hm⟩ := Nat.exists_eq_succ_of_ne_zero hpos.ne'
        dsimp only [n] at hm
        rw [hm]
        exact cons_ne_nil _ _
      · exact ih.2 p hp

theorem BpeVocab.isSplit_pieces (V : BpeVocab) {word : List UInt8} (hne : word ≠ []) :
    IsSplit word (V.pieces word) := by
  have hword : IsSplit word [word] :=
    ⟨flatten_singleton, fun p hp => mem_singleton.mp hp ▸ hne⟩
  rw [pieces]
  split
  · exact hword
  · split
    · exact hword
    · exact isSplit_characters word

variable {word : List UInt8} {pieces : List (List UInt8)}

theorem IsSplit.mergeAt (h : IsSplit word pieces) (i : ℕ) :
    IsSplit word (mergeAt (· ++ ·) i pieces) := by
  obtain ⟨rfl, hne⟩ := h
  fun_induction GreedyMerging.mergeAt (· ++ ·) i pieces with
  | case1 => simp_all [IsSplit]
  | case2 i a l ih => simp_all [IsSplit]
  | case3 => exact ⟨rfl, hne⟩

theorem IsSplit.greedy {key : List UInt8 → List UInt8 → Option ℤ} (h : IsSplit word pieces) :
    IsSplit word (greedy key (· ++ ·) pieces) := by
  rw [GreedyMerging.greedy]
  fun_induction greedyWithin key (· ++ ·) pieces.length pieces with
  | case1 | case2 => exact h
  | case3 n l k i _ ih => exact ih (h.mergeAt i)

/-- The session for ranked merges loses nothing of a word. -/
theorem BpeVocab.isSplit_chain (V : BpeVocab) {Q : PriorityQueue (Bigram.After (K := ℤ))}
    (hne : word ≠ []) (hblank : 32 ∉ word) :
    ∃ pieces, V.chain Q (V.pieces word) = some pieces ∧ IsSplit word pieces := by
  have hsplit := V.isSplit_pieces hne
  have hnil : V.pieces word ≠ [] := fun hnil => hne (by rw [← hsplit.1, hnil]; rfl)
  exact ⟨_, V.chain_eq_greedy hnil hsplit.2 fun p hp hmem =>
    hblank (hsplit.1 ▸ mem_flatten.mpr ⟨p, hp, hmem⟩), hsplit.greedy⟩

theorem BpeVocab.isSplit_chain_ab : ∃ V : BpeVocab, ∃ pieces,
    V.chain scanningQueue (V.pieces [97, 98]) = some pieces ∧ IsSplit [97, 98] pieces :=
  ⟨⟨fun _ _ => some 0, fun _ => none, false, false⟩, isSplit_chain _ (by decide) (by decide)⟩

/-! ## Both sessions -/

/-- The queues merge as merging the leftmost pair of the least rank, or of the highest score, does.
The session for ranked merges fails where there is a blank in a text that is looked up. -/
theorem chains_greedy (pieces : List (List UInt8)) (V : BpeVocab) (W : SpmVocab)
    (Q : PriorityQueue (Bigram.After (K := ℤ))) (R : PriorityQueue (Bigram.After (K := ℚᵒᵈ)))
    (hne : pieces ≠ []) (hpieces : ∀ p ∈ pieces, p ≠ []) :
    (V.chain Q pieces = if 2 ≤ pieces.length ∧ ∃ p ∈ pieces, 32 ∈ p then none
        else some (greedy V.rank (· ++ ·) pieces)) ∧
      W.chain R pieces = some (greedy W.score (· ++ ·) pieces) := by
  refine ⟨?_, W.chain_eq_greedy hne hpieces⟩
  split_ifs with hblank
  · obtain ⟨hlen, p, hp, hmem⟩ := hblank
    exact V.chain_eq_none hpieces hlen hp hmem
  · by_cases hlen : 2 ≤ pieces.length
    · exact V.chain_eq_greedy hne hpieces fun p hp hmem => hblank ⟨hlen, p, hp, hmem⟩
    · obtain ⟨p, rfl⟩ := length_eq_one_iff.mp
        (Nat.le_antisymm (Nat.lt_succ_iff.mp (not_le.mp hlen)) (length_pos_of_ne_nil hne))
      rw [V.chain_singleton (hpieces p (mem_singleton_self p))]
      rfl

/-- In `abab` the merge of `ab` comes before that of `ba`, and `aba` is the better token. -/
theorem chains_greedy_letters : (BpeVocab.chain
        ⟨fun l r => if (l, r) = ([97], [98]) then some 0 else if (l, r) = ([98], [97]) then some 1
          else none, fun _ => none, false, false⟩
        scanningQueue [[97], [98], [97], [98]] = some [[97, 98], [97, 98]]) ∧
      SpmVocab.chain ⟨[([98, 97], 1), ([97, 98, 97], 2), ([97, 98], 0)]⟩
        scanningQueue [[97], [98], [97], [98]] = some [[97, 98, 97], [98]] := by
  obtain ⟨hbpe, hspm⟩ := chains_greedy [[97], [98], [97], [98]]
    ⟨fun l r => if (l, r) = ([97], [98]) then some 0 else if (l, r) = ([98], [97]) then some 1
      else none, fun _ => none, false, false⟩
    ⟨[([98, 97], 1), ([97, 98, 97], 2), ([97, 98], 0)]⟩ scanningQueue scanningQueue
    (by decide) (by decide)
  exact ⟨hbpe.trans (by decide), hspm.trans (by decide)⟩

end ExpertPin.Tokenizer
