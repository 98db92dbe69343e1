import ExpertPin.Lib.Dict
import ExpertPin.Server.PromptCache

/-!
# Token lists as pieces

The tokens and the map of a list are two views of one sequence, of text tokens and of media.
`ServerTokens.Shows` says that they are views of the same one; what the list says about positions
is then what the sequence does (`Shows.posNext`, `Shows.sizeUpToPos`).
-/

namespace ExpertPin.Server

open ServerTokens (Failure)
open List

/-- A piece of a prompt. -/
inductive Piece
  | text (t : Token) (h : t ≠ .null)
  | media (c : Chunk) (hpos : 0 < c.nPos)

namespace Piece

def tokens : Piece → List Token
  | text t _ => [t]
  | media c _ => List.replicate c.nTokens .null

def nTokens (p : Piece) : ℕ := p.tokens.length

def nPos : Piece → ℕ
  | text _ _ => 1
  | media c _ => c.nPos

def chunk? : Piece → Option Chunk
  | text _ _ => none
  | media c _ => some c

@[simp] theorem nTokens_text (t : Token) (h : t ≠ .null) : (text t h).nTokens = 1 := rfl

@[simp] theorem nTokens_media (c : Chunk) (hpos : 0 < c.nPos) :
    (media c hpos).nTokens = c.nTokens :=
  length_replicate

theorem nTokens_pos (p : Piece) : 0 < p.nTokens := by
  cases p with
  | text => exact Nat.one_pos
  | media c hpos => exact (nTokens_media c hpos).symm ▸ c.nTokens_pos

theorem nPos_pos (p : Piece) : 0 < p.nPos := by
  cases p with
  | text => exact Nat.one_pos
  | media _ hpos => exact hpos

end Piece

/-! ## The views of a sequence -/

def tokensOf (pieces : List Piece) : List Token := pieces.flatMap Piece.tokens

def lengthOf (pieces : List Piece) : ℕ := (pieces.map Piece.nTokens).sum

def posOf (pieces : List Piece) : ℕ := (pieces.map Piece.nPos).sum

/-- The media, each with the index that it begins at. -/
def mediaFrom : ℕ → List Piece → List (ℕ × Chunk)
  | _, [] => []
  | idx, p :: pieces => p.chunk?.toList.map (idx, ·) ++ mediaFrom (idx + p.nTokens) pieces

variable {pieces a b c : List Piece} {p : Piece} {idx n : ℕ}

@[simp] theorem lengthOf_nil : lengthOf [] = 0 := rfl

@[simp] theorem lengthOf_cons : lengthOf (p :: a) = p.nTokens + lengthOf a := rfl

@[simp] theorem lengthOf_append : lengthOf (a ++ b) = lengthOf a + lengthOf b := by
  simp [lengthOf]

@[simp] theorem posOf_nil : posOf [] = 0 := rfl

@[simp] theorem posOf_cons : posOf (p :: a) = p.nPos + posOf a := rfl

@[simp] theorem posOf_append : posOf (a ++ b) = posOf a + posOf b := by
  simp [posOf]

@[simp] theorem tokensOf_nil : tokensOf [] = [] := rfl

@[simp] theorem tokensOf_cons : tokensOf (p :: a) = p.tokens ++ tokensOf a := rfl

@[simp] theorem tokensOf_append : tokensOf (a ++ b) = tokensOf a ++ tokensOf b :=
  flatMap_append

@[simp] theorem length_tokensOf (pieces : List Piece) :
    (tokensOf pieces).length = lengthOf pieces := by
  induction pieces with
  | nil => rfl
  | cons p pieces ih => rw [tokensOf_cons, length_append, ih, lengthOf_cons, Piece.nTokens]

theorem mediaFrom_append (idx : ℕ) (a b : List Piece) :
    mediaFrom idx (a ++ b) = mediaFrom idx a ++ mediaFrom (idx + lengthOf a) b := by
  induction a generalizing idx with
  | nil => rfl
  | cons p a ih =>
    rw [cons_append, mediaFrom, mediaFrom, ih, append_assoc, lengthOf_cons, Nat.add_assoc]

theorem mediaFrom_add (idx n : ℕ) (a : List Piece) :
    mediaFrom (idx + n) a = (mediaFrom idx a).map fun (i, chunk) => (i + n, chunk) := by
  induction a generalizing idx with
  | nil => rfl
  | cons p a ih =>
    rw [mediaFrom, mediaFrom, Nat.add_right_comm, ih, map_append, map_map]
    rfl

/-- A chunk of the map stands where the pieces before it end. -/
theorem mem_mediaFrom {chunk : Chunk} {i : ℕ} : (i, chunk) ∈ mediaFrom idx pieces ↔
      ∃ a hpos b, pieces = a ++ .media chunk hpos :: b ∧ i = idx + lengthOf a := by
  induction pieces generalizing idx with
  | nil =>
    refine iff_of_false not_mem_nil ?_
    rintro ⟨a, hpos, b, h, -⟩
    exact absurd h (by simp)
  | cons p pieces ih =>
    rw [mediaFrom, mem_append, ih]
    constructor
    · rintro (hhead | ⟨a, hpos, b, rfl, rfl⟩)
      · cases p with
        | text => exact absurd hhead (by simp [Piece.chunk?])
        | media c hpos =>
          obtain ⟨rfl, rfl⟩ : i = idx ∧ chunk = c := by simpa [Piece.chunk?] using hhead
          exact ⟨[], hpos, pieces, rfl, rfl⟩
      · exact ⟨p :: a, hpos, b, rfl, by rw [lengthOf_cons, Nat.add_assoc]⟩
    · rintro ⟨a, hpos, b, heq, rfl⟩
      cases a with
      | nil =>
        obtain ⟨rfl, rfl⟩ := cons.inj heq
        exact .inl (by simp [Piece.chunk?])
      | cons q a =>
        obtain ⟨rfl, rfl⟩ := cons.inj heq
        exact .inr ⟨a, hpos, b, rfl, by rw [lengthOf_cons, Nat.add_assoc]⟩

theorem le_of_mem_mediaFrom {q : ℕ × Chunk} (h : q ∈ mediaFrom idx pieces) : idx ≤ q.1 := by
  obtain ⟨a, -, b, -, hi⟩ := mem_mediaFrom.mp h
  omega

theorem end_le_of_mem_mediaFrom {q : ℕ × Chunk} (h : q ∈ mediaFrom idx pieces) :
    q.1 + q.2.nTokens ≤ idx + lengthOf pieces := by
  obtain ⟨a, hpos, b, rfl, hi⟩ := mem_mediaFrom.mp h
  rw [lengthOf_append, lengthOf_cons, Piece.nTokens_media]
  omega

/-- The chunks lie one behind the other. -/
theorem pairwise_mediaFrom (idx : ℕ) (pieces : List Piece) :
    (mediaFrom idx pieces).Pairwise fun q r => q.1 + q.2.nTokens ≤ r.1 := by
  induction pieces generalizing idx with
  | nil => exact .nil
  | cons p pieces ih =>
    rw [mediaFrom, pairwise_append]
    refine ⟨?_, ih _, fun q hq r hr => Nat.le_trans ?_ (le_of_mem_mediaFrom hr)⟩
    · cases p with
      | text => exact .nil
      | media => exact pairwise_singleton _ _
    · cases p with
      | text => exact absurd hq (by simp [Piece.chunk?])
      | media c hpos =>
        obtain rfl : q = (idx, c) := by simpa [Piece.chunk?] using hq
        rw [Piece.nTokens_media]

theorem nodup_mediaFrom (idx : ℕ) (pieces : List Piece) :
    ((mediaFrom idx pieces).map Prod.fst).Nodup := by
  rw [List.Nodup, pairwise_map]
  refine (pairwise_mediaFrom idx pieces).imp fun {q r} h heq => ?_
  have hpos := q.2.nTokens_pos
  omega

/-- An index is where a piece begins or the pieces end, or it is inside of media. -/
theorem split_or_inside (pieces : List Piece) (hn : n ≤ lengthOf pieces) :
    (∃ a b, pieces = a ++ b ∧ lengthOf a = n) ∨
      ∃ a chunk hpos b, pieces = a ++ .media chunk hpos :: b ∧ lengthOf a < n ∧
        n < lengthOf a + chunk.nTokens := by
  induction pieces generalizing n with
  | nil => exact .inl ⟨[], [], rfl, (Nat.le_zero.mp hn).symm⟩
  | cons p pieces ih =>
    rcases Nat.lt_or_ge n p.nTokens with hlt | hge
    · rcases Nat.eq_zero_or_pos n with rfl | hpos
      · exact .inl ⟨[], p :: pieces, rfl, rfl⟩
      · cases p with
        | text => exact absurd hlt (Nat.not_lt.mpr hpos)
        | media c h =>
          rw [Piece.nTokens_media] at hlt
          exact .inr ⟨[], c, h, pieces, rfl, hpos, by rwa [lengthOf_nil, Nat.zero_add]⟩
    · rw [lengthOf_cons] at hn
      rcases ih (n := n - p.nTokens) (by omega) with ⟨a, b, rfl, ha⟩ |
        ⟨a, c, hpos, b, rfl, hlo, hhi⟩
      · exact .inl ⟨p :: a, b, rfl, by rw [lengthOf_cons]; omega⟩
      · exact .inr ⟨p :: a, c, hpos, b, rfl, by rw [lengthOf_cons]; omega,
          by rw [lengthOf_cons]; omega⟩

/-! ## Lists that show a sequence -/

namespace ServerTokens

/-- The tokens and the map are views of one sequence. -/
structure Shows (T : ServerTokens) (pieces : List Piece) : Prop where
  tokens : T.tokens = tokensOf pieces
  media : T.media = mediaFrom 0 pieces
  media_of_hasMtmd : T.hasMtmd = false → T.media = []

namespace Shows

variable {T : ServerTokens}

theorem size (h : T.Shows pieces) : T.size = lengthOf pieces := by
  rw [ServerTokens.size, h.tokens, length_tokensOf]

theorem chunk? (h : T.Shows (a ++ p :: b)) : T.chunk? (lengthOf a) = p.chunk? := by
  rw [ServerTokens.chunk?, h.media]
  cases p with
  | media c hpos =>
    exact Dict.lookup_of_mem (nodup_mediaFrom _ _)
      (mem_mediaFrom.mpr ⟨a, hpos, b, rfl, (Nat.zero_add _).symm⟩)
  | text t ht =>
    refine Dict.lookup_eq_none fun hmem => ?_
    obtain ⟨q, hq, hidx⟩ := mem_map.mp hmem
    rw [mediaFrom_append, mediaFrom, mem_append] at hq
    have hpos := q.2.nTokens_pos
    rcases hq with hq | hq
    · have hle := end_le_of_mem_mediaFrom hq
      omega
    · have hle := le_of_mem_mediaFrom hq
      rw [Piece.nTokens_text] at hle
      omega

/-- One step of a walk over the pieces goes on by the tokens of a piece, and its positions. -/
theorem positions (h : T.Shows (a ++ (b ++ c))) :
    T.positions (lengthOf a + lengthOf b) (lengthOf a) = posOf b := by
  induction b generalizing a with
  | nil =>
    rw [ServerTokens.positions, lengthOf_nil, Nat.add_zero, if_neg (Nat.lt_irrefl _), posOf_nil]
  | cons p b ih =>
    have hlt : lengthOf a < lengthOf a + lengthOf (p :: b) := by
      have hpos := p.nTokens_pos
      rw [lengthOf_cons]
      omega
    have hnext := ih (a := a ++ [p]) (by rwa [append_assoc] at *)
    rw [lengthOf_append, lengthOf_cons, lengthOf_nil, Nat.add_zero, Nat.add_assoc,
      ← lengthOf_cons] at hnext
    rw [ServerTokens.positions, if_pos hlt, h.chunk?, posOf_cons]
    cases p with
    | text => exact congrArg (1 + ·) hnext
    | media c hpos =>
      rw [Piece.nTokens_media] at hnext
      exact congrArg (c.nPos + ·) hnext

theorem sizeUpToPosFrom (h : T.Shows (a ++ (b ++ c))) (hb : b ≠ []) :
    T.sizeUpToPosFrom (posOf a + posOf b) (lengthOf a) (posOf a) = lengthOf a + lengthOf b := by
  induction b generalizing a with
  | nil => exact absurd rfl hb
  | cons p b ih =>
    have hpos := p.nTokens_pos
    have hlt : lengthOf a < T.size := by
      rw [h.size, lengthOf_append, cons_append, lengthOf_cons]
      omega
    have hnext : ∀ {m n : ℕ}, p.nTokens = m → p.nPos = n →
        (if (posOf a : ℤ) + n ≥ posOf a + posOf (p :: b) then lengthOf a + m
        else T.sizeUpToPosFrom (posOf a + posOf (p :: b)) (lengthOf a + m) (posOf a + n)) =
          lengthOf a + lengthOf (p :: b) := by
      rintro _ _ rfl rfl
      rw [lengthOf_cons, posOf_cons]
      by_cases hnil : b = []
      case pos =>
        subst hnil
        rw [if_pos (by rw [posOf_nil]; omega), lengthOf_nil, Nat.add_zero]
      case neg =>
        have hposb : 0 < posOf b := by
          obtain ⟨q, b, rfl⟩ := exists_cons_of_ne_nil hnil
          have hq := q.nPos_pos
          rw [posOf_cons]
          omega
        have htail := ih (a := a ++ [p]) (by rwa [append_assoc] at *) hnil
        simp only [lengthOf_append, lengthOf_cons, lengthOf_nil, posOf_append, posOf_cons,
          posOf_nil, Nat.add_zero, Nat.cast_add] at htail
        rw [if_neg (by omega), Nat.cast_add, ← add_assoc, htail, Nat.add_assoc]
    rw [ServerTokens.sizeUpToPosFrom, if_pos hlt, h.chunk?]
    cases p with
    | text => exact hnext rfl rfl
    | media c hc => exact hnext (Piece.nTokens_media c hc) rfl

/-- Text only has a position for each token. -/
theorem posOf_eq_lengthOf (h : mediaFrom idx pieces = []) : posOf pieces = lengthOf pieces := by
  induction pieces generalizing idx with
  | nil => rfl
  | cons p pieces ih =>
    rw [mediaFrom, append_eq_nil_iff] at h
    rw [posOf_cons, lengthOf_cons, ih h.2]
    cases p with
    | text => rfl
    | media => exact absurd h.1 (cons_ne_nil _ _)

theorem posOf_of_hasMtmd (h : T.Shows (a ++ b)) (hm : T.hasMtmd = false) :
    posOf a = lengthOf a := by
  have hnil := h.media.symm.trans (h.media_of_hasMtmd hm)
  rw [mediaFrom_append, append_eq_nil_iff] at hnil
  exact posOf_eq_lengthOf hnil.1

theorem posNext (h : T.Shows (a ++ b)) : T.posNext (lengthOf a) = .ok (posOf a) := by
  have hnneg : ¬(lengthOf a : ℤ) < 0 := Int.not_lt.mpr (Int.natCast_nonneg _)
  rw [ServerTokens.posNext, if_neg hnneg, if_neg hnneg]
  split
  case isTrue hm => rw [h.posOf_of_hasMtmd (Bool.eq_false_iff.mpr hm)]
  case isFalse =>
    have hle : (lengthOf a : ℤ) ≤ T.size := by
      rw [h.size, lengthOf_append]
      omega
    have hpos := Shows.positions (a := []) (b := a) (c := b) h
    rw [lengthOf_nil, Nat.zero_add] at hpos
    rw [if_pos hle, Int.toNat_natCast, hpos]

theorem sum_mediaFrom (idx : ℕ) (pieces : List Piece) :
    ((mediaFrom idx pieces).map fun (_, c) => (c.nPos : ℤ) - c.nTokens).sum =
      (posOf pieces : ℤ) - lengthOf pieces := by
  induction pieces generalizing idx with
  | nil => rfl
  | cons p pieces ih =>
    rw [mediaFrom, map_append, sum_append, ih, posOf_cons, lengthOf_cons]
    cases p with
    | text t h =>
      simp only [Piece.chunk?, Piece.nPos, Piece.nTokens_text, Option.toList_none,
        map_nil, sum_nil]
      omega
    | media c h =>
      simp only [Piece.chunk?, Piece.nPos, Piece.nTokens_media, Option.toList_some,
        map_cons, map_nil, sum_cons, sum_nil]
      omega

/-- Asked for all positions. -/
theorem posNext_all (h : T.Shows pieces) {n : ℤ} (hn : n < 0) :
    T.posNext n = .ok (posOf pieces) := by
  rw [ServerTokens.posNext, if_pos hn, if_pos hn]
  split
  case isTrue hm =>
    have happend : T.Shows (pieces ++ []) := by rwa [append_nil]
    rw [h.size, happend.posOf_of_hasMtmd (Bool.eq_false_iff.mpr hm)]
  case isFalse =>
    rw [h.size, h.media, sum_mediaFrom]
    congr 1
    omega

theorem sizeUpToPos (h : T.Shows (a ++ b)) : T.sizeUpToPos (posOf a) = lengthOf a := by
  rw [ServerTokens.sizeUpToPos]
  split
  case isTrue hm =>
    rw [if_neg (Int.not_lt.mpr (Int.natCast_nonneg _)), Int.toNat_natCast, h.size, lengthOf_append,
      h.posOf_of_hasMtmd (Bool.eq_false_iff.mpr hm)]
    omega
  case isFalse =>
    by_cases hnil : a = []
    case pos =>
      subst hnil
      exact if_pos (Int.le_refl _)
    case neg =>
      have hpos : 0 < posOf a := by
        obtain ⟨q, a, rfl⟩ := exists_cons_of_ne_nil hnil
        have hq := q.nPos_pos
        rw [posOf_cons]
        omega
      have hfrom := Shows.sizeUpToPosFrom (a := []) (b := a) (c := b) h hnil
      rw [posOf_nil, lengthOf_nil, Nat.zero_add, Nat.cast_zero, zero_add] at hfrom
      rw [if_neg (by omega), hfrom]

end Shows

end ServerTokens

end ExpertPin.Server
