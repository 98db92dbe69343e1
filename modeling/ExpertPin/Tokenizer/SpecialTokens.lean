import ExpertPin.Lib.StringSearch

/-!
# The special tokens of a text

`tokenizer_st_partition` cuts a text at the special tokens that stand in it, one token after the
other.  The fragments are a list that changes while an iterator goes over it.
-/

namespace ExpertPin.SpecialTokens

open StringSearch (find find_eq_some_iff find_eq_none_iff)
open List
open Option
open Nat

/-! ## Fragments -/

/-- What is read of `token_data`. -/
structure TokenData where
  text : List UInt8
  control : Bool := false
  unknown : Bool := false
  lstrip : Bool := false
  rstrip : Bool := false

structure Vocab where
  data : ℤ → TokenData
  cacheSpecialTokens : List ℤ

/-- `fragment_buffer_variant`: a token, or a part of the text. -/
inductive Fragment where
  | token (id : ℤ)
  | rawText (offset length : ℕ)
deriving DecidableEq, Inhabited

/-- The constructor of a part of the text, with its assertions. -/
def rawText (text : List UInt8) (offset length : ℕ) : Option Fragment :=
  if 1 ≤ length ∧ offset + length ≤ text.length then some (.rawText offset length) else none

/-- The buffer, and the place of the iterator in it. -/
structure Cursor where
  buffer : List Fragment
  it : ℕ

namespace Cursor

/-- `emplace_after`, and the iterator goes on to the new fragment. -/
def emplace (c : Cursor) (fragment : Fragment) : Cursor :=
  ⟨c.buffer.insertIdx (c.it + 1) fragment, c.it + 1⟩

/-- `erase_after`, of a fragment before that of the iterator. -/
def erase (c : Cursor) (source : ℕ) : Cursor := ⟨c.buffer.eraseIdx source, c.it - 1⟩

end Cursor

/-- A part of the text is put behind the iterator, unless it is empty. -/
def emplacePart (text : List UInt8) (c : Cursor) (offset length : ℕ) : Option Cursor :=
  if 0 < length then (rawText text offset length).map c.emplace else some c

def isspace (c : UInt8) : Bool := c = 32 || 9 ≤ c && c ≤ 13

/-- The length that is left where white space at the end is dropped. -/
def lstripLength (text : List UInt8) (offset : ℕ) : ℕ → ℕ
  | 0 => 0
  | length + 1 =>
    if isspace (text.getD (offset + length) 0) then lstripLength text offset length else length + 1

/-- The offset and the length that are left where white space at the beginning is dropped. -/
def rstripRange (text : List UInt8) : ℕ → ℕ → ℕ × ℕ
  | offset, 0 => (offset, 0)
  | offset, length + 1 =>
    if isspace (text.getD offset 0) then rstripRange text (offset + 1) length
    else (offset, length + 1)

namespace Vocab

variable (V : Vocab) (text : List UInt8)

/-- The length of what is left of the token. -/
def leftLength (id : ℤ) (offset pos : ℕ) : ℕ :=
  if (V.data id).lstrip then lstripLength text offset (pos - offset) else pos - offset

/-- The range of what is right of the token. -/
def rightRange (id : ℤ) (offset length pos : ℕ) : ℕ × ℕ :=
  let size := (V.data id).text.length
  let right := (pos + size, length - (pos - offset + size))
  if (V.data id).rstrip then rstripRange text right.1 right.2 else right

/-- The fragment of the iterator is replaced, where the token stands at a position in it.  The range
that is searched next is that on the right, if there is one. -/
def cut (id : ℤ) (c : Cursor) (offset length pos : ℕ) : Option (Cursor × Option (ℕ × ℕ)) := do
  let source := c.it
  let c ← (if offset < pos then emplacePart text c offset (V.leftLength text id offset pos)
    else some c)
  let c := c.emplace (.token id)
  if pos + (V.data id).text.length < offset + length then
    let right := V.rightRange text id offset length pos
    let c ← emplacePart text c right.1 right.2
    some (c.erase source, some right)
  else some (c.erase source, none)

/-- The loop over the text of a fragment. -/
def partitionFragment (id : ℤ) : ℕ → Cursor → ℕ → ℕ → Option Cursor
  | 0, _, _, _ => none
  | turns + 1, c, offset, length =>
    match find (text.take (offset + length)) (V.data id).text offset with
    | none => some c
    | some pos => do
      match ← V.cut text id c offset length pos with
      | (c, none) => some c
      | (c, some (offset, length)) => partitionFragment id turns c offset length

/-- The loop over the fragments. -/
def partitionBuffer (id : ℤ) : ℕ → Cursor → Option (List Fragment)
  | 0, _ => none
  | turns + 1, c =>
    match c.buffer[c.it]? with
    | none => some c.buffer
    | some (.token _) => partitionBuffer id turns { c with it := c.it + 1 }
    | some (.rawText offset length) => do
      let c ← V.partitionFragment text id (length + 1) c offset length
      partitionBuffer id turns { c with it := c.it + 1 }

/-- Control and unknown tokens are text where specials are not parsed. -/
def Eligible (parseSpecial : Bool) (id : ℤ) : Prop :=
  parseSpecial ∨ ¬(V.data id).control ∧ ¬(V.data id).unknown

instance (parseSpecial : Bool) (id : ℤ) : Decidable (V.Eligible parseSpecial id) :=
  inferInstanceAs (Decidable (_ ∨ _))

/-- `tokenizer_st_partition`.  The loops have as many turns as they can take. -/
def tokenizerStPartition (parseSpecial : Bool) (buffer : List Fragment) :
    Option (List Fragment) :=
  V.cacheSpecialTokens.foldlM (fun buffer id =>
    if V.Eligible parseSpecial id then V.partitionBuffer text id (buffer.length + 1) ⟨buffer, 0⟩
    else some buffer) buffer

end Vocab

/-! ## Cursors -/

/-- The iterator is at the last of the fragments that it has reached. -/
def reached (done rest : List Fragment) : Cursor := ⟨done ++ rest, done.length - 1⟩

/-- A part of the text, unless it is empty. -/
def part (offset length : ℕ) : List Fragment :=
  if 0 < length then [.rawText offset length] else []

variable {done rest mid : List Fragment} {x y : Fragment} {text : List UInt8} {strip : Prop}
  {a b c offset length pos turns : ℕ}

theorem reached_append : reached (done ++ [x]) rest = ⟨done ++ x :: rest, done.length⟩ := by
  simp [reached]

theorem emplace_reached (hdone : done ≠ []) :
    (reached done rest).emplace y = reached (done ++ [y]) rest := by
  have hbuffer : (done ++ rest).insertIdx done.length y = done ++ y :: rest := by
    induction done with
    | nil => cases hdone rfl
    | cons z done ih =>
      cases done with
      | nil => rfl
      | cons z' done => exact congrArg (z :: ·) (ih (cons_ne_nil _ _))
  rw [reached, Cursor.emplace, Nat.sub_add_cancel (length_pos_iff.mpr hdone), hbuffer, reached,
    length_append, append_assoc]
  rfl

theorem erase_reached (hmid : mid ≠ []) :
    (reached (done ++ x :: mid) rest).erase done.length = reached (done ++ mid) rest := by
  have hlength : 0 < mid.length := length_pos_iff.mpr hmid
  rw [reached, Cursor.erase, append_assoc, cons_append, eraseIdx_append_of_length_le
    (Nat.le_refl _), Nat.sub_self, eraseIdx_cons_zero, reached, append_assoc,
    length_append, length_append, length_cons]
  rfl

theorem emplacePart_reached (hdone : done ≠ []) (hle : offset + length ≤ text.length) :
    emplacePart text (reached done rest) offset length =
      some (reached (done ++ part offset length) rest) := by
  rw [emplacePart, part]
  split
  case isTrue hlength =>
    rw [rawText, if_pos ⟨hlength, hle⟩, ← emplace_reached hdone]
    rfl
  case isFalse => rw [append_nil]

/-! ## White space -/

/-- White space between two fragments, and none unless one of them drops it. -/
structure Gap (text : List UInt8) (strip : Prop) (a b : ℕ) : Prop where
  le : a ≤ b
  space : ∀ i, a ≤ i → i < b → isspace (text.getD i 0) = true
  strip : a < b → strip

theorem Gap.refl (text : List UInt8) (strip : Prop) (a : ℕ) : Gap text strip a a :=
  ⟨le_refl a, fun _ hi hlt => absurd hi (not_le.mpr hlt), fun h => absurd h (lt_irrefl a)⟩

theorem Gap.append {p q : Prop} (h : Gap text p a b) (h' : Gap text q b c) :
    Gap text (p ∨ q) a c where
  le := h.le.trans h'.le
  space i hi hc := (lt_or_ge i b).elim (h.space i hi) fun hb => h'.space i hb hc
  strip hc := (lt_or_ge a b).imp h.strip fun hb => h'.strip (hb.trans_lt hc)

theorem gap_succ (hstrip : strip) (hspace : isspace (text.getD a 0) = true) :
    Gap text strip a (a + 1) :=
  ⟨le_succ a, fun i hi hlt => by rwa [le_antisymm (le_of_lt_succ hlt) hi],
    fun _ => hstrip⟩

theorem gap_lstripLength (hstrip : strip) (text : List UInt8) (offset length : ℕ) :
    Gap text strip (offset + lstripLength text offset length) (offset + length) := by
  induction length with
  | zero => exact .refl text strip offset
  | succ length ih =>
    rw [lstripLength]
    split
    case isTrue hspace => exact or_self strip ▸ ih.append (gap_succ hstrip hspace)
    case isFalse => exact .refl text strip _

theorem gap_rstripRange (hstrip : strip) (text : List UInt8) (offset length : ℕ) :
    Gap text strip offset (rstripRange text offset length).1 ∧
      (rstripRange text offset length).1 + (rstripRange text offset length).2 =
        offset + length := by
  induction length generalizing offset with
  | zero => exact ⟨.refl text strip offset, rfl⟩
  | succ length ih =>
    rw [rstripRange]
    split
    case isTrue hspace =>
      obtain ⟨hgap, hsum⟩ := ih (offset + 1)
      exact ⟨or_self strip ▸ (gap_succ hstrip hspace).append hgap, hsum.trans (by omega)⟩
    case isFalse => exact ⟨.refl text strip offset, rfl⟩

/-! ## Fragments that restore the text -/

/-- A word stands nowhere in a part of the text. -/
def Avoids (text word : List UInt8) (a b : ℕ) : Prop :=
  ∀ i, a ≤ i → ¬word <+: (text.take b).drop i

theorem Avoids.not_part {word : List UInt8} (h : Avoids text word offset (offset + length)) :
    ¬word <:+: (text.drop offset).take length := by
  rintro ⟨before, after, heq⟩
  apply h (offset + before.length) (Nat.le_add_right _ _)
  rw [← drop_drop, drop_take, Nat.add_sub_cancel_left, ← heq, append_assoc,
    drop_left]
  exact prefix_append _ _

/-- A part of the text, in which none of some words stands. -/
structure Part (text : List UInt8) (words : List (List UInt8)) (offset length : ℕ) : Prop where
  pos : 0 < length
  le : offset + length ≤ text.length
  avoids : ∀ word ∈ words, Avoids text word offset (offset + length)

variable {words : List (List UInt8)}

theorem Part.mono (h : Part text words offset length) {offset' length' : ℕ} (hpos : 0 < length')
    (hoffset : offset ≤ offset') (hle : offset' + length' ≤ offset + length) :
    Part text words offset' length' :=
  ⟨hpos, hle.trans h.le, fun word hword i hi htake => h.avoids word hword i (hoffset.trans hi)
    (htake.trans ((take_prefix_take_left hle).drop i))⟩

/-- From a position on the text is that of the fragments, one behind the other.  Between them there
may be white space that a token drops. -/
def Lays (V : Vocab) (text : List UInt8) (words : List (List UInt8)) :
    Prop → ℕ → List Fragment → Prop
  | strip, a, [] => Gap text strip a text.length
  | strip, a, .rawText offset length :: rest => Gap text strip a offset ∧
      Part text words offset length ∧ Lays V text words False (offset + length) rest
  | strip, a, .token id :: rest => ∃ s, Gap text (strip ∨ (V.data id).lstrip) a s ∧
      (V.data id).text <+: text.drop s ∧
      Lays V text words (V.data id).rstrip (s + (V.data id).text.length) rest

variable {V : Vocab} {id : ℤ} {xs ys : List Fragment}

theorem Lays.extend (h : Gap text strip a b) (hxs : Lays V text words False b xs) :
    Lays V text words strip a xs := by
  cases xs with
  | nil => exact or_false strip ▸ h.append hxs
  | cons x xs =>
    cases x with
    | rawText offset length => exact ⟨or_false strip ▸ h.append hxs.1, hxs.2⟩
    | token id =>
      obtain ⟨s, hgap, hs⟩ := hxs
      exact ⟨s, by simpa using h.append hgap, hs⟩

/-- A part in front, which may be empty. -/
theorem lays_part (hgap : Gap text strip a offset)
    (hpart : 0 < length → Part text words offset length)
    (hrest : Lays V text words False (offset + length) rest) :
    Lays V text words strip a (part offset length ++ rest) := by
  rw [part]
  split
  case isTrue hlength => exact ⟨hgap, hpart hlength, hrest⟩
  case isFalse hlength =>
    rw [Nat.eq_zero_of_not_pos hlength] at hrest
    exact hrest.extend hgap

theorem Lays.part_of_mem (h : Lays V text words strip a xs) (hmem : .rawText offset length ∈ xs) :
    Part text words offset length := by
  induction xs generalizing strip a with
  | nil => cases hmem
  | cons x xs ih =>
    rcases mem_cons.mp hmem with rfl | hrest
    · exact h.2.1
    · cases x with
      | rawText offset length => exact ih h.2.2 hrest
      | token id => exact ih h.choose_spec.2.2 hrest

/-- Fragments may be replaced by others in which one word more does not stand, wherever that can be
done with what follows. -/
def Refines (V : Vocab) (text : List UInt8) (words : List (List UInt8)) (word : List UInt8)
    (xs ys : List Fragment) : Prop :=
  ∀ rest rest', (∀ strip a, Lays V text words strip a rest →
    Lays V text (word :: words) strip a rest') → ∀ strip a, Lays V text words strip a (xs ++ rest) →
      Lays V text (word :: words) strip a (ys ++ rest')

theorem refines_token (word : List UInt8) (id : ℤ) :
    Refines V text words word [.token id] [.token id] := by
  rintro rest rest' h strip a ⟨s, hgap, hs, hrest⟩
  exact ⟨s, hgap, hs, h _ _ hrest⟩

/-! ## One fragment -/

theorem gap_leftLength (V : Vocab) (id : ℤ) (text : List UInt8) (hpos : offset ≤ pos) :
    Gap text (V.data id).lstrip (offset + V.leftLength text id offset pos) pos := by
  rw [Vocab.leftLength]
  split
  case isTrue hstrip =>
    have hgap := gap_lstripLength hstrip text offset (pos - offset)
    rwa [Nat.add_sub_cancel' hpos] at hgap
  case isFalse =>
    rw [Nat.add_sub_cancel' hpos]
    exact .refl _ _ _

theorem gap_rightRange (text : List UInt8) (hpos : offset ≤ pos)
    (hend : pos + (V.data id).text.length ≤ offset + length) :
    let right := V.rightRange text id offset length pos
    Gap text (V.data id).rstrip (pos + (V.data id).text.length) right.1 ∧
      right.1 + right.2 = offset + length := by
  have hsum : pos + (V.data id).text.length +
      (length - (pos - offset + (V.data id).text.length)) = offset + length := by omega
  simp only [Vocab.rightRange, ← hsum]
  split
  case isTrue hstrip => exact gap_rstripRange hstrip text _ _
  case isFalse => exact ⟨.refl _ _ _, rfl⟩

/-- The part becomes the token with what is left on its sides. -/
theorem cut_spec (V : Vocab) (done rest : List Fragment) (x : Fragment)
    (hle : offset + length ≤ text.length) (hpos : offset ≤ pos)
    (hend : pos + (V.data id).text.length ≤ offset + length) :
    ∃ k ro rl, Gap text (V.data id).lstrip (offset + k) pos ∧
      Gap text (V.data id).rstrip (pos + (V.data id).text.length) ro ∧ ro + rl = offset + length ∧
      V.cut text id (reached (done ++ [x]) rest) offset length pos = some
        (reached (done ++ (part offset k ++ .token id :: part ro rl)) rest,
          if pos + (V.data id).text.length < offset + length then some (ro, rl) else none) := by
  have hleft := gap_leftLength V id text hpos
  obtain ⟨hright, hsum⟩ := gap_rightRange text hpos hend
  refine ⟨_, _, _, hleft, hright, hsum, ?_⟩
  rw [Vocab.cut]
  generalize V.leftLength text id offset pos = k at *
  generalize V.rightRange text id offset length pos = right at *
  have hk := hleft.le
  have hemplace : (if offset < pos then emplacePart text (reached (done ++ [x]) rest) offset k
      else some (reached (done ++ [x]) rest)) =
        some (reached (done ++ [x] ++ part offset k) rest) := by
    split
    case isTrue => exact emplacePart_reached (by simp) (by omega)
    case isFalse hge => rw [part, if_neg (by omega), append_nil]
  have hit : (reached (done ++ [x]) rest).it = done.length := congrArg Cursor.it reached_append
  have herase (ys : List Fragment) : (reached (done ++ [x] ++ part offset k ++ [.token id] ++ ys)
      rest).erase done.length = reached (done ++ (part offset k ++ .token id :: ys)) rest := by
    simpa using erase_reached (x := x)
      (append_ne_nil_of_right_ne_nil (part offset k) (cons_ne_nil (.token id) ys))
  rw [hemplace, bind_eq_bind, bind_some, hit, emplace_reached (by simp)]
  dsimp only
  split
  case isTrue =>
    rw [emplacePart_reached (by simp) (hsum.trans_le hle), bind_some, herase]
  case isFalse hge =>
    have hnone : part right.1 right.2 = [] := if_neg (by have := hright.le; omega)
    rw [hnone, ← herase, append_nil]

theorem find_spec (h : find (text.take (offset + length)) (V.data id).text offset = some pos)
    (hle : offset + length ≤ text.length) : offset ≤ pos ∧
      (V.data id).text <+: text.drop pos ∧ pos + (V.data id).text.length ≤ offset + length ∧
      ∀ i, offset ≤ i → i < pos → ¬(V.data id).text <+: (text.take (offset + length)).drop i := by
  obtain ⟨hword, hpos, hle', hfirst⟩ := find_eq_some_iff.mp h
  rw [length_take_of_le hle] at hle'
  refine ⟨hpos, hword.trans ((List.take_prefix _ _).drop pos), ?_, hfirst⟩
  have := hword.length_le
  rw [length_drop, length_take_of_le hle] at this
  omega

theorem avoids_of_find (hword : (V.data id).text ≠ [])
    (h : find (text.take (offset + length)) (V.data id).text offset = none) :
    Avoids text (V.data id).text offset (offset + length) := by
  intro i hi hprefix
  obtain hle | hlt := le_or_gt i (text.take (offset + length)).length
  · exact find_eq_none_iff.mp h i hi hle hprefix
  · rw [drop_of_length_le hlt.le] at hprefix
    exact hword (prefix_nil.mp hprefix)

/-- Nothing is found in nothing. -/
theorem partitionFragment_zero {cursor : Cursor} (hword : (V.data id).text ≠ []) :
    V.partitionFragment text id (turns + 1) cursor offset 0 = some cursor := by
  have hnone : find (text.take (offset + 0)) (V.data id).text offset = none := by
    refine find_eq_none_iff.mpr fun i hi _ hprefix => hword ?_
    rwa [Nat.add_zero, drop_of_length_le ((length_take_le _ _).trans hi),
      prefix_nil] at hprefix
  rw [Vocab.partitionFragment, hnone]

/-- What is right of a token is searched until the token does not stand there. -/
theorem partitionFragment_spec (done rest : List Fragment) (hword : (V.data id).text ≠ [])
    (hturns : length < turns) (hpart : Part text words offset length) : ∃ ys ≠ [],
      V.partitionFragment text id turns (reached (done ++ [.rawText offset length]) rest) offset
        length = some (reached (done ++ ys) rest) ∧
      Refines V text words (V.data id).text [.rawText offset length] ys := by
  induction turns generalizing done offset length with
  | zero => exact absurd hturns length.not_lt_zero
  | succ turns ih =>
    rw [Vocab.partitionFragment]
    split
    case h_1 hnone =>
      refine ⟨[.rawText offset length], cons_ne_nil _ _, rfl, ?_⟩
      rintro rest rest' h strip a ⟨hgap, hpart, hrest⟩
      exact ⟨hgap, ⟨hpart.pos, hpart.le, forall_mem_cons.mpr
        ⟨avoids_of_find hword hnone, hpart.avoids⟩⟩, h _ _ hrest⟩
    case h_2 pos hfound =>
      obtain ⟨hpos, hprefix, hend, hfirst⟩ := find_spec hfound hpart.le
      obtain ⟨k, ro, rl, hgapLeft, hgapRight, hsum, hcut⟩ :=
        cut_spec V done rest (.rawText offset length) hpart.le hpos hend
      rw [bind_eq_bind, hcut, bind_some]
      have hwordLength : 0 < (V.data id).text.length := length_pos_iff.mpr hword
      have hleft := hgapLeft.le
      have hright := hgapRight.le
      -- what the loop makes of the part on the right
      have hloop : ∃ ys, (if pos + (V.data id).text.length < offset + length then
            V.partitionFragment text id turns
              (reached (done ++ (part offset k ++ .token id :: part ro rl)) rest) ro rl
          else some (reached (done ++ (part offset k ++ .token id :: part ro rl)) rest)) =
            some (reached (done ++ (part offset k ++ .token id :: ys)) rest) ∧
          Refines V text words (V.data id).text (part ro rl) ys := by
        by_cases hrl : 0 < rl
        · obtain ⟨ys, -, hys, hrefines⟩ := ih (done ++ (part offset k ++ [.token id]))
            (by omega) (hpart.mono hrl (by omega) hsum.le)
          have hright : part ro rl = [.rawText ro rl] := if_pos hrl
          rw [if_pos (by omega), hright]
          exact ⟨ys, by simpa using hys, hrefines⟩
        · obtain ⟨turns, rfl⟩ := Nat.exists_eq_succ_of_ne_zero (n := turns) (by omega)
          obtain rfl := Nat.eq_zero_of_not_pos hrl
          refine ⟨[], ?_, fun _ _ h => h⟩
          split
          case isTrue => exact partitionFragment_zero hword
          case isFalse => rfl
      obtain ⟨ys, hys, hrefines⟩ := hloop
      refine ⟨part offset k ++ .token id :: ys, by simp, ?_, ?_⟩
      · rw [← hys]
        by_cases hmore : pos + (V.data id).text.length < offset + length
        · rw [if_pos hmore, if_pos hmore]
        · rw [if_neg hmore, if_neg hmore]
      · rintro rest rest' h strip a ⟨hgap, -, hrest⟩
        have htail := hrefines rest rest' h _ _ (lays_part hgapRight
          (fun hrl => hpart.mono hrl (by omega) hsum.le) (hsum ▸ hrest))
        rw [append_assoc]
        refine lays_part hgap (fun hk => ?_) ⟨pos, (false_or _).symm ▸ hgapLeft, hprefix, htail⟩
        obtain ⟨hk, hle, havoids⟩ := hpart.mono hk (Nat.le_refl _) (by omega)
        refine ⟨hk, hle, forall_mem_cons.mpr ⟨fun i hi hprefix' => ?_, havoids⟩⟩
        have hfits := hprefix'.length_le
        rw [length_drop, length_take] at hfits
        exact hfirst i hi (by omega) (hprefix'.trans
          ((take_prefix_take_left (by omega)).drop i))

/-! ## All fragments -/

theorem Refines.append {xs' ys' : List Fragment} {word : List UInt8}
    (h : Refines V text words word xs ys) (h' : Refines V text words word xs' ys') :
    Refines V text words word (xs ++ xs') (ys ++ ys') := by
  intro rest rest' hrest
  rw [append_assoc, append_assoc]
  exact h _ _ (h' rest rest' hrest)

theorem partitionBuffer_spec (V : Vocab) (id : ℤ) (done : List Fragment)
    (hword : (V.data id).text ≠ []) (hturns : xs.length < turns)
    (h : Lays V text words strip a xs) : ∃ ys,
      V.partitionBuffer text id turns ⟨done ++ xs, done.length⟩ = some (done ++ ys) ∧
      Refines V text words (V.data id).text xs ys := by
  induction turns generalizing done xs strip a with
  | zero => exact absurd hturns (Nat.not_lt_zero _)
  | succ turns ih =>
    rw [Vocab.partitionBuffer]
    cases xs with
    | nil =>
      rw [getElem?_append_right (Nat.le_refl _)]
      exact ⟨[], rfl, fun _ _ h => h⟩
    | cons x xs =>
      rw [getElem?_append_right (Nat.le_refl _), Nat.sub_self, getElem?_cons_zero]
      have hturns' := Nat.lt_of_succ_lt_succ hturns
      cases x with
      | token other =>
        obtain ⟨ys, heq, hrefines⟩ := ih (done ++ [.token other]) hturns'
          h.choose_spec.2.2
        rw [length_append, append_assoc, append_assoc] at heq
        exact ⟨.token other :: ys, heq, (refines_token _ other).append hrefines⟩
      | rawText offset length =>
        obtain ⟨ys, hne, hloop, hrefines⟩ :=
          partitionFragment_spec done xs hword (Nat.lt_succ_self length) h.2.1
        obtain ⟨zs, heq, hrefines'⟩ := ih (done ++ ys) hturns' h.2.2
        refine ⟨ys ++ zs, ?_, hrefines.append hrefines'⟩
        have hlength : (done ++ ys).length - 1 + 1 = (done ++ ys).length :=
          Nat.sub_add_cancel (length_pos_iff.mpr (append_ne_nil_of_right_ne_nil _ hne))
        rw [reached_append] at hloop
        have hbind := congrArg (bind · fun c : Cursor =>
          V.partitionBuffer text id turns { c with it := c.it + 1 }) hloop
        rw [← hlength, append_assoc done ys zs] at heq
        exact hbind.trans heq

theorem Lays.forget (h : Lays V text words strip a xs) : Lays V text [] strip a xs := by
  induction xs generalizing strip a with
  | nil => exact h
  | cons x xs ih =>
    cases x with
    | rawText offset length =>
      exact ⟨h.1, ⟨h.2.1.pos, h.2.1.le, forall_mem_nil _⟩, ih h.2.2⟩
    | token id =>
      obtain ⟨s, hgap, hs, hrest⟩ := h
      exact ⟨s, hgap, hs, ih hrest⟩

/-- The loops end and no assertion fails.  In the end no eligible token stands in a part of the text
that is left, and the fragments restore the text but for white space that a token drops. -/
theorem tokenizerStPartition_spec (V : Vocab) (parseSpecial : Bool)
    (htexts : ∀ id ∈ V.cacheSpecialTokens, (V.data id).text ≠ []) (hne : text ≠ []) :
    ∃ buffer, V.tokenizerStPartition text parseSpecial [.rawText 0 text.length] = some buffer ∧
      Lays V text [] False 0 buffer ∧
      ∀ id ∈ V.cacheSpecialTokens, V.Eligible parseSpecial id →
        ∀ offset length, .rawText offset length ∈ buffer →
          ¬(V.data id).text <:+: (text.drop offset).take length := by
  have hbegin : Lays V text [] False 0 [.rawText 0 text.length] :=
    ⟨.refl text False 0, ⟨length_pos_iff.mpr hne, (Nat.zero_add _).le, forall_mem_nil _⟩,
      (Nat.zero_add text.length).symm ▸ .refl text False _⟩
  suffices hall : ∀ ids ⊆ V.cacheSpecialTokens, ∀ words xs, Lays V text words False 0 xs →
      ∃ ys words', ids.foldlM (fun buffer id => if V.Eligible parseSpecial id then
          V.partitionBuffer text id (buffer.length + 1) ⟨buffer, 0⟩ else some buffer) xs = some ys ∧
        Lays V text words' False 0 ys ∧ words ⊆ words' ∧
        ∀ id ∈ ids, V.Eligible parseSpecial id → (V.data id).text ∈ words' by
    obtain ⟨ys, words, heq, hlays, -, hmem⟩ := hall _ (List.Subset.refl _) [] _ hbegin
    exact ⟨ys, heq, hlays.forget, fun id hid heligible offset length hpart =>
      ((hlays.part_of_mem hpart).avoids _ (hmem id hid heligible)).not_part⟩
  intro ids
  induction ids with
  | nil => exact fun _ words xs h => ⟨xs, words, rfl, h, List.Subset.refl _, forall_mem_nil _⟩
  | cons id ids ih =>
    intro hids words xs hxs
    obtain ⟨hid, hids⟩ := cons_subset.mp hids
    rw [foldlM_cons]
    split
    case isTrue heligible =>
      obtain ⟨ys, hloop, hrefines⟩ := partitionBuffer_spec V id []
        (htexts id hid) (Nat.lt_succ_self xs.length) hxs
      have hys : Lays V text ((V.data id).text :: words) False 0 ys := by
        simpa using hrefines [] [] (fun _ _ h => h) False 0 (by simpa using hxs)
      obtain ⟨zs, words', heq, hzs, hsubset, hmem⟩ := ih hids _ ys hys
      refine ⟨zs, words', (congrArg (bind · _) hloop).trans heq, hzs,
        fun w hw => hsubset (mem_cons_of_mem _ hw), forall_mem_cons.mpr
        ⟨fun _ => hsubset mem_cons_self, hmem⟩⟩
    case isFalse hnot =>
      obtain ⟨zs, words', heq, hzs, hsubset, hmem⟩ := ih hids words xs hxs
      exact ⟨zs, words', heq, hzs, hsubset, forall_mem_cons.mpr
        ⟨fun h => absurd h hnot, hmem⟩⟩

/-- The special tokens `<s>`, which drops white space on its right, and `s`. -/
def letterVocab : Vocab where
  data id := if id = 1 then { text := [60, 115, 62], rstrip := true } else { text := [115] }
  cacheSpecialTokens := [1, 2]

theorem tokenizerStPartition_spec_letter : ∃ buffer,
    letterVocab.tokenizerStPartition [97, 60, 115, 62, 32, 115] true [.rawText 0 6] = some buffer ∧
      Lays letterVocab [97, 60, 115, 62, 32, 115] [] False 0 buffer ∧
      ∀ id ∈ letterVocab.cacheSpecialTokens, letterVocab.Eligible true id →
        ∀ offset length, .rawText offset length ∈ buffer → ¬(letterVocab.data id).text <:+:
          (List.drop offset [97, 60, 115, 62, 32, 115]).take length :=
  tokenizerStPartition_spec letterVocab true (by decide) (by decide)

end ExpertPin.SpecialTokens
