import Mathlib.Data.List.Basic
import Mathlib.Algebra.Order.Group.Int

/-!
# Partial matches of a regular expression

`regex_to_reversed_partial_regex` turns a pattern into one that matches reversed strings.  Its
`process` scans the pattern once, with one iterator that its nested calls share, and puts the
parts of each alternative together in reverse order.

A string is the list of its characters, and an iterator is what is left of the pattern.  A
nested call runs on fuel, and so does each round of the scan, which reads a character at least.
-/

namespace ExpertPin.Regex

open List
open Nat

abbrev Text : Type := List Char

inductive Error
  | unmatchedBracket
  | quantifier
  | repetition
  | unmatchedBrace
  | range
  | unmatchedParen
  | invalidArgument
  | outOfRange
deriving DecidableEq, Repr

/-- `what()`; the last two are of `std::stoi`. -/
def Error.what : Error → String
  | .unmatchedBracket => "Unmatched '[' in pattern"
  | .quantifier => "Quantifier without preceding element"
  | .repetition => "Repetition without preceding element"
  | .unmatchedBrace => "Unmatched '\x7b' in pattern"
  | .range => "Invalid repetition range in pattern"
  | .unmatchedParen => "Unmatched '(' in pattern"
  | .invalidArgument => "stoi"
  | .outOfRange => "stoi"

/-- What the function ends with when it does not return. -/
inductive Stop
  | threw (e : Error)
  /-- the iterator is read or moved past the end -/
  | pastEnd
  /-- the bound `parts.size() - 1` of a loop wraps to `2 ^ 64 - 1` -/
  | wrapped
  | outOfFuel
deriving DecidableEq, Repr

/-- The characters between two iterators. -/
def upTo (start it : Text) : Text := start.take (start.length - it.length)

/-- The loop over a class: it stops at the bracket that closes it, or at the end. -/
def scanClass : Text → Except Stop Text
  | [] => .ok []
  | c :: it =>
    if c = '\\' then
      match it with
      | [] => .error .pastEnd
      | _ :: it => scanClass it
    else if c = ']' then .ok (c :: it)
    else scanClass it

/-- `string_split`, for a delimiter of one character. -/
def stringSplit (delimiter : Char) : Text → List Text
  | [] => [[]]
  | c :: s =>
    if c = delimiter then [] :: stringSplit delimiter s
    else
      match stringSplit delimiter s with
      | [] => [[c]]
      | t :: ts => (c :: t) :: ts

/-- `std::isspace` -/
def isSpace (c : Char) : Bool := c = ' ' || (9 ≤ c.toNat && c.toNat ≤ 13)

/-- `std::stoi`: digits after white space and a sign, and what follows them is left. -/
def stoi (s : Text) : Except Stop ℤ :=
  let s := s.dropWhile isSpace
  let negative : Bool := s.head? = some '-'
  let digits := (if negative ∨ s.head? = some '+' then s.tail else s).takeWhile Char.isDigit
  if digits = [] then .error (.threw .invalidArgument)
  else
    let n : ℤ := digits.foldl (fun n c => 10 * n + (c.toNat - 48 : ℕ)) 0
    let n := if negative then -n else n
    if -2 ^ 31 ≤ n ∧ n < 2 ^ 31 then .ok n else .error (.threw .outOfRange)

def parseOptInt (s : Text) (dflt : Option ℤ) : Except Stop (Option ℤ) :=
  if s = [] then .ok dflt else (stoi s).map some

/-- The bounds between the braces: the least number, and the greatest if there is one. -/
def parseRange (text : Text) : Except Stop (ℤ × Option ℤ) :=
  match stringSplit ',' text with
  | [lo] => do
    let min ← parseOptInt lo (some 0)
    .ok (min.getD 0, min)
  | [lo, hi] => do
    let min ← parseOptInt lo (some 0)
    let max ← parseOptInt hi none
    if max.any (· < min.getD 0) then .error (.threw .range) else .ok (min.getD 0, max)
  | _ => .error (.threw .range)

/-- A repetition after its brace: the bounds, and what is left after it. -/
def scanRepetition (start : Text) : Except Stop ((ℤ × Option ℤ) × Text) :=
  let it := start.dropWhile (· ≠ '\x7d')
  match it with
  | [] => .error (.threw .unmatchedBrace)
  | _ :: rest => (parseRange (upTo start it)).map fun bounds => (bounds, rest)

/-- The parts that a repeated part is replaced by. -/
def repeatPart (part : Text) (bounds : ℤ × Option ℤ) : List Text :=
  List.replicate bounds.1.toNat part ++ match bounds.2 with
    | some max => List.replicate (max - bounds.1).toNat (part ++ ['?'])
    | none => [part ++ ['*']]

/-- After a quantifier: a `?` after a `*` is left out. -/
def skipLazy (c : Char) (it : Text) : Text :=
  if c = '*' ∧ it.head? = some '?' then it.tail else it

/-- After an opening parenthesis. -/
def skipNonCapturing (it : Text) : Text :=
  if it.take 2 = ['?', ':'] then it.drop 2 else it

/-- After a backslash: the part of the next character, if there is one. -/
def scanEscape : Text → List Text × Text
  | [] => ([], [])
  | c :: it => ([['\\', c]], it)

/-- The parts of an alternative, the last one first and each with all after it optional. -/
def emit (parts : List Text) : Except Stop Text :=
  if parts = [] then .error .wrapped
  else
    .ok ((List.replicate (parts.length - 1) ['(', '?', ':']).flatten ++
      [')', '?'].intercalate parts.reverse)

/-- What `process` returns: all alternatives. -/
def emitAll (alternatives : List (List Text)) : Except Stop Text :=
  (alternatives.mapM emit).map fun alts => ['|'].intercalate alts

def IsQuantifier (c : Char) : Prop := c = '*' ∨ c = '?' ∨ c = '+'

instance decidableIsQuantifier (c : Char) : Decidable (IsQuantifier c) :=
  inferInstanceAs (Decidable (_ ∨ _))

/-- `process`, from a round of its loop on: the finished alternatives, the parts of the one that
is being read, and the iterator. -/
def process : ℕ → List (List Text) → List Text → Text → Except Stop (Text × Text)
  | 0, _, _, _ => .error .outOfFuel
  | _ + 1, alternatives, sequence, [] =>
    (emitAll (alternatives ++ [sequence])).map fun res => (res, [])
  | fuel + 1, alternatives, sequence, c :: it =>
    if c = '[' then do
      match ← scanClass it with
      | [] => .error (.threw .unmatchedBracket)
      | _ :: rest => process fuel alternatives (sequence ++ [upTo (c :: it) rest]) rest
    else if IsQuantifier c then
      match sequence.getLast? with
      | none => .error (.threw .quantifier)
      | some part =>
        process fuel alternatives (sequence.dropLast ++ [part ++ [c]]) (skipLazy c it)
    else if c = '\x7b' then
      match sequence.getLast? with
      | none => .error (.threw .repetition)
      | some part => do
        let (bounds, rest) ← scanRepetition it
        process fuel alternatives (sequence.dropLast ++ repeatPart part bounds) rest
    else if c = '(' then do
      let (sub, it) ← process fuel [] [] (skipNonCapturing it)
      match it with
      | [] => .error .pastEnd
      | d :: rest =>
        if d ≠ ')' then .error (.threw .unmatchedParen)
        else process fuel alternatives (sequence ++ [['(', '?', ':'] ++ sub ++ [')']]) rest
    else if c = ')' then
      (emitAll (alternatives ++ [sequence])).map fun res => (res, c :: it)
    else if c = '|' then process fuel (alternatives ++ [sequence]) [] it
    else if c = '\\' then
      process fuel alternatives (sequence ++ (scanEscape it).1) (scanEscape it).2
    else process fuel alternatives (sequence ++ [[c]]) it

/-- `regex_to_reversed_partial_regex` -/
def regexToReversedPartialRegex (pattern : Text) : Except Stop Text := do
  let (res, it) ← process (pattern.length + 1) [] [] pattern
  if it ≠ [] then .error (.threw .unmatchedParen) else .ok (['^', '('] ++ res ++ [')'])

example : regexToReversedPartialRegex "ab\x7b2,4\x7dc".toList =
    .ok "^((?:(?:(?:(?:(?:c)?b?)?b?)?b)?b)?a)".toList := by decide

example : regexToReversedPartialRegex "a(bc|de)".toList =
    .ok "^((?:(?:(?:c)?b|(?:e)?d))?a)".toList := by decide

/-!
## The groups of a pattern

How the scan of a pattern ends is told by how many parts the open groups have, without the parts
(`advance`): it returns, or throws one of its exceptions, just when it does not come to the end
of a group that has an alternative without parts, to the end of the pattern in a group, or to a
class that ends in a backslash (`ends_iff`).
-/

open Relation

/-- A group that is open: whether an alternative before the last one has no parts, and the number
of parts of the last one. -/
structure Frame where
  empty : Bool
  parts : ℕ
deriving DecidableEq, Repr

def Frame.add (f : Frame) (n : ℕ) : Frame := ⟨f.empty, f.parts + n⟩

/-- Each alternative has a part. -/
def Frame.Full (f : Frame) : Prop := f.empty = false ∧ f.parts ≠ 0

instance Frame.decidableFull (f : Frame) : Decidable f.Full := inferInstanceAs (Decidable (_ ∧ _))

/-- The open groups, the innermost one first, and what is left of the pattern. -/
abbrev Scan : Type := List Frame × Text

/-- The number of parts that a repeated part is replaced by. -/
def repeatCount (bounds : ℤ × Option ℤ) : ℕ :=
  bounds.1.toNat + match bounds.2 with
    | some max => (max - bounds.1).toNat
    | none => 1

/-- One round of the scan of a group; the scan is over where there is no next one. -/
def advance : Scan → Option Scan
  | (f :: fs, c :: it) =>
    if c = '[' then
      match scanClass it with
      | .ok (_ :: rest) => some (f.add 1 :: fs, rest)
      | _ => none
    else if IsQuantifier c then
      if f.parts = 0 then none else some (f :: fs, skipLazy c it)
    else if c = '\x7b' then
      if f.parts = 0 then none
      else
        match scanRepetition it with
        | .ok (bounds, rest) => some (⟨f.empty, f.parts - 1 + repeatCount bounds⟩ :: fs, rest)
        | .error _ => none
    else if c = '(' then some (⟨false, 0⟩ :: f :: fs, skipNonCapturing it)
    else if c = ')' then
      match fs with
      | g :: fs => if f.Full then some (g.add 1 :: fs, it) else none
      | [] => none
    else if c = '|' then some (⟨f.empty || decide (f.parts = 0), 0⟩ :: fs, it)
    else if c = '\\' then some (f.add (scanEscape it).1.length :: fs, (scanEscape it).2)
    else some (f.add 1 :: fs, it)
  | _ => none

def Advances (s t : Scan) : Prop := advance s = some t

/-- The scan is at the end of the group. -/
def AtEnd (it : Text) : Prop := it = [] ∨ ∃ rest, it = ')' :: rest

/-- What the scan must not come to. -/
inductive Stray : Scan → Prop
  | emptyAlternative {f : Frame} {fs : List Frame} {it : Text} (hf : ¬f.Full) (hit : AtEnd it) :
      Stray (f :: fs, it)
  | unclosed {f g : Frame} {fs : List Frame} : Stray (f :: g :: fs, [])
  | backslash {fs : List Frame} {it : Text} (h : scanClass it = .error .pastEnd) :
      Stray (fs, '[' :: it)

variable {f g : Frame} {fs : List Frame} {it it' rest : Text} {c : Char} {s t u : Scan}
  {fuel : ℕ} {alternatives : List (List Text)} {sequence : List Text}

theorem Stray.advance_eq_none (h : Stray s) : advance s = none := by
  cases h with
  | @emptyAlternative f fs it hf hit =>
    rcases hit with rfl | ⟨rest, rfl⟩
    · rfl
    · cases fs with
      | nil => rfl
      | cons g fs => simp [advance, IsQuantifier, hf]
  | unclosed => rfl
  | @backslash fs it h =>
    cases fs with
    | nil => rfl
    | cons f fs => simp [advance, h]

theorem advances_rightUnique : Relator.RightUnique Advances :=
  fun _ _ _ h h' => Option.some.inj (h.symm.trans h')

/-- A scan that is over has come to one place. -/
theorem eq_of_over (h : ReflTransGen Advances s t) (h' : ReflTransGen Advances s u)
    (ht : advance t = none) (hu : advance u = none) : t = u := by
  have hover : ∀ {s t}, ReflTransGen Advances s t → advance s = none → s = t := by
    intro s t hsteps hs
    induction hsteps using ReflTransGen.head_induction_on with
    | refl => rfl
    | head step _ _ => cases hs.symm.trans step
  rcases ReflTransGen.total_of_right_unique advances_rightUnique h h' with h | h
  · exact hover h ht
  · exact (hover h hu).symm

/-! ## What is read -/

theorem length_scanClass (h : scanClass it = .ok rest) : rest.length ≤ it.length := by
  fun_induction scanClass it with
  | case1 =>
    cases h
    exact le_refl _
  | case2 => cases h
  | case3 d it ih => exact (ih h).trans (le_add_right _ 2)
  | case4 =>
    cases h
    exact le_refl _
  | case5 c it _ _ ih => exact (ih h).trans (le_succ _)

theorem eq_pastEnd_of_scanClass {e : Stop} (h : scanClass it = .error e) : e = .pastEnd := by
  fun_induction scanClass it with
  | case1 => cases h
  | case2 =>
    cases h
    rfl
  | case3 d it ih => exact ih h
  | case4 => cases h
  | case5 c it _ _ ih => exact ih h

theorem threw_of_stoi {text : Text} {e : Stop} (h : stoi text = .error e) :
    ∃ e', e = .threw e' := by
  unfold stoi at h
  extract_lets text' negative digits n m at h
  split at h
  case isTrue =>
    cases h
    exact ⟨_, rfl⟩
  case isFalse =>
    split at h
    case isTrue => cases h
    case isFalse =>
      cases h
      exact ⟨_, rfl⟩

theorem threw_of_parseOptInt {text : Text} {dflt : Option ℤ} {e : Stop}
    (h : parseOptInt text dflt = .error e) : ∃ e', e = .threw e' := by
  rw [parseOptInt] at h
  split at h
  case isTrue => cases h
  case isFalse =>
    cases hstoi : stoi text with
    | ok n =>
      rw [hstoi] at h
      cases h
    | error e' =>
      rw [hstoi] at h
      cases h
      exact threw_of_stoi hstoi

theorem threw_of_parseRange {text : Text} {e : Stop} (h : parseRange text = .error e) :
    ∃ e', e = .threw e' := by
  rw [parseRange] at h
  split at h
  case h_1 lo _ =>
    cases hlo : parseOptInt lo (some 0) with
    | error e' =>
      rw [hlo] at h
      cases h
      exact threw_of_parseOptInt hlo
    | ok min =>
      rw [hlo] at h
      cases h
  case h_2 lo hi _ =>
    cases hlo : parseOptInt lo (some 0) with
    | error e' =>
      rw [hlo] at h
      cases h
      exact threw_of_parseOptInt hlo
    | ok min =>
      cases hhi : parseOptInt hi none with
      | error e' =>
        rw [hlo, hhi] at h
        cases h
        exact threw_of_parseOptInt hhi
      | ok max =>
        rw [hlo, hhi] at h
        change (if _ then _ else _) = _ at h
        split at h
        case isTrue =>
          cases h
          exact ⟨_, rfl⟩
        case isFalse => cases h
  case h_3 =>
    cases h
    exact ⟨_, rfl⟩

theorem threw_of_scanRepetition {e : Stop} (h : scanRepetition it = .error e) :
    ∃ e', e = .threw e' := by
  simp only [scanRepetition] at h
  split at h
  case h_1 =>
    cases h
    exact ⟨_, rfl⟩
  case h_2 d rest hit =>
    cases hrange : parseRange (upTo it (it.dropWhile (· ≠ '\x7d'))) with
    | error e' =>
      rw [hrange] at h
      cases h
      exact threw_of_parseRange hrange
    | ok bounds =>
      rw [hrange] at h
      cases h

theorem length_scanRepetition {bounds : ℤ × Option ℤ} (h : scanRepetition it = .ok (bounds, rest)) :
    rest.length ≤ it.length := by
  simp only [scanRepetition] at h
  split at h
  case h_1 => cases h
  case h_2 d rest' hit =>
    have hlen := (List.dropWhile_suffix (· ≠ '\x7d') (l := it)).length_le
    rw [hit] at hlen
    cases hrange : parseRange (upTo it (it.dropWhile (· ≠ '\x7d'))) with
    | error e' =>
      rw [hrange] at h
      cases h
    | ok bounds' =>
      rw [hrange] at h
      cases h
      exact (le_succ _).trans hlen

theorem length_skipLazy_le (c : Char) (it : Text) : (skipLazy c it).length ≤ it.length := by
  rw [skipLazy]
  split
  · exact length_tail ▸ sub_le _ _
  · exact le_refl _

theorem length_skipNonCapturing_le (it : Text) : (skipNonCapturing it).length ≤ it.length := by
  rw [skipNonCapturing]
  split
  · exact length_drop ▸ sub_le _ _
  · exact le_refl _

theorem length_repeatPart (part : Text) (bounds : ℤ × Option ℤ) :
    (repeatPart part bounds).length = repeatCount bounds := by
  obtain ⟨min, max⟩ := bounds
  cases max with
  | none => simp [repeatPart, repeatCount]
  | some max => simp [repeatPart, repeatCount]

/-! ## What is put together -/

/-- The frame of the alternatives that have been read. -/
def frame (alternatives : List (List Text)) (sequence : List Text) : Frame :=
  ⟨alternatives.any List.isEmpty, sequence.length⟩

theorem emit_ok_or (parts : List Text) :
    (parts = [] ∧ emit parts = .error .wrapped) ∨ (parts ≠ [] ∧ ∃ res, emit parts = .ok res) := by
  rw [emit]
  split
  case isTrue h => exact .inl ⟨h, rfl⟩
  case isFalse h => exact .inr ⟨h, _, rfl⟩

theorem mapM_emit (alts : List (List Text)) : ([] ∈ alts ∧ alts.mapM emit = .error .wrapped) ∨
      ([] ∉ alts ∧ ∃ res, alts.mapM emit = .ok res) := by
  induction alts with
  | nil => exact .inr ⟨not_mem_nil, [], rfl⟩
  | cons parts alts ih =>
    rw [mapM_cons]
    rcases emit_ok_or parts with ⟨rfl, hemit⟩ | ⟨hne, res, hemit⟩
    · exact .inl ⟨mem_cons_self, by rw [hemit]; rfl⟩
    · rw [hemit]
      rcases ih with ⟨hmem, hrest⟩ | ⟨hmem, ress, hrest⟩
      · exact .inl ⟨mem_cons_of_mem _ hmem, by rw [hrest]; rfl⟩
      · refine .inr ⟨?_, res :: ress, by rw [hrest]; rfl⟩
        exact fun h => (mem_cons.mp h).elim (fun h => hne h.symm) hmem

theorem full_frame_iff : (frame alternatives sequence).Full ↔ [] ∉ alternatives ++ [sequence] := by
  simp only [Frame.Full, frame, List.any_eq_false, List.isEmpty_iff, List.mem_append,
    List.mem_singleton, not_or, ne_eq, List.length_eq_zero_iff]
  refine and_congr ⟨fun h hmem => h [] hmem rfl, ?_⟩ ⟨fun h heq => h heq.symm, fun h heq =>
    h heq.symm⟩
  rintro h alt hmem rfl
  exact h hmem

theorem emitAll_full_or (alternatives : List (List Text)) (sequence : List Text) :
    (¬(frame alternatives sequence).Full ∧ emitAll (alternatives ++ [sequence]) = .error .wrapped) ∨
    ((frame alternatives sequence).Full ∧
      ∃ res, emitAll (alternatives ++ [sequence]) = .ok res) := by
  rw [full_frame_iff, not_not, emitAll]
  rcases mapM_emit (alternatives ++ [sequence]) with ⟨hmem, heq⟩ | ⟨hmem, res, heq⟩
  · exact .inl ⟨hmem, by rw [heq]; rfl⟩
  · exact .inr ⟨hmem, _, by rw [heq]; rfl⟩

theorem frame_append (alternatives : List (List Text)) (sequence parts : List Text) :
    frame alternatives (sequence ++ parts) = (frame alternatives sequence).add parts.length := by
  rw [frame, length_append]
  rfl

theorem frame_snoc (alternatives : List (List Text)) (sequence : List Text) :
    frame (alternatives ++ [sequence]) [] =
      ⟨(frame alternatives sequence).empty || decide ((frame alternatives sequence).parts = 0),
        0⟩ := by
  rw [frame, any_append]
  cases sequence with
  | nil => simp [frame]
  | cons part sequence => simp [frame]

/-! ## The scan -/

/-- What is said about how a call of `process` ends that begins at `s`, inside the groups `fs`. -/
def Accounts (fs : List Frame) (s : Scan) : Except Stop (Text × Text) → Prop
  | .ok (_, it) => it.length ≤ s.2.length ∧ AtEnd it ∧
      ∃ f : Frame, f.Full ∧ ReflTransGen Advances s (f :: fs, it)
  | .error (.threw _) => ∃ t, ReflTransGen Advances s t ∧ advance t = none ∧ ¬Stray t
  | .error .outOfFuel => False
  | .error _ => ∃ t, ReflTransGen Advances s t ∧ Stray t

variable {r : Except Stop (Text × Text)}

theorem Accounts.trans (hsteps : ReflTransGen Advances s t)
    (hlen : t.2.length ≤ s.2.length) (h : Accounts fs t r) : Accounts fs s r := by
  match r with
  | .ok (_, it) =>
    obtain ⟨hle, hend, f, hf, hrest⟩ := h
    exact ⟨hle.trans hlen, hend, f, hf, hsteps.trans hrest⟩
  | .error (.threw _) =>
    obtain ⟨u, hrest, hu⟩ := h
    exact ⟨u, hsteps.trans hrest, hu⟩
  | .error .pastEnd | .error .wrapped =>
    obtain ⟨u, hrest, hu⟩ := h
    exact ⟨u, hsteps.trans hrest, hu⟩

theorem Accounts.head (step : advance s = some t)
    (hlen : t.2.length ≤ s.2.length) (h : Accounts fs t r) : Accounts fs s r :=
  h.trans (.single step) hlen

theorem not_stray_of_not_end (hend : ¬AtEnd (c :: it))
    (hclass : c = '[' → scanClass it ≠ .error .pastEnd) : ¬Stray (fs, c :: it) := by
  intro h
  cases h with
  | emptyAlternative _ hit => exact hend hit
  | backslash h => exact hclass rfl h

theorem not_atEnd_of_ne (hc : c ≠ ')') : ¬AtEnd (c :: it) := by
  rintro (h | ⟨rest, h⟩)
  · cases h
  · exact hc (List.cons.inj h).1

/-- The scan is over and throws. -/
theorem Accounts.threw {e : Error} (hs : advance (fs, c :: it) = none) (hc : c ≠ ')')
    (hclass : c = '[' → scanClass it ≠ .error .pastEnd) {gs : List Frame} :
    Accounts gs (fs, c :: it) (.error (.threw e)) :=
  ⟨_, .refl, hs, not_stray_of_not_end (not_atEnd_of_ne hc) hclass⟩

/-- The end of a group. -/
theorem accounts_emitAll (hit : AtEnd it) : Accounts fs (frame alternatives sequence :: fs, it)
    ((emitAll (alternatives ++ [sequence])).map fun res => (res, it)) := by
  rcases emitAll_full_or alternatives sequence with ⟨hfull, heq⟩ | ⟨hfull, res, heq⟩
  · rw [heq]
    exact ⟨_, .refl, .emptyAlternative hfull hit⟩
  · rw [heq]
    exact ⟨le_refl _, hit, _, hfull, .refl⟩

theorem length_scanEscape_le (it : Text) : (scanEscape it).2.length ≤ it.length := by
  cases it with
  | nil => exact le_refl _
  | cons c it => exact le_succ _

/-- A round that reads parts. -/
theorem Accounts.parts {parts : List Text}
    (step : advance (frame alternatives sequence :: fs, c :: it) =
      some ((frame alternatives sequence).add parts.length :: fs, rest))
    (hlen : rest.length ≤ it.length)
    (h : Accounts fs (frame alternatives (sequence ++ parts) :: fs, rest) r) :
    Accounts fs (frame alternatives sequence :: fs, c :: it) r := by
  rw [frame_append] at h
  exact h.head step (le_succ_of_le hlen)

/-- With this fuel `process` ends as the scan of the frames does. -/
def Accounted (fuel : ℕ) : Prop :=
  ∀ (fs : List Frame) (alternatives : List (List Text)) (sequence : List Text) (it : Text),
    it.length < fuel → Accounts fs (frame alternatives sequence :: fs, it)
      (process fuel alternatives sequence it)

section Rounds

variable (ih : Accounted fuel) (hit : it.length < fuel)
include ih hit

theorem accounts_class : Accounts fs (frame alternatives sequence :: fs, '[' :: it)
    (process (fuel + 1) alternatives sequence ('[' :: it)) := by
  rw [process, if_pos rfl]
  cases hscan : scanClass it with
  | error e =>
    obtain rfl := eq_pastEnd_of_scanClass hscan
    exact ⟨_, .refl, .backslash hscan⟩
  | ok rest =>
    have hlen := length_scanClass hscan
    cases rest with
    | nil =>
      refine Accounts.threw (by simp [advance, hscan]) (by decide) fun _ => ?_
      rw [hscan]
      exact nofun
    | cons d rest =>
      have hrest := (Nat.lt_of_succ_le hlen).le
      exact Accounts.parts (by simp [advance, hscan]) hrest (ih _ _ _ _ (hrest.trans_lt hit))

theorem accounts_quantifier (hc : IsQuantifier c) :
    Accounts fs (frame alternatives sequence :: fs, c :: it)
      (process (fuel + 1) alternatives sequence (c :: it)) := by
  have hclass : c ≠ '[' := by rintro rfl; revert hc; decide
  have hclose : c ≠ ')' := by rintro rfl; revert hc; decide
  rw [process, if_neg hclass, if_pos hc]
  rcases sequence.eq_nil_or_concat' with rfl | ⟨sequence, part, rfl⟩
  · exact Accounts.threw (by simp [advance, hclass, hc, frame]) hclose fun h => absurd h hclass
  · rw [getLast?_concat, dropLast_concat]
    have hlen := length_skipLazy_le c it
    have hnext := ih fs alternatives (sequence ++ [part ++ [c]]) _ (hlen.trans_lt hit)
    refine Accounts.head ?_ (le_succ_of_le hlen) hnext
    simp [advance, hclass, hc, frame]

theorem accounts_repetition : Accounts fs (frame alternatives sequence :: fs, '\x7b' :: it)
    (process (fuel + 1) alternatives sequence ('\x7b' :: it)) := by
  rw [process, if_neg (by decide), if_neg (by decide), if_pos rfl]
  have hthrew : ∀ {e}, advance (frame alternatives sequence :: fs, '\x7b' :: it) = none →
      Accounts fs (frame alternatives sequence :: fs, '\x7b' :: it) (.error (.threw e)) :=
    fun hnone => .threw hnone (by decide) fun h => absurd h (by decide)
  rcases sequence.eq_nil_or_concat' with rfl | ⟨sequence, part, rfl⟩
  · exact hthrew (by simp [advance, IsQuantifier, frame])
  · rw [getLast?_concat, dropLast_concat]
    cases hscan : scanRepetition it with
    | error e =>
      obtain ⟨e', rfl⟩ := threw_of_scanRepetition hscan
      exact hthrew (by simp [advance, IsQuantifier, frame, hscan])
    | ok scanned =>
      obtain ⟨bounds, rest⟩ := scanned
      have hlen := length_scanRepetition hscan
      have hnext := ih fs alternatives (sequence ++ repeatPart part bounds) _ (hlen.trans_lt hit)
      refine Accounts.head ?_ (le_succ_of_le hlen) hnext
      simp [advance, IsQuantifier, frame, hscan, length_repeatPart]

theorem accounts_group : Accounts fs (frame alternatives sequence :: fs, '(' :: it)
    (process (fuel + 1) alternatives sequence ('(' :: it)) := by
  rw [process, if_neg (by decide), if_neg (by decide), if_neg (by decide), if_pos rfl]
  have hlen := length_skipNonCapturing_le it
  have hopen : advance (frame alternatives sequence :: fs, '(' :: it) =
      some (frame [] [] :: frame alternatives sequence :: fs, skipNonCapturing it) := by
    simp [advance, IsQuantifier, frame]
  have hsub := ih (frame alternatives sequence :: fs) [] [] _ (hlen.trans_lt hit)
  cases hprocess : process fuel [] [] (skipNonCapturing it) with
  | error e =>
    rw [hprocess] at hsub
    have hhead := hsub.head hopen (Nat.le_succ_of_le hlen)
    cases e <;> exact hhead
  | ok scanned =>
    obtain ⟨sub, it'⟩ := scanned
    rw [hprocess] at hsub
    obtain ⟨hle, hend, f, hf, hsteps⟩ := hsub
    rcases hend with rfl | ⟨rest, rfl⟩
    · exact ⟨_, .head hopen hsteps, .unclosed⟩
    · -- the nested call has stopped at the parenthesis that closes the group
      have hrest : rest.length ≤ it.length := (Nat.le_succ _).trans (hle.trans hlen)
      have hclose : advance (f :: frame alternatives sequence :: fs, ')' :: rest) =
          some ((frame alternatives sequence).add 1 :: fs, rest) := by
        simp [advance, IsQuantifier, hf]
      have hnext := ih fs alternatives (sequence ++ [['(', '?', ':'] ++ sub ++ [')']]) _
        (hrest.trans_lt hit)
      rw [frame_append] at hnext
      exact hnext.trans ((ReflTransGen.head (r := Advances) hopen hsteps).tail hclose)
        (Nat.le_succ_of_le hrest)

theorem accounts_bar : Accounts fs (frame alternatives sequence :: fs, '|' :: it)
    (process (fuel + 1) alternatives sequence ('|' :: it)) := by
  rw [process, if_neg (by decide), if_neg (by decide), if_neg (by decide), if_neg (by decide),
    if_neg (by decide), if_pos rfl]
  have hnext := ih fs (alternatives ++ [sequence]) [] _ hit
  rw [frame_snoc] at hnext
  refine Accounts.head ?_ (le_succ _) hnext
  simp [advance, IsQuantifier]

end Rounds

/-- The invariant of `process`, round by round. -/
theorem accounted (fuel : ℕ) : Accounted fuel := by
  induction fuel with
  | zero => exact fun _ _ _ _ hfuel => absurd hfuel (not_lt_zero _)
  | succ fuel ih =>
    intro fs alternatives sequence it hfuel
    cases it with
    | nil => exact accounts_emitAll (.inl rfl)
    | cons c it =>
      have hit : it.length < fuel := lt_of_succ_lt_succ hfuel
      by_cases hclass : c = '['
      · exact hclass ▸ accounts_class ih hit
      by_cases hquantifier : IsQuantifier c
      · exact accounts_quantifier ih hit hquantifier
      by_cases hbrace : c = '\x7b'
      · exact hbrace ▸ accounts_repetition ih hit
      by_cases hopen : c = '('
      · exact hopen ▸ accounts_group ih hit
      by_cases hbar : c = '|'
      · exact hbar ▸ accounts_bar ih hit
      rw [process, if_neg hclass, if_neg hquantifier, if_neg hbrace, if_neg hopen]
      by_cases hclose : c = ')'
      · rw [if_pos hclose]
        exact accounts_emitAll (.inr ⟨it, hclose ▸ rfl⟩)
      rw [if_neg hclose, if_neg hbar]
      by_cases hescape : c = '\\'
      · rw [if_pos hescape]
        have hlen := length_scanEscape_le it
        refine Accounts.parts ?_ hlen (ih _ _ _ _ (hlen.trans_lt hit))
        rw [hescape]
        simp [advance, IsQuantifier]
      · rw [if_neg hescape]
        refine Accounts.parts ?_ (le_refl _) (ih _ _ _ _ hit)
        simp [advance, hclass, hquantifier, hbrace, hopen, hclose, hbar, hescape]

/-! ## The pattern -/

/-- The scan comes to this place. -/
def Comes (pattern : Text) (s : Scan) : Prop :=
  ReflTransGen Advances ([⟨false, 0⟩], pattern) s

/-- The function returns a string or throws. -/
def Ends (pattern : Text) : Prop :=
  (∃ res, regexToReversedPartialRegex pattern = .ok res) ∨
    ∃ e, regexToReversedPartialRegex pattern = .error (.threw e)

theorem ends_or_stray (pattern : Text) :
    (Ends pattern ∧ ∃ s, Comes pattern s ∧ advance s = none ∧ ¬Stray s) ∨
      (¬Ends pattern ∧ ∃ s, Comes pattern s ∧ Stray s) := by
  have haccounts : Accounts [] ([⟨false, 0⟩], pattern)
      (process (pattern.length + 1) [] [] pattern) :=
    accounted (pattern.length + 1) [] [] [] pattern (lt_succ_self _)
  rw [Ends, regexToReversedPartialRegex]
  cases hprocess : process (pattern.length + 1) [] [] pattern with
  | error e =>
    rw [hprocess] at haccounts
    cases e with
    | threw e => exact .inl ⟨.inr ⟨e, rfl⟩, haccounts⟩
    | pastEnd =>
      refine .inr ⟨?_, haccounts⟩
      rintro (⟨_, h⟩ | ⟨_, h⟩) <;> cases h
    | wrapped =>
      refine .inr ⟨?_, haccounts⟩
      rintro (⟨_, h⟩ | ⟨_, h⟩) <;> cases h
    | outOfFuel => exact haccounts.elim
  | ok scanned =>
    obtain ⟨res, it⟩ := scanned
    rw [hprocess] at haccounts
    obtain ⟨_, hend, f, hf, hsteps⟩ := haccounts
    have hgood : ¬Stray ([f], it) := by
      intro h
      cases h with
      | emptyAlternative hnot _ => exact hnot hf
      | backslash => rcases hend with h | ⟨_, h⟩ <;> cases h
    rcases hend with rfl | ⟨rest, rfl⟩
    · exact .inl ⟨.inl ⟨_, rfl⟩, _, hsteps, rfl, hgood⟩
    · exact .inl ⟨.inr ⟨_, rfl⟩, _, hsteps, rfl, hgood⟩

/-- **Ends**: the function returns or throws just when the scan comes to no stray place. -/
theorem ends_iff (pattern : Text) : Ends pattern ↔ ∀ s, Comes pattern s → ¬Stray s := by
  rcases ends_or_stray pattern with ⟨hends, s, hs, hover, hgood⟩ | ⟨hends, s, hs, hstray⟩
  · refine iff_of_true hends fun t ht hstray => ?_
    obtain rfl := eq_of_over hs ht hover hstray.advance_eq_none
    exact hgood hstray
  · exact iff_of_false hends fun h => h s hs hstray

/-- An empty alternative makes a loop of `2 ^ 64 - 1` rounds, and where a class is taken to end
too early the parenthesis in it is waited for past the end. -/
theorem not_ends : regexToReversedPartialRegex "a|".toList = .error .wrapped ∧
    regexToReversedPartialRegex "a()".toList = .error .wrapped ∧
    regexToReversedPartialRegex "[[:alpha:](]".toList = .error .pastEnd ∧ ¬Ends "a|".toList := by
  have hwrapped : regexToReversedPartialRegex "a|".toList = .error .wrapped := by decide
  refine ⟨hwrapped, by decide, by decide +kernel, ?_⟩
  rintro (⟨_, h⟩ | ⟨_, h⟩)
  · cases hwrapped.symm.trans h
  · cases hwrapped.symm.trans h

end ExpertPin.Regex
