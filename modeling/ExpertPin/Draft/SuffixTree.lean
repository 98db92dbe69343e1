import Mathlib.Algebra.GroupWithZero.Nat
import ExpertPin.Lib.Trie

/-!
# The suffix tree of a token history

`common_suffix_tree` counts the strings of at most `max_depth` tokens that occur in the
history.  When tokens arrive the windows that were cut off at the old end grow, and new
windows begin.

The sizes are `int`s, and so they wrap for a history of `2 ^ 31` tokens.
-/

namespace ExpertPin.Draft

/-- `llama_token`. -/
abbrev Token := Int32

/-- `(int) n` of a size. -/
def toInt (n : ℕ) : ℤ := (n : ℤ).bmod (2 ^ 32)

theorem toInt_of_lt {n : ℕ} (h : n < 2 ^ 31) : toInt n = n :=
  Int.bmod_eq_of_le (by omega) (by omega)

/-- A node of the tree and its children, with their counts. -/
abbrev SuffixNode := Trie Token Int64

/-- What a new child and one that is there count. -/
def countOne : Option Int64 → Int64
  | none => 1
  | some count => count + 1

structure SuffixTree where
  maxDepth : ℤ
  root : SuffixNode := Trie.leaf 0
  tokens : List Token := []
  inserted : ℤ := 0

/-- The tokens from a position on, as many as are asked for. -/
def window (tokens : List Token) (start len : ℤ) : List Token :=
  (tokens.drop start.toNat).take len.toNat

namespace SuffixTree

def new (maxDepth : ℤ) : SuffixTree where
  maxDepth := maxDepth

variable (t : SuffixTree)

/-- `_insert_suffix`. -/
def insertSuffix (start : ℤ) : SuffixTree :=
  let len := min (toInt t.tokens.length - start) t.maxDepth
  if len ≤ 0 then t else { t with root := t.root.bump countOne (window t.tokens start len) }

/-- `_extend_suffix`. -/
def extendSuffix (start oldLen newLen : ℤ) : SuffixTree :=
  { t with
    root := t.root.bumpFrom countOne (window t.tokens start oldLen)
      (window t.tokens (start + oldLen) (newLen - oldLen)) }

/-- What `extend` does at one position. -/
def extendAt (oldSize newSize : ℤ) (t : SuffixTree) (i : ℤ) : SuffixTree :=
  if i < t.inserted then
    let oldLen := min (oldSize - i) t.maxDepth
    let newLen := min (newSize - i) t.maxDepth
    if oldLen < newLen then t.extendSuffix i oldLen newLen else t
  else t.insertSuffix i

/-- The loop of `extend` over the positions whose windows grow. -/
def extendFrom (oldSize newSize : ℤ) : SuffixTree :=
  let reinsertFrom := max 0 (oldSize - t.maxDepth)
  let positions := (List.range (newSize - reinsertFrom).toNat).map fun (i : ℕ) => reinsertFrom + i
  { positions.foldl (extendAt oldSize newSize) t with inserted := newSize }

def extend (tokens : List Token) : SuffixTree :=
  if tokens.length ≤ 0 then t
  else { t with tokens := t.tokens ++ tokens }.extendFrom (toInt t.tokens.length)
    (toInt (t.tokens ++ tokens).length)

/-- The tree after some histories arrive one after the other. -/
def run (chunks : List (List Token)) : SuffixTree := chunks.foldl extend t

end SuffixTree

end ExpertPin.Draft
