import ExpertPin.Lib.Utf8
import Mathlib.Algebra.Group.Int.Defs
import Mathlib.Algebra.Group.Nat.Defs
import Mathlib.Data.List.Lex
import Mathlib.Data.List.Sort
import Mathlib.Order.Nat

/-!
# Values of JSON in a program

The members of an object are in an order, and a value whose objects are maps has them in the order
of their keys: `sortKeys` puts them so, and changes just the values that have them in another one
(`sortKeys_eq_self_iff`).

Strings are bytes, integers are those of 64 bits, and the other numbers are of a type of their own.
-/

namespace ExpertPin.JsonValue

open List

universe u

/-- An integer of 64 bits, with a sign or without one. -/
structure Integer where
  value : ℤ
  lower : -2 ^ 63 ≤ value
  upper : value < 2 ^ 64
deriving DecidableEq

inductive Value (F : Type u)
  | null
  | bool (b : Bool)
  | int (i : Integer)
  | float (x : F)
  | str (s : List UInt8)
  | array (items : List (Value F))
  | object (members : List (List UInt8 × Value F))

variable {F : Type u}

/-- Keys are in the order of their bytes. -/
def KeyLe {β : Type u} (a b : List UInt8 × β) : Prop :=
  a.1.map UInt8.toNat ≤ b.1.map UInt8.toNat

instance decidableKeyLe {β : Type u} : DecidableRel (KeyLe (β := β)) := fun _ _ =>
  inferInstanceAs (Decidable (_ ≤ _))

instance totalKeyLe {β : Type u} : Std.Total (KeyLe (β := β)) := ⟨fun _ _ => le_total _ _⟩

instance transKeyLe {β : Type u} : IsTrans (List UInt8 × β) KeyLe := ⟨fun _ _ _ => le_trans⟩

/-- The keys of a map are different. -/
def KeyLt {β : Type u} (a b : List UInt8 × β) : Prop :=
  a.1.map UInt8.toNat < b.1.map UInt8.toNat

instance decidableKeyLt {β : Type u} : DecidableRel (KeyLt (β := β)) := fun _ _ =>
  inferInstanceAs (Decidable (_ < _))

section insertKey

variable {β : Type u} {m a : List UInt8 × β} {l : List (List UInt8 × β)}

/-- An entry of a map, unless there is one with its key. -/
def insertKey (m : List UInt8 × β) : List (List UInt8 × β) → List (List UInt8 × β)
  | [] => [m]
  | a :: l => if KeyLt m a then m :: a :: l else if KeyLt a m then a :: insertKey m l else a :: l

theorem mem_insertKey (h : a ∈ insertKey m l) : a = m ∨ a ∈ l := by
  induction l with
  | nil => exact .inl (mem_singleton.mp h)
  | cons b l ih =>
    rw [insertKey] at h
    split at h
    · exact mem_cons.mp h
    · split at h
      · rcases mem_cons.mp h with rfl | h
        · exact .inr mem_cons_self
        · exact (ih h).imp_right (mem_cons_of_mem b)
      · exact .inr h

theorem pairwise_insertKey (h : l.Pairwise KeyLt) : (insertKey m l).Pairwise KeyLt := by
  induction l with
  | nil => exact pairwise_singleton _ _
  | cons b l ih =>
    rw [insertKey]
    split
    case isTrue hlt =>
      refine h.cons fun c hc => ?_
      rcases mem_cons.mp hc with rfl | hc
      · exact hlt
      · exact lt_trans hlt (rel_of_pairwise_cons h hc)
    case isFalse =>
      split
      case isTrue hlt =>
        refine (ih h.of_cons).cons fun c hc => ?_
        rcases mem_insertKey hc with rfl | hc
        · exact hlt
        · exact rel_of_pairwise_cons h hc
      case isFalse => exact h

/-- The map of some entries. -/
def mapOf (l : List (List UInt8 × β)) : List (List UInt8 × β) := l.foldr insertKey []

theorem pairwise_mapOf (l : List (List UInt8 × β)) : (mapOf l).Pairwise KeyLt := by
  induction l with
  | nil => exact List.Pairwise.nil
  | cons m l ih => exact pairwise_insertKey ih

theorem mapOf_eq_self (h : l.Pairwise KeyLt) : mapOf l = l := by
  induction l with
  | nil => rfl
  | cons m l ih =>
    rw [mapOf, foldr_cons, ← mapOf, ih h.of_cons]
    cases l with
    | nil => rfl
    | cons a l => exact if_pos (rel_of_pairwise_cons h mem_cons_self)

end insertKey

/-- The object that is a map of some members. -/
def ofMembers (members : List (List UInt8 × Value F)) : Value F :=
  .object (members.insertionSort KeyLe)

namespace Value

/-- The member of an object with a key. -/
def get? (key : List UInt8) : Value F → Option (Value F)
  | object members => (members.find? fun m => m.1 = key).map Prod.snd
  | _ => none

mutual

/-- The same value with maps for its objects. -/
def sortKeys : Value F → Value F
  | array items => .array (sortItems items)
  | object members => ofMembers (sortMembers members)
  | v => v

def sortItems : List (Value F) → List (Value F)
  | [] => []
  | item :: items => sortKeys item :: sortItems items

def sortMembers : List (List UInt8 × Value F) → List (List UInt8 × Value F)
  | [] => []
  | (key, value) :: members => (key, sortKeys value) :: sortMembers members

end

mutual

/-- The members of all objects are in the order of their keys. -/
def Sorted : Value F → Prop
  | array items => SortedItems items
  | object members => members.Pairwise KeyLe ∧ SortedMembers members
  | _ => True

def SortedItems : List (Value F) → Prop
  | [] => True
  | item :: items => Sorted item ∧ SortedItems items

def SortedMembers : List (List UInt8 × Value F) → Prop
  | [] => True
  | (_, value) :: members => Sorted value ∧ SortedMembers members

end

mutual

/-- All strings are text. -/
def IsText : Value F → Prop
  | str s => Utf8.Valid s
  | array items => IsTextItems items
  | object members => IsTextMembers members
  | _ => True

def IsTextItems : List (Value F) → Prop
  | [] => True
  | item :: items => IsText item ∧ IsTextItems items

def IsTextMembers : List (List UInt8 × Value F) → Prop
  | [] => True
  | (key, value) :: members => Utf8.Valid key ∧ IsText value ∧ IsTextMembers members

end

theorem map_fst_sortMembers (members : List (List UInt8 × Value F)) :
    (sortMembers members).map Prod.fst = members.map Prod.fst := by
  induction members with
  | nil => rfl
  | cons m members ih => exact congrArg (m.1 :: ·) ih

theorem pairwise_keyLe_iff {β : Type u} {l : List (List UInt8 × β)} : l.Pairwise KeyLe ↔
      (l.map Prod.fst).Pairwise fun a b => a.map UInt8.toNat ≤ b.map UInt8.toNat := by
  rw [pairwise_map]
  rfl

/-- A list that sorting brings to one with the same keys in the same places was sorted. -/
theorem insertionSort_eq_iff {β : Type u} {l l' : List (List UInt8 × β)}
    (hkeys : l'.map Prod.fst = l.map Prod.fst) :
    l'.insertionSort KeyLe = l ↔ l' = l ∧ l.Pairwise KeyLe := by
  constructor
  · intro h
    have hsorted : l.Pairwise KeyLe := h ▸ pairwise_insertionSort KeyLe l'
    have hsorted' : l'.Pairwise KeyLe := by
      rw [pairwise_keyLe_iff, hkeys, ← pairwise_keyLe_iff]
      exact hsorted
    rw [hsorted'.insertionSort_eq] at h
    exact ⟨h, hsorted⟩
  · rintro ⟨rfl, hsorted⟩
    exact hsorted.insertionSort_eq

mutual

/-- Making its objects maps changes the values with members in another order. -/
theorem sortKeys_eq_self_iff : ∀ v : Value F, sortKeys v = v ↔ Sorted v
  | .null | .bool _ | .int _ | .float _ | .str _ => iff_of_true rfl trivial
  | .array items => by
      rw [sortKeys, Value.array.injEq, Sorted]
      exact sortItems_eq_self_iff items
  | .object members => by
      rw [sortKeys, ofMembers, Value.object.injEq, Sorted,
        insertionSort_eq_iff (map_fst_sortMembers members), sortMembers_eq_self_iff members,
        and_comm]

theorem sortItems_eq_self_iff :
    ∀ items : List (Value F), sortItems items = items ↔ SortedItems items
  | [] => iff_of_true rfl trivial
  | item :: items => by
      rw [sortItems, cons.injEq, SortedItems, sortKeys_eq_self_iff item,
        sortItems_eq_self_iff items]

theorem sortMembers_eq_self_iff : ∀ members : List (List UInt8 × Value F),
      sortMembers members = members ↔ SortedMembers members
  | [] => iff_of_true rfl trivial
  | (key, value) :: members => by
      rw [sortMembers, cons.injEq, SortedMembers, Prod.mk.injEq, sortKeys_eq_self_iff value,
        sortMembers_eq_self_iff members, and_iff_right rfl]

end

variable {members : List (List UInt8 × Value F)}

theorem get?_object_iff {key : List UInt8}
    {value : Value F} (h : (members.map Prod.fst).Nodup) :
    (object members).get? key = some value ↔ (key, value) ∈ members := by
  rw [get?]
  induction members with
  | nil => simp
  | cons m members ih =>
    rw [map_cons, nodup_cons] at h
    rw [find?_cons, mem_cons]
    by_cases hkey : m.1 = key
    · have hnot : (key, value) ∉ members := fun hmem =>
        h.1 (hkey ▸ mem_map_of_mem (f := Prod.fst) hmem)
      rw [decide_eq_true hkey, or_iff_left hnot, Prod.ext_iff]
      simp [hkey, eq_comm]
    · have hne : (key, value) ≠ m := fun heq => hkey (congrArg Prod.fst heq).symm
      rw [decide_eq_false hkey, or_iff_right hne]
      exact ih h.2

/-- A map has the members that it is made of. -/
theorem get?_ofMembers (h : (members.map Prod.fst).Nodup)
    (key : List UInt8) : (ofMembers members).get? key = (object members).get? key := by
  have hperm := perm_insertionSort KeyLe members
  ext value
  rw [ofMembers, get?_object_iff ((hperm.map Prod.fst).nodup_iff.mpr h), get?_object_iff h]
  exact hperm.mem_iff

/-! ### Text -/

theorem isTextItems_iff {items : List (Value F)} :
    IsTextItems items ↔ ∀ item ∈ items, item.IsText := by
  induction items with
  | nil => exact iff_of_true trivial fun _ h => absurd h not_mem_nil
  | cons item items ih => rw [IsTextItems, ih, forall_mem_cons]

theorem isTextMembers_iff :
    IsTextMembers members ↔ ∀ m ∈ members, Utf8.Valid m.1 ∧ m.2.IsText := by
  induction members with
  | nil => exact iff_of_true trivial fun _ h => absurd h not_mem_nil
  | cons m members ih => rw [IsTextMembers, ih, forall_mem_cons, and_assoc]

theorem isText_ofMembers_iff :
    (ofMembers members).IsText ↔ ∀ m ∈ members, Utf8.Valid m.1 ∧ m.2.IsText := by
  rw [ofMembers, IsText, isTextMembers_iff]
  exact forall_congr' fun m => by rw [mem_insertionSort]

mutual

theorem isText_sortKeys_iff : ∀ v : Value F, (sortKeys v).IsText ↔ v.IsText
  | .null | .bool _ | .int _ | .float _ | .str _ => Iff.rfl
  | .array items => isTextItems_sortItems_iff items
  | .object members => by
      rw [sortKeys, isText_ofMembers_iff, ← isTextMembers_iff]
      exact isTextMembers_sortMembers_iff members

theorem isTextItems_sortItems_iff :
    ∀ items : List (Value F), IsTextItems (sortItems items) ↔ IsTextItems items
  | [] => Iff.rfl
  | item :: items =>
    and_congr (isText_sortKeys_iff item) (isTextItems_sortItems_iff items)

theorem isTextMembers_sortMembers_iff : ∀ members : List (List UInt8 × Value F),
      IsTextMembers (sortMembers members) ↔ IsTextMembers members
  | [] => Iff.rfl
  | (_, value) :: members =>
    and_congr Iff.rfl
      (and_congr (isText_sortKeys_iff value) (isTextMembers_sortMembers_iff members))

end

end Value

end ExpertPin.JsonValue
