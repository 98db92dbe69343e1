import ExpertPin.Peg.Serialization
import Mathlib.Data.Rat.Init

/-!
# What loading gives back

Each parser is read back as it was written, except for the schemas: their members come back in the
order of their keys, and a schema that is `null` does not come back.
-/

namespace ExpertPin.Peg.Saved

open JsonValue
open List

variable {F : Type} {truncate : F → ℤ}

theorem name_injective : Function.Injective name := by
  intro s t h
  have hlist := congrArg Utf8.decode h
  rw [name, name, Utf8.decode_encode, Utf8.decode_encode] at hlist
  exact String.toList_inj.mp (Option.some.inj hlist)

/-! ## Fields -/

theorem get?_named {fields : List (String × Value F)} (key : String)
    (h : (fields.map Prod.fst).Nodup) :
    (named fields).get? (name key) = (fields.find? fun f => f.1 = key).map Prod.snd := by
  have hnodup : ((fields.map fun f => (name f.1, f.2)).map Prod.fst).Nodup := by
    have hmap := h.map name_injective
    rwa [map_map] at hmap ⊢
  have hfun : (fun m : Text × Value F => decide (m.1 = name key)) ∘
      (fun f : String × Value F => (name f.1, f.2)) = fun f => decide (f.1 = key) := by
    funext f
    exact decide_eq_decide.mpr name_injective.eq_iff
  rw [named, Value.get?_ofMembers hnodup, Value.get?, find?_map, Option.map_map, hfun]
  rfl

theorem getId_idValue (i : UInt64) : getId truncate (idValue i) = .ok i := by
  have hlt := i.toNat_lt
  rw [idValue, getId, UInt64.ofInt]
  dsimp only
  rw [Int.emod_eq_of_lt (by omega) (by omega), Int.toNat_natCast, UInt64.ofNat_toNat]

theorem getCount_countValue (i : Int32) : getCount truncate (countValue i) = .ok i := by
  rw [countValue, getCount, getNumber, Int32.ofInt_toInt]

theorem getCode_codeValue (c : UInt32) : getCode truncate (codeValue c) = .ok c := by
  have hlt := c.toNat_lt
  rw [codeValue, getCode, getNumber, UInt32.ofInt]
  dsimp only
  rw [Int.emod_eq_of_lt (by omega) (by omega), Int.toNat_natCast, UInt32.ofNat_toNat]

theorem mapM_map_ok {α β γ : Type} {f : α → β} {g : β → Except Error γ} {k : α → γ}
    (h : ∀ a, g (f a) = .ok (k a)) (as : List α) : (as.map f).mapM g = .ok (as.map k) := by
  induction as with
  | nil => rfl
  | cons a as ih =>
    rw [map_cons, mapM_cons, h, ih]
    rfl

theorem mapM_map_self {α β : Type} {f : α → β} {g : β → Except Error α} (h : ∀ a, g (f a) = .ok a)
    (as : List α) : (as.map f).mapM g = .ok as := by
  rw [mapM_map_ok (k := id) h, map_id]

/-! ## Parsers -/

/-- A schema as it comes back. -/
def reloadSchema : Option (Value F) → Option (Value F)
  | none => none
  | some schema =>
    match schema.sortKeys with
    | .null => none
    | schema => some schema

/-- A parser as it comes back. -/
def reload : Parser F → Parser F
  | .schema child name schema raw => .schema child name (reloadSchema schema) raw
  | p => p

theorem deserializeRange_serializeRange (range : UInt32 × UInt32) :
    deserializeRange truncate (serializeRange (F := F) range) = .ok range := by
  simp [deserializeRange, serializeRange, requires, contains, field, get?_named,
    getCode_codeValue, bind, Except.bind, pure, Except.pure]

theorem deserialize_serialize (p : Parser F) :
    deserialize truncate (serialize p) = .ok (reload p) := by
  cases p with
  | schema child name schema raw =>
    simp only [serialize, deserialize, requires, contains, field, typed, reload]
    simp [get?_named, isString, getString, getBool, name_injective.eq_iff, getId_idValue, bind,
      Except.bind, pure, Except.pure]
    cases schema with
    | none => rfl
    | some schema => rfl
  | _ =>
    simp [serialize, deserialize, requires, contains, field, typed, get?_named, isString, isArray,
      getString, getBool, getArray, name_injective.eq_iff, getId_idValue, getCount_countValue,
      mapM_map_self getId_idValue, mapM_map_self deserializeRange_serializeRange,
      mapM_map_self (f := Value.str) (g := getString) fun _ => rfl, reload, bind, Except.bind,
      pure, Except.pure]

/-! ## Arenas -/

/-- An arena as it comes back. -/
def Arena.reload (A : Arena F) : Arena F :=
  { A with
    parsers := A.parsers.map Saved.reload
    rules_lt := by simpa using A.rules_lt
    root_lt := by simpa using A.root_lt }

theorem getMap_rules (A : Arena F) :
    getMap (getId truncate) (ofMembers (A.rules.map fun r => (r.1, idValue (F := F) r.2))) =
      .ok A.rules := by
  have hsorted : (A.rules.map fun r => (r.1, idValue (F := F) r.2)).Pairwise KeyLe :=
    pairwise_map.mpr (A.sorted.imp fun h => le_of_lt (α := List ℕ) h)
  rw [ofMembers, hsorted.insertionSort_eq, getMap]
  refine mapM_map_self (fun r => ?_) A.rules
  rw [getId_idValue]
  rfl

theorem Arena.check_self (A : Arena F) : Arena.check A.parsers A.rules (.ok A.root) = .ok A := by
  have hrules := mapOf_eq_self A.sorted
  rw [Arena.check]
  split
  case h_1 r hfind =>
    have hlt := A.rules_lt r (hrules ▸ mem_of_find?_eq_some hfind)
    have hle := find?_some hfind
    exact absurd hlt (by simpa using hle)
  case h_2 hfind =>
    refine (dif_pos A.root_lt).trans ?_
    simp only [hrules]
    rfl

theorem Arena.fromJson_toJson (A : Arena F) : Arena.fromJson truncate A.toJson = .ok A.reload := by
  have hparsers : getArray (deserialize truncate) (.array (A.parsers.map serialize)) =
      .ok (A.parsers.map Saved.reload) := mapM_map_ok deserialize_serialize A.parsers
  have hobject : isObject (ofMembers (A.rules.map fun r => (r.1, idValue (F := F) r.2))) = true :=
    rfl
  have hcheck : Arena.check (A.parsers.map Saved.reload) A.rules (.ok A.root) = .ok A.reload :=
    A.reload.check_self
  simpa [fromJson, toJson, requires, contains, field, get?_named, isArray, hobject, hparsers,
    getMap_rules, getId_idValue, bind, Except.bind] using hcheck

theorem node_reload (p : Parser F) : node (Saved.reload p) = node p := by
  cases p <;> rfl

theorem Arena.executed_reload (A : Arena F) : A.reload.executed = A.executed := by
  have hparsers : (A.parsers.map Saved.reload).map node = A.parsers.map node := by
    rw [map_map]
    exact map_congr_left fun p _ => node_reload p
  rw [executed, executed, reload, hparsers]

/-- The strings of a parser are text. -/
def Parser.IsText : Parser F → Prop
  | .literal s => Utf8.Valid s
  | .chars s _ _ _ _ => Utf8.Valid s
  | .untilOneOf strings => ∀ s ∈ strings, Utf8.Valid s
  | .schema _ s v _ => Utf8.Valid s ∧ ∀ v' ∈ v, v'.IsText
  | .rule s _ _ => Utf8.Valid s
  | .ref s => Utf8.Valid s
  | .tag _ s => Utf8.Valid s
  | .gbnf _ s => Utf8.Valid s
  | _ => True

structure Arena.IsText (A : Arena F) : Prop where
  parsers : ∀ p ∈ A.parsers, p.IsText
  rules : ∀ r ∈ A.rules, Utf8.Valid r.1

/-- A string parser has a delimiter that is text, and a schema is not `null` and has the members of
its objects in the order of their keys. -/
def Parser.Returns : Parser F → Prop
  | .string b => b.toNat < 128
  | .schema _ _ (some v) _ => v ≠ .null ∧ v.Sorted
  | _ => True

theorem valid_name (s : String) : Utf8.Valid (name s) := ⟨s.toList, rfl⟩

theorem isText_named_iff {fields : List (String × Value F)} :
    (named fields).IsText ↔ ∀ f ∈ fields, f.2.IsText := by
  rw [named, Value.isText_ofMembers_iff, forall_mem_map]
  exact forall₂_congr fun f _ => and_iff_right (valid_name f.1)

theorem isText_array_map_iff {α : Type} {f : α → Value F} {as : List α} :
    (Value.array (as.map f)).IsText ↔ ∀ a ∈ as, (f a).IsText := by
  rw [Value.IsText, Value.isTextItems_iff, forall_mem_map]

theorem isText_schemaValue {schema : Option (Value F)} (h : ∀ v ∈ schema, v.IsText) :
    (schemaValue schema).IsText := by
  cases schema with
  | none => trivial
  | some v => exact (Value.isText_sortKeys_iff v).mpr (h v rfl)

theorem isText_serializeRange (range : UInt32 × UInt32) :
    (serializeRange (F := F) range).IsText := by
  simp [serializeRange, isText_named_iff, codeValue, Value.IsText]

/-- What is written of a parser is text, but for the delimiter of a string. -/
theorem isText_serialize_iff {p : Parser F} (h : p.IsText) :
    (serialize p).IsText ↔ ∀ delimiter, p = .string delimiter → delimiter.toNat < 128 := by
  cases p with
  | schema child name schema raw =>
    simp [serialize, typed, isText_named_iff, Value.IsText, valid_name, h.1,
      isText_schemaValue h.2, idValue]
  | chars pattern ranges negated minCount maxCount =>
    have hranges : (Value.array (ranges.map (serializeRange (F := F)))).IsText :=
      isText_array_map_iff.mpr fun range _ => isText_serializeRange range
    rw [Value.IsText] at hranges
    have hpattern : Utf8.Valid pattern := h
    simp [serialize, typed, isText_named_iff, Value.IsText, valid_name, hpattern, hranges,
      countValue]
  | _ =>
    simp_all [serialize, typed, isText_named_iff, Value.isTextItems_iff, Value.IsText,
      valid_name, Parser.IsText, Utf8.valid_singleton_iff, idValue, countValue]

theorem Arena.isText_toJson_iff {A : Arena F} (h : A.IsText) :
    A.toJson.IsText ↔ ∀ delimiter, .string delimiter ∈ A.parsers → delimiter.toNat < 128 := by
  have hrules : (ofMembers (A.rules.map fun r => (r.1, idValue (F := F) r.2))).IsText := by
    rw [Value.isText_ofMembers_iff, forall_mem_map]
    exact fun r hr => ⟨h.rules r hr, trivial⟩
  have hroot : (idValue (F := F) A.root).IsText := trivial
  simp only [toJson, isText_named_iff, forall_mem_cons, hrules, hroot, and_true,
    not_mem_nil, false_imp_iff, implies_true]
  rw [Value.IsText, Value.isTextItems_iff, forall_mem_map]
  constructor
  · exact fun hall delimiter hmem =>
      (isText_serialize_iff (h.parsers _ hmem)).mp (hall _ hmem) delimiter rfl
  · intro hall p hp
    refine (isText_serialize_iff (h.parsers p hp)).mpr ?_
    rintro delimiter rfl
    exact hall delimiter hp

theorem reloadSchema_eq_self_iff {v : Value F} :
    reloadSchema (some v) = some v ↔ v ≠ .null ∧ v.Sorted := by
  rw [← Value.sortKeys_eq_self_iff]
  cases v <;> simp [reloadSchema, Value.sortKeys, ofMembers]

theorem Parser.returns_iff {p : Parser F} :
    p.Returns ↔ (∀ delimiter, p = .string delimiter → delimiter.toNat < 128) ∧ reload p = p := by
  cases p with
  | schema child name schema raw =>
    cases schema with
    | none => simp [Returns, reload, reloadSchema]
    | some v => simp [Returns, reload, reloadSchema_eq_self_iff]
  | _ => simp [Returns, reload]

theorem Arena.reload_eq_self_iff {A : Arena F} :
    A.reload = A ↔ ∀ p ∈ A.parsers, Saved.reload p = p := by
  constructor
  · intro h p hp
    have hparsers : A.parsers.map Saved.reload = A.parsers.map id := by
      rw [map_id]
      exact congrArg Arena.parsers h
    exact map_inj_left.mp hparsers p hp
  · intro h
    have hparsers : A.parsers.map Saved.reload = A.parsers :=
      (map_congr_left h).trans (map_id A.parsers)
    obtain ⟨parsers, rules, root, sorted, rules_lt, root_lt⟩ := A
    rw [reload, Arena.mk.injEq]
    exact ⟨hparsers, rfl, rfl⟩

/-- What is saved comes back as it was just if each parser does.  The library writes a value if its
strings are text, and reads back what it has written. -/
theorem load_save_iff {dump : Value F → Option Text} {parse : Text → Option (Value F)}
    {A : Arena F} (htext : A.IsText) (hdump : (A.save dump).isSome ↔ A.toJson.IsText)
    (hparse : ∀ data, A.save dump = some data → parse data = some A.toJson) :
    (∃ data, A.save dump = some data ∧ Arena.load truncate parse data = .ok A) ↔
      ∀ p ∈ A.parsers, p.Returns := by
  have hload : ∀ data, A.save dump = some data → Arena.load truncate parse data = .ok A.reload := by
    intro data hdata
    rw [Arena.load, hparse data hdata]
    exact A.fromJson_toJson
  constructor
  · rintro ⟨data, hdata, hloaded⟩ p hp
    refine Parser.returns_iff.mpr ⟨?_, ?_⟩
    · rintro delimiter rfl
      have hsome : (A.save dump).isSome := by rw [hdata]; rfl
      exact (Arena.isText_toJson_iff htext).mp (hdump.mp hsome) delimiter hp
    · have hself : A.reload = A := Except.ok.inj ((hload data hdata).symm.trans hloaded)
      exact Arena.reload_eq_self_iff.mp hself p hp
  · intro hall
    have hsome : (A.save dump).isSome := by
      refine hdump.mpr ((Arena.isText_toJson_iff htext).mpr fun delimiter hp => ?_)
      exact (Parser.returns_iff.mp (hall _ hp)).1 delimiter rfl
    obtain ⟨data, hdata⟩ := Option.isSome_iff_exists.mp hsome
    refine ⟨data, hdata, (hload data hdata).trans (congrArg Except.ok ?_)⟩
    exact Arena.reload_eq_self_iff.mpr fun p hp => (Parser.returns_iff.mp (hall p hp)).2

/-! ## A schema in two orders -/

section SchemaArena

/-- A schema with two members, attached to the content of a string. -/
def schemaArena (first second : String) : Arena ℚ where
  parsers := [.string 34, .schema 0 (name "args")
    (some (.object [(name first, .bool true), (name second, .bool true)])) false]
  rules := []
  root := 1
  sorted := List.Pairwise.nil
  rules_lt := List.forall_mem_nil _
  root_lt := .inr Nat.one_lt_two

/-- What is written, in either order. -/
def schemaText : Text :=
  name ("\x7b\"parsers\":[\x7b\"delimiter\":\"\\\"\",\"type\":\"string\"\x7d," ++
    "\x7b\"child\":0,\"name\":\"args\",\"raw\":false," ++
    "\"schema\":\x7b\"a\":true,\"b\":true\x7d,\"type\":\"schema\"\x7d]," ++
    "\"root\":1,\"rules\":\x7b\x7d\x7d")

def readSchemaText (data : Text) : Option (Value ℚ) :=
  if data = schemaText then some (schemaArena "a" "b").toJson else none

def truncateRat (x : ℚ) : ℤ := x.num.tdiv x.den

theorem isText_schemaArena : (schemaArena "a" "b").IsText where
  parsers := by
    refine forall_mem_cons.mpr ⟨trivial, forall_mem_singleton.mpr ⟨valid_name _, ?_⟩⟩
    rintro v ⟨⟩
    exact ⟨valid_name _, trivial, valid_name _, trivial, trivial⟩
  rules := forall_mem_nil _

theorem returns_schemaArena : ∀ p ∈ (schemaArena "a" "b").parsers, p.Returns := by
  have hquote : (34 : UInt8).toNat < 128 := by decide
  have hsorted : [(name "a", Value.bool (F := ℚ) true), (name "b", .bool true)].Pairwise KeyLe := by
    decide
  exact forall_mem_cons.mpr ⟨hquote, forall_mem_singleton.mpr
    ⟨nofun, hsorted, trivial, trivial, trivial⟩⟩

theorem readSchemaText_schemaText :
    readSchemaText schemaText = some (schemaArena "a" "b").toJson := by
  rw [readSchemaText, if_pos rfl]

theorem load_save_in_order :
    ∃ data, (schemaArena "a" "b").save (fun _ => some schemaText) = some data ∧
      Arena.load truncateRat readSchemaText data = .ok (schemaArena "a" "b") := by
  refine (load_save_iff isText_schemaArena ?_ ?_).mpr returns_schemaArena
  · refine iff_of_true rfl ((Arena.isText_toJson_iff isText_schemaArena).mpr fun delimiter h => ?_)
    exact (Parser.returns_iff.mp (returns_schemaArena _ h)).1 delimiter rfl
  · intro data hdata
    rw [← Option.some.inj hdata, readSchemaText_schemaText]

theorem load_save_reorders :
    ¬ ∃ data, (schemaArena "b" "a").save (fun _ => some schemaText) = some data ∧
      Arena.load truncateRat readSchemaText data = .ok (schemaArena "b" "a") := by
  rintro ⟨data, hdata, hload⟩
  have hself : (schemaArena "a" "b").reload = schemaArena "a" "b" :=
    Arena.reload_eq_self_iff.mpr fun p hp => (Parser.returns_iff.mp (returns_schemaArena p hp)).2
  rw [← Option.some.inj hdata, Arena.load, readSchemaText_schemaText] at hload
  have hsame : schemaArena "a" "b" = schemaArena "b" "a" := by
    rw [← hself]
    exact Except.ok.inj ((Arena.fromJson_toJson _).symm.trans hload)
  simp [schemaArena, name_injective.eq_iff] at hsame

end SchemaArena

end ExpertPin.Peg.Saved
