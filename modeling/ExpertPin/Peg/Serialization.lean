import ExpertPin.Lib.JsonValue
import ExpertPin.Peg.Arena

/-!
# Saving and loading an arena

Each kind of parser is written as an object with its fields, and read back from one.  The objects
are maps, and so are those of a schema that is written with a parser.

The library that writes a value as text and reads it from text is a parameter.
-/

namespace ExpertPin.Peg.Saved

open JsonValue

/-! ## Parsers with all their data -/

variable {F : Type}

/-- `common_peg_parser_variant`: the parsers with what the grammar needs of them as well.  A schema
keeps the order of its members. -/
inductive Parser (F : Type)
  | epsilon
  | start
  | end_
  | literal (literal : Text)
  | sequence (children : List UInt64)
  | choice (children : List UInt64)
  | repetition (child : UInt64) (minCount maxCount : Int32)
  | and (child : UInt64)
  | not (child : UInt64)
  | any
  | space
  | chars (pattern : Text) (ranges : List (UInt32 × UInt32)) (negated : Bool)
      (minCount maxCount : Int32)
  | string (delimiter : UInt8)
  | untilOneOf (delimiters : List Text)
  | schema (child : UInt64) (name : Text) (schema : Option (Value F)) (raw : Bool)
  | rule (name : Text) (child : UInt64) (trigger : Bool)
  | ref (name : Text)
  | atomic (child : UInt64)
  | tag (child : UInt64) (tag : Text)
  | gbnf (child : UInt64) (grammar : Text)

/-- The parser that is executed. -/
def node : Parser F → Node
  | .epsilon => .epsilon
  | .start => .start
  | .end_ => .end_
  | .literal literal => .literal literal
  | .sequence children => .sequence (children.map UInt64.toNat)
  | .choice children => .choice (children.map UInt64.toNat)
  | .repetition child minCount maxCount => .repetition child.toNat minCount.toInt maxCount.toInt
  | .and child => .and child.toNat
  | .not child => .not child.toNat
  | .any => .any
  | .space => .space
  | .chars _ ranges negated minCount maxCount =>
    .chars (ranges.map fun r => ⟨r.1.toNat, r.2.toNat⟩) negated minCount.toInt maxCount.toInt
  | .string delimiter => .string delimiter
  | .untilOneOf delimiters => .untilOneOf delimiters
  | .schema child name _ _ => .schema child.toNat name
  | .rule name child _ => .rule name child.toNat
  | .ref name => .ref name
  | .atomic child => .atomic child.toNat
  | .tag child tag => .tag child.toNat tag
  | .gbnf child _ => .gbnf child.toNat

/-- `COMMON_PEG_INVALID_PARSER_ID` -/
def invalidParserId : UInt64 := UInt64.ofNat (2 ^ 64 - 1)

/-- An arena as the builder makes it: rules and the root, if there is one, are parsers that it has.
The rules are a map, here by their names. -/
structure Arena (F : Type) where
  parsers : List (Parser F)
  rules : List (Text × UInt64)
  root : UInt64
  sorted : rules.Pairwise KeyLt
  rules_lt : ∀ r ∈ rules, r.2.toNat < parsers.length
  root_lt : root = invalidParserId ∨ root.toNat < parsers.length

/-- The arena that is executed. -/
def Arena.executed (A : Arena F) : Peg.Arena where
  parsers := A.parsers.map node
  rules name := (A.rules.find? fun r => r.1 = name).map fun r => r.2.toNat
  root := if A.root = invalidParserId then none else some A.root.toNat

/-! ## Writing -/

/-- A string of the source. -/
def name (s : String) : Text := Utf8.encode s.toList

def idValue (i : UInt64) : Value F :=
  .int ⟨i.toNat, by omega, by exact_mod_cast i.toNat_lt⟩

def countValue (i : Int32) : Value F :=
  .int ⟨i.toInt, by have := i.le_toInt; omega, by have := i.toInt_lt; omega⟩

def codeValue (c : UInt32) : Value F :=
  .int ⟨c.toNat, by omega, by have := c.toNat_lt; omega⟩

/-- An object with some fields. -/
def named (fields : List (String × Value F)) : Value F :=
  ofMembers (fields.map fun f => (name f.1, f.2))

def typed (type : String) (fields : List (String × Value F)) : Value F :=
  named (("type", .str (name type)) :: fields)

def serializeRange (range : UInt32 × UInt32) : Value F :=
  named [("start", codeValue range.1), ("end", codeValue range.2)]

/-- A schema becomes a value of the type whose objects are maps. -/
def schemaValue : Option (Value F) → Value F
  | some schema => schema.sortKeys
  | none => .null

/-- `serialize_parser_variant` -/
def serialize : Parser F → Value F
  | .epsilon => typed "epsilon" []
  | .start => typed "start" []
  | .end_ => typed "end" []
  | .literal literal => typed "literal" [("literal", .str literal)]
  | .sequence children => typed "sequence" [("children", .array (children.map idValue))]
  | .choice children => typed "choice" [("children", .array (children.map idValue))]
  | .repetition child minCount maxCount =>
    typed "repetition" [("child", idValue child), ("min_count", countValue minCount),
      ("max_count", countValue maxCount)]
  | .and child => typed "and" [("child", idValue child)]
  | .not child => typed "not" [("child", idValue child)]
  | .any => typed "any" []
  | .space => typed "space" []
  | .chars pattern ranges negated minCount maxCount =>
    typed "chars" [("pattern", .str pattern), ("ranges", .array (ranges.map serializeRange)),
      ("negated", .bool negated), ("min_count", countValue minCount),
      ("max_count", countValue maxCount)]
  | .string delimiter => typed "string" [("delimiter", .str [delimiter])]
  | .untilOneOf delimiters => typed "until" [("delimiters", .array (delimiters.map .str))]
  | .schema child name schema raw =>
    typed "schema" [("child", idValue child), ("name", .str name),
      ("schema", schemaValue schema), ("raw", .bool raw)]
  | .rule name child trigger =>
    typed "rule" [("name", .str name), ("child", idValue child), ("trigger", .bool trigger)]
  | .ref name => typed "ref" [("name", .str name)]
  | .atomic child => typed "atomic" [("child", idValue child)]
  | .tag child tag => typed "tag" [("child", idValue child), ("tag", .str tag)]
  | .gbnf child grammar => typed "gbnf" [("child", idValue child), ("grammar", .str grammar)]

def Arena.toJson (A : Arena F) : Value F :=
  named [("parsers", .array (A.parsers.map serialize)),
    ("rules", ofMembers (A.rules.map fun r => (r.1, idValue r.2))), ("root", idValue A.root)]

/-! ## Reading -/

inductive Error
  | runtime (message : Text)
  /-- `type must be …` -/
  | type (expected : String)
  /-- the text is not JSON -/
  | parse

section Reading

-- How a number that is not an integer is cast to one.
variable (truncate : F → ℤ)

/-- A member that is there. -/
def field (j : Value F) (key : String) : Value F := (j.get? (name key)).getD .null

def contains (j : Value F) (key : String) : Bool := (j.get? (name key)).isSome

def requires (condition : Bool) (message : String) : Except Error Unit :=
  if condition then .ok () else .error (.runtime (name message))

def isString : Value F → Bool
  | .str _ => true
  | _ => false

def isArray : Value F → Bool
  | .array _ => true
  | _ => false

def isObject : Value F → Bool
  | .object _ => true
  | _ => false

def getString : Value F → Except Error Text
  | .str s => .ok s
  | _ => .error (.type "string")

def getBool : Value F → Except Error Bool
  | .bool b => .ok b
  | _ => .error (.type "boolean")

/-- A number of the library's own types. -/
def getId : Value F → Except Error UInt64
  | .int i => .ok (UInt64.ofInt i.value)
  | .float x => .ok (UInt64.ofInt (truncate x))
  | _ => .error (.type "number")

/-- A number of another type, which a boolean is as well. -/
def getNumber {α : Type} (cast : ℤ → α) : Value F → Except Error α
  | .int i => .ok (cast i.value)
  | .float x => .ok (cast (truncate x))
  | .bool b => .ok (cast b.toInt)
  | _ => .error (.type "number")

def getCount : Value F → Except Error Int32 := getNumber truncate Int32.ofInt

def getCode : Value F → Except Error UInt32 := getNumber truncate UInt32.ofInt

def getArray {α : Type} (get : Value F → Except Error α) : Value F → Except Error (List α)
  | .array items => items.mapM get
  | _ => .error (.type "array")

def getMap {α : Type} (get : Value F → Except Error α) : Value F → Except Error (List (Text × α))
  | .object members => members.mapM fun m => do return (m.1, ← get m.2)
  | _ => .error (.type "object")

def deserializeRange (j : Value F) : Except Error (UInt32 × UInt32) := do
  requires (contains j "start" && contains j "end") "char_range missing 'start' or 'end' field"
  let start ← getCode truncate (field j "start")
  let stop ← getCode truncate (field j "end")
  return (start, stop)

/-- `deserialize_parser_variant` -/
def deserialize (j : Value F) : Except Error (Parser F) := do
  requires (contains j "type" && isString (field j "type"))
    "Parser variant JSON missing or invalid 'type' field"
  let type ← getString (field j "type")
  if type = name "epsilon" then return .epsilon
  if type = name "start" then return .start
  if type = name "end" then return .end_
  if type = name "literal" then
    requires (contains j "literal" && isString (field j "literal"))
      "literal parser missing or invalid 'literal' field"
    return .literal (← getString (field j "literal"))
  if type = name "sequence" then
    requires (contains j "children" && isArray (field j "children"))
      "sequence parser missing or invalid 'children' field"
    return .sequence (← getArray (getId truncate) (field j "children"))
  if type = name "choice" then
    requires (contains j "children" && isArray (field j "children"))
      "choice parser missing or invalid 'children' field"
    return .choice (← getArray (getId truncate) (field j "children"))
  if type = name "repetition" then
    requires (contains j "child" && contains j "min_count" && contains j "max_count")
      "repetition parser missing required fields"
    return .repetition (← getId truncate (field j "child"))
      (← getCount truncate (field j "min_count")) (← getCount truncate (field j "max_count"))
  if type = name "and" then
    requires (contains j "child") "and parser missing 'child' field"
    return .and (← getId truncate (field j "child"))
  if type = name "not" then
    requires (contains j "child") "not parser missing 'child' field"
    return .not (← getId truncate (field j "child"))
  if type = name "any" then return .any
  if type = name "space" then return .space
  if type = name "chars" then
    requires (contains j "pattern" && contains j "ranges" && contains j "negated" &&
      contains j "min_count" && contains j "max_count") "chars parser missing required fields"
    let pattern ← getString (field j "pattern")
    let negated ← getBool (field j "negated")
    let minCount ← getCount truncate (field j "min_count")
    let maxCount ← getCount truncate (field j "max_count")
    -- the loop goes over the values of an object as well, and over nothing in a null
    let ranges ← match field j "ranges" with
      | .array items => items.mapM (deserializeRange truncate)
      | .object members => members.mapM fun m => deserializeRange truncate m.2
      | .null => .ok []
      | item => [item].mapM (deserializeRange truncate)
    return .chars pattern ranges negated minCount maxCount
  if type = name "string" then
    requires (contains j "delimiter") "string parser missing delimiter field."
    match ← getString (field j "delimiter") with
    | [] => .error (.runtime (name "string parser delimiter is empty."))
    | delimiter :: _ => return .string delimiter
  if type = name "until" then
    requires (contains j "delimiters" && isArray (field j "delimiters"))
      "until parser missing or invalid 'delimiters' field"
    return .untilOneOf (← getArray getString (field j "delimiters"))
  if type = name "schema" then
    requires (contains j "child" && contains j "name" && contains j "schema" && contains j "raw")
      "schema parser missing required fields"
    let child ← getId truncate (field j "child")
    let name ← getString (field j "name")
    let schema := match field j "schema" with
      | .null => none
      | schema => some schema
    return .schema child name schema (← getBool (field j "raw"))
  if type = name "rule" then
    requires (contains j "name" && contains j "child" && contains j "trigger")
      "rule parser missing required fields"
    return .rule (← getString (field j "name")) (← getId truncate (field j "child"))
      (← getBool (field j "trigger"))
  if type = name "ref" then
    requires (contains j "name" && isString (field j "name"))
      "ref parser missing or invalid 'name' field"
    return .ref (← getString (field j "name"))
  if type = name "atomic" then
    requires (contains j "child") "tag parser missing required fields"
    return .atomic (← getId truncate (field j "child"))
  if type = name "tag" then
    requires (contains j "child" && contains j "tag") "tag parser missing required fields"
    return .tag (← getId truncate (field j "child")) (← getString (field j "tag"))
  if type = name "gbnf" then
    requires (contains j "child" && contains j "grammar") "gbnf parser missing required fields"
    return .gbnf (← getId truncate (field j "child")) (← getString (field j "grammar"))
  .error (.runtime (name "Unknown parser type: " ++ type))

/-- The checks of an arena that has been read.  The rules are gone through in an order that is not
said, here in that of their names. -/
def Arena.check (parsers : List (Parser F)) (rules : List (Text × UInt64))
    (readRoot : Except Error UInt64) : Except Error (Arena F) :=
  match hrule : (mapOf rules).find? fun r => parsers.length ≤ r.2.toNat with
  | some r => .error (.runtime (name "Rule '" ++ r.1 ++ name "' references invalid parser ID: " ++
      name (toString r.2.toNat)))
  | none => do
    let root ← readRoot
    if hroot : root = invalidParserId ∨ root.toNat < parsers.length then
      return ⟨parsers, mapOf rules, root, pairwise_mapOf rules, fun r hr => by
        simpa using List.find?_eq_none.mp hrule r hr, hroot⟩
    else .error (.runtime (name "Root references invalid parser ID: " ++
      name (toString root.toNat)))

/-- `common_peg_arena::from_json` -/
def Arena.fromJson (j : Value F) : Except Error (Arena F) := do
  requires (contains j "parsers" && isArray (field j "parsers"))
    "JSON missing or invalid 'parsers' array"
  requires (contains j "rules" && isObject (field j "rules"))
    "JSON missing or invalid 'rules' object"
  requires (contains j "root") "JSON missing 'root' field"
  let parsers ← getArray (deserialize truncate) (field j "parsers")
  let rules ← getMap (getId truncate) (field j "rules")
  Arena.check parsers rules (getId truncate (field j "root"))

end Reading

/-! ## Texts -/

section Text

variable (truncate : F → ℤ) (dump : Value F → Option Text) (parse : Text → Option (Value F))

/-- `common_peg_arena::save`, which throws where the text of a value cannot be written. -/
def Arena.save (A : Arena F) : Option Text := dump A.toJson

/-- `common_peg_arena::load` -/
def Arena.load (data : Text) : Except Error (Arena F) :=
  match parse data with
  | none => .error .parse
  | some j => Arena.fromJson truncate j

end Text

end ExpertPin.Peg.Saved
