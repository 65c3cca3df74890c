import ClassForge.Json.Basic

/-!
# Encoding and decoding

How values of the library are written as JSON and read back. A record is read from an object by the
names of its fields, unknown names being ignored, or from an array by their order.
-/

namespace ClassForge.Json

inductive DecodeError where
  /-- Another kind of JSON value is needed. -/
  | invalidType
  | invalidValue
  | missingField (name : String)
  | duplicateField (name : String)
  /-- An array has too few or too many items. -/
  | invalidLength
  | unknownVariant (name : String) (expected : List String)
deriving DecidableEq

def DecodeError.message : DecodeError → String
  | invalidType => "invalid type"
  | invalidValue => "invalid value"
  | missingField name => "missing field \x60" ++ name ++ "\x60"
  | duplicateField name => "duplicate field \x60" ++ name ++ "\x60"
  | invalidLength => "invalid length"
  | unknownVariant name expected =>
    "unknown variant \x60" ++ name ++ "\x60, expected one of " ++ ", ".intercalate expected

class Encode (α : Type) where
  encode : α → Json

class Decode (α : Type) where
  decode : Json → Except DecodeError α

export Encode (encode)
export Decode (decode)

def decodeItems {α : Type} [Decode α] : List Json → Except DecodeError (List α)
  | [] => .ok []
  | v :: rest => do
    let a ← decode v
    let as ← decodeItems rest
    return a :: as

def decodeEntries {α : Type} [Decode α] :
    List (String × Json) → Except DecodeError (List (String × α))
  | [] => .ok []
  | (k, v) :: rest => do
    let a ← decode v
    let as ← decodeEntries rest
    return (k, a) :: as

instance : Encode Bool := ⟨.bool⟩
instance : Encode String := ⟨.string⟩
instance : Encode UInt32 := ⟨fun n => .int n.toNat⟩
instance : Encode UInt64 := ⟨fun n => .int n.toNat⟩
instance : Encode Binary64 := ⟨fun x => if x.isFinite then .float x else .null⟩
instance : Encode Json := ⟨id⟩
instance : Encode Datum := ⟨Datum.json⟩
instance {α : Type} [Encode α] : Encode (List α) := ⟨fun l => .array (l.map encode)⟩
instance {α : Type} [Encode α] : Encode (Option α) := ⟨fun o => (o.map encode).getD .null⟩
instance {α : Type} [Encode α] : Encode (Table α) :=
  ⟨fun t => .object (t.entries.map fun e => (e.1, encode e.2))⟩

def encodeNames (s : NameSet) : Json := .array (s.toNames.map .string)

instance : Decode Bool := ⟨fun
  | .bool b => .ok b
  | _ => .error .invalidType⟩
instance : Decode String := ⟨fun
  | .string s => .ok s
  | _ => .error .invalidType⟩
instance : Decode UInt32 := ⟨fun
  | .int n => if 0 ≤ n ∧ n < UInt32.size then .ok n.toNat.toUInt32 else .error .invalidValue
  | _ => .error .invalidType⟩
instance : Decode UInt64 := ⟨fun
  | .int n => if 0 ≤ n ∧ n < UInt64.size then .ok n.toNat.toUInt64 else .error .invalidValue
  | _ => .error .invalidType⟩
instance : Decode Binary64 := ⟨fun
  | .int n => .ok (Binary64.ofRatio (decide (n < 0)) n.natAbs 1)
  | .float x => .ok x
  | _ => .error .invalidType⟩
instance : Decode Json := ⟨.ok⟩
instance : Decode Datum := ⟨fun j => .ok (.ofJson j)⟩
instance {α : Type} [Decode α] : Decode (List α) := ⟨fun
  | .array l => decodeItems l
  | _ => .error .invalidType⟩
instance {α : Type} [Decode α] : Decode (Option α) := ⟨fun
  | .null => .ok none
  | j => some <$> decode j⟩
instance {α : Type} [Decode α] : Decode (Table α) := ⟨fun
  | .object l => Table.ofList <$> decodeEntries l
  | _ => .error .invalidType⟩

/-! ## Records -/

inductive Source where
  | named (fields : List (String × Json))
  | positional (rest : List Json)

abbrev FieldReader := StateT Source (Except DecodeError)

def next? (name : String) : FieldReader (Option Json) := do
  match ← get with
  | .named fields =>
    match fields.filter (·.1 == name) with
    | [] => return none
    | [(_, v)] => return some v
    | _ => throw (.duplicateField name)
  | .positional [] => return none
  | .positional (v :: rest) =>
    set (Source.positional rest)
    return some v

def absent {α : Type} (name : String) : FieldReader α := do
  match ← get with
  | .named _ => throw (.missingField name)
  | .positional _ => throw .invalidLength

def required {α : Type} [Decode α] (name : String) : FieldReader α := do
  match ← next? name with
  | some v => decode v
  | none => absent name

def defaulted {α : Type} [Decode α] (name : String) (default : α) : FieldReader α := do
  match ← next? name with
  | some v => decode v
  | none => return default

def readFields {α : Type} (reader : FieldReader α) : Json → Except DecodeError α
  | .object fields => reader.run' (.named fields)
  | .array items => do
    let (a, source) ← reader.run (.positional items)
    match source with
    | .positional (_ :: _) => throw .invalidLength
    | _ => return a
  | _ => .error .invalidType

def readVariant {α : Type} (variants : List (String × α)) : Json → Except DecodeError α
  | .string s => pick s
  | .object [(s, .null)] => pick s
  | .object [(s, _)] => do
    let _ ← pick s
    throw .invalidType
  | .object _ => .error .invalidValue
  | _ => .error .invalidType
where
  pick (s : String) : Except DecodeError α :=
    match variants.lookup s with
    | some a => .ok a
    | none => .error (.unknownVariant s (variants.map Prod.fst))

/-! ## Fields that are left out -/

def fieldOf? {α : Type} [Encode α] (name : String) (value : Option α) : List (String × Json) :=
  match value with
  | some a => [(name, encode a)]
  | none => []

def fieldIf (name : String) (flag : Bool) : List (String × Json) :=
  if flag then [(name, .bool true)] else []

def fieldList {α : Type} [Encode α] (name : String) (items : List α) : List (String × Json) :=
  if items.isEmpty then [] else [(name, encode items)]

def fieldTable {α : Type} [Encode α] (name : String) (t : Table α) : List (String × Json) :=
  if t.isEmpty then [] else [(name, encode t)]

end ClassForge.Json
