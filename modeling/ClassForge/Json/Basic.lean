import ClassForge.Number.Binary64
import ClassForge.Table

/-!
# JSON values

A JSON value keeps the fields of an object in the order in which they were written, repeated names
included. `Json.canonical` sorts the fields by name and keeps the last of each name; a `Datum` is a
value in that form, so that equal contents are equal values.
-/

namespace ClassForge

/-- A JSON value. Whole numbers and floating-point numbers are told apart. -/
inductive Json where
  | null
  | bool (b : Bool)
  | int (n : Int)
  | float (x : Binary64)
  | string (s : String)
  | array (items : List Json)
  | object (fields : List (String × Json))

namespace Json

instance : Inhabited Json := ⟨.null⟩

mutual

def same : Json → Json → Bool
  | .null, .null => true
  | .bool a, .bool b => a == b
  | .int a, .int b => a == b
  | .float a, .float b => a == b
  | .string a, .string b => a == b
  | .array a, .array b => sameItems a b
  | .object a, .object b => sameFields a b
  | _, _ => false

def sameItems : List Json → List Json → Bool
  | [], [] => true
  | a :: as, b :: bs => same a b && sameItems as bs
  | _, _ => false

def sameFields : List (String × Json) → List (String × Json) → Bool
  | [], [] => true
  | (k, a) :: as, (l, b) :: bs => k == l && same a b && sameFields as bs
  | _, _ => false

end

mutual

theorem same_iff : (a b : Json) → (same a b = true ↔ a = b)
  | .null, b => by cases b <;> simp [same]
  | .bool _, b => by cases b <;> simp [same]
  | .int _, b => by cases b <;> simp [same]
  | .float _, b => by cases b <;> simp [same]
  | .string _, b => by cases b <;> simp [same]
  | .array as, b => by
    cases b <;> simp [same]
    exact sameItems_iff as _
  | .object as, b => by
    cases b <;> simp [same]
    exact sameFields_iff as _

theorem sameItems_iff : (as bs : List Json) → (sameItems as bs = true ↔ as = bs)
  | [], bs => by cases bs <;> simp [sameItems]
  | a :: as, [] => by simp [sameItems]
  | a :: as, b :: bs => by simp [sameItems, same_iff a b, sameItems_iff as bs]

theorem sameFields_iff : (as bs : List (String × Json)) → (sameFields as bs = true ↔ as = bs)
  | [], bs => by cases bs <;> simp [sameFields]
  | (_, _) :: _, [] => by simp [sameFields]
  | (k, a) :: as, (l, b) :: bs => by
    simp [sameFields, same_iff a b, sameFields_iff as bs]

end

instance : DecidableEq Json := fun a b => decidable_of_iff _ (same_iff a b)

mutual

/-- The value with the fields of every object sorted by name, of equal names the last. -/
def canonical : Json → Json
  | .array items => .array (canonicalItems items)
  | .object fields => .object (Table.ofList (canonicalFields fields)).entries
  | .null => .null
  | .bool b => .bool b
  | .int n => .int n
  | .float x => .float x
  | .string s => .string s

def canonicalItems : List Json → List Json
  | [] => []
  | v :: rest => canonical v :: canonicalItems rest

/-- Every field's value in canonical form. -/
def canonicalFields : List (String × Json) → List (String × Json)
  | [] => []
  | (k, v) :: rest => (k, canonical v) :: canonicalFields rest

end

theorem canonicalFields_eq_self {l : List (String × Json)} (h : ∀ e ∈ l, e.2.canonical = e.2) :
    canonicalFields l = l := by
  induction l with
  | nil => rfl
  | cons x rest ih =>
    obtain ⟨k, v⟩ := x
    simp [canonicalFields, h (k, v) List.mem_cons_self,
      ih fun e he => h e (List.mem_cons_of_mem _ he)]

mutual

@[simp] theorem canonical_canonical : (j : Json) → j.canonical.canonical = j.canonical
  | .null | .bool _ | .int _ | .float _ | .string _ => by simp [canonical]
  | .array items => by simp [canonical, canonicalItems_canonicalItems items]
  | .object fields => by
    have h := canonicalFields_eq_self (l := (Table.ofList (canonicalFields fields)).entries)
      fun e he => canonical_of_mem_canonicalFields fields e (Table.mem_ofList he)
    simp [canonical, h]

theorem canonicalItems_canonicalItems :
    (l : List Json) → canonicalItems (canonicalItems l) = canonicalItems l
  | [] => rfl
  | v :: rest => by
    simp [canonicalItems, canonical_canonical v, canonicalItems_canonicalItems rest]

theorem canonical_of_mem_canonicalFields :
    (l : List (String × Json)) → ∀ e ∈ canonicalFields l, e.2.canonical = e.2
  | [], _, h => by cases h
  | (k, v) :: rest, e, h => by
    rcases List.mem_cons.1 h with rfl | h
    · exact canonical_canonical v
    · exact canonical_of_mem_canonicalFields rest e h

end

def field? (name : String) : Json → Option Json
  | .object fields => fields.reverse.lookup name
  | _ => none

def string? : Json → Option String
  | .string s => some s
  | _ => none

def items? : Json → Option (List Json)
  | .array items => some items
  | _ => none

def fields? : Json → Option (List (String × Json))
  | .object fields => some fields
  | _ => none

end Json

structure Datum where
  json : Json
  isCanonical : json.canonical = json
deriving DecidableEq

def Datum.ofJson (j : Json) : Datum := ⟨j.canonical, j.canonical_canonical⟩

instance : Inhabited Datum := ⟨.ofJson .null⟩

end ClassForge
