import ClassForge.Json.Codec
import ClassForge.Text.Blank
import ClassForge.Text.Segment

/-!
# Message catalogs

Catalogs in the `.po` format: entries of keyword lines, each with a quoted text that further quoted
lines continue. Of several entries with one message the first counts, and the entry without a
message is the header. The number of a plural form is a 64-bit word, and the forms of an entry have to
fit in memory together.
-/

namespace ClassForge

structure CatalogEntry where
  context : Option String := none
  id : String := ""
  plural : Option String := none
  forms : List String := []
deriving DecidableEq, Inhabited

namespace CatalogEntry

def isTranslated (e : CatalogEntry) : Bool := e.forms.any fun s => !s.isEmpty

def value (e : CatalogEntry) : Json :=
  match e.plural, e.forms with
  | none, [single] => .string single
  | _, forms => .array (forms.map .string)

end CatalogEntry

instance : Json.Encode CatalogEntry := ⟨fun e => .object
  [("msgctxt", Json.encode e.context), ("msgid", Json.encode e.id),
    ("msgidPlural", Json.encode e.plural), ("msgstr", Json.encode e.forms), ("value", e.value)]⟩

structure Catalog where
  locale : String
  entries : Table CatalogEntry := .empty
deriving DecidableEq, Inhabited

/-- Why a catalog cannot be read. -/
inductive CatalogError where
  | tooManyForms
deriving DecidableEq

namespace Catalog

/-! ## Texts -/

def unescape : List Char → List Char
  | [] => []
  | ['\\'] => ['\\']
  | '\\' :: c :: rest =>
    (if c = 'n' then '\n' else if c = 't' then '\t' else if c = 'r' then '\r' else c) :: unescape rest
  | c :: rest => c :: unescape rest

def unquote (cs : List Char) : List Char :=
  let inner := (Text.dropHead? ['"'] cs).bind (Text.dropTail? ['"'])
  unescape (inner.getD cs)

/-! ## Fields -/

/-- What the last keyword line was about. -/
inductive Field where
  | none
  | context
  | id
  | plural
  | form (index : Nat)
deriving DecidableEq

/-- A whole number of 64 bits; a plus may stand before it. -/
def word? (cs : List Char) : Option Nat :=
  let digits := (Text.dropHead? ['+'] cs).getD cs
  if digits.isEmpty || !digits.all Char.isDigit then none
  else
    let n := digits.foldl (fun n c => n * 10 + (c.toNat - 48)) 0
    if n < UInt64.size then some n else none

def formIndex? (keyword : List Char) : Option Nat := do
  let rest ← Text.dropHead? "msgstr[".toList keyword
  let digits ← Text.dropTail? [']'] rest
  word? digits

def maxForms : Nat := 0x7FFFFFFFFFFFFFFF / 24

def setForm (forms : List String) (index : Nat) (text : String) : List String :=
  (forms ++ List.replicate (index + 1 - forms.length) "").set index text

/-! ## Lines -/

def insert (entries : Table CatalogEntry) (e : CatalogEntry) : Table CatalogEntry :=
  if e.id.isEmpty || entries.contains e.id then entries else entries.insert e.id e

structure Reading where
  entries : Table CatalogEntry := .empty
  entry : CatalogEntry := {}
  field : Field := .none
  started : Bool := false

def continueWith (r : Reading) (text : String) : Reading :=
  let e := r.entry
  match r.field with
  | .context => { r with entry := { e with context := some (e.context.getD "" ++ text) } }
  | .id => { r with entry := { e with id := e.id ++ text } }
  | .plural => { r with entry := { e with plural := some (e.plural.getD "" ++ text) } }
  | .form i =>
    { r with entry := { e with forms := e.forms.modify i (· ++ text) } }
  | .none => r

def opens (field : Field) (keyword : List Char) : Bool :=
  keyword = "msgctxt".toList || (keyword = "msgid".toList && field != .context)

def readField (r : Reading) (keyword : List Char) (text : String) : Except CatalogError Reading :=
  let e := r.entry
  if keyword = "msgctxt".toList then
    .ok { r with entry := { e with context := some text }, field := .context }
  else if keyword = "msgid".toList then .ok { r with entry := { e with id := text }, field := .id }
  else if keyword = "msgid_plural".toList then
    .ok { r with entry := { e with plural := some text }, field := .plural }
  else if keyword = "msgstr".toList then
    .ok { r with entry := { e with forms := [text] }, field := .form 0 }
  else
    match formIndex? keyword with
    | some index =>
      if e.forms.length ≤ index ∧ maxForms ≤ index then .error .tooManyForms
      else .ok { r with entry := { e with forms := setForm e.forms index text }, field := .form index }
    | none => .ok { r with field := .none }

def readKeyword (r : Reading) (line : List Char) : Except CatalogError Reading :=
  let (keyword, rest) := (Text.splitOnce Text.isBlank line).getD (line, [])
  let text := String.ofList (unquote (Text.trim rest))
  let r := if opens r.field keyword && r.started then
      { r with entries := insert r.entries r.entry, entry := {} }
    else r
  readField { r with started := true } keyword text

def readLine (r : Reading) (line : List Char) : Except CatalogError Reading :=
  match Text.trim line with
  | [] => .ok r
  | '#' :: _ => .ok r
  | '"' :: rest => .ok (continueWith r (String.ofList (unquote ('"' :: rest))))
  | line => readKeyword r line

def readLines : Reading → List (List Char) → Except CatalogError Reading
  | r, [] => .ok r
  | r, line :: rest => do
    let r ← readLine r line
    readLines r rest

def parse (locale text : String) : Except CatalogError Catalog := do
  let r ← readLines {} (Text.lines text.toList)
  return { locale, entries := if r.started then insert r.entries r.entry else r.entries }

/-! ## Use -/

def get? (c : Catalog) (id : String) : Option CatalogEntry := c.entries.get? id

def size (c : Catalog) : Nat := c.entries.size

def select (c : Catalog) (ids : List String) : Table Json :=
  Table.ofList (ids.filterMap fun id =>
    match c.entries.get? id with
    | some e => if e.isTranslated then some (id, e.value) else none
    | none => none)

def merge (c other : Catalog) : Catalog :=
  let add (t : Table CatalogEntry) (e : String × CatalogEntry) : Table CatalogEntry :=
    if t.contains e.1 then t else t.insert e.1 e.2
  { c with entries := other.entries.entries.foldl add c.entries }

end Catalog

end ClassForge
