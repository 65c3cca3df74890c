import ClassForge.Json.Codec
import ClassForge.Text.Blank
import ClassForge.Text.Segment
import ClassForge.Text.WordChar

/-!
# Documentation comments

The description and the tags of a documentation comment. A parameter's type stands in braces before
or after its name; a parameter is optional if its name is in square brackets or ends in a question
mark, or if its type ends in a question mark or an equals sign. Directives are tags with arguments
in parentheses.
-/

namespace ClassForge

open Json (Encode Decode encode)

/-- A documented parameter. -/
structure DocParam where
  name : String := ""
  typeText : Option String := none
  optional : Bool := false
  defaultValue : Option String := none
  description : String := ""
deriving DecidableEq, Inhabited

structure DocReturn where
  typeText : Option String := none
  description : String := ""
deriving DecidableEq, Inhabited

/-- A documentation comment: other tags than parameters and return values are kept by name, their
values in the order of the text. -/
structure DocComment where
  description : String := ""
  params : List DocParam := []
  returns : Option DocReturn := none
  tags : Table (List String) := .empty
deriving DecidableEq, Inhabited

namespace DocComment

/-! ## Types and parameters -/

/-- The text up to the brace that closes the innermost open one, where `depth` further braces are
open, and what follows that brace. -/
def untilClosed : (depth : Nat) → List Char → Option (List Char × List Char)
  | _, [] => none
  | depth, c :: rest =>
    if c = '\x7b' then (untilClosed (depth + 1) rest).map fun (a, b) => (c :: a, b)
    else if c = '\x7d' then
      match depth with
      | 0 => some ([], rest)
      | depth + 1 => (untilClosed depth rest).map fun (a, b) => (c :: a, b)
    else (untilClosed depth rest).map fun (a, b) => (c :: a, b)

def takeType (cs : List Char) : Option (List Char) × List Char :=
  match Text.trimStart cs with
  | [] => (none, [])
  | c :: rest =>
    if c = '\x7b' then
      match untilClosed 0 rest with
      | some (inner, after) => (some (Text.trim inner), after)
      | none => (none, c :: rest)
    else (none, c :: rest)

def endsName (c : Char) : Bool := Text.isBlank c || c = '\x7b'

def paramParts (value : List Char) : List Char × Option (List Char) × List Char :=
  let (before, rest) := takeType value
  let rest := Text.trimStart rest
  let name := rest.takeWhile (!endsName ·)
  let rest := rest.dropWhile (!endsName ·)
  match before with
  | some t => (name, some t, rest)
  | none =>
    match takeType rest with
    | (some t, after) => (name, some t, after)
    | (none, _) => (name, none, rest)

def bracketed? (name : List Char) : Option (List Char) := do
  let inner ← Text.dropHead? ['['] name
  Text.dropTail? [']'] inner

def unmarked? (t : List Char) : Option (List Char) :=
  (Text.dropTail? ['?'] t <|> Text.dropTail? ['='] t).map Text.trim

def paramOf (name : List Char) (type : Option (List Char)) (description : List Char) : DocParam :=
  let (inBrackets, name, value) := match bracketed? name with
    | some inner =>
      match Text.splitOnce (· = '=') inner with
      | some (before, after) => (true, before, some (Text.trim after))
      | none => (true, inner, none)
    | none => (false, name, none)
  let (questioned, name) := match Text.dropTail? ['?'] name with
    | some stripped => (true, stripped)
    | none => (false, name)
  let (marked, type) := match type with
    | some t =>
      match unmarked? t with
      | some stripped => (true, some stripped)
      | none => (false, some t)
    | none => (false, none)
  { name := String.ofList (Text.trim name)
    typeText := type.map String.ofList
    optional := inBrackets || questioned || marked
    defaultValue := value.map String.ofList
    description := String.ofList (Text.trim description) }

def param? (value : List Char) : Option DocParam :=
  match paramParts value with
  | ([], _) => none
  | (name, type, description) => some (paramOf name type description)

/-! ## Lines -/

def tagLine? (line : List Char) : Option (List Char × List Char) :=
  match Text.trimStart line with
  | '@' :: c :: rest =>
    let inName (d : Char) : Bool := Text.isWordChar d || d = '-'
    if c.isAlpha then some (c :: rest.takeWhile inName, rest.dropWhile inName) else none
  | _ => none

/-- A line without the blanks around it and without the star and the space it may start with. -/
def lineText (line : List Char) : List Char :=
  let line := Text.trim line
  let line := (Text.dropHead? ['*'] line).getD line
  (Text.dropHead? [' '] line).getD line

def addTag (doc : DocComment) (name value : List Char) : DocComment :=
  let value := Text.trim value
  if name = "param".toList then
    match param? value with
    | some p => { doc with params := doc.params ++ [p] }
    | none => doc
  else if name = "return".toList ∨ name = "returns".toList then
    let (type, rest) := takeType value
    let returns : DocReturn :=
      { typeText := type.map String.ofList, description := String.ofList (Text.trim rest) }
    { doc with returns := some returns }
  else
    let name := String.ofList name
    { doc with tags := doc.tags.insert name (doc.tags.getD name [] ++ [String.ofList value]) }

def readLines (doc : DocComment) (description : List (List Char)) :
    (current : Option (List Char × List Char)) → List (List Char) → DocComment
  | current, [] =>
    let doc := match current with
      | some (name, value) => doc.addTag name value
      | none => doc
    { doc with
      description := String.ofList (Text.trim (['\n'].intercalate description.reverse)) }
  | current, line :: rest =>
    let line := lineText line
    match tagLine? line with
    | some tag =>
      let doc := match current with
        | some (name, value) => doc.addTag name value
        | none => doc
      readLines doc description (some tag) rest
    | none =>
      match current with
      | some (name, value) => readLines doc description (some (name, value ++ '\n' :: Text.trim line)) rest
      | none => readLines doc (line :: description) none rest

def body (comment : List Char) : List Char :=
  Text.dropTails "*/".toList (Text.dropHeads "/**".toList (Text.trim comment))

def parse (comment : String) : DocComment :=
  readLines {} [] none (Text.lines (body comment.toList))

/-! ## Queries -/

def param (doc : DocComment) (name : String) : Option DocParam := doc.params.find? (·.name = name)

def tag? (doc : DocComment) (name : String) : Option (List String) := doc.tags.get? name

def hasTag (doc : DocComment) (name : String) : Bool := doc.tags.contains name

def isDeprecated (doc : DocComment) : Bool := doc.hasTag "deprecated"

def arguments (value : String) : List String :=
  match Text.dropHead? ['('] (Text.trim value.toList) with
  | none => []
  | some inner =>
    match Text.splitOnce (· = ')') inner with
    | none => []
    | some (args, _) =>
      (((Text.splitOn ',' (Text.trim args)).map Text.trim).filter (!·.isEmpty)).map String.ofList

def directives (doc : DocComment) (name : String) : List String :=
  (doc.tags.getD name []).flatMap arguments

end DocComment

/-! ## JSON form -/

instance : Encode DocParam := ⟨fun p => .object (
  [("name", encode p.name)] ++ Json.fieldOf? "type" p.typeText ++ [("optional", encode p.optional)] ++
    Json.fieldOf? "defaultValue" p.defaultValue ++ [("description", encode p.description)])⟩

instance : Decode DocParam := ⟨Json.readFields do
  let name ← Json.required "name"
  let typeText ← Json.defaulted "type" none
  let optional ← Json.defaulted "optional" false
  let defaultValue ← Json.defaulted "defaultValue" none
  let description ← Json.defaulted "description" ""
  return { name, typeText, optional, defaultValue, description }⟩

instance : Encode DocReturn := ⟨fun r => .object (
  Json.fieldOf? "type" r.typeText ++ [("description", encode r.description)])⟩

instance : Decode DocReturn := ⟨Json.readFields do
  let typeText ← Json.defaulted "type" none
  let description ← Json.defaulted "description" ""
  return { typeText, description }⟩

instance : Encode DocComment := ⟨fun d => .object (
  [("description", encode d.description)] ++ Json.fieldList "params" d.params ++
    Json.fieldOf? "returns" d.returns ++ Json.fieldTable "tags" d.tags)⟩

instance : Decode DocComment := ⟨Json.readFields do
  let description ← Json.defaulted "description" ""
  let params ← Json.defaulted "params" []
  let returns ← Json.defaulted "returns" none
  let tags ← Json.defaulted "tags" .empty
  return { description, params, returns, tags }⟩

end ClassForge
