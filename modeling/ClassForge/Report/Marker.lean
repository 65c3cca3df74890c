import ClassForge.Report.Place

/-!
# Markers

Remarks about a class whose source could be read: warnings and errors with a code, a message and
the place they are about.
-/

namespace ClassForge

open Json (Encode Decode encode)

inductive MarkerLevel where
  | info
  | warning
  | error
deriving DecidableEq, Inhabited

/-- A remark about a class. -/
structure Marker where
  code : String
  level : MarkerLevel
  message : String
  description : String
  classname : String
  place : Option Place := none
deriving DecidableEq, Inhabited

namespace Marker

def unresolvedSymbol : String := "QXC-UNRESOLVED"
def deprecatedClass : String := "QXC-DEPRECATED"
def transformFailed : String := "QXC-TRANSFORM"
def duplicateDefinition : String := "QXC-DUPLICATE-DEFINE"
def classnameMismatch : String := "QXC-CLASSNAME"
def missingClass : String := "QXC-MISSING-CLASS"

def describe (code : String) : String :=
  if code = unresolvedSymbol then "Symbols under a known namespace must resolve to a class or package."
  else if code = deprecatedClass then "The referenced class is marked @deprecated."
  else if code = transformFailed then "The code generation backend rejected this class."
  else if code = duplicateDefinition then "Only the first definition in a file is used."
  else if code = classnameMismatch then "The declared classname should match the file path."
  else if code = missingClass then "A required class has no source file in any library."
  else "Unknown marker."

def make (code : String) (level : MarkerLevel) (classname message : String) : Marker :=
  { code, level, message, description := describe code, classname }

def warning (code classname message : String) : Marker := make code .warning classname message

def error (code classname message : String) : Marker := make code .error classname message

def at_ (m : Marker) (place : Place) : Marker := { m with place := some place }

def isError (m : Marker) : Bool := m.level = .error

def display (m : Marker) : String :=
  match m.place with
  | some p =>
    m.classname ++ " [" ++ toString p.line ++ ":" ++ toString p.column ++ "] " ++ m.code ++ ": " ++
      m.message
  | none => m.classname ++ " " ++ m.code ++ ": " ++ m.message

end Marker

instance : Encode MarkerLevel := ⟨fun
  | .info => .string "info"
  | .warning => .string "warning"
  | .error => .string "error"⟩

instance : Decode MarkerLevel :=
  ⟨Json.readVariant [("info", .info), ("warning", .warning), ("error", .error)]⟩

instance : Encode Marker := ⟨fun m => .object (
  [("code", encode m.code), ("level", encode m.level), ("message", encode m.message),
    ("description", encode m.description), ("classname", encode m.classname)] ++
    Json.fieldOf? "location" m.place)⟩

instance : Decode Marker := ⟨Json.readFields do
  let code ← Json.required "code"
  let level ← Json.required "level"
  let message ← Json.required "message"
  let description ← Json.required "description"
  let classname ← Json.required "classname"
  let place ← Json.defaulted "location" none
  return { code, level, message, description, classname, place }⟩

end ClassForge
