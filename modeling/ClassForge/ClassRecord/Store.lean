import ClassForge.ClassRecord.Codec
import ClassForge.ClassRecord.Extract
import ClassForge.Json.Printer
import ClassForge.Json.Reader

/-!
# Stored class records

Every record is kept in a file of its own, in JSON. Records of another form version count as
missing.
-/

namespace ClassForge

open Json (encode)

/-- Why metadata cannot be read or written. -/
inductive StoreError where
  | io (file : Path) (cause : FileError)
  | malformed (file : Path)
  | source (error : ReadError)
deriving DecidableEq

def StoreError.message : StoreError → String
  | io file cause => "Metadata I/O error on " ++ file.quoted ++ ": " ++ cause.message
  | malformed file => "Corrupt metadata in " ++ file.quoted
  | source e => e.message

def writeIfChanged (file : Path) (text : String) : FileM StoreError Unit := do
  let t ← get
  if (t.read file).toOption = some text then return
  match file.parent? with
  | some d => FileM.changing (·.createDirectories d) (.io d)
  | none => pure ()
  FileM.changing (·.write file text) (.io file)

namespace ClassRecord

def storePath (root : Path) (classname : String) : Path := root.ofClass classname "json"

def load? (t : FileTree) (file : Path) : Except StoreError (Option ClassRecord) :=
  match t.read file with
  | .error .notFound => .ok none
  | .error cause => .error (.io file cause)
  | .ok text =>
    match Json.parse? text with
    | none => .error (.malformed file)
    | some j =>
      let j := j.canonical
      let version : Option Binary64 := (j.field? "version").bind fun v => (Json.decode v).toOption
      if version = some formVersion then
        match (Json.decode j : Except Json.DecodeError ClassRecord) with
        | .ok r => .ok (some r)
        | .error _ => .error (.malformed file)
      else .ok none

def save (r : ClassRecord) (file : Path) : FileM StoreError Unit :=
  writeIfChanged file (encode r).pretty

def remove (file : Path) : FileM StoreError Unit := do
  match (← get).removeFile file with
  | .ok t => set t
  | .error .notFound => pure ()
  | .error cause => throw (.io file cause)

def isStale (r : Option ClassRecord) (time : UInt64) : Bool := r.all fun r => r.lastModified ≠ time

end ClassRecord

end ClassForge
