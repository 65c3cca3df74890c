import ClassForge.ClassRecord.Store
import ClassForge.Hierarchy
import ClassForge.Symbol

/-!
# Metadata

The records of all classes, the files they come from, and the packages their names make. Classes
whose record has changed are dirty until the metadata is reconciled.
-/

namespace ClassForge

open Json (Encode Decode encode)

structure Metadata where
  rootDir : Path
  records : Table ClassRecord := .empty
  files : Table String := .empty
  packages : Table Bool := .empty
  environmentChecks : Table String := .empty
  dirty : NameSet := .empty
  /-- Remarks on the sources read since they were asked for last. -/
  warnings : List Marker := []

namespace Metadata

def classnames (m : Metadata) : List String := m.records.keys

def record? (m : Metadata) (classname : String) : Option ClassRecord := m.records.get? classname

def classOf? (m : Metadata) (file : Path) : Option String := m.files.get? file.plain

def isPackage (m : Metadata) (name : String) : Bool := m.packages.getD name false

def hierarchy (m : Metadata) : Hierarchy := Hierarchy.build m.records.values

def resolver (m : Metadata) : Resolver :=
  { record? := m.record?, isPackage := m.isPackage, checks := m.environmentChecks }

def snapshot (m : Metadata) : Snapshot :=
  { classes := m.records, packages := m.packages, environmentChecks := m.environmentChecks }

def addEnvironmentChecks (m : Metadata) (checks : Table String) : Metadata :=
  { m with environmentChecks := m.environmentChecks.union checks }

def markDirty (m : Metadata) (classname : String) : Metadata :=
  if m.records.contains classname then { m with dirty := m.dirty.add classname } else m

def takeWarnings (m : Metadata) : List Marker × Metadata := (m.warnings, { m with warnings := [] })

/-! ## Packages -/

def markPackages (packages : Table Bool) (classname : String) : Table Bool :=
  (Text.splitsByLength classname).foldl (fun p split => p.insert split.1 true) packages

def recountPackages (packages : Table Bool) (classnames : List String) : Table Bool :=
  classnames.foldl markPackages (packages.map fun _ _ => false)

def forget (m : Metadata) (classname : String) : Metadata :=
  let records := m.records.erase classname
  { m with
    records
    dirty := m.dirty.erase classname
    packages := recountPackages m.packages records.keys }

/-! ## Adding and removing files -/

def stage (m : Metadata) (file : Path) (time : UInt64) (x : ClassRecord.Extraction) : Metadata :=
  let record := { x.record with lastModified := time, sourceFilename := file.text }
  let classname := record.classname
  let previous := m.classOf? file
  let m := { m with files := m.files.insert file.plain classname }
  let m := match previous with
    | some p => if p = classname then m else m.forget p
    | none => m
  { m with
    records := m.records.insert classname record
    packages := markPackages m.packages classname
    dirty := m.dirty.add classname
    warnings := m.warnings ++ x.warnings }

def isStale (m : Metadata) (classname : Option String) (file : Path) (time : UInt64) : Bool :=
  ClassRecord.isStale ((classname.or (m.classOf? file)).bind m.record?) time

def addClassFile (m : Metadata) (t : FileTree) (classname : Option String) (file : Path)
    (force : Bool) : Except StoreError (Bool × Metadata) := do
  let time ← (t.modified file).mapError (.io file)
  if !force && !m.isStale classname file time then return (false, m)
  let x ← (ClassRecord.ofFile t file classname).mapError .source
  return (true, m.stage file time x)

/-- Reads a file that should define the class it defined before. -/
def addFile (m : Metadata) (t : FileTree) (file : Path) (force : Bool) :
    Except StoreError (Bool × Metadata) := m.addClassFile t (m.classOf? file) file force

def pending? (m : Metadata) (t : FileTree) (force : Bool) (entry : Option String × Path) :
    Option (Path × UInt64 × ClassRecord.Extraction) := do
  let (classname, file) := entry
  let time ← (t.modified file).toOption
  let expected := classname.or (m.classOf? file)
  if !force && !m.isStale expected file time then none
  let x ← (ClassRecord.ofFile t file expected).toOption
  return (file, time, x)

/-- Reads many files, each with the class it should define. Those that cannot be read are left as
they are. Gives the classes whose records are new. -/
def addFiles (m : Metadata) (t : FileTree) (entries : List (Option String × Path)) (force : Bool) :
    List String × Metadata :=
  let found := entries.filterMap (m.pending? t force)
  (found.map fun (_, _, x) => x.record.classname,
    found.foldl (fun m (file, time, x) => m.stage file time x) m)

/-- Drops the class of a file and its stored record; the classes that point at it become dirty. If
the stored record cannot be removed, only the file is forgotten. -/
def removeFile (m : Metadata) (file : Path) (t : FileTree) :
    Except StoreError (Option String) × Metadata × FileTree :=
  match m.classOf? file with
  | none => (.ok none, m, t)
  | some classname =>
    let unregistered := { m with files := m.files.erase file.plain }
    let derived := m.hierarchy.directDerived classname
    let removal : FileM StoreError Unit :=
      if m.records.contains classname then
        ClassRecord.remove (ClassRecord.storePath m.rootDir classname)
      else pure ()
    match removal.run t with
    | (.error e, t) => (.error e, unregistered, t)
    | (.ok _, t) =>
      let m := unregistered.forget classname
      (.ok (some classname), { m with dirty := derived.foldl NameSet.add m.dirty }, t)

/-! ## Storing -/

structure Index where
  classnames : List String
  environmentChecks : Table String

instance : Encode Index := ⟨fun i => .object
  [("classnames", encode i.classnames), ("environmentChecks", encode i.environmentChecks)]⟩

instance : Decode Index := ⟨Json.readFields do
  let classnames ← Json.required "classnames"
  let environmentChecks ← Json.defaulted "environmentChecks" .empty
  return { classnames, environmentChecks }⟩

def indexPath (m : Metadata) : Path := m.rootDir.child "db.json"

def restore (t : FileTree) (m : Metadata) (classname : String) : Metadata :=
  match ClassRecord.load? t (ClassRecord.storePath m.rootDir classname) with
  | .ok (some r) =>
    { m with
      files := m.files.insert (Path.mk r.sourceFilename).plain classname
      records := m.records.insert classname r
      packages := markPackages m.packages classname }
  | _ => m

/-- Adds what is stored. Records that cannot be read, or are of another form version, are left
out. -/
def load (m : Metadata) (t : FileTree) : Except StoreError Metadata :=
  match t.read m.indexPath with
  | .error .notFound => .ok m
  | .error cause => .error (.io m.indexPath cause)
  | .ok text =>
    match (Json.parse? text).bind fun j => (Json.decode j : Except Json.DecodeError Index).toOption with
    | none => .error (.malformed m.indexPath)
    | some index =>
      .ok (index.classnames.foldl (restore t) (m.addEnvironmentChecks index.environmentChecks))

def save (m : Metadata) : FileM StoreError Unit := do
  m.records.entries.forM fun (classname, r) => r.save (ClassRecord.storePath m.rootDir classname)
  let index : Index := { classnames := m.classnames, environmentChecks := m.environmentChecks }
  writeIfChanged m.indexPath (encode index).pretty

end Metadata

end ClassForge
