import ClassForge.Files.Path
import ClassForge.Text.Dotted

/-!
# File trees

The files and directories a build reads and writes. Every operation either succeeds or leaves the
tree as it was; what fails is said by a `FileError`.
-/

namespace ClassForge

inductive FileNode where
  | directory
  | file (text : String) (modified : UInt64)
deriving DecidableEq

/-- Why an operation on files fails. -/
inductive FileError where
  | notFound
  | notDirectory
  | isDirectory
  | nameTooLong
  | invalidName
deriving DecidableEq

def FileError.message : FileError → String
  | notFound => "No such file or directory (os error 2)"
  | notDirectory => "Not a directory (os error 20)"
  | isDirectory => "Is a directory (os error 21)"
  | nameTooLong => "File name too long (os error 36)"
  | invalidName => "file name contained an unexpected NUL byte"

/-- The names that lead from the root to a file or directory, the last name first. -/
abbrev Trail := List String

structure FileTree where
  nodes : Table FileNode := .empty
  now : UInt64 := 0

namespace FileTree

def keyOf (trail : Trail) : String := "/" ++ "/".intercalate trail.reverse

def node? (t : FileTree) (trail : Trail) : Option FileNode :=
  if trail.isEmpty then some .directory else t.nodes.get? (keyOf trail)

def needDirectory (t : FileTree) (trail : Trail) : Except FileError Unit :=
  match t.node? trail with
  | some .directory => .ok ()
  | some (.file ..) => .error .notDirectory
  | none => .error .notFound

def needName (name : String) : Except FileError Unit :=
  if name.toList.contains (Char.ofNat 0) then .error .invalidName
  else if 255 < name.utf8ByteSize then .error .nameTooLong
  else .ok ()

def follow (t : FileTree) (trail : Trail) : PathPart → Except FileError Trail
  | .root => .ok []
  | .here => .ok trail
  | .up => do
    t.needDirectory trail
    return trail.tail
  | .name s => do
    t.needDirectory trail
    needName s
    return s :: trail

def locate (t : FileTree) (p : Path) : Except FileError Trail :=
  if p.text.isEmpty then .error .notFound else p.parts.foldlM t.follow []

def meansDirectory (p : Path) : Bool :=
  match p.segments.getLast? with
  | some s => s = "" || s = "."
  | none => false

def find (t : FileTree) (p : Path) : Except FileError (Trail × FileNode) := do
  let trail ← t.locate p
  match t.node? trail with
  | none => throw .notFound
  | some .directory => return (trail, .directory)
  | some n => if meansDirectory p then throw .notDirectory else return (trail, n)

/-! ## Reading -/

def isFile (t : FileTree) (p : Path) : Bool :=
  match t.find p with
  | .ok (_, .file ..) => true
  | _ => false

def isDirectory (t : FileTree) (p : Path) : Bool :=
  match t.find p with
  | .ok (_, .directory) => true
  | _ => false

def has (t : FileTree) (p : Path) : Bool := (t.find p).isOk

def read (t : FileTree) (p : Path) : Except FileError String := do
  match ← t.find p with
  | (_, .file text _) => return text
  | (_, .directory) => throw .isDirectory

def modified (t : FileTree) (p : Path) : Except FileError UInt64 := do
  match ← t.find p with
  | (_, .file _ m) => return m
  | (_, .directory) => return t.now

/-- The one absolute path of a file or directory, without `.` and `..`. -/
def resolve (t : FileTree) (p : Path) : Except FileError Path := do
  let (trail, _) ← t.find p
  return ⟨keyOf trail⟩

def keysBelow (trail : Trail) : String := if trail.isEmpty then "/" else keyOf trail ++ "/"

def filesBelow (t : FileTree) (p : Path) : List (List String × String) :=
  match t.find p with
  | .ok (trail, .directory) =>
    t.nodes.entries.filterMap fun (key, node) =>
      match node, Text.dropHead? (keysBelow trail).toList key.toList with
      | .file text _, some rest => some ((Text.splitOn '/' rest).map String.ofList, text)
      | _, _ => none
  | _ => []

def visibleBelow (t : FileTree) (p : Path) : List (List String) :=
  (t.filesBelow p).filterMap fun (names, _) =>
    if names.any fun n => n.toList.head? = some '.' then none else some names

/-! ## Changing -/

def put (t : FileTree) (trail : Trail) (n : FileNode) : FileTree :=
  { t with nodes := t.nodes.insert (keyOf trail) n }

def writeAt (t : FileTree) (p : Path) (text : String) (time : UInt64) :
    Except FileError FileTree := do
  let trail ← t.locate p
  if meansDirectory p then throw .isDirectory
  match t.node? trail with
  | some .directory => throw .isDirectory
  | _ => return t.put trail (.file text time)

def write (t : FileTree) (p : Path) (text : String) : Except FileError FileTree :=
  t.writeAt p text t.now

def createDirectories (t : FileTree) (p : Path) : Except FileError FileTree := do
  let (t, _) ← p.parts.foldlM (fun (t, trail) part => do
    let trail ← t.follow trail part
    match t.node? trail with
    | some .directory => return (t, trail)
    | some (.file ..) => throw FileError.notDirectory
    | none => return (t.put trail .directory, trail)) (t, [])
  return t

def plant (t : FileTree) (p : Path) (text : String) (time : UInt64) : Except FileError FileTree := do
  let t ← match p.parent? with
    | some d => t.createDirectories d
    | none => .ok t
  t.writeAt p text time

def removeFile (t : FileTree) (p : Path) : Except FileError FileTree := do
  match ← t.find p with
  | (trail, .file ..) => return { t with nodes := t.nodes.erase (keyOf trail) }
  | (_, .directory) => throw .isDirectory

def removeDirectory (t : FileTree) (p : Path) : Except FileError FileTree := do
  match ← t.find p with
  | (_, .file ..) => throw .notDirectory
  | (trail, .directory) =>
    let start := keysBelow trail
    return { t with
      nodes := t.nodes.filter fun k _ => k ≠ keyOf trail && !Text.startsWith start k }

def copy (t : FileTree) (source target : Path) : Except FileError FileTree := do
  let text ← t.read source
  t.write target text

end FileTree

/-- What a step of a build does to the files: it gives a value or an error, and leaves a tree. -/
abbrev FileM (ε : Type) := ExceptT ε (StateM FileTree)

namespace FileM

variable {ε α : Type}

def reading (read : FileTree → Except FileError α) (wrap : FileError → ε) : FileM ε α := do
  match read (← get) with
  | .ok a => return a
  | .error e => throw (wrap e)

def changing (change : FileTree → Except FileError FileTree) (wrap : FileError → ε) :
    FileM ε Unit := do
  match change (← get) with
  | .ok t => set t
  | .error e => throw (wrap e)

end FileM

end ClassForge
