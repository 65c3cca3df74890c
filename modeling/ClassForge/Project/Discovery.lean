import ClassForge.Files.Tree

/-!
# Discovery

The classes below some root directories, found by the names of their files, and what changes of the
files mean for them.
-/

namespace ClassForge

open Json (Encode Decode encode)

inductive Change where
  | added
  | changed
  | removed
deriving DecidableEq

instance : Encode Change := ⟨fun
  | .added => .string "added"
  | .changed => .string "changed"
  | .removed => .string "removed"⟩

instance : Decode Change :=
  ⟨Json.readVariant [("added", .added), ("changed", .changed), ("removed", .removed)]⟩

structure ClassChange where
  kind : Change
  classname : String
  path : Path
deriving DecidableEq

instance : Encode ClassChange := ⟨fun e => .object
  [("kind", encode e.kind), ("classname", encode e.classname), ("path", encode e.path)]⟩

instance : Decode ClassChange := ⟨Json.readFields do
  let kind ← Json.required "kind"
  let classname ← Json.required "classname"
  let path ← Json.required "path"
  return { kind, classname, path }⟩

/-- Why classes cannot be discovered. -/
inductive DiscoveryError where
  | alreadyStarted (root : Path)
  | missingRoot (root : Path)
  | cannotStat (file : Path) (cause : FileError)
deriving DecidableEq

def DiscoveryError.message : DiscoveryError → String
  | alreadyStarted r => "Cannot add watch root " ++ r.quoted ++ " after discovery has started"
  | missingRoot r => "Watch root " ++ r.quoted ++ " does not exist"
  | cannotStat p e => "Cannot stat " ++ p.quoted ++ ": " ++ e.message

/-- What a watcher of files reports. -/
inductive Notice where
  | touched (paths : List Path)
  | removed (paths : List Path)
  /-- Something was read, or anything else that does not matter. -/
  | ignored

inductive FileChange where
  | arrived (file : Path)
  | touched (file : Path)
  | removed (file : Path)
  | renamed (file target : Path)

/-- What the watcher of a root reports of a change. A file that is renamed within the root is
reported three times: as gone, as there, and both together. -/
def FileChange.notices (root : Path) : FileChange → List Notice
  | .arrived p | .touched p => if within p then [.touched [p]] else []
  | .removed p => if within p then [.removed [p]] else []
  | .renamed p q =>
    match within p, within q with
    | true, true => [.touched [p], .touched [q], .touched [p, q]]
    | true, false => [.touched [p]]
    | false, true => [.touched [q]]
    | false, false => []
where
  within (p : Path) : Bool := (root.below? p).isSome

inductive DiscoveryState where
  | idle
  | started
  | stopped
deriving DecidableEq

instance : Encode DiscoveryState := ⟨fun
  | .idle => .string "Idle"
  | .started => .string "Started"
  | .stopped => .string "Stopped"⟩

structure Discovery where
  roots : List Path := []
  state : DiscoveryState := .idle
  known : Table Path := .empty

namespace Discovery

/-- The class of a file: `root/app/ui/Button.js` is the file of `app.ui.Button`. A file outside the
root, without that extension, or with a hidden part has none. -/
def classnameFor? (root file : Path) : Option String := do
  let relative ← root.below? file
  let stem ← Text.dropTail? ".js".toList relative.text.toList
  let names := (Text.splitOn '/' stem).flatMap (Text.splitOn '\\')
  if names.any fun n => n.isEmpty || n.head? = some '.' then none
  else some (".".intercalate (names.map String.ofList))

def addRoot (d : Discovery) (t : FileTree) (root : Path) : Except DiscoveryError Discovery := do
  if d.state ≠ .idle then throw (.alreadyStarted root)
  unless t.isDirectory root do throw (.missingRoot root)
  let root ← (t.resolve root).mapError fun _ => .missingRoot root
  return if d.roots.any root.same then d else { d with roots := d.roots ++ [root] }

def scan (t : FileTree) (root : Path) : Table Path :=
  Table.ofList ((t.visibleBelow root).filterMap fun names =>
    let file := names.foldl Path.child root
    (classnameFor? root file).map fun c => (c, file))

/-- Finds the classes below all roots; of one class the last root counts. -/
def start (d : Discovery) (t : FileTree) : Except DiscoveryError Discovery :=
  if d.state ≠ .idle then .error (.alreadyStarted (d.roots.head?.getD ⟨""⟩))
  else .ok { d with
    state := .started
    known := d.roots.foldl (fun known root => known.union (scan t root)) d.known }

def stop (d : Discovery) : Discovery := { d with state := .stopped }

def resolveGone (t : FileTree) (p : Path) : Path :=
  match t.resolve p with
  | .ok resolved => resolved
  | .error _ =>
    match p.parent?.bind fun d => (t.resolve d).toOption, p.fileName? with
    | some dir, some name => dir.child name
    | _, _ => p

/-- What a notice about one path means below a root: at most one change, and the classes known after
it. A file that is gone by now counts as removed. -/
def interpret (t : FileTree) (root : Path) (isRemoval : Bool) (known : Table Path) (p : Path) :
    Option (Except DiscoveryError ClassChange) × Table Path :=
  let p := resolveGone t p
  match classnameFor? root p with
  | none => (none, known)
  | some classname =>
    match t.find p with
    | .error .notFound => drop classname p
    | .error e => (some (.error (.cannotStat p e)), known)
    | .ok (_, .directory) => drop classname p
    | .ok (_, .file ..) =>
      if isRemoval then drop classname p
      else
        let kind := if known.contains classname then Change.changed else .added
        (some (.ok { kind, classname, path := p }), known.insert classname p)
where
  drop (classname : String) (p : Path) : Option (Except DiscoveryError ClassChange) × Table Path :=
    if known.contains classname then
      (some (.ok { kind := .removed, classname, path := p }), known.erase classname)
    else (none, known)

/-- What notices about several paths mean, one after another. -/
def interpretAll (t : FileTree) (root : Path) (isRemoval : Bool) :
    Table Path → List Path → List (Except DiscoveryError ClassChange) × Table Path
  | known, [] => ([], known)
  | known, p :: rest =>
    let (change, known) := interpret t root isRemoval known p
    let (changes, known) := interpretAll t root isRemoval known rest
    (change.toList ++ changes, known)

def notice (t : FileTree) (root : Path) (known : Table Path) :
    Notice → List (Except DiscoveryError ClassChange) × Table Path
  | .touched paths => interpretAll t root false known paths
  | .removed paths => interpretAll t root true known paths
  | .ignored => ([], known)

/-- What several notices mean below a root, one after another. -/
def noticeAll (t : FileTree) (root : Path) :
    Table Path → List Notice → List (Except DiscoveryError ClassChange) × Table Path
  | known, [] => ([], known)
  | known, n :: rest =>
    let (first, known) := notice t root known n
    let (others, known) := noticeAll t root known rest
    (first ++ others, known)

def observe (d : Discovery) (t : FileTree) (change : FileChange) :
    List (Except DiscoveryError ClassChange) × Discovery :=
  if d.state ≠ .started then ([], d)
  else
    let (changes, known) := d.roots.foldl (fun (changes, known) root =>
      let (more, known) := noticeAll t root known (change.notices root)
      (changes ++ more, known)) ([], d.known)
    (changes, { d with known })

end Discovery

end ClassForge
