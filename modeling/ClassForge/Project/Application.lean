import ClassForge.Files.Tree
import ClassForge.Text.Lowercase

/-!
# Applications

An application is a main class together with the classes it asks for. Its parts claim classes by
patterns, to be loaded on demand.
-/

namespace ClassForge

open Json (Encode Decode encode)

/-- Whether a class matches a pattern: `app.ui.*` stands for everything that starts with `app.ui.`,
and any other pattern for the class of that name and the names below it. -/
def matchesPattern (pattern classname : String) : Bool :=
  match Text.dropTail? ['*'] pattern.toList with
  | some start => start.isPrefixOf classname.toList
  | none => classname = pattern || Text.startsWith (pattern ++ ".") classname

structure PartConfig where
  name : String
  claims : List String := []
deriving DecidableEq

instance : Encode PartConfig := ⟨fun p => .object
  [("name", encode p.name), ("include", encode p.claims)]⟩

instance : Decode PartConfig := ⟨Json.readFields do
  let name ← Json.required "name"
  let claims ← Json.defaulted "include" []
  return { name, claims }⟩

structure Application where
  mainClass : String
  givenName : Option String := none
  theme : Option String := none
  title : Option String := none
  included : List String := []
  excluded : List String := []
  parts : List PartConfig := []
  isDefault : Bool := false
  localModules : Table Path := .empty
deriving DecidableEq

instance : Encode Application := ⟨fun a => .object
  [("class", encode a.mainClass), ("name", encode a.givenName), ("theme", encode a.theme),
    ("title", encode a.title), ("include", encode a.included), ("exclude", encode a.excluded),
    ("parts", encode a.parts), ("default", encode a.isDefault),
    ("localModules", encode a.localModules)]⟩

instance : Decode Application := ⟨Json.readFields do
  let mainClass ← Json.required "class"
  let givenName ← Json.defaulted "name" none
  let theme ← Json.defaulted "theme" none
  let title ← Json.defaulted "title" none
  let included ← Json.defaulted "include" []
  let excluded ← Json.defaulted "exclude" []
  let parts ← Json.defaulted "parts" []
  let isDefault ← Json.defaulted "default" false
  let localModules ← Json.defaulted "localModules" .empty
  return { mainClass, givenName, theme, title, included, excluded, parts, isDefault, localModules }⟩

namespace Application

def name (a : Application) : String :=
  a.givenName.getD (Text.lowercase (Text.lastOf a.mainClass))

def pageTitle (a : Application) : String := a.title.getD a.name

def excludes (a : Application) (classname : String) : Bool :=
  a.excluded.any fun p => matchesPattern p classname

def classesOf (known : List String) (pattern : String) : List String :=
  if pattern.toList.contains '*' then known.filter (matchesPattern pattern) else [pattern]

def requiredClasses (a : Application) (known : List String) : List String :=
  let all := a.mainClass :: a.theme.toList ++ a.included.flatMap (classesOf known)
  (sortedNames all).filter fun c => c = a.mainClass || !a.excludes c

def dependsOn (a : Application) (resolved : NameSet) (classname : String) : Bool :=
  a.mainClass = classname || a.theme = some classname || resolved.contains classname

def moduleTimes (a : Application) (t : FileTree) (base : Path) : Table UInt64 :=
  a.localModules.map fun _ p => (t.modified (base.join p)).toOption.getD 0

end Application

end ClassForge
