import ClassForge.Project.Application

/-!
# Packages

The classes of an application are divided into packages, one for each part, together with the assets,
locale data and translations that these classes use.
-/

namespace ClassForge

open Json (Encode encode)

structure Package where
  id : Nat
  classes : List String := []
  assets : NameSet := .empty
  locales : Table Datum := .empty
  translations : Table (Table Datum) := .empty

structure Part where
  name : String
  packages : List Nat
deriving DecidableEq

instance : Encode Package := ⟨fun p => .object
  [("id", .int p.id), ("classes", encode p.classes), ("assets", Json.encodeNames p.assets),
    ("locales", encode p.locales), ("translations", encode p.translations)]⟩

instance : Encode Part := ⟨fun p => .object
  [("name", encode p.name), ("packages", .array (p.packages.map fun (n : Nat) => .int n))]⟩

namespace Package

def isEmpty (p : Package) (embedded : Bool) : Bool :=
  p.assets.isEmpty && p.locales.isEmpty && p.translations.values.all Table.isEmpty &&
    (!embedded || p.classes.isEmpty)

end Package

namespace Part

def bootName : String := "boot"

/-- The first configuration of each name, those with a name from `seen` left out. -/
def firstOfEach : (seen : List String) → List PartConfig → List PartConfig
  | _, [] => []
  | seen, p :: rest =>
    if seen.contains p.name then firstOfEach seen rest else p :: firstOfEach (p.name :: seen) rest

def effective (configs : List PartConfig) : List PartConfig := firstOfEach [bootName] configs

def claims (config : PartConfig) (classname : String) : Bool :=
  config.claims.any fun p => matchesPattern p classname

def packageOf (configs : List PartConfig) (classname : String) : Nat :=
  match configs.findIdx? fun c => claims c classname with
  | some i => i + 1
  | none => 0

def partition (order : List String) (configs : List PartConfig) : List Part × List Package :=
  let configs := effective configs
  let packages := (List.range (configs.length + 1)).map fun id =>
    { id, classes := order.filter fun c => packageOf configs c = id }
  let parts := { name := bootName, packages := [0] } ::
    configs.mapIdx fun i c => { name := c.name, packages := [i + 1] }
  (parts, packages)

end Part

end ClassForge
