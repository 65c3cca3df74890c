import ClassForge.ClassRecord.Codec
import ClassForge.Text.Dotted

/-!
# Symbols

What a dotted name in a source stands for: a class, a package, a member of a class or an
environment setting, in this order.
-/

namespace ClassForge

open Json (Encode Decode encode)

inductive Symbol where
  | aClass (classname : String)
  | package (name : String)
  | member (classname path : String)
  | setting (key classname : String)
deriving DecidableEq

structure Resolver where
  record? : String → Option ClassRecord
  isPackage : String → Bool
  checks : Table String

namespace Resolver

def nearestClass? (r : Resolver) (name : String) : Option (String × String) :=
  (Text.splitsByLength name).find? fun split => (r.record? split.1).isSome

def starBase? (pattern : String) : Option (List Char) := Text.dropTail? ['*'] pattern.toList

def widen (name : String) (best : Option (Nat × String × String)) (check : String × String) :
    Option (Nat × String × String) :=
  match starBase? check.1 with
  | none => best
  | some base =>
    if base.isPrefixOf name.toList then
      match best with
      | none => some (base.length, check)
      | some (length, _) => if length ≤ base.length then some (base.length, check) else best
    else best

def widest? (name : String) (checks : List (String × String)) : Option (Nat × String × String) :=
  checks.foldl (widen name) none

def symbol? (r : Resolver) (name : String) : Option Symbol :=
  if (r.record? name).isSome then some (.aClass name)
  else if r.isPackage name then some (.package name)
  else
    match r.nearestClass? name with
    | some (classname, path) => some (.member classname path)
    | none =>
      match r.checks.get? name with
      | some classname => some (.setting name classname)
      | none => (widest? name r.checks.entries).map fun (_, pattern, classname) =>
          .setting pattern classname

end Resolver

structure Snapshot where
  classes : Table ClassRecord := .empty
  packages : Table Bool := .empty
  environmentChecks : Table String := .empty
deriving DecidableEq

def Snapshot.resolver (s : Snapshot) : Resolver :=
  { record? := s.classes.get?, isPackage := fun name => s.packages.getD name false,
    checks := s.environmentChecks }

instance : Inhabited Snapshot := ⟨{}⟩

/-! ## JSON form -/

instance : Encode Symbol := ⟨fun
  | .aClass classname => .object [("symbolType", .string "class"), ("classname", .string classname)]
  | .package name => .object [("symbolType", .string "package"), ("name", .string name)]
  | .member classname path => .object [("symbolType", .string "member"),
      ("classname", .string classname), ("memberPath", .string path)]
  | .setting key classname => .object [("symbolType", .string "environment"),
      ("key", .string key), ("classname", .string classname)]⟩

instance : Decode Symbol := ⟨Json.readFields do
  let tag : String ← Json.required "symbolType"
  match tag with
  | "class" => return .aClass (← Json.required "classname")
  | "package" => return .package (← Json.required "name")
  | "member" => return .member (← Json.required "classname") (← Json.required "memberPath")
  | "environment" => return .setting (← Json.required "key") (← Json.required "classname")
  | other => throw (.unknownVariant other ["class", "package", "member", "environment"])⟩

instance : Encode Snapshot := ⟨fun s => .object [("classes", encode s.classes),
  ("packages", encode s.packages), ("environmentChecks", encode s.environmentChecks)]⟩

instance : Decode Snapshot := ⟨Json.readFields do
  let classes ← Json.required "classes"
  let packages ← Json.required "packages"
  let environmentChecks ← Json.required "environmentChecks"
  return { classes, packages, environmentChecks }⟩

end ClassForge
