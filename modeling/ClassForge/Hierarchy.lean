import ClassForge.ClassRecord.Basic
import ClassForge.Table.Walk

/-!
# The class hierarchy

The graph of classes, mixins and interfaces. A class points at its superclass, its mixins and its
interfaces, in this order. Only what a class itself declares counts.
-/

namespace ClassForge

/-- How one class points at another. -/
inductive EdgeKind where
  | extends_
  | includes
  | implements
deriving DecidableEq

instance : Json.Encode EdgeKind := ⟨fun
  | .extends_ => .string "extends"
  | .includes => .string "includes"
  | .implements => .string "implements"⟩

inductive Category where
  | member
  | static
  | property
deriving DecidableEq

def Category.ofName : String → Category
  | "static" => .static
  | "property" => .property
  | _ => .member

inductive Provenance where
  /-- The body of a class. -/
  | overriddenFrom (classname : String)
  | mixin (name : String)
deriving DecidableEq

instance : Json.Encode Provenance := ⟨fun
  | .overriddenFrom c => .object [("overriddenFrom", .string c)]
  | .mixin m => .object [("mixin", .string m)]⟩

structure HierarchyNode where
  classType : ClassType
  superClass : Option String
  mixins : List String
  interfaces : List String
  members : NameSet
  statics : NameSet
  properties : NameSet

namespace HierarchyNode

def declares (n : HierarchyNode) : Category → String → Bool
  | .member, name => n.members.contains name
  | .static, name => n.statics.contains name
  | .property, name => n.properties.contains name

def edges (n : HierarchyNode) : List (EdgeKind × String) :=
  n.superClass.toList.map (EdgeKind.extends_, ·) ++ n.mixins.map (EdgeKind.includes, ·) ++
    n.interfaces.map (EdgeKind.implements, ·)

def targets (n : HierarchyNode) : List String := n.edges.map Prod.snd

def ownNames {α : Type} (isOwn : α → Bool) (t : Table α) : NameSet :=
  (t.filter fun _ a => isOwn a).map fun _ _ => ()

def ofRecord (r : ClassRecord) : HierarchyNode :=
  { classType := r.classType, superClass := r.superClass, mixins := r.mixins,
    interfaces := r.interfaces, members := ownNames Member.isOwn r.members,
    statics := ownNames Member.isOwn r.statics, properties := ownNames Property.isOwn r.properties }

end HierarchyNode

structure Hierarchy where
  nodes : Table HierarchyNode := .empty
  derived : Table NameSet := .empty

namespace Hierarchy

def addRecord (g : Hierarchy) (r : ClassRecord) : Hierarchy :=
  let node := HierarchyNode.ofRecord r
  { nodes := g.nodes.insert r.classname node
    derived := node.targets.foldl
      (fun d target => d.insert target (NameSet.add (d.getD target .empty) r.classname)) g.derived }

def build (records : List ClassRecord) : Hierarchy := records.foldl addRecord {}

def contains (g : Hierarchy) (classname : String) : Bool := g.nodes.contains classname

def classType? (g : Hierarchy) (classname : String) : Option ClassType :=
  (g.nodes.get? classname).map (·.classType)

def edges (g : Hierarchy) (classname : String) : List (EdgeKind × String) :=
  ((g.nodes.get? classname).map (·.edges)).getD []

def declares (g : Hierarchy) (classname : String) (category : Category) (name : String) : Bool :=
  (g.nodes.get? classname).any fun n => n.declares category name

def directDerived (g : Hierarchy) (classname : String) : List String :=
  (g.derived.getD classname .empty).keys

def derivedClosure (g : Hierarchy) (seeds : List String) : NameSet :=
  NameSet.ofNames (g.derived.walk Table.keys [] seeds)

/-- All classes that a class derives from, breadth first. -/
def ancestry (g : Hierarchy) (classname : String) : List String :=
  g.nodes.walk HierarchyNode.targets [classname] ((g.edges classname).map Prod.snd)

def appearsIn (g : Hierarchy) (classname : String) (category : Category) (name : String) :
    List String :=
  (g.ancestry classname).filter fun ancestor => g.declares ancestor category name

/-- Follows the superclasses to the first class that declares a name itself or through one of its
own mixins; a circle of superclasses declares nothing. -/
def findFrom (g : Hierarchy) (category : Category) (name : String) (seen : List String)
    (classname : String) : Option Provenance :=
  if _hs : seen.contains classname then none
  else
    match _hx : g.nodes.get? classname with
    | none => none
    | some node =>
      if node.declares category name then some (.overriddenFrom classname)
      else
        match node.mixins.find? fun m => g.declares m category name with
        | some m => some (.mixin m)
        | none =>
          match node.superClass with
          | some parent => findFrom g category name (classname :: seen) parent
          | none => none
termination_by g.nodes.unseen seen
decreasing_by exact Table.unseen_cons_lt _hx (by simpa using _hs)

def provenance? (g : Hierarchy) (classname : String) (category : Category) (name : String) :
    Option Provenance := g.findFrom category name [] classname

def boundInterfaces (g : Hierarchy) (classname : String) : List String :=
  match g.nodes.get? classname with
  | none => []
  | some node =>
    let ofMixin (m : String) : List String := ((g.nodes.get? m).map (·.interfaces)).getD []
    g.nodes.walk (·.interfaces) [] (node.interfaces ++ node.mixins.flatMap ofMixin)

end Hierarchy

end ClassForge
