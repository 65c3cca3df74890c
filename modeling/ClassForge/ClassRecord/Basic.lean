import ClassForge.DocComment
import ClassForge.Report.Place

/-!
# Class records

What is known of a class from its source file, and what its members and properties inherit.
-/

namespace ClassForge

/-- Who may use a member. -/
inductive Access where
  | pub
  | prot
  | priv
deriving DecidableEq, Inhabited

def Access.ofName (name : String) : Access :=
  match name.toList with
  | '_' :: '_' :: _ => .priv
  | '_' :: _ => .prot
  | _ => .pub

inductive ClassType where
  | ordinary
  | mixin
  | interface
  | theme
deriving DecidableEq, Inhabited

inductive MemberKind where
  | function
  | value
deriving DecidableEq, Inhabited

structure Param where
  name : String := ""
  typeText : Option String := none
  optional : Bool := false
  defaultValue : Option String := none
  description : String := ""
deriving DecidableEq, Inhabited

structure Return where
  typeText : Option String := none
  description : String := ""
deriving DecidableEq, Inhabited

structure Member where
  kind : MemberKind := .function
  access : Access := .pub
  location : Option Extent := none
  params : List Param := []
  returns : Option Return := none
  doc : Option DocComment := none
  annotations : List String := []
  isAbstract : Bool := false
  fromInterface : Option String := none
  overriddenFrom : Option String := none
  mixin : Option String := none
  appearsIn : List String := []
deriving DecidableEq, Inhabited

def Member.isOwn (m : Member) : Bool := m.mixin.isNone && m.fromInterface.isNone

structure Property where
  check : Option String := none
  init : Option String := none
  nullable : Bool := false
  event : Option String := none
  apply : Option String := none
  refine : Bool := false
  themeable : Bool := false
  inheritable : Bool := false
  group : List String := []
  location : Option Extent := none
  doc : Option DocComment := none
  annotations : List String := []
  overriddenFrom : Option String := none
  mixin : Option String := none
  appearsIn : List String := []
deriving DecidableEq, Inhabited

def Property.isOwn (p : Property) : Bool := p.mixin.isNone

structure EventInfo where
  typeText : Option String := none
  doc : Option DocComment := none
deriving DecidableEq, Inhabited

structure ClassRecord where
  version : Binary64
  classname : String
  classType : ClassType
  /-- The kind that the definition states, such as `abstract`. -/
  kind : Option String := none
  superClass : Option String := none
  mixins : List String := []
  interfaces : List String := []
  construct : Option Member := none
  destruct : Option Member := none
  members : Table Member := .empty
  statics : Table Member := .empty
  properties : Table Property := .empty
  events : Table EventInfo := .empty
  environment : Table String := .empty
  annotations : List String := []
  doc : Option DocComment := none
  hasDefer : Bool := false
  location : Option Extent := none
  sourceFilename : String := ""
  lastModified : UInt64 := 0
deriving DecidableEq, Inhabited

namespace ClassRecord

def formVersion : Binary64 := Binary64.ofRatio false 4 10

def new (classname : String) (classType : ClassType) : ClassRecord :=
  { version := formVersion, classname, classType }

def isAbstract (r : ClassRecord) : Bool := r.kind = some "abstract"

def packageOf (classname : String) : String :=
  match Text.splitLast '.' classname.toList with
  | some (before, _) => String.ofList before
  | none => ""

def packageName (r : ClassRecord) : String := packageOf r.classname

def hierarchyRefs (r : ClassRecord) : List String := r.superClass.toList ++ r.mixins ++ r.interfaces

end ClassRecord

end ClassForge
