import ClassForge.Metadata.Basic
import ClassForge.Report.UnknownName

/-!
# Reconciling metadata

A record as it is read holds what the source of its class says. Reconciling adds what follows from
the records of other classes: the names of types are completed, the members of mixins are merged in,
every entry is told where it comes from, and an abstract class gets placeholders for what its
interfaces ask for. Only dirty classes and those that derive from them have to be reconciled.
-/

namespace ClassForge

/-! ## Types -/

/-- Names of types that always mean the same. -/
def primitiveTypes : List String := [
  "var", "any", "void", "null", "undefined", "String", "Number", "Integer", "PositiveInteger",
  "PositiveNumber", "Float", "Double", "Boolean", "Array", "Object", "Map", "Function", "RegExp",
  "Date", "Error", "Promise", "Element", "Document", "Window", "Event", "Node", "Color", "Font",
  "Decorator", "Class", "Mixin", "Interface", "Theme", "arguments"]

namespace ClassRecord

/-- Completes a type that is no union: a name that is no known class but one in the package gets the
package put in front. What stands from the first pair of brackets on is kept. -/
def completeType (isClass : String → Bool) (package typeText : String) : String :=
  let (base, suffix) := match Text.cutAt "[]".toList typeText.toList with
    | some (base, rest) => (String.ofList base, "[]" ++ String.ofList rest)
    | none => (typeText, "")
  if primitiveTypes.contains base || isClass base || package.isEmpty then typeText
  else
    let qualified := package ++ "." ++ base
    if isClass qualified then qualified ++ suffix else typeText

def resolveType (isClass : String → Bool) (package typeText : String) : String :=
  if typeText.toList.contains '|' then
    "|".intercalate ((Text.split '|' typeText).map fun part =>
      completeType isClass package (Text.trimmed part))
  else completeType isClass package typeText

def mapMemberTypes (f : String → String) (m : Member) : Member :=
  { m with
    params := m.params.map fun p => { p with typeText := p.typeText.map f }
    returns := m.returns.map fun r => { r with typeText := r.typeText.map f } }

def mapTypes (f : String → String) (r : ClassRecord) : ClassRecord :=
  { r with
    members := r.members.map fun _ m => mapMemberTypes f m
    statics := r.statics.map fun _ m => mapMemberTypes f m
    construct := r.construct.map (mapMemberTypes f)
    destruct := r.destruct.map (mapMemberTypes f)
    properties := r.properties.map fun _ p => { p with check := p.check.map f }
    events := r.events.map fun _ e => { e with typeText := e.typeText.map f } }

/-! ## Steps -/

/-- A record without anything that reconciling adds, apart from completed types. -/
def withoutDerived (r : ClassRecord) : ClassRecord :=
  let member (_ : String) (m : Member) : Member := { m with overriddenFrom := none, appearsIn := [] }
  let property (_ : String) (p : Property) : Property :=
    { p with overriddenFrom := none, appearsIn := [] }
  { r with
    members := (r.members.filter fun _ m => m.isOwn).map member
    statics := (r.statics.filter fun _ m => m.isOwn).map member
    properties := (r.properties.filter fun _ p => p.isOwn).map property }

def addMissing {α : Type} (wanted : α → Bool) (change : α → α) (t other : Table α) : Table α :=
  other.entries.foldl
    (fun t (name, a) => if wanted a && !t.contains name then t.insert name (change a) else t) t

def mergeMixin (r : ClassRecord) (mixin : String) (m : ClassRecord) : ClassRecord :=
  let member (a : Member) : Member :=
    { a with overriddenFrom := none, appearsIn := [], mixin := some mixin }
  let property (a : Property) : Property :=
    { a with overriddenFrom := none, appearsIn := [], mixin := some mixin }
  { r with
    members := addMissing Member.isOwn member r.members m.members
    properties := addMissing Property.isOwn property r.properties m.properties }

def mergeMixins (record? : String → Option ClassRecord) (r : ClassRecord) : ClassRecord :=
  r.mixins.foldl (fun r mixin =>
    match record? mixin with
    | some m => r.mergeMixin mixin m
    | none => r) r

def traceMember (g : Hierarchy) (classname : String) (category : Category) (name : String)
    (m : Member) : Member :=
  let m := match g.provenance? classname category name with
    | some (.overriddenFrom c) => if m.isOwn then { m with overriddenFrom := some c } else m
    | some (.mixin x) => { m with mixin := some x }
    | none => m
  { m with appearsIn := g.appearsIn classname category name }

def traceProperty (g : Hierarchy) (classname name : String) (p : Property) : Property :=
  let p := match g.provenance? classname .property name with
    | some (.overriddenFrom c) => if p.isOwn then { p with overriddenFrom := some c } else p
    | some (.mixin x) => { p with mixin := some x }
    | none => p
  { p with appearsIn := g.appearsIn classname .property name }

/-- Tells every entry where it comes from and where else it appears. -/
def trace (g : Hierarchy) (r : ClassRecord) : ClassRecord :=
  { r with
    members := r.members.map (traceMember g r.classname .member)
    statics := r.statics.map (traceMember g r.classname .static)
    properties := r.properties.map (traceProperty g r.classname) }

def addPlaceholders (r : ClassRecord) (g : Hierarchy) (interface : String) (i : ClassRecord) :
    ClassRecord :=
  let placeholder (name : String) (m : Member) : Member :=
    { m with
      isAbstract := true
      fromInterface := some interface
      appearsIn := g.appearsIn r.classname .member name
      overriddenFrom := none
      mixin := none }
  let members := i.members.entries.foldl (fun t (name, m) =>
    if m.isOwn && !t.contains name && (g.provenance? r.classname .member name).isNone then
      t.insert name (placeholder name m)
    else t) r.members
  { r with members }

def synthesize (g : Hierarchy) (record? : String → Option ClassRecord) (r : ClassRecord) :
    ClassRecord :=
  (g.boundInterfaces r.classname).foldl (fun r interface =>
    match record? interface with
    | some i => r.addPlaceholders g interface i
    | none => r) r

def reconcile (g : Hierarchy) (record? : String → Option ClassRecord) (r : ClassRecord) :
    ClassRecord :=
  let isClass (name : String) : Bool := (record? name).isSome
  let r := r.withoutDerived
  let r := r.mapTypes (resolveType isClass r.packageName)
  let r := r.mergeMixins record?
  let r := r.trace g
  if r.isAbstract then r.synthesize g record? else r

end ClassRecord

namespace Metadata

def reconcileOne (g : Hierarchy) (c : String) (m : Metadata) (t : FileTree) :
    Except StoreError (List String) × Metadata × FileTree :=
  match m.record? c with
  | none => (.ok [], m, t)
  | some r =>
    let r := r.reconcile g m.record?
    let m := { m with records := m.records.insert c r }
    let stored := (r.save (ClassRecord.storePath m.rootDir c)).run t
    (stored.1.map fun _ => [c], m, stored.2)

def reconcileEach (g : Hierarchy) :
    List String → Metadata → FileTree → Except StoreError (List String) × Metadata × FileTree
  | [], m, t => (.ok [], m, t)
  | c :: rest, m, t =>
    match reconcileOne g c m t with
    | (.error e, m, t) => (.error e, m, t)
    | (.ok done, m, t) =>
      match reconcileEach g rest m t with
      | (.ok more, m, t) => (.ok (done ++ more), m, t)
      | (.error e, m, t) => (.error e, m, t)

/-- Reconciles and stores every dirty class and all that derive from them, and gives their names in
ascending order. They stay dirty if that fails. -/
def reconcile (m : Metadata) (t : FileTree) :
    Except StoreError (List String) × Metadata × FileTree :=
  if m.dirty.isEmpty then (.ok [], m, t)
  else
    let g := m.hierarchy
    match reconcileEach g (g.derivedClosure m.dirty.toNames).toNames m t with
    | (.ok done, m, t) => (.ok done, { m with dirty := .empty }, t)
    | (.error e, m, t) => (.error e, m, t)

/-! ## The flattened view -/

/-- Adds what a class inherits from its superclasses, at most a number of them: every member that is
no placeholder and every property whose name is new. -/
def inherit (m : Metadata) (g : Hierarchy) (classname : String) :
    Nat → (ancestor : Option String) → ClassRecord → ClassRecord
  | 0, _, r => r
  | _ + 1, none, r => r
  | n + 1, some name, r =>
    match m.record? name with
    | none => r
    | some parent =>
      let members := parent.members.entries.foldl (fun t (name, a) =>
        if a.isAbstract || t.contains name then t
        else t.insert name { a with appearsIn := g.appearsIn classname .member name }) r.members
      let properties := parent.properties.entries.foldl (fun t (name, a) =>
        if t.contains name then t
        else t.insert name { a with appearsIn := g.appearsIn classname .property name }) r.properties
      inherit m g classname n parent.superClass { r with members, properties }

def resolved (m : Metadata) (classname : String) : Except UnknownName ClassRecord :=
  match m.record? classname with
  | none => .error { kind := "class", name := classname }
  | some r => .ok (m.inherit m.hierarchy classname m.records.size r.superClass r)

end Metadata

end ClassForge
