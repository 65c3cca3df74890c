import ClassForge.Dependency.Basic
import ClassForge.Report.Marker
import ClassForge.Script.Source
import ClassForge.Symbol

/-!
# Collecting dependencies

What the source of a class refers to: other classes with the phases in which they are needed, texts
to translate, assets, environment settings, and remarks about names that mean nothing. Code at the
top of a file runs while it loads, and so does a `defer` function; a constructor runs when an object
is constructed; every other function runs later.
-/

namespace ClassForge.Dependency

open Script (Node Span Source)

structure Setting where
  classname : String
  resolver : Resolver
  source : Source
  ignored : List String

/-- What has been collected so far. `upcoming` is the phase of the next function, if it is not that of
functions in general. -/
structure Harvest where
  upcoming : Option Phase := none
  dependsOn : Table Needs := .empty
  translations : NameSet := .empty
  environment : NameSet := .empty
  markers : List Marker := []
  reported : NameSet := .empty

def hostGlobals : List String := [
  "window", "document", "navigator", "console", "Math", "JSON", "Object", "Array", "String",
  "Number", "Boolean", "Date", "RegExp", "Error", "Promise", "Symbol", "Map", "Set", "arguments",
  "undefined", "this"]

def matchesIgnored (name pattern : String) : Bool :=
  match Text.dropTail? ['*'] pattern.toList with
  | some base => base.isPrefixOf name.toList
  | none => name = pattern || Text.startsWith (pattern ++ ".") name

def Setting.isIgnored (s : Setting) (name : String) : Bool := s.ignored.any (matchesIgnored name)

namespace Harvest

def addDependency (s : Setting) (h : Harvest) (classname : String) (phase : Phase) : Harvest :=
  if classname = s.classname then h
  else
    let needs := (h.dependsOn.getD classname {}).add phase
    { h with dependsOn := h.dependsOn.insert classname needs }

def report (h : Harvest) (key : String) (m : Marker) : Harvest :=
  if h.reported.contains key then h
  else { h with reported := NameSet.add h.reported key, markers := h.markers ++ [m] }

def isDeprecated (r : Resolver) (classname : String) : Bool :=
  ((r.record? classname).bind (·.doc)).any DocComment.isDeprecated

def checkDeprecated (s : Setting) (h : Harvest) (classname : String) (span : Span) : Harvest :=
  if classname ≠ s.classname ∧ isDeprecated s.resolver classname then
    h.report ("deprecated:" ++ classname)
      ((Marker.warning Marker.deprecatedClass s.classname (classname ++ " is deprecated")).at_
        (s.source.placeOf span))
  else h

def reference (s : Setting) (phase : Phase) (h : Harvest) (name : String) (span : Span) : Harvest :=
  let root := Text.rootOf name
  if hostGlobals.contains root || s.isIgnored name then h
  else
    match s.resolver.symbol? name with
    | some (.aClass classname) | some (.member classname _) =>
      (h.checkDeprecated s classname span).addDependency s classname phase
    | some (.setting _ classname) => h.addDependency s classname phase
    | some (.package _) => h
    | none =>
      if root = Text.rootOf s.classname then
        h.report name ((Marker.warning Marker.unresolvedSymbol s.classname
          ("Unresolved symbol " ++ name)).at_ (s.source.placeOf span))
      else h

/-- Takes a name that stands alone into account. -/
def identifier (s : Setting) (phase : Phase) (h : Harvest) (name : String) : Harvest :=
  if (s.resolver.record? name).isSome then h.addDependency s name phase else h

def translationMethods : List String := ["tr", "trn", "trc", "trnc", "marktr"]

def environmentMethods : List String := [
  "qx.core.Environment.get", "qx.core.Environment.select", "qx.core.Environment.getAsync",
  "qx.core.Environment.selectAsync", "qx.core.Environment.filter"]

def leadingStrings : List Node → List String
  | .string _ value :: rest => value :: leadingStrings rest
  | _ => []

def translatedTexts (method : String) (strings : List String) : List String :=
  match method with
  | "trn" => strings.take 2
  | "trc" => if 2 ≤ strings.length then (strings.drop 1).take 1 else []
  | "trnc" => if 3 ≤ strings.length then (strings.drop 1).take 2 else []
  | _ => strings.take 1

def calling (s : Setting) (phase : Phase) (h : Harvest) (callee : String) (args : List Node) : Harvest :=
  let method := Text.lastOf callee
  let translates := translationMethods.contains method &&
    (Text.startsWith "this." callee || Text.startsWith "qx.locale.Manager." callee)
  let texts := if translates then translatedTexts method (leadingStrings args) else []
  let h := { h with translations := texts.foldl NameSet.add h.translations }
  if environmentMethods.contains callee then
    match args with
    | .string _ key :: _ =>
      let h := { h with environment := NameSet.add h.environment key }
      match s.resolver.symbol? key with
      | some (.setting _ classname) => h.addDependency s classname phase
      | _ => h
    | _ => h
  else h

/-- Whether a call defines something: its callee is one of `qx`'s `define` functions, and it starts
with a string. -/
def isDefinition (callee : String) : List Node → Bool
  | .string _ _ :: _ => Text.startsWith "qx." callee && Text.endsWith ".define" callee
  | _ => false

mutual

def visit (s : Setting) (phase : Phase) (h : Harvest) : Node → Harvest
  | .call span callee args =>
    match callee.dottedName? with
    | some name =>
      if isDefinition name args then
        let h := h.reference s phase name span
        match args with
        | _ :: .object _ sections :: _ => visitSections s phase h sections
        | _ => h
      else visitAll s phase (visit s phase (h.calling s phase name args) callee) args
    | none => visitAll s phase (visit s phase h callee) args
  | .member span o property =>
    match o.dottedName? with
    | some base =>
      let name := base ++ "." ++ property
      if Text.startsWith "this." name then visit s phase h o else h.reference s phase name span
    | none => visit s phase h o
  | .name _ text => h.identifier s phase text
  | .func _ params body =>
    let inner := h.upcoming.getD .runtime
    let h := { h with upcoming := none }
    visitAll s inner (visitAll s inner h params) body
  | .this .. | .string .. | .number .. | .boolean .. | .null .. | .hole .. => h
  | .paren _ o | .spread _ o | .unary _ _ o => visit s phase h o
  | .index _ o parts | .new _ o parts => visitAll s phase (visit s phase h o) parts
  | .property _ _ computed value => visit s phase (visitAll s phase h computed) value
  | .array _ parts | .object _ parts | .param _ _ parts | .rest _ parts | .sequence _ parts
  | .arrowHead _ parts | .compound _ parts => visitAll s phase h parts
  | .binary _ _ l r | .assign _ l r | .shorthandDefault _ l r =>
    visit s phase (visit s phase h l) r

/-- Collects from parts of a program, one after another. -/
def visitAll (s : Setting) (phase : Phase) (h : Harvest) : List Node → Harvest
  | [] => h
  | n :: rest => visitAll s phase (visit s phase h n) rest

def visitSections (s : Setting) (phase : Phase) (h : Harvest) : List Node → Harvest
  | [] => h
  | .property _ (some key) _ value :: rest =>
    let h :=
      if key = "construct" then
        { visit s .construct { h with upcoming := some .construct } value with upcoming := none }
      else if key = "defer" then
        { visit s phase { h with upcoming := some .load } value with upcoming := none }
      else if key = "members" ∨ key = "statics" then
        match value with
        | .object _ entries => visitEntries s phase h entries
        | other => visit s phase h other
      else visit s phase h value
    visitSections s phase h rest
  | _ :: rest => visitSections s phase h rest

def visitEntries (s : Setting) (phase : Phase) (h : Harvest) : List Node → Harvest
  | [] => h
  | .property _ _ _ value :: rest => visitEntries s phase (visit s phase h value) rest
  | _ :: rest => visitEntries s phase h rest

end

end Harvest

structure Analysis where
  dependsOn : Table Needs := .empty
  translations : List String := []
  assets : List String := []
  environment : List String := []
  markers : List Marker := []

def directives (docs : List DocComment) (name : String) : List String :=
  docs.flatMap (·.directives name)

def ofProgram (classname : String) (src : Source) (statements : List Node) (resolver : Resolver) :
    Analysis :=
  let docs := src.allDocs
  let s : Setting := { classname, resolver, source := src, ignored := directives docs "ignore" }
  let h := Harvest.visitAll s .load {} statements
  let h := (directives docs "require").foldl (fun h name => h.addDependency s name .load) h
  let h := (directives docs "use").foldl (fun h name => h.addDependency s name .runtime) h
  { dependsOn := h.dependsOn, translations := h.translations.keys,
    assets := sortedNames (directives docs "asset"), environment := h.environment.keys,
    markers := h.markers }

def ofSource? (classname source : String) (resolver : Resolver) : Option Analysis :=
  (Script.Program.parse? source).map fun program =>
    ofProgram classname (Source.ofProgram source program) program.statements resolver

end ClassForge.Dependency
