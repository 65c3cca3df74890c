import ClassForge.ClassRecord.Basic
import ClassForge.Files.Tree
import ClassForge.Report.Marker
import ClassForge.Script.Source

/-!
# Extracting class records

A class file defines its class in a call such as `qx.Class.define("name", { … })`. The first such
call that is not inside another one counts; each further one is reported.
-/

namespace ClassForge

/-- Why a class file has no record. -/
inductive ReadError where
  | unreadable (file : Path) (cause : FileError)
  | malformed (file : String)
  /-- Nothing is defined. -/
  | noDefinition (file : String)
  | invalidDefinition (file message : String)
deriving DecidableEq

def ReadError.message : ReadError → String
  | .unreadable file cause => "Failed to read " ++ file.quoted ++ ": " ++ cause.message
  | .malformed file => "Syntax error in " ++ file
  | .noDefinition file => "No class, mixin or interface definition found in " ++ file
  | .invalidDefinition file message => "Invalid definition in " ++ file ++ ": " ++ message

namespace ClassRecord

open Script (Node Span Source)

def definedType? (callee : String) : Option ClassType :=
  if callee = "qx.Class.define" ∨ callee = "qx.Bootstrap.define" then some .ordinary
  else if callee = "qx.Mixin.define" then some .mixin
  else if callee = "qx.Interface.define" then some .interface
  else if callee = "qx.Theme.define" then some .theme
  else none

def namesOf : Node → List String
  | .array _ items => (items.filter Node.isPlain).filterMap Node.dottedName?
  | other => other.dottedName?.toList

def paramsOf? : Node → Option (List Node)
  | .func _ params _ => some params
  | _ => none

/-! ## Members -/

def signatureOf (src : Source) : Node → String × Option String
  | .rest span _ => (Text.trimmed (src.textOf span), none)
  | .param span bound _ =>
    let text := src.slice span
    let (before, default) := match Text.splitOnce (· = '=') text with
      | some (a, b) => (a, some (String.ofList (Text.trim b)))
      | none => (text, none)
    (bound.getD (String.ofList (Text.trim before)), default)
  | _ => ("", none)

def paramOf (doc : Option DocComment) (signature : String × Option String) : Param :=
  let (name, default) := signature
  let documented := doc.bind (·.param name)
  { name
    typeText := documented.bind (·.typeText)
    optional := (documented.map (·.optional)).getD default.isSome
    defaultValue := default <|> documented.bind (·.defaultValue)
    description := (documented.map (·.description)).getD "" }

def memberOf (src : Source) (name : String) (value : Node) (doc : Option DocComment) (span : Span) :
    Member :=
  let params := paramsOf? value
  { kind := if params.isSome then .function else .value
    access := Access.ofName name
    location := some (src.extentOf span)
    params := ((params.getD []).map (signatureOf src)).map (paramOf doc)
    returns := (doc.bind (·.returns)).map fun r =>
      { typeText := r.typeText, description := r.description }
    doc }

def annotationTexts (src : Source) : Node → List String
  | .array _ items => (items.filter Node.isPlain).map fun item => src.textOf item.span
  | other => [src.textOf other.span]

def namedProperties (properties : List Node) : List (Span × String × Node) :=
  properties.filterMap fun
    | .property span (some key) _ value => some (span, key, value)
    | _ => none

def annotationsOf (src : Source) (properties : List (Span × String × Node)) : Table (List String) :=
  Table.ofList (properties.filterMap fun (_, key, value) =>
    match key.toList with
    | '@' :: c :: rest => some (String.ofList (c :: rest), annotationTexts src value)
    | _ => none)

def isAnnotation (key : String) : Bool := key.toList.head? = some '@'

def membersOf (src : Source) (properties : List Node) : Table Member :=
  let named := namedProperties properties
  let start : Table Member × Table (List String) := (.empty, annotationsOf src named)
  (named.foldl (fun (members, annotations) (span, key, value) =>
    if isAnnotation key then (members, annotations)
    else
      let m := memberOf src key value (src.docBefore span.start) span
      (members.insert key { m with annotations := annotations.getD key [] }, annotations.erase key))
    start).1

/-! ## Properties and events -/

def propertyOf (src : Source) (entries : List Node) : Property :=
  (namedProperties entries).foldl (fun (p : Property) (_, key, value) =>
    match key with
    | "check" => { p with check := some (value.stringValue?.getD (src.textOf value.span)) }
    | "init" => { p with init := some (src.textOf value.span) }
    | "nullable" => { p with nullable := value.boolValue?.getD false }
    | "event" => { p with event := value.stringValue? }
    | "apply" => { p with apply := value.stringValue? }
    | "refine" => { p with refine := value.boolValue?.getD false }
    | "themeable" => { p with themeable := value.boolValue?.getD false }
    | "inheritable" => { p with inheritable := value.boolValue?.getD false }
    | "group" =>
      match value with
      | .array _ items =>
        { p with group := (items.filter Node.isPlain).filterMap Node.stringValue? }
      | _ => p
    | "@" => { p with annotations := annotationTexts src value }
    | _ => p) {}

def propertiesOf (src : Source) (entries : List Node) : Table Property :=
  let named := namedProperties entries
  let start : Table Property × Table (List String) := (.empty, annotationsOf src named)
  (named.foldl (fun (properties, annotations) (span, key, value) =>
    if isAnnotation key then (properties, annotations)
    else
      let p : Property := match value with
        | .string _ check => { check := some check }
        | .object _ definition => propertyOf src definition
        | other => { init := some (src.textOf other.span) }
      let p := { p with
        location := some (src.extentOf span)
        doc := src.docBefore span.start
        annotations := p.annotations ++ annotations.getD key [] }
      (properties.insert key p, annotations.erase key)) start).1

def eventsOf (src : Source) : Node → Table EventInfo
  | .object _ entries =>
    Table.ofList ((namedProperties entries).map fun (span, key, value) =>
      (key, { typeText := value.stringValue?, doc := src.docBefore span.start }))
  | _ => .empty

def environmentOf (src : Source) (settings : Table String) : Node → Table String
  | .object _ entries =>
    (namedProperties entries).foldl (fun t (_, key, value) => t.insert key (src.textOf value.span))
      settings
  | _ => settings

/-! ## Definitions -/

structure Draft where
  record : ClassRecord
  construct : List String := []
  destruct : List String := []

def readSection (src : Source) (file : String) (d : Draft) (span : Span) (key : String)
    (value : Node) : Except ReadError Draft :=
  let r := d.record
  let function (name : String) : Member := memberOf src name value (src.docBefore span.start) span
  match key with
  | "type" => .ok { d with record := { r with kind := value.stringValue? } }
  | "extend" =>
    if r.classType = .interface then
      .ok { d with record := { r with interfaces := r.interfaces ++ namesOf value } }
    else .ok { d with record := { r with superClass := value.dottedName? } }
  | "include" => .ok { d with record := { r with mixins := r.mixins ++ namesOf value } }
  | "implement" => .ok { d with record := { r with interfaces := r.interfaces ++ namesOf value } }
  | "construct" => .ok { d with record := { r with construct := some (function "construct") } }
  | "destruct" => .ok { d with record := { r with destruct := some (function "destruct") } }
  | "members" =>
    match value with
    | .object _ entries => .ok { d with record := { r with members := membersOf src entries } }
    | _ => .error (.invalidDefinition file "members and statics must be object literals")
  | "statics" =>
    match value with
    | .object _ entries => .ok { d with record := { r with statics := membersOf src entries } }
    | _ => .error (.invalidDefinition file "members and statics must be object literals")
  | "properties" =>
    match value with
    | .object _ entries => .ok { d with record := { r with properties := propertiesOf src entries } }
    | _ => .error (.invalidDefinition file "properties must be an object literal")
  | "events" => .ok { d with record := { r with events := eventsOf src value } }
  | "environment" =>
    .ok { d with record := { r with environment := environmentOf src r.environment value } }
  | "defer" => .ok { d with record := { r with hasDefer := true } }
  | "@" => .ok { d with record := { r with annotations := annotationTexts src value } }
  | "@construct" => .ok { d with construct := annotationTexts src value }
  | "@destruct" => .ok { d with destruct := annotationTexts src value }
  | _ => .ok d

def readSections (src : Source) (file : String) : Draft → List (Span × String × Node) →
    Except ReadError Draft
  | d, [] => .ok d
  | d, (span, key, value) :: rest => do
    let d ← readSection src file d span key value
    readSections src file d rest

def Draft.finish (d : Draft) : ClassRecord :=
  { d.record with
    construct := d.record.construct.map fun m => { m with annotations := d.construct }
    destruct := d.record.destruct.map fun m => { m with annotations := d.destruct } }

def extract (src : Source) (file : String) (classType : ClassType) (span : Span) (args : List Node) :
    Except ReadError ClassRecord :=
  match args with
  | .string _ classname :: more =>
    let record := { new classname classType with
      sourceFilename := file
      location := some (src.extentOf span)
      doc := src.docBefore span.start }
    match more with
    | [] => .ok record
    | .null _ :: _ => .ok record
    | .object _ sections :: _ =>
      (readSections src file { record } (namedProperties sections)).map Draft.finish
    | _ => .error (.invalidDefinition file "the second argument of define must be an object literal")
  | _ => .error (.invalidDefinition file "the first argument of define must be a string literal")

/-! ## Finding the definition -/

def definition? (callee : Node) : Option ClassType := callee.dottedName?.bind definedType?

structure Finder where
  record : Option ClassRecord := none
  error : Option ReadError := none
  warnings : List Marker := []

def mismatch (src : Source) (file : String) (expected : Option String) (classname : String)
    (span : Span) : List Marker :=
  match expected with
  | some name =>
    if name = classname then []
    else [(Marker.warning Marker.classnameMismatch classname
      (file ++ " declares " ++ classname ++ " but its path implies " ++ name)).at_ (src.placeOf span)]
  | none => []

def secondName : List Node → String
  | .string _ name :: _ => name
  | _ => "<anonymous>"

/-- Takes a call of a defining function into account: the first one counts. -/
def Finder.found (src : Source) (file : String) (expected : Option String) (f : Finder)
    (classType : ClassType) (span : Span) (args : List Node) : Finder :=
  match f.record, f.error with
  | some first, _ =>
    { f with warnings := f.warnings ++ [(Marker.warning Marker.duplicateDefinition first.classname
        ("Second definition of " ++ secondName args ++ " in " ++ file ++ " is ignored")).at_
          (src.placeOf span)] }
  | none, some _ => f
  | none, none =>
    match extract src file classType span args with
    | .ok r =>
      { f with
        record := some r
        warnings := f.warnings ++ mismatch src file expected r.classname span }
    | .error e => { f with error := some e }

mutual

/-- Looks for definitions in a part of a program, in the order of the text. -/
def Finder.visit (src : Source) (file : String) (expected : Option String) (f : Finder) :
    Node → Finder
  | .call span callee args =>
    match definition? callee with
    | some classType => f.found src file expected classType span args
    | none => Finder.visitAll src file expected (Finder.visit src file expected f callee) args
  | .name .. | .this .. | .string .. | .number .. | .boolean .. | .null .. | .hole .. => f
  | .member _ o _ | .paren _ o | .spread _ o | .unary _ _ o => Finder.visit src file expected f o
  | .index _ o parts | .new _ o parts =>
    Finder.visitAll src file expected (Finder.visit src file expected f o) parts
  | .property _ _ computed value =>
    Finder.visit src file expected (Finder.visitAll src file expected f computed) value
  | .array _ parts | .object _ parts | .param _ _ parts | .rest _ parts | .sequence _ parts
  | .arrowHead _ parts | .compound _ parts => Finder.visitAll src file expected f parts
  | .func _ params body =>
    Finder.visitAll src file expected (Finder.visitAll src file expected f params) body
  | .binary _ _ l r | .assign _ l r | .shorthandDefault _ l r =>
    Finder.visit src file expected (Finder.visit src file expected f l) r

/-- Looks for definitions in parts of a program, one after another. -/
def Finder.visitAll (src : Source) (file : String) (expected : Option String) (f : Finder) :
    List Node → Finder
  | [] => f
  | n :: rest => Finder.visitAll src file expected (Finder.visit src file expected f n) rest

end

structure Extraction where
  record : ClassRecord
  warnings : List Marker
deriving DecidableEq

def ofProgram (src : Source) (statements : List Node) (file : String) (expected : Option String) :
    Except ReadError Extraction :=
  let f := Finder.visitAll src file expected {} statements
  match f.error, f.record with
  | some e, _ => .error e
  | none, some record => .ok { record, warnings := f.warnings }
  | none, none => .error (.noDefinition file)

def ofSource (source file : String) (expected : Option String) : Except ReadError Extraction :=
  match Script.Program.parse? source with
  | none => .error (.malformed file)
  | some program => ofProgram (Source.ofProgram source program) program.statements file expected

def ofFile (t : FileTree) (file : Path) (expected : Option String) : Except ReadError Extraction := do
  let source ← (t.read file).mapError (.unreadable file)
  ofSource source file.text expected

end ClassRecord

end ClassForge
