import ClassForge.ClassRecord.Basic

/-!
# The JSON form of class records

Fields without a value are left out, except for the tables of members, statics, properties and
events.
-/

namespace ClassForge

open Json (Encode Decode encode)

def Json.fieldText (name : String) (text : String) : List (String × Json) :=
  if text.isEmpty then [] else [(name, .string text)]

instance : Encode Access := ⟨fun
  | .pub => .string "public"
  | .prot => .string "protected"
  | .priv => .string "private"⟩

instance : Decode Access :=
  ⟨Json.readVariant [("public", .pub), ("protected", .prot), ("private", .priv)]⟩

instance : Encode ClassType := ⟨fun
  | .ordinary => .string "class"
  | .mixin => .string "mixin"
  | .interface => .string "interface"
  | .theme => .string "theme"⟩

instance : Decode ClassType := ⟨Json.readVariant
  [("class", .ordinary), ("mixin", .mixin), ("interface", .interface), ("theme", .theme)]⟩

instance : Encode MemberKind := ⟨fun
  | .function => .string "function"
  | .value => .string "variable"⟩

instance : Decode MemberKind := ⟨Json.readVariant [("function", .function), ("variable", .value)]⟩

instance : Encode Param := ⟨fun p => .object (
  [("name", encode p.name)] ++ Json.fieldOf? "type" p.typeText ++ [("optional", encode p.optional)] ++
    Json.fieldOf? "defaultValue" p.defaultValue ++ Json.fieldText "description" p.description)⟩

instance : Decode Param := ⟨Json.readFields do
  let name ← Json.required "name"
  let typeText ← Json.defaulted "type" none
  let optional ← Json.defaulted "optional" false
  let defaultValue ← Json.defaulted "defaultValue" none
  let description ← Json.defaulted "description" ""
  return { name, typeText, optional, defaultValue, description }⟩

instance : Encode Return := ⟨fun r => .object (
  Json.fieldOf? "type" r.typeText ++ Json.fieldText "description" r.description)⟩

instance : Decode Return := ⟨Json.readFields do
  let typeText ← Json.defaulted "type" none
  let description ← Json.defaulted "description" ""
  return { typeText, description }⟩

instance : Encode Member := ⟨fun m => .object (
  [("kind", encode m.kind), ("access", encode m.access)] ++ Json.fieldOf? "location" m.location ++
    Json.fieldList "params" m.params ++ Json.fieldOf? "returns" m.returns ++
    Json.fieldOf? "jsdoc" m.doc ++ Json.fieldList "annotations" m.annotations ++
    Json.fieldIf "isAbstract" m.isAbstract ++ Json.fieldOf? "fromInterface" m.fromInterface ++
    Json.fieldOf? "overriddenFrom" m.overriddenFrom ++ Json.fieldOf? "mixin" m.mixin ++
    Json.fieldList "appearsIn" m.appearsIn)⟩

instance : Decode Member := ⟨Json.readFields do
  let kind ← Json.required "kind"
  let access ← Json.required "access"
  let location ← Json.defaulted "location" none
  let params ← Json.defaulted "params" []
  let returns ← Json.defaulted "returns" none
  let doc ← Json.defaulted "jsdoc" none
  let annotations ← Json.defaulted "annotations" []
  let isAbstract ← Json.defaulted "isAbstract" false
  let fromInterface ← Json.defaulted "fromInterface" none
  let overriddenFrom ← Json.defaulted "overriddenFrom" none
  let mixin ← Json.defaulted "mixin" none
  let appearsIn ← Json.defaulted "appearsIn" []
  return { kind, access, location, params, returns, doc, annotations, isAbstract, fromInterface,
           overriddenFrom, mixin, appearsIn }⟩

instance : Encode Property := ⟨fun p => .object (
  Json.fieldOf? "check" p.check ++ Json.fieldOf? "init" p.init ++ Json.fieldIf "nullable" p.nullable ++
    Json.fieldOf? "event" p.event ++ Json.fieldOf? "apply" p.apply ++ Json.fieldIf "refine" p.refine ++
    Json.fieldIf "themeable" p.themeable ++ Json.fieldIf "inheritable" p.inheritable ++
    Json.fieldList "group" p.group ++ Json.fieldOf? "location" p.location ++
    Json.fieldOf? "jsdoc" p.doc ++ Json.fieldList "annotations" p.annotations ++
    Json.fieldOf? "overriddenFrom" p.overriddenFrom ++ Json.fieldOf? "mixin" p.mixin ++
    Json.fieldList "appearsIn" p.appearsIn)⟩

instance : Decode Property := ⟨Json.readFields do
  let check ← Json.defaulted "check" none
  let init ← Json.defaulted "init" none
  let nullable ← Json.defaulted "nullable" false
  let event ← Json.defaulted "event" none
  let apply ← Json.defaulted "apply" none
  let refine ← Json.defaulted "refine" false
  let themeable ← Json.defaulted "themeable" false
  let inheritable ← Json.defaulted "inheritable" false
  let group ← Json.defaulted "group" []
  let location ← Json.defaulted "location" none
  let doc ← Json.defaulted "jsdoc" none
  let annotations ← Json.defaulted "annotations" []
  let overriddenFrom ← Json.defaulted "overriddenFrom" none
  let mixin ← Json.defaulted "mixin" none
  let appearsIn ← Json.defaulted "appearsIn" []
  return { check, init, nullable, event, apply, refine, themeable, inheritable, group, location,
           doc, annotations, overriddenFrom, mixin, appearsIn }⟩

instance : Encode EventInfo := ⟨fun e => .object (
  Json.fieldOf? "type" e.typeText ++ Json.fieldOf? "jsdoc" e.doc)⟩

instance : Decode EventInfo := ⟨Json.readFields do
  let typeText ← Json.defaulted "type" none
  let doc ← Json.defaulted "jsdoc" none
  return { typeText, doc }⟩

instance : Encode ClassRecord := ⟨fun r => .object (
  [("version", encode r.version), ("classname", encode r.classname),
    ("type", encode r.classType)] ++
    Json.fieldOf? "kind" r.kind ++ Json.fieldOf? "superClass" r.superClass ++
    Json.fieldList "mixins" r.mixins ++ Json.fieldList "interfaces" r.interfaces ++
    Json.fieldOf? "construct" r.construct ++ Json.fieldOf? "destruct" r.destruct ++
    [("members", encode r.members), ("statics", encode r.statics),
      ("properties", encode r.properties), ("events", encode r.events)] ++
    Json.fieldTable "environment" r.environment ++ Json.fieldList "annotations" r.annotations ++
    Json.fieldOf? "jsdoc" r.doc ++ Json.fieldIf "hasDefer" r.hasDefer ++
    Json.fieldOf? "location" r.location ++
    [("sourceFilename", encode r.sourceFilename), ("lastModified", encode r.lastModified)])⟩

instance : Decode ClassRecord := ⟨Json.readFields do
  let version ← Json.required "version"
  let classname ← Json.required "classname"
  let classType ← Json.required "type"
  let kind ← Json.defaulted "kind" none
  let superClass ← Json.defaulted "superClass" none
  let mixins ← Json.defaulted "mixins" []
  let interfaces ← Json.defaulted "interfaces" []
  let construct ← Json.defaulted "construct" none
  let destruct ← Json.defaulted "destruct" none
  let members ← Json.defaulted "members" .empty
  let statics ← Json.defaulted "statics" .empty
  let properties ← Json.defaulted "properties" .empty
  let events ← Json.defaulted "events" .empty
  let environment ← Json.defaulted "environment" .empty
  let annotations ← Json.defaulted "annotations" []
  let doc ← Json.defaulted "jsdoc" none
  let hasDefer ← Json.defaulted "hasDefer" false
  let location ← Json.defaulted "location" none
  let sourceFilename ← Json.required "sourceFilename"
  let lastModified ← Json.required "lastModified"
  return { version, classname, classType, kind, superClass, mixins, interfaces, construct, destruct,
           members, statics, properties, events, environment, annotations, doc, hasDefer, location,
           sourceFilename, lastModified }⟩

end ClassForge
