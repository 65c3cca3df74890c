import ClassForge.Dependency.Basic
import ClassForge.Report.Marker

/-!
# Build information

What is known of a compiled class: the text it was made from, the classes it needs, and the
messages, assets and settings it uses. It is written next to the code.
-/

namespace ClassForge

open Json (Encode Decode encode)

/-- What is known of a compiled class. -/
structure BuildInfo where
  classname : String
  hash : String
  sourceTime : UInt64
  dependsOn : Table Needs := .empty
  translations : List String := []
  assets : List String := []
  environment : List String := []
  markers : List Marker := []
deriving DecidableEq

instance : Encode BuildInfo := ⟨fun i => .object (
  [("classname", encode i.classname), ("hash", encode i.hash),
    ("sourceMtime", encode i.sourceTime), ("dependsOn", encode i.dependsOn)] ++
    Json.fieldList "translations" i.translations ++ Json.fieldList "assets" i.assets ++
    Json.fieldList "environment" i.environment ++ Json.fieldList "markers" i.markers)⟩

instance : Decode BuildInfo := ⟨Json.readFields do
  let classname ← Json.required "classname"
  let hash ← Json.required "hash"
  let sourceTime ← Json.required "sourceMtime"
  let dependsOn ← Json.defaulted "dependsOn" .empty
  let translations ← Json.defaulted "translations" []
  let assets ← Json.defaulted "assets" []
  let environment ← Json.defaulted "environment" []
  let markers ← Json.defaulted "markers" []
  return { classname, hash, sourceTime, dependsOn, translations, assets, environment, markers }⟩

namespace BuildInfo

def loadNeeds (i : BuildInfo) : List String := (i.dependsOn.filter fun _ n => n.load).keys

def constructNeeds (i : BuildInfo) : List String := (i.dependsOn.filter fun _ n => n.construct).keys

def hasErrors (i : BuildInfo) : Bool := i.markers.any Marker.isError

end BuildInfo

structure CompileFailure where
  classname : String
  message : String
deriving DecidableEq

abbrev CompileOutcome := Except CompileFailure BuildInfo

end ClassForge
