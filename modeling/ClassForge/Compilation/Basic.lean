import ClassForge.Compilation.Info
import ClassForge.Compilation.Transform
import ClassForge.Dependency.Collect
import ClassForge.Digest.Sha256
import ClassForge.Files.Tree
import ClassForge.Json.Reader

/-!
# Compiling a class

The code of a class, its map and its build information are written below the directory
`transpiled` of the output. Build information that was written before is used again as long as the
source has not changed.
-/

namespace ClassForge

open Json (Encode Decode encode)

structure CompileRequest where
  classname : String
  sourcePath : Path
  outputDir : Path
  minify : Bool := false
deriving DecidableEq

instance : Encode CompileRequest := ⟨fun r => .object
  [("classname", encode r.classname), ("sourcePath", encode r.sourcePath),
    ("outputDir", encode r.outputDir), ("minify", encode r.minify)]⟩

instance : Decode CompileRequest := ⟨Json.readFields do
  let classname ← Json.required "classname"
  let sourcePath ← Json.required "sourcePath"
  let outputDir ← Json.required "outputDir"
  let minify ← Json.defaulted "minify" false
  return { classname, sourcePath, outputDir, minify }⟩

inductive CompileError where
  | cannotStat (file : Path) (cause : FileError)
  | cannotRead (file : Path) (cause : FileError)
  | malformed (file : Path)
  | cannotCreate (directory : Path) (cause : FileError)
  | cannotWrite (file : Path) (cause : FileError)
  | refused (message : String)
  | crashed (message : String)
deriving DecidableEq

def CompileError.message : CompileError → String
  | cannotStat p e => "cannot stat " ++ p.text ++ ": " ++ e.message
  | cannotRead p e => "cannot read " ++ p.text ++ ": " ++ e.message
  | malformed p => p.text ++ ": Unexpected token"
  | cannotCreate p e => "cannot create " ++ p.text ++ ": " ++ e.message
  | cannotWrite p e => "cannot write " ++ p.text ++ ": " ++ e.message
  | refused m => m
  | crashed m => m

namespace Compilation

def directory : String := "transpiled"

def artifactPath (outputDir : Path) (classname extension : String) : Path :=
  (outputDir.child directory).ofClass classname extension

def hashOf (source : String) : String := Sha256.hexDigest source

/-- The build information written before, if it still holds: it was made from the source with its
present time, and the code is not older than that. -/
def reusable? (t : FileTree) (outputDir : Path) (classname : String) (source : Path) :
    Option BuildInfo := do
  let sourceTime ← (t.modified source).toOption
  let codeTime ← (t.modified (artifactPath outputDir classname "js")).toOption
  let text ← (t.read (artifactPath outputDir classname "json")).toOption
  let j ← Json.parse? text
  let info : BuildInfo ← (Json.decode j).toOption
  if info.sourceTime = sourceTime ∧ sourceTime ≤ codeTime then some info else none

def writeArtifact (file : Path) (text : String) : FileM CompileError Unit := do
  match file.parent? with
  | some d => FileM.changing (·.createDirectories d) (.cannotCreate d)
  | none => pure ()
  FileM.changing (·.write file text) (.cannotWrite file)

def withMapComment (code mapName : String) : String :=
  Text.trimmedEnd code ++ "\n\n//# sourceMappingURL=" ++ mapName ++ "\n"

def infoOf (classname source : String) (time : UInt64) (a : Dependency.Analysis) : BuildInfo :=
  { classname, hash := hashOf source, sourceTime := time, dependsOn := a.dependsOn,
    translations := a.translations, assets := a.assets, environment := a.environment,
    markers := a.markers }

/-- What is left to do once a source has been read: the files to write, one after another, and what
comes of the compile. -/
structure Plan where
  writes : List (Path × String)
  result : Except CompileError BuildInfo

/-- The plan for a source that was read at a time. If the transformer refuses the source, only the
build information is written, with that error. The build information comes last, so that it is not
there before the code. -/
def plan (r : CompileRequest) (resolver : Resolver) (transformer : Transformer) (time : UInt64)
    (source : String) : Plan :=
  match Dependency.ofSource? r.classname source resolver with
  | none => { writes := [], result := .error (.malformed r.sourcePath) }
  | some analysis =>
    let info := infoOf r.classname source time analysis
    let codePath := artifactPath r.outputDir r.classname "js"
    let mapPath := artifactPath r.outputDir r.classname "js.map"
    let infoPath := artifactPath r.outputDir r.classname "json"
    match transformer.run source r.sourcePath.text { minify := r.minify, sourceMap := true } with
    | .error (.crashed m) => { writes := [], result := .error (.crashed m) }
    | .error (.failed m) =>
      let marker := Marker.error Marker.transformFailed r.classname m
      { writes := [(infoPath, (encode { info with markers := info.markers ++ [marker] }).pretty)]
        result := .error (.refused m) }
    | .ok output =>
      { writes := [(codePath, withMapComment output.code (mapPath.fileName?.getD ""))] ++
          (output.map.map fun map => (mapPath, map)).toList ++ [(infoPath, (encode info).pretty)]
        result := .ok info }

/-- Compiles a class and writes what comes of it. The time of the source is taken before its text, so
that a change in between leaves an older time. -/
def compile (r : CompileRequest) (resolver : Resolver) (transformer : Transformer) :
    FileM CompileError BuildInfo := do
  let time ← FileM.reading (·.modified r.sourcePath) (.cannotStat r.sourcePath)
  let source ← FileM.reading (·.read r.sourcePath) (.cannotRead r.sourcePath)
  let p := plan r resolver transformer time source
  p.writes.forM fun (file, text) => writeArtifact file text
  match p.result with
  | .ok info => return info
  | .error e => throw e

end Compilation

end ClassForge
