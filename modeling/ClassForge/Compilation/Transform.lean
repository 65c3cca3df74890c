import ClassForge.Json.Printer
import ClassForge.Report.UnknownName
import ClassForge.Script.Program
import ClassForge.Text.Segment

/-!
# Transformers

A transformer turns the source of a class into the code that is shipped, with a map back to the
source. A transformer that cannot go on either says why or crashes.
-/

namespace ClassForge

structure TransformOptions where
  minify : Bool := false
  sourceMap : Bool := false

structure TransformOutput where
  code : String
  map : Option String := none

/-- Why a transformer gives nothing. -/
inductive TransformError where
  | failed (message : String)
  | crashed (message : String)
deriving DecidableEq

/-- A way to turn sources into code. -/
structure Transformer where
  name : String
  run : (source filename : String) → TransformOptions → Except TransformError TransformOutput

namespace Transformer

/-- The last part of a file name that uses slashes or backslashes. -/
def baseName (filename : String) : String :=
  String.ofList (filename.toList.reverse.takeWhile fun c => c != '/' && c != '\\').reverse

def lineMappings (lines : Nat) : String :=
  (List.replicate (lines - 1) ";AACA").foldl (· ++ ·) "AAAA"

/-- The map of a text that is its own source: every line starts at the same line. -/
def identityMap (filename source : String) : String :=
  let map : Json := .object [
    ("file", .string (baseName filename)),
    ("mappings", .string (lineMappings (Text.split '\n' source).length)),
    ("names", .array []),
    ("sources", .array [.string filename]),
    ("sourcesContent", .array [.string source]),
    ("version", .int 3)]
  map.render

def unchanged (source filename : String) (options : TransformOptions) : TransformOutput :=
  { code := source, map := if options.sourceMap then some (identityMap filename source) else none }

def passthrough : Transformer where
  name := "passthrough"
  run source filename options := .ok (unchanged source filename options)

/-- The transformer that checks what it is given. How code is generated from a source that can be read
is left to other software and left out here: the source stays as it is, and every failure has one
message. Compiling takes any transformer. -/
def checked : Transformer where
  name := "oxc"
  run source filename options :=
    match Script.Program.parse? source with
    | some _ => .ok (unchanged source filename options)
    | none => .error (.failed "parser aborted")

def known : List Transformer := [checked, passthrough]

def ofName (transformers : List Transformer) (name : String) : Except UnknownName Transformer :=
  match transformers.find? fun t => t.name = name with
  | some t => .ok t
  | none => .error { kind := "transformer", name }

end Transformer

end ClassForge
