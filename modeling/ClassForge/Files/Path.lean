import ClassForge.Json.Codec
import ClassForge.Text.Blank
import ClassForge.Text.Quoted
import ClassForge.Text.Segment

/-!
# Paths

A path is a text whose parts stand between slashes. Its text is kept as it was written; empty parts
and the part `.` say nothing and do not count when two paths are compared, except for a `.` at the
very beginning.
-/

namespace ClassForge

structure Path where
  text : String
deriving DecidableEq, Inhabited

inductive PathPart where
  /-- The slash an absolute path begins with. -/
  | root
  | here
  | up
  | name (text : String)
deriving DecidableEq

namespace PathPart

def text : PathPart → String
  | root => "/"
  | here => "."
  | up => ".."
  | name s => s

def ofSegment? (s : String) : Option PathPart :=
  if s = "" ∨ s = "." then none else if s = ".." then some up else some (name s)

end PathPart

namespace Path

instance : Json.Encode Path := ⟨fun p => .string p.text⟩
instance : Json.Decode Path := ⟨fun j => Path.mk <$> Json.decode j⟩

def segments (p : Path) : List String := Text.split '/' p.text

def isAbsolute (p : Path) : Bool := p.text.toList.head? = some '/'

def parts (p : Path) : List PathPart :=
  match p.segments with
  | [] => []
  | first :: rest =>
    let start :=
      if p.isAbsolute then [.root]
      else if first = "." then [.here]
      else (PathPart.ofSegment? first).toList
    start ++ rest.filterMap PathPart.ofSegment?

def plain (p : Path) : String :=
  match p.parts with
  | .root :: rest => "/" ++ "/".intercalate (rest.map PathPart.text)
  | l => "/".intercalate (l.map PathPart.text)

def same (p q : Path) : Bool := p.parts = q.parts

def join (p : Path) (more : Path) : Path :=
  if more.isAbsolute ∨ p.text.isEmpty then more
  else if p.text.toList.getLast? = some '/' then ⟨p.text ++ more.text⟩
  else ⟨p.text ++ "/" ++ more.text⟩

def child (p : Path) (more : String) : Path := p.join ⟨more⟩

def dropIdle (l : List String) : List String := Text.dropEndWhile (fun s => s = "" ∨ s = ".") l

def spine (p : Path) : List String :=
  match p.segments with
  | [] => []
  | first :: rest => first :: dropIdle rest

def ofSpine (p : Path) : List String → Path
  | [""] => if p.isAbsolute then ⟨"/"⟩ else ⟨""⟩
  | l => ⟨"/".intercalate l⟩

def parent? (p : Path) : Option Path :=
  match p.spine with
  | [] => none
  | [first] => if first = "" then none else some ⟨""⟩
  | first :: rest => some (p.ofSpine (first :: dropIdle rest.dropLast))

def fileName? (p : Path) : Option String :=
  match p.spine.getLast? with
  | some s => if s = "" ∨ s = "." ∨ s = ".." then none else some s
  | none => none

/-- A file name without its extension: what stands before the last dot, unless that dot comes
first. -/
def stemOf (name : String) : String :=
  match Text.splitLast '.' name.toList with
  | some ([], _) => name
  | some (a, _) => String.ofList a
  | none => name

def withExtension (p : Path) (extension : String) : Path :=
  match p.fileName? with
  | none => p
  | some name =>
    let last := if extension.isEmpty then stemOf name else stemOf name ++ "." ++ extension
    ⟨"/".intercalate (p.spine.dropLast ++ [last])⟩

/-- The file of a class below a directory: the parts of its name lead there. -/
def ofClass (base : Path) (classname extension : String) : Path :=
  ((Text.split '.' classname).foldl child base).withExtension extension

def dropCounting : Nat → List String → List String
  | _, [] => []
  | n, s :: rest =>
    if s = "" ∨ s = "." then dropCounting n rest
    else
      match n with
      | 0 => s :: rest
      | n + 1 => dropCounting n rest

def below? (root p : Path) : Option Path :=
  if root.parts.isPrefixOf p.parts then
    match root.parts.length, p.segments with
    | n + 1, _ :: rest => some ⟨"/".intercalate (dropIdle (dropCounting n rest))⟩
    | _, _ => some (p.ofSpine p.spine)
  else none

def quoted (p : Path) : String := Text.quoted p.text

end Path

end ClassForge
