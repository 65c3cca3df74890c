import ClassForge.DocComment
import ClassForge.Report.Place
import ClassForge.Script.Program

/-!
# Source texts

A source text with its lines and its documentation comments.
-/

namespace ClassForge.Script

def dropBytes : Nat → List Char → List Char
  | _, [] => []
  | n, c :: rest => if n = 0 then c :: rest else dropBytes (n - c.utf8Size) rest

def takeBytes : Nat → List Char → List Char
  | _, [] => []
  | n, c :: rest => if n = 0 then [] else c :: takeBytes (n - c.utf8Size) rest

structure Source where
  text : List Char
  starts : List Nat
  docs : List Span

namespace Source

def slice (s : Source) (span : Span) : List Char :=
  takeBytes (span.stop - span.start) (dropBytes span.start s.text)

def textOf (s : Source) (span : Span) : String := String.ofList (s.slice span)

def placeOf (s : Source) (span : Span) : Place := Place.ofOffset s.starts span.start

def extentOf (s : Source) (span : Span) : Extent :=
  ⟨Place.ofOffset s.starts span.start, Place.ofOffset s.starts span.stop⟩

def ofProgram (source : String) (program : Program) : Source :=
  let text := source.toList
  let isDoc (span : Span) : Bool :=
    (takeBytes 3 (dropBytes span.start text)) == "/**".toList
  { text, starts := lineStarts text, docs := program.comments.filter isDoc }

def docOf (s : Source) (span : Span) : DocComment := DocComment.parse (s.textOf span)

/-- The documentation comment right before a byte, with nothing but blanks between. -/
def docBefore (s : Source) (pos : Nat) : Option DocComment :=
  match (s.docs.takeWhile fun span => span.stop ≤ pos).getLast? with
  | none => none
  | some span =>
    if (s.slice ⟨span.stop, pos⟩).all Text.isBlank then some (s.docOf span) else none

def allDocs (s : Source) : List DocComment := s.docs.map s.docOf

end Source

end ClassForge.Script
