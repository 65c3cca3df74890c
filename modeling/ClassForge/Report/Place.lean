import ClassForge.Json.Codec

/-!
# Places in a source text

Lines end at line feeds only; lines and columns are counted from one, columns in bytes.
-/

namespace ClassForge

open Json (Encode Decode encode)

structure Place where
  line : UInt32
  column : UInt32
deriving DecidableEq, Inhabited

/-- A stretch of text between two places. -/
structure Extent where
  start : Place
  stop : Place
deriving DecidableEq, Inhabited

def lineStarts (text : List Char) : List Nat := 0 :: go 0 text
where
  go : Nat → List Char → List Nat
    | _, [] => []
    | pos, c :: rest =>
      let next := pos + c.utf8Size
      if c = '\n' then next :: go next rest else go next rest

/-- The place of a byte among lines that start at given bytes. -/
def Place.ofOffset (starts : List Nat) (offset : Nat) : Place :=
  let passed := starts.takeWhile (· ≤ offset)
  ⟨passed.length.toUInt32, (offset - passed.getLast?.getD 0 + 1).toUInt32⟩

instance : Encode Place := ⟨fun p => .object [("line", encode p.line), ("column", encode p.column)]⟩

instance : Decode Place := ⟨Json.readFields do
  let line ← Json.required "line"
  let column ← Json.required "column"
  return { line, column }⟩

instance : Encode Extent := ⟨fun e => .object [("start", encode e.start), ("end", encode e.stop)]⟩

instance : Decode Extent := ⟨Json.readFields do
  let start ← Json.required "start"
  let stop ← Json.required "end"
  return { start, stop }⟩

end ClassForge
