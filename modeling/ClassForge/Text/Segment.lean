/-!
# Cutting texts

Splitting and searching lists of characters: at a character, at a test, at a word, and into lines.
-/

namespace ClassForge.Text

/-- The pieces of a text between the occurrences of a separator; always at least one piece. -/
def splitOn (sep : Char) : List Char → List (List Char)
  | [] => [[]]
  | c :: rest =>
    match splitOn sep rest with
    | [] => [[]]
    | piece :: pieces => if c = sep then [] :: piece :: pieces else (c :: piece) :: pieces

def split (sep : Char) (s : String) : List String :=
  (splitOn sep s.toList).map String.ofList

/-- The text before and after the first character that satisfies a test. -/
def splitOnce (p : Char → Bool) : List Char → Option (List Char × List Char)
  | [] => none
  | c :: rest =>
    if p c then some ([], rest) else (splitOnce p rest).map fun (a, b) => (c :: a, b)

def splitLast (sep : Char) : List Char → Option (List Char × List Char)
  | [] => none
  | c :: rest =>
    match splitLast sep rest with
    | some (a, b) => some (c :: a, b)
    | none => if c = sep then some ([], rest) else none

/-- What remains of a text after a given beginning. -/
def dropHead? : (head cs : List Char) → Option (List Char)
  | [], cs => some cs
  | _ :: _, [] => none
  | h :: hs, c :: cs => if h = c then dropHead? hs cs else none

/-- What remains of a text before a given end. -/
def dropTail? (tail cs : List Char) : Option (List Char) :=
  (dropHead? tail.reverse cs.reverse).map List.reverse

def dropHeads (head cs : List Char) : List Char := go cs.length cs
where
  go : Nat → List Char → List Char
    | 0, cs => cs
    | fuel + 1, cs =>
      match dropHead? head cs with
      | some rest => go fuel rest
      | none => cs

def dropTails (tail cs : List Char) : List Char := (dropHeads tail.reverse cs.reverse).reverse

/-- The text before and after the first occurrence of a word. -/
def cutAt (word : List Char) : List Char → Option (List Char × List Char)
  | [] => (dropHead? word []).map fun rest => ([], rest)
  | c :: cs =>
    match dropHead? word (c :: cs) with
    | some rest => some ([], rest)
    | none => (cutAt word cs).map fun (a, b) => (c :: a, b)

def hasWord (word cs : List Char) : Bool := (cutAt word cs).isSome

def beforeLast (word : List Char) : List Char → Option (List Char)
  | [] => (dropHead? word []).map fun _ => []
  | c :: cs =>
    match beforeLast word cs with
    | some a => some (c :: a)
    | none => (dropHead? word (c :: cs)).map fun _ => []

def dropReturn (line : List Char) : List Char := (dropTail? ['\r'] line).getD line

/-- The lines of a text: they end at line feeds, a carriage return before one belongs to the line's
end, and a final line feed starts no further line. -/
def lines (cs : List Char) : List (List Char) :=
  let pieces := splitOn '\n' cs
  match pieces.getLast? with
  | some [] => pieces.dropLast.map dropReturn
  | some last => pieces.dropLast.map dropReturn ++ [last]
  | none => []

end ClassForge.Text
