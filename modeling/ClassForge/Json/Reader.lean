import ClassForge.Json.Basic

/-!
# Reading JSON text

A reader for JSON text: one value with blanks around it and nothing after it, nested at most
127 levels deep. Whole numbers that fit 64 bits stay whole; other numbers are scaled by a power of
ten after their first digits have been taken as a 64-bit whole number, with one rounding each.
-/

namespace ClassForge.Json.Reader

/-- A blank between the parts of a JSON text. -/
def isSpace (c : Char) : Bool := c = ' ' || c = '\t' || c = '\n' || c = '\r'

def skip (cs : List Char) : List Char := cs.dropWhile isSpace

def digit? (c : Char) : Option Nat := if c.isDigit then some (c.toNat - 48) else none

def hexDigit? (c : Char) : Option Nat :=
  if c.isDigit then some (c.toNat - 48)
  else if 'a' ≤ c ∧ c ≤ 'f' then some (c.toNat - 87)
  else if 'A' ≤ c ∧ c ≤ 'F' then some (c.toNat - 55)
  else none

def hexFour : List Char → Option (Nat × List Char)
  | a :: b :: c :: d :: rest => do
    let a ← hexDigit? a
    let b ← hexDigit? b
    let c ← hexDigit? c
    let d ← hexDigit? d
    return (((a * 16 + b) * 16 + c) * 16 + d, rest)
  | _ => none

/-- The character an escape stands for; the text starts after the backslash. A high surrogate needs
a low one after it, and a low one alone stands for nothing. -/
def escape : List Char → Option (Char × List Char)
  | '"' :: rest => some ('"', rest)
  | '\\' :: rest => some ('\\', rest)
  | '/' :: rest => some ('/', rest)
  | 'b' :: rest => some (Char.ofNat 8, rest)
  | 'f' :: rest => some (Char.ofNat 12, rest)
  | 'n' :: rest => some ('\n', rest)
  | 'r' :: rest => some ('\r', rest)
  | 't' :: rest => some ('\t', rest)
  | 'u' :: rest => do
    let (high, rest) ← hexFour rest
    if 0xDC00 ≤ high ∧ high ≤ 0xDFFF then none
    else if 0xD800 ≤ high ∧ high ≤ 0xDBFF then
      match rest with
      | '\\' :: 'u' :: rest => do
        let (low, rest) ← hexFour rest
        if 0xDC00 ≤ low ∧ low ≤ 0xDFFF then
          some (Char.ofNat (0x10000 + (high - 0xD800) * 0x400 + (low - 0xDC00)), rest)
        else none
      | _ => none
    else some (Char.ofNat high, rest)
  | _ => none

/-- The characters of a quoted text up to its closing quote; `fuel` bounds their number. -/
def quoted : (fuel : Nat) → (done cs : List Char) → Option (String × List Char)
  | 0, _, _ => none
  | _ + 1, _, [] => none
  | _ + 1, done, '"' :: rest => some (String.ofList done.reverse, rest)
  | fuel + 1, done, '\\' :: rest =>
    match escape rest with
    | some (c, rest) => quoted fuel (c :: done) rest
    | none => none
  | fuel + 1, done, c :: rest => if c.toNat < 32 then none else quoted fuel (c :: done) rest

/-- Adds digits to a whole number as long as it fits 64 bits; also counts them. -/
def absorb (n count : Nat) : List Char → Nat × Nat × List Char
  | [] => (n, count, [])
  | c :: rest =>
    match digit? c with
    | some d => if n * 10 + d < UInt64.size then absorb (n * 10 + d) (count + 1) rest else (n, count, c :: rest)
    | none => (n, count, c :: rest)

/-- A number that is scaled by a power of ten: multiplied or divided once, in steps of 308 powers
below the range. None if it is too large. -/
def scale : (fuel : Nat) → Binary64 → Int → Option Binary64
  | 0, f, _ => some f
  | fuel + 1, f, power =>
    if power.natAbs ≤ 308 then
      let p := Binary64.ofNat (Nat.pow 10 power.natAbs)
      if 0 ≤ power then
        let g := f.mul p
        if g.isFinite then some g else none
      else some (f.div p)
    else if f.isZero then some f
    else if 0 ≤ power then none
    else scale fuel (f.div (Binary64.ofNat (Nat.pow 10 308))) (power + 308)

def floating (negative : Bool) (significand : Nat) (power : Int) : Option Json := do
  let f ← scale 8 (Binary64.ofNat significand) power
  return .float (if negative then f.neg else f)

def digits (cs : List Char) : List Char × List Char := (cs.takeWhile Char.isDigit, cs.dropWhile Char.isDigit)

def numberOf (ds : List Char) : Nat := ds.foldl (fun n c => n * 10 + (c.toNat - 48)) 0

def powerPart (negative : Bool) (significand : Nat) (start : Int) (cs : List Char) :
    Option (Json × List Char) :=
  let (down, cs) := match cs with
    | '+' :: rest => (false, rest)
    | '-' :: rest => (true, rest)
    | rest => (false, rest)
  match digits cs with
  | ([], _) => none
  | (ds, rest) =>
    let p := numberOf ds
    if Nat.pow 2 31 ≤ p then
      if significand ≠ 0 ∧ !down then none
      else some (.float (Binary64.withSign negative 0), rest)
    else
      (floating negative significand (if down then start - p else start + p)).map fun v => (v, rest)

def afterDigits (negative : Bool) (significand : Nat) (power : Int) : List Char → Option (Json × List Char)
  | 'e' :: rest => powerPart negative significand power rest
  | 'E' :: rest => powerPart negative significand power rest
  | rest => (floating negative significand power).map fun v => (v, rest)

/-- Reads the fraction of a number, after the point. Digits beyond 64 bits are dropped. -/
def fractionPart (negative : Bool) (significand : Nat) (power : Int) (cs : List Char) :
    Option (Json × List Char) :=
  if (cs.takeWhile Char.isDigit).isEmpty then none
  else
    let (n, count, rest) := absorb significand 0 cs
    afterDigits negative n (power - count) (rest.dropWhile Char.isDigit)

/-- Reads a number, after its sign. -/
def unsigned (negative : Bool) (cs : List Char) : Option (Json × List Char) :=
  match cs with
  | '0' :: c :: rest => if c.isDigit then none else after 0 0 (c :: rest)
  | cs =>
    if (cs.takeWhile Char.isDigit).isEmpty then none
    else
      let (n, _, rest) := absorb 0 0 cs
      after n (rest.takeWhile Char.isDigit).length (rest.dropWhile Char.isDigit)
where
  /-- What follows the whole part, of which `dropped` digits did not fit. -/
  after (n dropped : Nat) (rest : List Char) : Option (Json × List Char) :=
    match rest with
    | '.' :: rest => fractionPart negative n dropped rest
    | 'e' :: rest => powerPart negative n dropped rest
    | 'E' :: rest => powerPart negative n dropped rest
    | rest =>
      if dropped ≠ 0 then (floating negative n dropped).map fun v => (v, rest)
      else if !negative then some (.int n, rest)
      else if n = 0 ∨ Nat.pow 2 63 < n then some (.float (Binary64.ofNat n).neg, rest)
      else some (.int (-(n : Int)), rest)

def scalar : List Char → Option (Json × List Char)
  | 'n' :: 'u' :: 'l' :: 'l' :: rest => some (.null, rest)
  | 't' :: 'r' :: 'u' :: 'e' :: rest => some (.bool true, rest)
  | 'f' :: 'a' :: 'l' :: 's' :: 'e' :: rest => some (.bool false, rest)
  | '"' :: rest => (quoted (rest.length + 1) [] rest).map fun (s, rest) => (.string s, rest)
  | '-' :: rest => unsigned true rest
  | cs => unsigned false cs

/-- Reads the items of an array after its bracket; `more` says that a comma came before. -/
def items (one : List Char → Option (Json × List Char)) :
    (fuel : Nat) → (more : Bool) → (done : List Json) → List Char → Option (List Json × List Char)
  | 0, _, _, _ => none
  | fuel + 1, more, done, cs =>
    match skip cs with
    | ']' :: rest => if more then none else some (done.reverse, rest)
    | cs => do
      let (v, rest) ← one cs
      match skip rest with
      | ',' :: rest => items one fuel true (v :: done) rest
      | ']' :: rest => some ((v :: done).reverse, rest)
      | _ => none

/-- Reads the fields of an object after its brace; `more` says that a comma came before. -/
def fields (one : List Char → Option (Json × List Char)) :
    (fuel : Nat) → (more : Bool) → (done : List (String × Json)) → List Char →
      Option (List (String × Json) × List Char)
  | 0, _, _, _ => none
  | fuel + 1, more, done, cs =>
    match skip cs with
    | '\x7d' :: rest => if more then none else some (done.reverse, rest)
    | '"' :: rest => do
      let (k, rest) ← quoted (rest.length + 1) [] rest
      match skip rest with
      | ':' :: rest => do
        let (v, rest) ← one (skip rest)
        match skip rest with
        | ',' :: rest => fields one fuel true ((k, v) :: done) rest
        | '\x7d' :: rest => some (((k, v) :: done).reverse, rest)
        | _ => none
      | _ => none
    | _ => none

/-- Reads a value whose containers are nested at most `room` levels deep. -/
def value : (room : Nat) → List Char → Option (Json × List Char)
  | 0, '[' :: _ => none
  | 0, '\x7b' :: _ => none
  | room + 1, '[' :: rest =>
    (items (value room) (rest.length + 1) false [] rest).map fun (l, rest) => (.array l, rest)
  | room + 1, '\x7b' :: rest =>
    (fields (value room) (rest.length + 1) false [] rest).map fun (l, rest) => (.object l, rest)
  | _, cs => scalar cs

end Reader

def parse? (s : String) : Option Json := do
  let (v, rest) ← Reader.value 127 (Reader.skip s.toList)
  if (Reader.skip rest).isEmpty then some v else none

end ClassForge.Json
