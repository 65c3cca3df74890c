import ClassForge.Script.Node
import ClassForge.Text.Identifier

/-!
# JavaScript tokens

Reading one token at the start of a text. Every reader takes the position of the text in bytes and
gives back the position after what it read; `fuel` is any bound on the length of the text.
-/

namespace ClassForge.Script

inductive Token where
  | eof
  | word (text : String) (escaped : Bool)
  | privateName
  | mark (text : String)
  | string (value : String)
  | number (value : Binary64)
  | bigint
  | template (valid last : Bool)
  | regex
deriving DecidableEq

instance : Inhabited Token := ⟨.eof⟩

namespace Token

/-! ## Characters -/

def isLineEnd (c : Char) : Bool :=
  c = '\n' || c = '\r' || c.toNat == 0x2028 || c.toNat == 0x2029

/-- The characters between tokens that end no line. -/
def isSpace (c : Char) : Bool :=
  let n := c.toNat
  c = ' ' || c = '\t' || n == 0x0B || n == 0x0C || n == 0x85 || n == 0xA0 || n == 0x1680 ||
    n == 0x180E || (0x2000 ≤ n && n ≤ 0x200B) || n == 0x202F || n == 0x205F || n == 0x3000 ||
    n == 0xFEFF

def digit? (base : Nat) (c : Char) : Option Nat :=
  let value? : Option Nat :=
    if c.isDigit then some (c.toNat - 48)
    else if 'a' ≤ c ∧ c ≤ 'f' then some (c.toNat - 87)
    else if 'A' ≤ c ∧ c ≤ 'F' then some (c.toNat - 55)
    else none
  value?.filter (· < base)

/-! ## Escapes -/

def hexDigits : (count n : Nat) → List Char → Option (Nat × List Char)
  | 0, n, cs => some (n, cs)
  | count + 1, n, c :: rest =>
    match digit? 16 c with
    | some d => hexDigits count (n * 16 + d) rest
    | none => none
  | _ + 1, _, [] => none

/-- A code point in braces, after the opening brace; also how many characters it takes with the
closing brace. -/
def bracedCode : (fuel n count : Nat) → List Char → Option (Nat × Nat × List Char)
  | 0, _, _, _ => none
  | _ + 1, n, count, '\x7d' :: rest =>
    if count = 0 ∨ 0x10FFFF < n then none else some (n, count + 1, rest)
  | fuel + 1, n, count, c :: rest =>
    match digit? 16 c with
    | some d => if 0x10FFFF < n then none else bracedCode fuel (n * 16 + d) (count + 1) rest
    | none => none
  | _ + 1, _, _, [] => none

/-- The code point of an escape, after `\u`; also how many characters it takes. -/
def unicodeEscape (fuel : Nat) : List Char → Option (Nat × Nat × List Char)
  | '\x7b' :: rest => (bracedCode fuel 0 0 rest).map fun (n, count, rest) => (n, count + 1, rest)
  | cs => (hexDigits 4 0 cs).map fun (n, rest) => (n, 4, rest)

def isSurrogate (n : Nat) : Bool := 0xD800 ≤ n && n ≤ 0xDFFF

abbrev Unit16 := Char ⊕ Nat

def unitOf (n : Nat) : Unit16 := if isSurrogate n then .inr n else .inl (Char.ofNat n)

def octalEscape : (most n count : Nat) → List Char → Nat × Nat × List Char
  | 0, n, count, cs => (n, count, cs)
  | _ + 1, n, count, [] => (n, count, [])
  | most + 1, n, count, c :: rest =>
    match digit? 8 c with
    | some d => octalEscape most (n * 8 + d) (count + 1) rest
    | none => (n, count, c :: rest)

def stringEscape (fuel : Nat) : List Char → Option (List Unit16 × Nat × List Char)
  | [] => none
  | 'n' :: rest => some ([.inl '\n'], 1, rest)
  | 't' :: rest => some ([.inl '\t'], 1, rest)
  | 'r' :: rest => some ([.inl '\r'], 1, rest)
  | 'b' :: rest => some ([.inl (Char.ofNat 8)], 1, rest)
  | 'f' :: rest => some ([.inl (Char.ofNat 12)], 1, rest)
  | 'v' :: rest => some ([.inl (Char.ofNat 11)], 1, rest)
  | 'x' :: rest => (hexDigits 2 0 rest).map fun (n, rest) => ([unitOf n], 3, rest)
  | 'u' :: rest => do
    let (high, count, rest) ← unicodeEscape fuel rest
    match decide (0xD800 ≤ high ∧ high ≤ 0xDBFF ∧ count = 4), rest with
    | true, '\\' :: 'u' :: more =>
      match hexDigits 4 0 more with
      | some (low, after) =>
        if 0xDC00 ≤ low ∧ low ≤ 0xDFFF then
          return ([.inl (Char.ofNat (0x10000 + (high - 0xD800) * 0x400 + (low - 0xDC00)))], 11, after)
        else return ([unitOf high], 1 + count, rest)
      | none => return ([unitOf high], 1 + count, rest)
    | _, _ => return ([unitOf high], 1 + count, rest)
  | '\r' :: '\n' :: rest => some ([], 2, rest)
  | c :: rest =>
    if isLineEnd c then some ([], c.utf8Size, rest)
    else
      match digit? 8 c with
      | some d =>
        let (n, count, rest) := octalEscape (if d < 4 then 2 else 1) d 1 rest
        some ([.inl (Char.ofNat n)], count, rest)
      | none => some ([.inl c], c.utf8Size, rest)

/-! ## Strings -/

/-- The text of units: halves of surrogate pairs that stand alone are written as U+FFFD and four
digits, and then U+FFFD itself as well. -/
def unitsText (units : List Unit16) : String :=
  let hex (n : Nat) : List Char :=
    [n / 4096, n / 256 % 16, n / 16 % 16, n % 16].map fun d =>
      if d < 10 then Char.ofNat (48 + d) else Char.ofNat (87 + d)
  let broken := units.any Sum.isRight
  String.ofList (units.flatMap fun
    | .inl c => if broken && c.toNat == 0xFFFD then c :: hex 0xFFFD else [c]
    | .inr n => Char.ofNat 0xFFFD :: hex n)

def stringBody (quote : Char) : (fuel pos : Nat) → (done : List Unit16) → List Char →
    Option (Token × Nat × List Char)
  | 0, _, _, _ => none
  | _ + 1, _, _, [] => none
  | fuel + 1, pos, done, c :: rest =>
    if c = quote then some (.string (unitsText done.reverse), pos + 1, rest)
    else if c = '\\' then
      match stringEscape fuel rest with
      | some (units, bytes, rest) =>
        stringBody quote fuel (pos + 1 + bytes) (units.reverse ++ done) rest
      | none => none
    else if c = '\n' ∨ c = '\r' then none
    else stringBody quote fuel (pos + c.utf8Size) (.inl c :: done) rest

def templateBody : (fuel pos : Nat) → (valid : Bool) → List Char → Option (Token × Nat × List Char)
  | 0, _, _, _ => none
  | _ + 1, _, _, [] => none
  | _ + 1, pos, valid, '\x60' :: rest => some (.template valid true, pos + 1, rest)
  | _ + 1, pos, valid, '$' :: '\x7b' :: rest => some (.template valid false, pos + 2, rest)
  | fuel + 1, pos, valid, '\\' :: rest =>
    match rest with
    | [] => none
    | c :: more =>
      let octal := c.isDigit && !(c = '0' && !(more.head?.any Char.isDigit))
      match stringEscape fuel rest with
      | some (_, bytes, after) =>
        if octal then templateBody fuel (pos + 1 + c.utf8Size) false more
        else templateBody fuel (pos + 1 + bytes) valid after
      | none => templateBody fuel (pos + 1 + c.utf8Size) false more
  | fuel + 1, pos, valid, c :: rest => templateBody fuel (pos + c.utf8Size) valid rest

/-! ## Words -/

def wordBody : (fuel pos : Nat) → (done : List Char) → (escaped : Bool) → List Char →
    Option (String × Bool × Nat × List Char)
  | 0, _, _, _, _ => none
  | fuel + 1, pos, done, _, '\\' :: 'u' :: rest =>
    match unicodeEscape fuel rest with
    | some (n, count, rest) =>
      let c := Char.ofNat n
      let fits := if done.isEmpty then Text.isIdStart c else Text.isIdPart c
      if fits && !isSurrogate n then wordBody fuel (pos + 2 + count) (c :: done) true rest else none
    | none => none
  | _ + 1, _, _, _, '\\' :: _ => none
  | fuel + 1, pos, done, escaped, c :: rest =>
    let fits := if done.isEmpty then Text.isIdStart c else Text.isIdPart c
    if fits then wordBody fuel (pos + c.utf8Size) (c :: done) escaped rest
    else some (String.ofList done.reverse, escaped, pos, c :: rest)
  | _ + 1, pos, done, escaped, [] => some (String.ofList done.reverse, escaped, pos, [])

/-! ## Numbers -/

/-- Reads digits of a base; an underscore may stand between two of them. -/
def digitRun (base : Nat) : (fuel : Nat) → (done : List Nat) → (count : Nat) → List Char →
    Option (List Nat × Nat × List Char)
  | 0, _, _, _ => none
  | fuel + 1, done, count, '_' :: c :: rest =>
    if done.isEmpty then some (done, count, '_' :: c :: rest)
    else
      match digit? base c with
      | some d => digitRun base fuel (d :: done) (count + 2) rest
      | none => none
  | fuel + 1, done, count, c :: rest =>
    match digit? base c with
    | some d => digitRun base fuel (d :: done) (count + 1) rest
    | none => if c = '_' ∧ !done.isEmpty then none else some (done, count, c :: rest)
  | _ + 1, done, count, [] => some (done, count, [])

def digitsValue (base : Nat) (reversed : List Nat) : Nat :=
  reversed.foldr (fun d n => n * base + d) 0

/-- The nearest number of a decimal; one far outside the range is infinite or zero. -/
def decimalValue (coefficient : Nat) (digits : Nat) (power : Int) : Binary64 :=
  if coefficient = 0 then Binary64.withSign false 0
  else if 400 < (digits : Int) + power then Binary64.withSign false Binary64.infinityBits
  else if (digits : Int) + power < -400 then Binary64.withSign false 0
  else Binary64.ofDecimal false coefficient power

def powerPart (fuel : Nat) (coefficient digits : Nat) (power : Int) (count : Nat) (cs : List Char) :
    Option (Binary64 × Nat × List Char) :=
  match cs with
  | c :: rest =>
    if c = 'e' ∨ c = 'E' then
      let (down, taken, rest) := match rest with
        | '+' :: more => (false, 2, more)
        | '-' :: more => (true, 2, more)
        | more => (false, 1, more)
      match digitRun 10 fuel [] 0 rest with
      | some ([], _) => none
      | some (ds, n, rest) =>
        let p : Int := digitsValue 10 ds
        some (decimalValue coefficient digits (if down then power - p else power + p), count + taken + n, rest)
      | none => none
    else some (decimalValue coefficient digits power, count, cs)
  | [] => some (decimalValue coefficient digits power, count, [])

def fractionPart (fuel : Nat) (whole : List Nat) (count : Nat) (cs : List Char) :
    Option (Binary64 × Nat × List Char) :=
  match cs with
  | '.' :: rest => do
    let (ds, n, rest) ← digitRun 10 fuel [] 0 rest
    let all := ds ++ whole
    powerPart fuel (digitsValue 10 all) all.length (-(ds.length : Int)) (count + 1 + n) rest
  | _ => powerPart fuel (digitsValue 10 whole) whole.length 0 count cs

/-- Reads a whole number in a base after its mark; it may be a big one. -/
def radixNumber (fuel base : Nat) (cs : List Char) : Option (Token × Nat × List Char) := do
  let (ds, n, rest) ← digitRun base fuel [] 0 cs
  if ds.isEmpty then none
  else
    match rest with
    | 'n' :: more => some (.bigint, n + 1, more)
    | _ => some (.number (Binary64.ofNat (digitsValue base ds)), n, rest)

/-- Reads a number that starts with a zero and another digit: octal unless a digit is above seven. -/
def legacyNumber (fuel : Nat) (cs : List Char) : Option (Token × Nat × List Char) :=
  let ds := cs.takeWhile Char.isDigit
  let rest := cs.dropWhile Char.isDigit
  let values := (ds.map fun c => c.toNat - 48).reverse
  if ds.all fun c => c.toNat < 56 then
    some (.number (Binary64.ofNat (digitsValue 8 values)), ds.length, rest)
  else (fractionPart fuel values ds.length rest).map fun (x, n, rest) => (.number x, n, rest)

def readNumber (fuel : Nat) (cs : List Char) : Option (Token × Nat × List Char) :=
  match cs with
  | '0' :: c :: rest =>
    if c = 'x' ∨ c = 'X' then (radixNumber fuel 16 rest).map fun (t, n, rest) => (t, n + 2, rest)
    else if c = 'o' ∨ c = 'O' then (radixNumber fuel 8 rest).map fun (t, n, rest) => (t, n + 2, rest)
    else if c = 'b' ∨ c = 'B' then (radixNumber fuel 2 rest).map fun (t, n, rest) => (t, n + 2, rest)
    else if c = 'n' then some (.bigint, 2, rest)
    else if c = '_' then none
    else if c.isDigit then legacyNumber fuel cs
    else (fractionPart fuel [0] 1 (c :: rest)).map fun (x, n, rest) => (.number x, n, rest)
  | _ => do
    let (ds, n, rest) ← digitRun 10 fuel [] 0 cs
    match rest with
    | 'n' :: more => if ds.isEmpty then none else some (.bigint, n + 1, more)
    | _ => (fractionPart fuel ds n rest).map fun (x, n, rest) => (.number x, n, rest)

/-- A number must not be followed directly by a word or a digit. -/
def checkedNumber (fuel pos : Nat) (cs : List Char) : Option (Token × Nat × List Char) := do
  let (t, n, rest) ← readNumber fuel cs
  match rest with
  | c :: _ => if Text.isIdStart c ∨ c.isDigit ∨ c = '\\' then none else some (t, pos + n, rest)
  | [] => some (t, pos + n, rest)

/-! ## Regular expressions -/

/-- Reads the pattern of a regular expression up to its closing slash. -/
def regexBody : (fuel pos : Nat) → (inClass : Bool) → List Char → Option (Nat × List Char)
  | 0, _, _, _ => none
  | _ + 1, _, _, [] => none
  | fuel + 1, pos, inClass, c :: rest =>
    if isLineEnd c then none
    else if c = '\\' then
      match rest with
      | [] => none
      | d :: rest => if isLineEnd d then none else regexBody fuel (pos + 1 + d.utf8Size) inClass rest
    else if c = '[' then regexBody fuel (pos + 1) true rest
    else if c = ']' then regexBody fuel (pos + 1) false rest
    else if c = '/' ∧ !inClass then some (pos + 1, rest)
    else regexBody fuel (pos + c.utf8Size) inClass rest

/-- Reads the flags of a regular expression: each at most once, and not both `u` and `v`. -/
def regexFlags : (fuel pos : Nat) → (seen : List Char) → List Char → Option (Nat × List Char)
  | 0, _, _, _ => none
  | _ + 1, pos, _, [] => some (pos, [])
  | fuel + 1, pos, seen, c :: rest =>
    if Text.isIdPart c then
      if "dgimsuvy".toList.contains c && !seen.contains c &&
          !(c = 'u' && seen.contains 'v') && !(c = 'v' && seen.contains 'u') then
        regexFlags fuel (pos + 1) (c :: seen) rest
      else none
    else some (pos, c :: rest)

/-- Reads a regular expression after its opening slash. -/
def regexRest (fuel pos : Nat) (cs : List Char) : Option (Token × Nat × List Char) := do
  let (pos, rest) ← regexBody fuel pos false cs
  let (pos, rest) ← regexFlags fuel pos [] rest
  return (.regex, pos, rest)

/-! ## Marks -/

def marks : List String := [
  ">>>=", "...", "===", "!==", "**=", "<<=", ">>=", ">>>", "&&=", "||=", "??=",
  "=>", "==", "!=", "<=", ">=", "&&", "||", "??", "?.", "++", "--", "+=", "-=", "*=", "/=", "%=",
  "&=", "|=", "^=", "<<", ">>", "**",
  "\x7b", "\x7d", "(", ")", "[", "]", ";", ",", "<", ">", "+", "-", "*", "/", "%", "&", "|", "^",
  "!", "~", "?", ":", "=", ".", "@"]

def afterMark? : List Char → List Char → Option (List Char)
  | [], cs => some cs
  | m :: ms, c :: cs => if m = c then afterMark? ms cs else none
  | _ :: _, [] => none

def readMark (pos : Nat) (cs : List Char) : Option (Token × Nat × List Char) :=
  marks.findSome? fun m =>
    match afterMark? m.toList cs with
    | some rest =>
      if m = "?." ∧ rest.head?.any Char.isDigit then none
      else some (.mark m, pos + m.length, rest)
    | none => none

/-! ## Tokens -/

def read (fuel pos : Nat) (cs : List Char) : Option (Token × Nat × List Char) :=
  match cs with
  | [] => some (.eof, pos, [])
  | c :: rest =>
    if c = '"' ∨ c = '\'' then stringBody c fuel (pos + 1) [] rest
    else if c = '\x60' then templateBody fuel (pos + 1) true rest
    else if c.isDigit ∨ (c = '.' ∧ rest.head?.any Char.isDigit) then checkedNumber fuel pos cs
    else if c = '#' then
      match wordBody fuel (pos + 1) [] false rest with
      | some (text, _, pos, rest) => if text.isEmpty then none else some (.privateName, pos, rest)
      | none => none
    else if c = '\\' ∨ Text.isIdStart c then
      match wordBody fuel pos [] false cs with
      | some (text, escaped, pos, rest) => if text.isEmpty then none else some (.word text escaped, pos, rest)
      | none => none
    else readMark pos cs

end Token

/-! ## What stands between tokens -/

structure Passed where
  pos : Nat
  newLine : Bool
  comments : List Span
  rest : List Char

def passLine : (fuel pos : Nat) → List Char → Nat × List Char
  | 0, pos, cs => (pos, cs)
  | _ + 1, pos, [] => (pos, [])
  | fuel + 1, pos, c :: rest =>
    if Token.isLineEnd c then (pos, c :: rest) else passLine fuel (pos + c.utf8Size) rest

def passBlock : (fuel pos : Nat) → (newLine : Bool) → List Char → Option (Nat × Bool × List Char)
  | 0, _, _, _ => none
  | _ + 1, _, _, [] => none
  | _ + 1, pos, newLine, '*' :: '/' :: rest => some (pos + 2, newLine, rest)
  | fuel + 1, pos, newLine, c :: rest =>
    passBlock fuel (pos + c.utf8Size) (newLine || Token.isLineEnd c) rest

/-- Passes blanks and comments. `<!--` starts a comment, and so does `-->` at the start of a line. -/
def pass : (fuel : Nat) → Passed → Option Passed
  | 0, _ => none
  | fuel + 1, p =>
    match p.rest with
    | '/' :: '/' :: rest =>
      let (stop, rest) := passLine fuel (p.pos + 2) rest
      pass fuel { p with pos := stop, comments := ⟨p.pos, stop⟩ :: p.comments, rest }
    | '/' :: '*' :: rest =>
      match passBlock fuel (p.pos + 2) p.newLine rest with
      | some (stop, newLine, rest) =>
        pass fuel { pos := stop, newLine, comments := ⟨p.pos, stop⟩ :: p.comments, rest }
      | none => none
    | '<' :: '!' :: '-' :: '-' :: rest =>
      let (stop, rest) := passLine fuel (p.pos + 4) rest
      pass fuel { p with pos := stop, comments := ⟨p.pos, stop⟩ :: p.comments, rest }
    | '-' :: '-' :: '>' :: rest =>
      if p.newLine then
        let (stop, rest) := passLine fuel (p.pos + 3) rest
        pass fuel { p with pos := stop, comments := ⟨p.pos, stop⟩ :: p.comments, rest }
      else some p
    | c :: rest =>
      if Token.isLineEnd c then pass fuel { p with pos := p.pos + c.utf8Size, newLine := true, rest }
      else if Token.isSpace c then pass fuel { p with pos := p.pos + c.utf8Size, rest }
      else some p
    | [] => some p

end ClassForge.Script
