import ClassForge.Text.Segment

/-!
# Versions

Semantic versions and requirements on them: comparators separated by commas, each an operator and a
version whose last numbers may be missing or a wildcard.
-/

namespace ClassForge

inductive PreId where
  | number (n : Nat)
  | word (s : String)
deriving DecidableEq

structure Version where
  major : Nat
  minor : Nat
  patch : Nat
  pre : List PreId := []
deriving DecidableEq

namespace PreId

def compare : PreId → PreId → Ordering
  | number m, number n => Ord.compare m n
  | number _, word _ => .lt
  | word _, number _ => .gt
  | word s, word t => Ord.compare s t

def compareParts : List PreId → List PreId → Ordering
  | [], [] => .eq
  | [], _ :: _ => .lt
  | _ :: _, [] => .gt
  | a :: as, b :: bs => (compare a b).then (compareParts as bs)

/-- The order of two pre-releases; a version without one comes after those with one. -/
def compareReleases (p q : List PreId) : Ordering :=
  match p, q with
  | [], [] => .eq
  | [], _ :: _ => .gt
  | _ :: _, [] => .lt
  | _, _ => compareParts p q

end PreId

namespace Version

def largest : Nat := UInt64.size - 1

def readNumber (cs : List Char) : Option (Nat × List Char) :=
  let digits := cs.takeWhile Char.isDigit
  let n := digits.foldl (fun n c => 10 * n + (c.toNat - 48)) 0
  if digits.isEmpty || (digits.head? == some '0' && digits.length != 1) || largest < n then none
  else some (n, cs.dropWhile Char.isDigit)

def isIdChar (c : Char) : Bool := c.isAlphanum || c == '-'

/-- A part of a pre-release; a number has no superfluous zero in front. -/
def preId? (cs : List Char) : Option PreId :=
  if cs.all Char.isDigit then
    if cs.head? == some '0' && cs.length != 1 then none
    else some (.number (cs.foldl (fun n c => 10 * n + (c.toNat - 48)) 0))
  else some (.word (String.ofList cs))

def readParts (cs : List Char) : Option (List (List Char) × List Char) :=
  let text := cs.takeWhile fun c => isIdChar c || c == '.'
  let parts := Text.splitOn '.' text
  if parts.any List.isEmpty then none
  else some (parts, cs.dropWhile fun c => isIdChar c || c == '.')

def readPre : List Char → Option (List PreId × List Char)
  | '-' :: cs => do
    let (parts, rest) ← readParts cs
    return (← parts.mapM preId?, rest)
  | cs => some ([], cs)

def readBuild : List Char → Option (List Char)
  | '+' :: cs => do
    let (_, rest) ← readParts cs
    return rest
  | cs => some cs

def readChar (c : Char) : List Char → Option (List Char)
  | [] => none
  | d :: rest => if c = d then some rest else none

def parse? (s : String) : Option Version := do
  let (major, cs) ← readNumber s.toList
  let (minor, cs) ← readNumber (← readChar '.' cs)
  let (patch, cs) ← readNumber (← readChar '.' cs)
  let (pre, cs) ← readPre cs
  let rest ← readBuild cs
  if rest.isEmpty then some { major, minor, patch, pre } else none

end Version

inductive VersionOp where
  | exact
  | greater
  | greaterEq
  | less
  | lessEq
  /-- `~`: the last given number may grow. -/
  | tilde
  /-- `^`: whatever stands right of the first number that is not zero may grow. -/
  | caret
deriving DecidableEq

structure Comparator where
  op : VersionOp
  major : Nat
  minor : Option Nat := none
  patch : Option Nat := none
  pre : List PreId := []
deriving DecidableEq

namespace Comparator

def isExact (c : Comparator) (v : Version) : Bool :=
  v.major == c.major && c.minor.all (· == v.minor) && c.patch.all (· == v.patch) && v.pre == c.pre

/-- Whether a version comes before or after in a given direction; a missing number says no. -/
def isBeyond (c : Comparator) (v : Version) (direction : Ordering) : Bool :=
  if v.major ≠ c.major then compare v.major c.major == direction
  else
    match c.minor, c.patch with
    | none, _ => false
    | some minor, patch =>
      if v.minor ≠ minor then compare v.minor minor == direction
      else
        match patch with
        | none => false
        | some patch =>
          if v.patch ≠ patch then compare v.patch patch == direction
          else PreId.compareReleases v.pre c.pre == direction

def preAllows (c : Comparator) (v : Version) : Bool := PreId.compareReleases v.pre c.pre != .lt

def isTilde (c : Comparator) (v : Version) : Bool :=
  v.major == c.major && c.minor.all (· == v.minor) &&
    match c.patch with
    | some patch => if v.patch ≠ patch then decide (patch < v.patch) else c.preAllows v
    | none => c.preAllows v

def isCaret (c : Comparator) (v : Version) : Bool :=
  v.major == c.major &&
    match c.minor, c.patch with
    | none, _ => true
    | some minor, none => if 0 < c.major then decide (minor ≤ v.minor) else v.minor == minor
    | some minor, some patch =>
      if 0 < c.major ∧ v.minor ≠ minor then decide (minor < v.minor)
      else if v.minor ≠ minor then false
      else if v.patch ≠ patch then
        (decide (0 < c.major) || decide (0 < minor)) && decide (patch < v.patch)
      else c.preAllows v

def admits (c : Comparator) (v : Version) : Bool :=
  match c.op with
  | .exact => c.isExact v
  | .greater => c.isBeyond v .gt
  | .greaterEq => c.isExact v || c.isBeyond v .gt
  | .less => c.isBeyond v .lt
  | .lessEq => c.isExact v || c.isBeyond v .lt
  | .tilde => c.isTilde v
  | .caret => c.isCaret v

def namesPre (c : Comparator) (v : Version) : Bool :=
  c.major == v.major && c.minor == some v.minor && c.patch == some v.patch && !c.pre.isEmpty

def readWildcard : List Char → Option (List Char)
  | c :: rest => if c == '*' || c == 'x' || c == 'X' then some rest else none
  | [] => none

def skipSpaces (cs : List Char) : List Char := cs.dropWhile (· == ' ')

def readOp : List Char → Option VersionOp × List Char
  | '=' :: rest => (some .exact, rest)
  | '>' :: '=' :: rest => (some .greaterEq, rest)
  | '>' :: rest => (some .greater, rest)
  | '<' :: '=' :: rest => (some .lessEq, rest)
  | '<' :: rest => (some .less, rest)
  | '~' :: rest => (some .tilde, rest)
  | '^' :: rest => (some .caret, rest)
  | cs => (none, cs)

/-- A number after a dot: missing, a wildcard, or given. -/
inductive Digit where
  | missing
  | wild
  | given (n : Nat)

def readDigit : List Char → Option (Digit × List Char)
  | '.' :: cs =>
    match readWildcard cs with
    | some rest => some (.wild, rest)
    | none => do
      let (n, rest) ← Version.readNumber cs
      return (.given n, rest)
  | cs => some (.missing, cs)

/-- Reads a comparator. Without an operator it means `^`, and with a wildcard an exact match of what
is given. After a wildcard only a wildcard may follow. -/
def read (cs : List Char) : Option (Comparator × List Char) := do
  let (op?, cs) := readOp cs
  let (major, cs) ← Version.readNumber (skipSpaces cs)
  let (minor, cs) ← readDigit cs
  let (patch, cs) ← readDigit cs
  let unwritten (isWild : Bool) : VersionOp := if isWild then .exact else .caret
  match minor, patch with
  | .given n, .given p =>
    let (pre, cs) ← Version.readPre cs
    let cs ← Version.readBuild cs
    return ({ op := op?.getD .caret, major, minor := some n, patch := some p, pre }, skipSpaces cs)
  | .given n, .wild =>
    return ({ op := op?.getD (unwritten true), major, minor := some n }, skipSpaces cs)
  | .given n, .missing =>
    return ({ op := op?.getD (unwritten false), major, minor := some n }, skipSpaces cs)
  | .wild, .given _ => none
  | .wild, _ => return ({ op := op?.getD (unwritten true), major }, skipSpaces cs)
  | .missing, _ => return ({ op := op?.getD (unwritten false), major }, skipSpaces cs)

end Comparator

structure VersionReq where
  comparators : List Comparator
deriving DecidableEq

namespace VersionReq

def readComparators : Nat → List Char → Option (List Comparator)
  | 0, _ => none
  | n + 1, cs => do
    let (c, rest) ← Comparator.read cs
    match rest with
    | [] => return [c]
    | ',' :: rest => return c :: (← readComparators n (Comparator.skipSpaces rest))
    | _ => none

def parse? (s : String) : Option VersionReq :=
  let cs := Comparator.skipSpaces s.toList
  match Comparator.readWildcard cs with
  | some rest => if (Comparator.skipSpaces rest).isEmpty then some ⟨[]⟩ else none
  | none => VersionReq.mk <$> readComparators 32 cs

def admits (r : VersionReq) (v : Version) : Bool :=
  r.comparators.all (·.admits v) && (v.pre.isEmpty || r.comparators.any (·.namesPre v))

end VersionReq

def satisfies (version requirement : String) : Bool :=
  match Version.parse? version, VersionReq.parse? requirement with
  | some v, some r => r.admits v
  | _, _ => false

end ClassForge
