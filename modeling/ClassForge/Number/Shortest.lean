import ClassForge.Number.Binary64

/-!
# Shortest decimal text

The decimal with the fewest digits that rounds to a given double-precision number, and its text.
-/

namespace ClassForge

structure Decimal where
  coefficient : Nat
  power : Int
deriving DecidableEq

namespace Decimal

def normalize (d : Decimal) : Decimal := go 32 d.coefficient d.power
where
  go : Nat → Nat → Int → Decimal
    | 0, c, p => ⟨c, p⟩
    | fuel + 1, c, p => if c ≠ 0 ∧ c % 10 = 0 then go fuel (c / 10) (p + 1) else ⟨c, p⟩

end Decimal

namespace Binary64

def tenPowerLe (p : Int) (num den : Nat) : Bool :=
  decide (den * Nat.pow 10 p.toNat ≤ num * Nat.pow 10 (-p).toNat)

/-- The greatest `p` with `10 ^ p ≤ num / den`, for a positive fraction in the range of the format. -/
def floorLog10 (num den : Nat) : Int :=
  let start : Int := Int.fdiv (floorLog2 num den * 30103) 100000 - 1
  go 4 start
where
  go : Nat → Int → Int
    | 0, p => p
    | fuel + 1, p => if tenPowerLe (p + 1) num den then go fuel (p + 1) else p

/-- The nearer of the two neighbours of a positive number on the grid of step `10 ^ power` among
those that round to the number. -/
def onGrid? (x : Binary64) (power : Int) : Option Decimal :=
  let (num, den) := x.ratio
  let n := num * Nat.pow 10 (-power).toNat
  let d := den * Nat.pow 10 power.toNat
  let low := n / d
  let reads (c : Nat) : Bool := ofDecimal false c power == x
  match reads low && low != 0, reads (low + 1) with
  | true, true =>
    let r := n % d
    if 2 * r < d || (2 * r == d && low % 2 == 0) then some ⟨low, power⟩ else some ⟨low + 1, power⟩
  | true, false => some ⟨low, power⟩
  | false, true => some ⟨low + 1, power⟩
  | false, false => none

/-- The decimal with the very value of a positive finite number. -/
def exact (x : Binary64) : Decimal :=
  ⟨x.ratio.1 * Nat.pow 5 (-x.exponent).toNat, min x.exponent 0⟩

/-- The shortest decimal that rounds to a positive finite number: the first grid with a hit wins. -/
def shortest (x : Binary64) : Decimal :=
  let (num, den) := x.ratio
  let top := floorLog10 num den
  let found := (List.range 17).findSome? fun (digits : Nat) => onGrid? x (top - digits)
  (found.getD x.exact).normalize

def powerText (p : Int) : String :=
  if p < 0 then "-" ++ toString p.natAbs else "+" ++ toString p.natAbs

/-- A decimal in positional form from `10 ^ -5` up to below `10 ^ 16`, in scientific form otherwise. -/
def decimalText (d : Decimal) : String :=
  let digits := (toString d.coefficient).toList
  let count : Int := digits.length
  let scientific := d.power + count - 1
  if -5 ≤ scientific ∧ scientific ≤ 15 then
    if 0 ≤ d.power then
      String.ofList (digits ++ List.replicate d.power.toNat '0') ++ ".0"
    else if 0 ≤ scientific then
      let whole := scientific.toNat + 1
      String.ofList (digits.take whole) ++ "." ++ String.ofList (digits.drop whole)
    else
      "0." ++ String.ofList (List.replicate (-scientific - 1).toNat '0' ++ digits)
  else
    let mantissa := match digits with
      | [] => ""
      | [c] => String.ofList [c]
      | c :: rest => String.ofList (c :: '.' :: rest)
    mantissa ++ "e" ++ powerText scientific

def magnitude (x : Binary64) : Binary64 := withSign false (x.bits.toNat % Nat.pow 2 63)

theorem toNat_bits_magnitude (x : Binary64) :
    x.magnitude.bits.toNat = x.bits.toNat % Nat.pow 2 63 := by
  have h : x.bits.toNat % Nat.pow 2 63 < 2 ^ 64 := Nat.lt_trans (Nat.mod_lt _ (by decide)) (by decide)
  simp only [magnitude, withSign, Bool.false_eq_true, if_false, Nat.toUInt64_eq,
    UInt64.toNat_ofNat_of_lt' h]

def magnitudeText (x : Binary64) : String :=
  if x.isZero then "0.0" else decimalText x.magnitude.shortest

/-- The text of a finite number: the fewest digits that read back, always with a point or a power. -/
def text (x : Binary64) : String := (if x.isNegative then "-" else "") ++ x.magnitudeText

end Binary64

end ClassForge
