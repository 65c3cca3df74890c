import ClassForge.Proofs.Json.Number
import Mathlib.Data.Int.Log
import Mathlib.Data.Rat.Floor
import Mathlib.Tactic

/-!
# Texts of floating-point numbers

The text of a finite number stands for a decimal that rounds to the number, so the text determines the
number.
-/

namespace ClassForge.Binary64

variable {num den : Nat}

theorem pow_toNat (b : Nat) (hb : b ≠ 0) (k : Int) :
    (Nat.pow b k.toNat : ℚ) / (Nat.pow b (-k).toNat : ℚ) = (b : ℚ) ^ k := by
  have hb' : (b : ℚ) ≠ 0 := Nat.cast_ne_zero.2 hb
  obtain ⟨n, rfl | rfl⟩ := k.eq_nat_or_neg <;> simp

theorem pow_le_iff (hden : den ≠ 0) (k : Int) :
    den * Nat.pow 2 k.toNat ≤ num * Nat.pow 2 (-k).toNat ↔ (2 : ℚ) ^ k ≤ num / den := by
  have hd : (0 : ℚ) < den := by exact_mod_cast Nat.pos_of_ne_zero hden
  have hq : (0 : ℚ) < Nat.pow 2 (-k).toNat := by exact_mod_cast Nat.pow_pos (by decide)
  rw [show (2 : ℚ) = (2 : Nat) by norm_num, ← pow_toNat 2 (by decide), div_le_div_iff₀ hq hd]
  rw [mul_comm den]
  exact_mod_cast Iff.rfl

theorem floorLog2_eq_log (hnum : num ≠ 0) (hden : den ≠ 0) :
    floorLog2 num den = Int.log 2 ((num : ℚ) / den) := by
  have hn : (0 : ℚ) < num := by exact_mod_cast Nat.pos_of_ne_zero hnum
  have hd : (0 : ℚ) < den := by exact_mod_cast Nat.pos_of_ne_zero hden
  have hr : (0 : ℚ) < num / den := div_pos hn hd
  have hupper : (num : ℚ) / den < (2 : Nat) ^ ((num.log2 : Int) - den.log2 + 1) := by
    have h1 : (num : ℚ) < 2 ^ (num.log2 + 1) := by exact_mod_cast Nat.lt_log2_self
    have h2 : (2 : ℚ) ^ den.log2 ≤ den := by exact_mod_cast Nat.log2_self_le hden
    calc (num : ℚ) / den < 2 ^ (num.log2 + 1) / 2 ^ den.log2 :=
          div_lt_div₀ h1 h2 (by positivity) (by positivity)
      _ = _ := by
        rw [Nat.cast_ofNat, zpow_add₀ two_ne_zero, zpow_sub₀ two_ne_zero]
        simp [pow_succ, div_mul_eq_mul_div]
  have hlower : ((2 : Nat) : ℚ) ^ ((num.log2 : Int) - den.log2 - 1) ≤ num / den := by
    have h1 : (2 : ℚ) ^ num.log2 ≤ num := by exact_mod_cast Nat.log2_self_le hnum
    have h2 : (den : ℚ) < 2 ^ (den.log2 + 1) := by exact_mod_cast Nat.lt_log2_self
    calc ((2 : Nat) : ℚ) ^ ((num.log2 : Int) - den.log2 - 1) = 2 ^ num.log2 / 2 ^ (den.log2 + 1) := by
          rw [Nat.cast_ofNat, zpow_sub₀ two_ne_zero, zpow_sub₀ two_ne_zero]
          simp [pow_succ, div_div]
      _ ≤ _ := div_le_div₀ hn.le h1 hd h2.le
  rw [Int.lt_zpow_iff_log_lt (by decide) hr] at hupper
  rw [Int.zpow_le_iff_le_log (by decide) hr] at hlower
  simp only [floorLog2, pow_le_iff hden]
  generalize (num.log2 : Int) - den.log2 = k at *
  split
  next h =>
    have := (Int.zpow_le_iff_le_log (b := 2) (by decide) hr).1 (by exact_mod_cast h)
    omega
  next h =>
    have := (Int.lt_zpow_iff_log_lt (b := 2) (by decide) hr).1 (by exact_mod_cast lt_of_not_ge h)
    omega

theorem roundDiv_mul_left {k : Nat} (hk : 0 < k) (num den : Nat) :
    roundDiv (k * num) (k * den) = roundDiv num den := by
  have hlt (a b : Nat) : k * a < k * b ↔ a < b := Nat.mul_lt_mul_left hk
  simp only [roundDiv, Nat.mul_div_mul_left _ _ hk, Nat.mul_mod_mul_left, Nat.mul_left_comm 2 k, hlt]

theorem ofRatio_mul_left {k : Nat} (hk : 0 < k) (negative : Bool) (num : Nat) (hden : den ≠ 0) :
    ofRatio negative (k * num) (k * den) = ofRatio negative num den := by
  by_cases hnum : num = 0
  · simp [ofRatio, hnum]
  · have hlog : floorLog2 (k * num) (k * den) = floorLog2 num den := by
      rw [floorLog2_eq_log (Nat.mul_ne_zero hk.ne' hnum) (Nat.mul_ne_zero hk.ne' hden),
        floorLog2_eq_log hnum hden, Nat.cast_mul, Nat.cast_mul,
        mul_div_mul_left _ _ (Nat.cast_ne_zero.2 hk.ne')]
    simp only [ofRatio, hlog, hnum, Nat.mul_eq_zero, hk.ne', or_self, if_false, Nat.mul_assoc,
      roundDiv_mul_left hk]

/-! ## Exact values -/

/-- A positive number of the format. -/
structure Positive (x : Binary64) : Prop where
  finite : x.isFinite = true
  unsigned : x.bits.toNat < Nat.pow 2 63
  nonzero : x.bits.toNat ≠ 0

theorem Positive.fields {x : Binary64} (hx : Positive x) : x.exponentField ≤ 2046 ∧
    x.bits.toNat = x.exponentField * Nat.pow 2 52 + x.fractionField ∧
      x.fractionField < Nat.pow 2 52 := by
  have hfinite := hx.finite
  have hunsigned := hx.unsigned
  simp only [isFinite, bne_iff_ne, exponentField, fractionField, Nat.pow_eq] at *
  omega

theorem floorLog2_ratio {x : Binary64} (hc : x.coefficient ≠ 0) (k : Nat) :
    (k + x.exponent ≤ floorLog2 x.ratio.1 x.ratio.2 ↔ 2 ^ k ≤ x.coefficient) := by
  have hpow (n : Nat) : Nat.pow 2 n ≠ 0 := (Nat.pow_pos (by decide)).ne'
  have hr : (0 : ℚ) < x.coefficient * 2 ^ x.exponent :=
    mul_pos (by exact_mod_cast Nat.pos_of_ne_zero hc) (by positivity)
  rw [ratio, floorLog2_eq_log (Nat.mul_ne_zero hc (hpow _)) (hpow _), Nat.cast_mul, mul_div_assoc,
    pow_toNat 2 (by decide), Nat.cast_ofNat, ← Int.zpow_le_iff_le_log (by decide) hr, Nat.cast_ofNat,
    zpow_add₀ two_ne_zero, mul_le_mul_iff_of_pos_right (by positivity), zpow_natCast]
  exact_mod_cast Iff.rfl

theorem Positive.parts {x : Binary64} (hx : Positive x) :
    x.coefficient ≠ 0 ∧ x.coefficient < 2 ^ 53 ∧ -1074 ≤ x.exponent ∧
      (2 ^ 52 ≤ x.coefficient ∨ x.exponent = -1074) ∧
      (x.exponent + 1074).toNat * 2 ^ 52 + x.coefficient = x.bits.toNat := by
  obtain ⟨-, hbits, hfraction⟩ := hx.fields
  have hnonzero := hx.nonzero
  rw [Nat.pow_eq] at hbits hfraction
  rcases eq_or_ne x.exponentField 0 with h | h
  · have hc : x.coefficient = x.fractionField := if_pos h
    have he : x.exponent = -1074 := if_pos h
    omega
  · have hc : x.coefficient = x.fractionField + 2 ^ 52 := if_neg h
    have he : x.exponent = x.exponentField - 1075 := if_neg h
    omega

theorem Positive.ofRatio_ratio {x : Binary64} (hx : Positive x) :
    ofRatio false x.ratio.1 x.ratio.2 = x := by
  obtain ⟨hc, hbound, hleast, hnormal, hsum⟩ := hx.parts
  have hpow (n : Nat) : 0 < Nat.pow 2 n := Nat.pow_pos (by decide)
  have hexponent : max (-1074) (floorLog2 x.ratio.1 x.ratio.2 - 52) = x.exponent := by
    have hlow := floorLog2_ratio hc 52
    have hhigh := floorLog2_ratio hc 53
    omega
  -- the fraction is a whole number of units of the last place, so nothing is rounded
  have hround : roundDiv (x.ratio.1 * Nat.pow 2 (-x.exponent).toNat)
      (x.ratio.2 * Nat.pow 2 x.exponent.toNat) = x.coefficient := by
    have h := roundDiv_mul_left (Nat.mul_pos (hpow x.exponent.toNat) (hpow (-x.exponent).toNat))
      x.coefficient 1
    have hone : roundDiv x.coefficient 1 = x.coefficient := by simp [roundDiv, Nat.mod_one]
    rw [hone] at h
    rw [← h, ratio]
    congr 1 <;> ring
  have hmin : min x.bits.toNat infinityBits = x.bits.toNat := by
    obtain ⟨hfield, hbits, hfraction⟩ := hx.fields
    simp only [infinityBits, Nat.pow_eq] at *
    omega
  have hnum : x.ratio.1 ≠ 0 := Nat.mul_ne_zero hc (hpow _).ne'
  simp only [ofRatio, hnum, if_false, hexponent, hround, Nat.pow_eq (m := 2) (n := 52), hsum, hmin]
  simp [withSign]

theorem ofRatio_eq_of_div {a b c d : Nat} (negative : Bool) (hb : b ≠ 0) (hd : d ≠ 0)
    (h : (a : ℚ) / b = c / d) : ofRatio negative a b = ofRatio negative c d := by
  have hcross : d * a = b * c := by
    rw [div_eq_div_iff (Nat.cast_ne_zero.2 hb) (Nat.cast_ne_zero.2 hd)] at h
    have h' : a * d = c * b := by exact_mod_cast h
    rw [Nat.mul_comm d, h', Nat.mul_comm]
  rw [← ofRatio_mul_left (Nat.pos_of_ne_zero hd) negative a hb, hcross, Nat.mul_comm d,
    ofRatio_mul_left (Nat.pos_of_ne_zero hb) negative c hd]

end ClassForge.Binary64

namespace ClassForge.Decimal

/-- The number a decimal stands for. -/
def value (d : Decimal) : ℚ := d.coefficient * 10 ^ d.power

/-- The number of the format next to a decimal. -/
def nearest (d : Decimal) : Binary64 := .ofDecimal false d.coefficient d.power

theorem value_eq_div (d : Decimal) : d.value =
    (d.coefficient * Nat.pow 10 d.power.toNat : Nat) / (Nat.pow 10 (-d.power).toNat : Nat) := by
  rw [value, Nat.cast_mul, mul_div_assoc, Binary64.pow_toNat 10 (by decide), Nat.cast_ofNat]

theorem nearest_eq_ofRatio {d : Decimal} {num den : Nat} (hden : den ≠ 0)
    (h : d.value = num / den) : d.nearest = .ofRatio false num den :=
  Binary64.ofRatio_eq_of_div false (Nat.pow_pos (by decide)).ne' hden (d.value_eq_div ▸ h)

theorem nearest_eq_of_value {d e : Decimal} (h : d.value = e.value) : d.nearest = e.nearest :=
  nearest_eq_ofRatio (Nat.pow_pos (by decide)).ne' (h.trans e.value_eq_div)

theorem value_normalize (d : Decimal) : d.normalize.value = d.value := by
  suffices h : ∀ fuel c p, (normalize.go fuel c p).value = value ⟨c, p⟩ from h 32 _ _
  intro fuel
  induction fuel with
  | zero => exact fun _ _ => rfl
  | succ fuel ih =>
    intro c p
    rw [normalize.go]
    split
    case isTrue h =>
      have hc : (c : ℚ) = 10 * (c / 10 : Nat) := by
        exact_mod_cast (Nat.mul_div_cancel' (Nat.dvd_of_mod_eq_zero h.2)).symm
      rw [ih, value, value, zpow_add_one₀ (by norm_num), hc]
      ring
    case isFalse => rfl

end ClassForge.Decimal

namespace ClassForge.Binary64

theorem value_exact (x : Binary64) : x.exact.value = (x.ratio.1 : ℚ) / x.ratio.2 := by
  have h10 : (10 : ℚ) = 2 * 5 := by norm_num
  obtain ⟨n, hn | hn⟩ := x.exponent.eq_nat_or_neg
  · simp [Decimal.value, exact, ratio, hn]
  · simp [Decimal.value, exact, ratio, hn, h10, mul_pow]
    field_simp

theorem nearest_of_onGrid? {x : Binary64} {power : Int} {d : Decimal}
    (h : x.onGrid? power = some d) : d.nearest = x := by
  unfold onGrid? at h
  grind [Decimal.nearest]

theorem Positive.nearest_shortest {x : Binary64} (hx : Positive x) : x.shortest.nearest = x := by
  rw [shortest, Decimal.nearest_eq_of_value (Decimal.value_normalize _)]
  cases hfound : (List.range 17).findSome? fun (digits : Nat) =>
      x.onGrid? (floorLog10 x.ratio.1 x.ratio.2 - digits) with
  | none =>
    have hden : x.ratio.2 ≠ 0 := (Nat.pow_pos (by decide)).ne'
    simp only [Option.getD_none]
    rw [Decimal.nearest_eq_ofRatio hden x.value_exact, hx.ofRatio_ratio]
  | some d =>
    obtain ⟨digits, -, hd⟩ := List.exists_of_findSome?_eq_some hfound
    exact nearest_of_onGrid? hd

/-! ## The value of a text -/

open Json.Reader (digits_toDigits isDigit_of_mem_replicate)

/-- The power a text of a number ends with. -/
def powerOf : List Char → Int
  | '-' :: ds => -(Nat.ofDigitChars 10 ds 0 : Int)
  | '+' :: ds => Nat.ofDigitChars 10 ds 0
  | _ => 0

/-- The decimal that digits with an optional point and an optional power stand for. -/
def decimalOf (text : List Char) : Decimal :=
  let front := text.takeWhile (· ≠ 'e')
  let whole := front.takeWhile (· ≠ '.')
  let fraction := front.drop (whole.length + 1)
  ⟨Nat.ofDigitChars 10 (whole ++ fraction) 0,
    powerOf (text.drop (front.length + 1)) - fraction.length⟩

theorem takeWhile_ne_append {c : Char} {front tail : List Char} (hfront : c ∉ front)
    (htail : ∀ d ∈ tail.head?, d = c) : (front ++ tail).takeWhile (· ≠ c) = front := by
  rw [List.takeWhile_append_of_pos fun d hd => by simpa using ne_of_mem_of_not_mem hd hfront]
  cases tail with
  | nil => simp
  | cons d tail => simp [htail d rfl]

section

variable (whole fraction tail : List Char) (hwhole : ∀ c ∈ whole, c.isDigit = true)
  (hfraction : ∀ c ∈ fraction, c.isDigit = true) (htail : ∀ c ∈ tail.head?, c = 'e')

include hwhole htail

theorem decimalOf_append (point : List Char) (hpoint : ∀ c ∈ point.head?, c = '.')
    (hmark : 'e' ∉ point) : decimalOf (whole ++ point ++ tail) =
      ⟨Nat.ofDigitChars 10 (whole ++ point.tail) 0, powerOf tail.tail - point.tail.length⟩ := by
  have hnone {c : Char} (hc : c.isDigit = false) : c ∉ whole := fun h => by simp [hwhole c h] at hc
  have hfront : 'e' ∉ whole ++ point := by simp [hmark, hnone (c := 'e') (by decide)]
  simp only [decimalOf, takeWhile_ne_append hfront htail,
    takeWhile_ne_append (hnone (c := '.') (by decide)) hpoint, List.drop_length_add_append,
    List.drop_one]

theorem decimalOf_whole : decimalOf (whole ++ tail) =
    ⟨Nat.ofDigitChars 10 whole 0, powerOf tail.tail⟩ := by
  simpa using decimalOf_append whole tail hwhole htail [] (by simp) (by simp)

include hfraction

theorem decimalOf_point : decimalOf (whole ++ '.' :: (fraction ++ tail)) =
    ⟨Nat.ofDigitChars 10 (whole ++ fraction) 0, powerOf tail.tail - fraction.length⟩ := by
  have hmark : 'e' ∉ '.' :: fraction := by
    intro h
    rcases List.mem_cons.1 h with h | h
    · cases h
    · exact absurd (hfraction _ h) (by decide)
  simpa using decimalOf_append whole tail hwhole htail ('.' :: fraction) (by simp) hmark

end

theorem powerOf_powerText (p : Int) : powerOf (powerText p).toList = p := by
  have hdigits : Nat.ofDigitChars 10 (Nat.toDigits 10 p.natAbs) 0 = p.natAbs :=
    Nat.ofDigitChars_ten_toDigits
  unfold powerText
  split <;> simp only [Nat.toString_eq_repr, String.toList_append, Nat.toList_repr]
  · change -(Nat.ofDigitChars 10 (Nat.toDigits 10 p.natAbs) 0 : Int) = p
    omega
  · change (Nat.ofDigitChars 10 (Nat.toDigits 10 p.natAbs) 0 : Int) = p
    omega

section

variable {ds : List Char} {n : Nat} (hds : ∀ c ∈ ds, c.isDigit = true)
  (hn : Nat.ofDigitChars 10 ds 0 = n)

include hds hn

theorem value_positional (zeros : Nat) :
    (decimalOf (ds ++ List.replicate zeros '0' ++ '.' :: (['0'] ++ []))).value =
      Decimal.value ⟨n, zeros⟩ := by
  have hzeros : ∀ c ∈ ds ++ List.replicate zeros '0', c.isDigit = true :=
    List.forall_mem_append.2 ⟨hds, isDigit_of_mem_replicate⟩
  have hcoefficient : Nat.ofDigitChars 10 (ds ++ List.replicate zeros '0' ++ ['0']) 0 =
      10 ^ (zeros + 1) * n := by
    rw [List.append_assoc, ← List.replicate_succ', Nat.ofDigitChars_append, hn,
      Nat.ofDigitChars_replicate_zero]
  have hpower : powerOf [].tail - ['0'].length = -1 := rfl
  rw [decimalOf_point _ _ _ hzeros (by simp) (by simp), hcoefficient, hpower, Decimal.value,
    Decimal.value]
  push_cast
  rw [zpow_neg_one, zpow_natCast, pow_succ]
  ring

theorem decimalOf_mixed (count : Nat) : decimalOf (ds.take count ++ '.' :: (ds.drop count ++ [])) =
    ⟨n, -(ds.length - count : Nat)⟩ := by
  rw [decimalOf_point _ _ _ (fun c hc => hds c (List.mem_of_mem_take hc))
    (fun c hc => hds c (List.mem_of_mem_drop hc)) (by simp), List.take_append_drop, hn,
    List.length_drop]
  simp [powerOf]

theorem decimalOf_small (zeros : Nat) :
    decimalOf (['0'] ++ '.' :: (List.replicate zeros '0' ++ ds ++ [])) =
      ⟨n, -(zeros + ds.length : Nat)⟩ := by
  have hzeros : ∀ c ∈ List.replicate zeros '0' ++ ds, c.isDigit = true :=
    List.forall_mem_append.2 ⟨isDigit_of_mem_replicate, hds⟩
  rw [decimalOf_point _ _ _ (by simp) hzeros (by simp), ← List.append_assoc, List.singleton_append,
    ← List.replicate_succ, Nat.ofDigitChars_append, Nat.ofDigitChars_replicate_zero, Nat.mul_zero, hn,
    List.length_append, List.length_replicate]
  simp [powerOf]

end

/-- The text of a decimal may have more zeros than the decimal, but its value. -/
theorem value_decimalOf_decimalText (d : Decimal) :
    (decimalOf (decimalText d).toList).value = d.value := by
  obtain ⟨n, p⟩ := d
  obtain ⟨hne, hds⟩ := digits_toDigits n
  have hn : Nat.ofDigitChars 10 (Nat.toDigits 10 n) 0 = n := Nat.ofDigitChars_ten_toDigits
  simp only [decimalText, Nat.toString_eq_repr, Nat.toList_repr]
  generalize Nat.toDigits 10 n = ds at *
  split
  · split
    · next hp =>
      obtain ⟨zeros, rfl⟩ := Int.eq_ofNat_of_zero_le hp
      simpa using value_positional hds hn zeros
    · split
      · have h := decimalOf_mixed hds hn ((p + ds.length - 1).toNat + 1)
        have hp : p = -(ds.length - ((p + ds.length - 1).toNat + 1) : Nat) := by omega
        rw [← hp] at h
        simpa using congrArg Decimal.value h
      · have h := decimalOf_small hds hn (-(p + ds.length - 1) - 1).toNat
        have hp : p = -((-(p + ds.length - 1) - 1).toNat + ds.length : Nat) := by omega
        rw [← hp] at h
        simpa using congrArg Decimal.value h
  · congr 1
    split
    · exact absurd rfl hne
    · next c _ =>
      have h := decimalOf_whole [c] ('e' :: (powerText p).toList) hds (by simp)
      simpa [hn, powerOf_powerText] using h
    · next c rest _ _ =>
      have h := decimalOf_point [c] rest ('e' :: (powerText (p + rest.length)).toList)
        (fun d hd => hds d (List.mem_cons.2 (.inl (List.mem_singleton.1 hd))))
        (fun d hd => hds d (List.mem_cons_of_mem c hd)) (by simp)
      simpa [hn, powerOf_powerText, ← Int.add_assoc] using h

theorem positive_magnitude {x : Binary64} (hx : x.isFinite = true) (hzero : ¬x.isZero = true) :
    Positive x.magnitude := by
  have hbits := x.toNat_bits_magnitude
  simp only [isZero, isFinite, beq_iff_eq, bne_iff_ne, exponentField, Nat.pow_eq] at hx hzero hbits
  refine ⟨?_, ?_, ?_⟩
  · simp only [isFinite, exponentField, bne_iff_ne, Nat.pow_eq]
    omega
  · rw [Nat.pow_eq]
    omega
  · omega

theorem nearest_magnitudeText {x : Binary64} (hx : x.isFinite = true) :
    (decimalOf x.magnitudeText.toList).nearest = x.magnitude := by
  rw [magnitudeText]
  split
  case isTrue hzero =>
    have hnone : x.bits.toNat % Nat.pow 2 63 = 0 := by simpa [isZero] using hzero
    rw [magnitude, hnone]
    rfl
  case isFalse hzero =>
    rw [Decimal.nearest_eq_of_value (value_decimalOf_decimalText _),
      (positive_magnitude hx hzero).nearest_shortest]

theorem withSign_magnitude (x : Binary64) :
    withSign x.isNegative x.magnitude.bits.toNat = x := by
  have hlt := x.bits.toNat_lt
  rw [toNat_bits_magnitude, withSign]
  simp only [isNegative, beq_iff_eq, Nat.pow_eq]
  refine congrArg Binary64.mk (UInt64.toNat_inj.1 ?_)
  rw [Nat.toUInt64_eq, UInt64.toNat_ofNat']
  split <;> omega

end ClassForge.Binary64
