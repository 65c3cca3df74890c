import ClassForge.Json.Printer
import ClassForge.Json.Reader
import Mathlib.Data.List.TakeWhile

/-!
# The text of numbers

A number's text is read up to its end, whatever follows it, and the text of a whole number of 64 bits
is read as that number.
-/

namespace ClassForge.Json.Reader

def NoDigit (rest : List Char) : Prop := ∀ c ∈ rest.head?, c.isDigit = false

/-- What may follow a number: no digit, no point and no mark of a power. -/
def Stops (rest : List Char) : Prop :=
  ∀ c ∈ rest.head?, c.isDigit = false ∧ c ≠ '.' ∧ c ≠ 'e' ∧ c ≠ 'E'

structure Digits (ds : List Char) : Prop where
  ne_nil : ds ≠ []
  isDigit : ∀ c ∈ ds, c.isDigit = true

variable {ds w text rest : List Char} {c : Char} {n : Nat} {d : Decimal} {x : Binary64}

theorem Stops.noDigit (h : Stops rest) : NoDigit rest :=
  fun c hc => (h c hc).1

theorem stops_nil : Stops [] := by
  intro c hc
  cases hc

theorem noDigit_cons (h : c.isDigit = false) : NoDigit (c :: rest) := by
  intro d hd
  cases hd
  exact h

theorem digits_toDigits (n : Nat) : Digits (Nat.toDigits 10 n) :=
  ⟨Nat.toDigits_ne_nil, fun _ hc => Nat.isDigit_of_mem_toDigits (by decide) (by decide) hc⟩

theorem digits_zero : Digits ['0'] := ⟨by simp, by simp⟩

theorem takeWhile_digits (hds : ∀ c ∈ ds, c.isDigit = true) (h : NoDigit rest) :
    (ds ++ rest).takeWhile Char.isDigit = ds := by
  rw [List.takeWhile_append_of_pos hds]
  cases rest with
  | nil => simp
  | cons c rest => simp [h c rfl]

theorem dropWhile_digits (hds : ∀ c ∈ ds, c.isDigit = true) (h : NoDigit rest) :
    (ds ++ rest).dropWhile Char.isDigit = rest := by
  rw [List.dropWhile_append_of_pos hds]
  cases rest with
  | nil => rfl
  | cons c rest => simp [h c rfl]

/-! ## Rows of digits -/

theorem absorb_append (n count : Nat) (hds : ∀ c ∈ ds, c.isDigit = true) (h : NoDigit rest) :
    absorb n count (ds ++ rest) =
      ((absorb n count ds).1, (absorb n count ds).2.1, (absorb n count ds).2.2 ++ rest) := by
  induction ds generalizing n count with
  | nil =>
    cases rest with
    | nil => rfl
    | cons c rest => simp [absorb, digit?, h c rfl]
  | cons c ds ih =>
    have hc := hds c List.mem_cons_self
    simp only [List.cons_append, absorb, digit?, hc, ↓reduceIte]
    split
    · exact ih _ _ fun d hd => hds d (List.mem_cons_of_mem _ hd)
    · rfl

theorem isDigit_of_mem_absorb (n count : Nat) (hds : ∀ c ∈ ds, c.isDigit = true) :
    ∀ c ∈ (absorb n count ds).2.2, c.isDigit = true := by
  induction ds generalizing n count with
  | nil => simp [absorb]
  | cons c ds ih =>
    have hc := hds c List.mem_cons_self
    simp only [absorb, digit?, hc, ↓reduceIte]
    split
    · exact ih _ _ fun d hd => hds d (List.mem_cons_of_mem _ hd)
    · exact hds

theorem le_ofDigitChars (ds : List Char) (n : Nat) : n ≤ Nat.ofDigitChars 10 ds n := by
  induction ds generalizing n with
  | nil => simp
  | cons c ds ih =>
    rw [Nat.ofDigitChars_cons]
    exact Nat.le_trans (by omega) (ih _)

theorem absorb_of_lt (n count : Nat) (hds : ∀ c ∈ ds, c.isDigit = true)
    (h : Nat.ofDigitChars 10 ds n < UInt64.size) :
    absorb n count ds = (Nat.ofDigitChars 10 ds n, count + ds.length, []) := by
  induction ds generalizing n count with
  | nil => simp [absorb]
  | cons c ds ih =>
    have hc := hds c List.mem_cons_self
    have hstep : n * 10 + (c.toNat - 48) = 10 * n + (c.toNat - '0'.toNat) := by
      rw [Nat.mul_comm]
      rfl
    rw [Nat.ofDigitChars_cons] at h ⊢
    simp only [absorb, digit?, hc, ↓reduceIte, hstep]
    rw [if_pos (Nat.lt_of_le_of_lt (le_ofDigitChars ds _) h),
      ih _ _ (fun d hd => hds d (List.mem_cons_of_mem _ hd)) h, List.length_cons,
      Nat.add_right_comm, Nat.add_assoc]

/-! ## Parts of a number -/

def Whole (read : List Char → Option (Json × List Char)) (text : List Char) : Prop :=
  ∃ v : Option Json, ∀ rest, Stops rest → read (text ++ rest) = v.map (·, rest)

inductive Ending : List Char → Prop where
  | nothing : Ending []
  | power {sign : Char} {ds : List Char} :
    sign = '+' ∨ sign = '-' → Digits ds → Ending ('e' :: sign :: ds)

theorem Ending.noDigit (h : Ending w) (hr : Stops rest) : NoDigit (w ++ rest) := by
  cases h with
  | nothing => exact hr.noDigit
  | power hs hds => exact noDigit_cons (by decide)

theorem powerPart_whole (negative : Bool) (n : Nat) (start : Int) {sign : Char}
    (hs : sign = '+' ∨ sign = '-') (hds : Digits ds) :
    Whole (powerPart negative n start) (sign :: ds) := by
  obtain ⟨d, ds, rfl⟩ := List.exists_cons_of_ne_nil hds.ne_nil
  refine ⟨(powerPart negative n start (sign :: d :: ds)).map Prod.fst, fun rest hr => ?_⟩
  have htake := takeWhile_digits hds.isDigit hr.noDigit
  have hdrop := dropWhile_digits hds.isDigit hr.noDigit
  have htake' := takeWhile_digits hds.isDigit stops_nil.noDigit
  rw [List.append_nil] at htake'
  rcases hs with rfl | rfl <;>
    simp only [List.cons_append, powerPart, digits] at * <;>
    simp only [htake, hdrop, htake'] <;>
    split <;> (try split) <;> simp [Option.map_map, Function.comp_def]

theorem afterDigits_whole (negative : Bool) (n : Nat) (power : Int) (h : Ending w) :
    Whole (afterDigits negative n power) w := by
  cases h with
  | nothing =>
    refine ⟨floating negative n power, fun rest hr => ?_⟩
    cases rest with
    | nil => rfl
    | cons c rest =>
      obtain ⟨-, -, he, hE⟩ := hr c rfl
      rw [List.nil_append, afterDigits.eq_3]
      · exact fun _ h => he (List.cons.inj h).1
      · exact fun _ h => hE (List.cons.inj h).1
  | power hs hds => exact powerPart_whole negative n power hs hds

theorem fractionPart_whole (negative : Bool) (n : Nat) (power : Int) (hds : Digits ds)
    (h : Ending w) : Whole (fractionPart negative n power) (ds ++ w) := by
  obtain ⟨v, hv⟩ := afterDigits_whole negative (absorb n 0 ds).1 (power - (absorb n 0 ds).2.1) h
  refine ⟨v, fun rest hr => ?_⟩
  have hnext := h.noDigit hr
  have hsome : ds.isEmpty = false := by simpa using hds.ne_nil
  rw [← hv rest hr, List.append_assoc, fractionPart, takeWhile_digits hds.isDigit hnext, hsome,
    absorb_append n 0 hds.isDigit hnext]
  simp only [Bool.false_eq_true, ↓reduceIte]
  rw [dropWhile_digits (isDigit_of_mem_absorb n 0 hds.isDigit) hnext]

/-- What follows the whole part of a number with a point or a power. -/
inductive Remainder : List Char → Prop where
  | fraction {ds w : List Char} : Digits ds → Ending w → Remainder ('.' :: (ds ++ w))
  | ending {w : List Char} : Ending w → Remainder w

theorem Remainder.noDigit (h : Remainder w) (hr : Stops rest) : NoDigit (w ++ rest) := by
  cases h with
  | fraction => exact noDigit_cons (by decide)
  | ending h => exact h.noDigit hr

theorem after_of_stops (negative : Bool) (n dropped : Nat) (hr : Stops rest) :
    unsigned.after negative n dropped rest =
      if dropped ≠ 0 then (floating negative n dropped).map (·, rest)
      else if !negative then some (.int n, rest)
      else if n = 0 ∨ Nat.pow 2 63 < n then some (.float (Binary64.ofNat n).neg, rest)
      else some (.int (-(n : Int)), rest) := by
  cases rest with
  | nil => rfl
  | cons c rest =>
    obtain ⟨-, hp, he, hE⟩ := hr c rfl
    rw [unsigned.after.eq_4]
    · exact fun _ h => hp (List.cons.inj h).1
    · exact fun _ h => he (List.cons.inj h).1
    · exact fun _ h => hE (List.cons.inj h).1

theorem after_whole (negative : Bool) (n dropped : Nat) (h : Remainder w) :
    Whole (unsigned.after negative n dropped) w := by
  cases h with
  | fraction hds hw => exact fractionPart_whole negative n dropped hds hw
  | ending h =>
    cases h with
    | nothing =>
      refine ⟨(unsigned.after negative n dropped []).map Prod.fst, fun rest hr => ?_⟩
      rw [List.nil_append, after_of_stops negative n dropped hr,
        after_of_stops negative n dropped stops_nil]
      split
      · simp [Option.map_map, Function.comp_def]
      · split
        · rfl
        · split <;> rfl
    | power hs hds => exact powerPart_whole negative n dropped hs hds

/-! ## Numbers -/

def NoZero (ds : List Char) : Prop := ds = ['0'] ∨ ds.head? ≠ some '0'

theorem unsigned_append (negative : Bool) (hds : Digits ds) (hz : NoZero ds) (hr : NoDigit rest) :
    unsigned negative (ds ++ rest) =
      unsigned.after negative (absorb 0 0 ds).1 (absorb 0 0 ds).2.2.length rest := by
  have hsome : ds.isEmpty = false := by simpa using hds.ne_nil
  have hmain : (if ((ds ++ rest).takeWhile Char.isDigit).isEmpty then none
      else unsigned.after negative (absorb 0 0 (ds ++ rest)).1
        ((absorb 0 0 (ds ++ rest)).2.2.takeWhile Char.isDigit).length
        ((absorb 0 0 (ds ++ rest)).2.2.dropWhile Char.isDigit)) =
      unsigned.after negative (absorb 0 0 ds).1 (absorb 0 0 ds).2.2.length rest := by
    have hall := isDigit_of_mem_absorb 0 0 hds.isDigit
    rw [takeWhile_digits hds.isDigit hr, hsome, absorb_append 0 0 hds.isDigit hr]
    simp only [Bool.false_eq_true, ↓reduceIte, takeWhile_digits hall hr, dropWhile_digits hall hr]
  rcases hz with rfl | hz
  · cases rest with
    | nil => rfl
    | cons c rest =>
      simp only [List.cons_append, List.nil_append, unsigned, hr c rfl, Bool.false_eq_true,
        ↓reduceIte]
      rfl
  · rw [unsigned]
    · exact hmain
    · intro c tail h
      obtain ⟨d, ds, rfl⟩ := List.exists_cons_of_ne_nil hds.ne_nil
      rw [List.cons_append] at h
      exact hz (by rw [(List.cons.inj h).1]; rfl)

theorem unsigned_whole (negative : Bool) (hds : Digits ds) (hz : NoZero ds) (hw : Remainder w) :
    Whole (unsigned negative) (ds ++ w) := by
  obtain ⟨v, hv⟩ := after_whole negative (absorb 0 0 ds).1 (absorb 0 0 ds).2.2.length hw
  refine ⟨v, fun rest hr => ?_⟩
  rw [List.append_assoc, unsigned_append negative hds hz (hw.noDigit hr), hv rest hr]

theorem scalar_digit (hc : c.isDigit = true) (cs : List Char) :
    scalar (c :: cs) = unsigned false (c :: cs) := by
  have hne (d : Char) (hd : d.isDigit = false) : c ≠ d := by
    rintro rfl
    rw [hc] at hd
    cases hd
  unfold scalar
  split
  · exact absurd (List.cons.inj ‹_›).1 (hne 'n' (by decide))
  · exact absurd (List.cons.inj ‹_›).1 (hne 't' (by decide))
  · exact absurd (List.cons.inj ‹_›).1 (hne 'f' (by decide))
  · exact absurd (List.cons.inj ‹_›).1 (hne '"' (by decide))
  · exact absurd (List.cons.inj ‹_›).1 (hne '-' (by decide))
  · rfl

def Unsigned (text : List Char) : Prop :=
  ∃ ds w, Digits ds ∧ NoZero ds ∧ Remainder w ∧ text = ds ++ w

inductive Numeral : List Char → Prop where
  | plain {text : List Char} : Unsigned text → Numeral text
  | minus {text : List Char} : Unsigned text → Numeral ('-' :: text)

theorem Unsigned.head (h : Unsigned text) : ∃ c tail, text = c :: tail ∧ c.isDigit = true := by
  obtain ⟨ds, w, hds, -, -, rfl⟩ := h
  obtain ⟨c, ds, rfl⟩ := List.exists_cons_of_ne_nil hds.ne_nil
  exact ⟨c, ds ++ w, rfl, hds.isDigit c List.mem_cons_self⟩

theorem Numeral.head (h : Numeral text) :
    ∃ c tail, text = c :: tail ∧ (c.isDigit = true ∨ c = '-') := by
  cases h with
  | plain h =>
    obtain ⟨c, tail, rfl, hc⟩ := h.head
    exact ⟨c, tail, rfl, .inl hc⟩
  | minus => exact ⟨_, _, rfl, .inr rfl⟩

theorem Numeral.whole (h : Numeral text) : Whole scalar text := by
  cases h with
  | plain h =>
    obtain ⟨c, tail, rfl, hc⟩ := h.head
    obtain ⟨ds, w, hds, hz, hw, htext⟩ := h
    obtain ⟨v, hv⟩ := unsigned_whole false hds hz hw
    refine ⟨v, fun rest hr => ?_⟩
    rw [← hv rest hr, ← htext]
    exact scalar_digit hc _
  | minus h =>
    obtain ⟨ds, w, hds, hz, hw, rfl⟩ := h
    exact unsigned_whole true hds hz hw

/-! ## The text of whole numbers -/

theorem head?_append (h : ds ≠ []) (rest : List Char) : (ds ++ rest).head? = ds.head? := by
  obtain ⟨d, ds, rfl⟩ := List.exists_cons_of_ne_nil h
  rfl

theorem head?_toDigits_ne (hn : n ≠ 0) : (Nat.toDigits 10 n).head? ≠ some '0' := by
  induction n using Nat.strongRecOn with
  | ind n ih =>
    by_cases hlt : n < 10
    · have hdigit : ∀ m : Nat, m < 10 → m ≠ 0 → m.digitChar ≠ '0' := by decide
      rw [Nat.toDigits_of_lt_base hlt]
      simpa using hdigit n hlt hn
    · have hdiv : n / 10 ≠ 0 := by omega
      rw [Nat.toDigits_of_base_le (by decide) (Nat.le_of_not_lt hlt),
        head?_append Nat.toDigits_ne_nil _]
      exact ih (n / 10) (by omega) hdiv

theorem noZero_toDigits (n : Nat) : NoZero (Nat.toDigits 10 n) := by
  by_cases hn : n = 0
  · subst hn
    exact .inl rfl
  · exact .inr (head?_toDigits_ne hn)

theorem unsigned_toDigits (negative : Bool) (hn : n < UInt64.size) (hr : Stops rest) :
    unsigned negative (Nat.toDigits 10 n ++ rest) =
      unsigned.after negative n 0 rest := by
  have hds := digits_toDigits n
  have hvalue : Nat.ofDigitChars 10 (Nat.toDigits 10 n) 0 = n := Nat.ofDigitChars_ten_toDigits
  rw [unsigned_append negative hds (noZero_toDigits n) hr.noDigit,
    absorb_of_lt 0 0 hds.isDigit (by rwa [hvalue]), hvalue]
  rfl

theorem toList_toString (n : Int) : (toString n).toList =
    if 0 ≤ n then Nat.toDigits 10 n.toNat else '-' :: Nat.toDigits 10 (-n).toNat := by
  rw [Int.toString_eq_repr, Int.repr_eq_if]
  split <;> simp

/-- Whether a whole number can be read back as one. -/
def InRange (n : Int) : Prop := -(Nat.pow 2 63 : Int) ≤ n ∧ n < UInt64.size

theorem scalar_int {n : Int} (hn : InRange n) (hr : Stops rest) :
    scalar ((toString n).toList ++ rest) = some (.int n, rest) := by
  obtain ⟨hlow, hhigh⟩ := hn
  rw [toList_toString]
  split
  case isTrue h0 =>
    have hread := unsigned_toDigits false (n := n.toNat) (by omega) hr
    rw [after_of_stops false n.toNat 0 hr] at hread
    have hds := digits_toDigits n.toNat
    obtain ⟨d, ds, hcons⟩ := List.exists_cons_of_ne_nil hds.ne_nil
    rw [hcons] at hread hds ⊢
    rw [List.cons_append, scalar_digit (hds.isDigit d List.mem_cons_self), ← List.cons_append, hread]
    simp [Int.toNat_of_nonneg h0]
  case isFalse h0 =>
    have hlow' : (-n).toNat ≤ Nat.pow 2 63 := by omega
    have hsize : (-n).toNat < UInt64.size := Nat.lt_of_le_of_lt hlow' (by decide)
    have hread := unsigned_toDigits true hsize hr
    rw [after_of_stops true (-n).toNat 0 hr] at hread
    have hne : ¬((-n).toNat = 0 ∨ Nat.pow 2 63 < (-n).toNat) := by omega
    rw [List.cons_append, scalar, hread]
    simp only [ne_eq, not_true_eq_false, ↓reduceIte, Bool.not_true, Bool.false_eq_true, hne,
      Option.some.injEq, Prod.mk.injEq, int.injEq, and_true]
    omega

theorem numeral_int (n : Int) : Numeral (toString n).toList := by
  have h (m : Nat) : Unsigned (Nat.toDigits 10 m) :=
    ⟨_, [], digits_toDigits m, noZero_toDigits m, .ending .nothing, (List.append_nil _).symm⟩
  rw [toList_toString]
  split
  · exact .plain (h _)
  · exact .minus (h _)

/-! ## The text of other numbers -/

theorem isDigit_of_mem_replicate : ∀ c ∈ List.replicate n '0', c.isDigit = true := by
  intro c hc
  rw [(List.mem_replicate.1 hc).2]
  decide

theorem Digits.pad (hds : Digits ds) (n : Nat) :
    Digits (ds ++ List.replicate n '0') ∧ Digits (List.replicate n '0' ++ ds) := by
  refine ⟨⟨by simp [hds.ne_nil], fun c hc => ?_⟩, ⟨by simp [hds.ne_nil], fun c hc => ?_⟩⟩
  · exact (List.mem_append.1 hc).elim (hds.isDigit c) (isDigit_of_mem_replicate c)
  · exact (List.mem_append.1 hc).elim (isDigit_of_mem_replicate c) (hds.isDigit c)

theorem powerText_ending (p : Int) : Ending ('e' :: (Binary64.powerText p).toList) := by
  have hds := digits_toDigits p.natAbs
  unfold Binary64.powerText
  split <;> simp only [Nat.toString_eq_repr, String.toList_append, Nat.toList_repr]
  · exact .power (.inr rfl) hds
  · exact .power (.inl rfl) hds

theorem positional_unsigned (hd : d.coefficient ≠ 0) :
    Unsigned (Nat.toDigits 10 d.coefficient ++ List.replicate d.power.toNat '0' ++ ['.', '0']) := by
  have hds := digits_toDigits d.coefficient
  refine ⟨_, _, (hds.pad _).1, .inr ?_, .fraction digits_zero .nothing, rfl⟩
  rw [head?_append hds.ne_nil _]
  exact head?_toDigits_ne hd

theorem mixed_unsigned (hn : n ≠ 0) (whole : Nat) (h0 : 0 < whole)
    (h : whole < (Nat.toDigits 10 n).length) :
    Unsigned ((Nat.toDigits 10 n).take whole ++ '.' :: (Nat.toDigits 10 n).drop whole) := by
  have hds := digits_toDigits n
  have hfront : Digits ((Nat.toDigits 10 n).take whole) :=
    ⟨by simp [hds.ne_nil]; omega, fun c hc => hds.isDigit c (List.mem_of_mem_take hc)⟩
  have hback : Digits ((Nat.toDigits 10 n).drop whole) :=
    ⟨by simpa using h, fun c hc => hds.isDigit c (List.mem_of_mem_drop hc)⟩
  refine ⟨_, _, hfront, .inr ?_, .fraction hback .nothing, by simp⟩
  rw [← head?_append hfront.ne_nil ((Nat.toDigits 10 n).drop whole), List.take_append_drop]
  exact head?_toDigits_ne hn

theorem single_unsigned (hc : c.isDigit = true) (hw : Ending w) : Unsigned (c :: w) := by
  refine ⟨[c], w, ⟨by simp, by simpa using hc⟩, ?_, .ending hw, rfl⟩
  by_cases h0 : c = '0'
  · exact .inl (by rw [h0])
  · exact .inr (by simpa using h0)

theorem pointed_unsigned (hc : c.isDigit = true) (hds : Digits ds) (hw : Ending w) :
    Unsigned (c :: '.' :: (ds ++ w)) := by
  refine ⟨[c], _, ⟨by simp, by simpa using hc⟩, ?_, .fraction hds hw, rfl⟩
  by_cases h0 : c = '0'
  · exact .inl (by rw [h0])
  · exact .inr (by simpa using h0)

theorem decimalText_unsigned (hd : d.coefficient ≠ 0) :
    Unsigned (Binary64.decimalText d).toList := by
  have hds := digits_toDigits d.coefficient
  have hpos := List.length_pos_iff.2 hds.ne_nil
  unfold Binary64.decimalText
  simp only [Nat.toString_eq_repr, Nat.toList_repr]
  split
  · split
    · simpa using positional_unsigned hd
    · split
      · have h := mixed_unsigned hd ((d.power + (Nat.toDigits 10 d.coefficient).length - 1).toNat + 1)
          (by omega) (by omega)
        simpa using h
      · have h := pointed_unsigned (c := '0') (by decide)
          (hds.pad (-(d.power + (Nat.toDigits 10 d.coefficient).length - 1) - 1).toNat).2 .nothing
        simpa using h
  · have he := powerText_ending (d.power + (Nat.toDigits 10 d.coefficient).length - 1)
    split
    · next h => exact absurd h hds.ne_nil
    · next c h =>
      rw [h] at hds
      simpa using single_unsigned (hds.isDigit c List.mem_cons_self) he
    · next c rest hne h =>
      rw [h] at hds
      have hds' : Digits rest := ⟨hne, fun e hm => hds.isDigit e (List.mem_cons_of_mem c hm)⟩
      simpa using pointed_unsigned (hds.isDigit c List.mem_cons_self) hds' he

theorem normalize_go_coefficient (fuel c : Nat) (p : Int) (hc : c ≠ 0) :
    (Decimal.normalize.go fuel c p).coefficient ≠ 0 := by
  induction fuel generalizing c p with
  | zero => exact hc
  | succ fuel ih =>
    unfold Decimal.normalize.go
    split
    · exact ih (c / 10) (p + 1) (by omega)
    · exact hc

theorem onGrid?_coefficient {power : Int} (h : x.onGrid? power = some d) : d.coefficient ≠ 0 := by
  unfold Binary64.onGrid? at h
  grind

theorem exact_coefficient (hx : x.coefficient ≠ 0) : x.exact.coefficient ≠ 0 := by
  have hpow (b n : Nat) (hb : 0 < b) : Nat.pow b n ≠ 0 := Nat.ne_of_gt (Nat.pow_pos hb)
  exact Nat.mul_ne_zero (Nat.mul_ne_zero hx (hpow 2 _ (by decide))) (hpow 5 _ (by decide))

theorem shortest_coefficient (hx : x.coefficient ≠ 0) : x.shortest.coefficient ≠ 0 := by
  refine normalize_go_coefficient _ _ _ ?_
  generalize hfound : List.findSome? _ _ = found
  cases found with
  | none => exact exact_coefficient hx
  | some d =>
    obtain ⟨digits, -, hd⟩ := List.exists_of_findSome?_eq_some hfound
    exact onGrid?_coefficient hd

theorem magnitude_coefficient (hx : ¬x.isZero = true) : x.magnitude.coefficient ≠ 0 := by
  have hbits := x.toNat_bits_magnitude
  simp only [Binary64.isZero, beq_iff_eq, Nat.pow_eq] at hx hbits
  unfold Binary64.coefficient Binary64.exponentField Binary64.fractionField
  simp only [Nat.pow_eq]
  split <;> omega

theorem magnitudeText_unsigned (x : Binary64) : Unsigned x.magnitudeText.toList := by
  rw [Binary64.magnitudeText]
  split
  · exact ⟨['0'], _, digits_zero, .inl rfl, .fraction digits_zero .nothing, rfl⟩
  · next hx => exact decimalText_unsigned (shortest_coefficient (magnitude_coefficient hx))

theorem numeral_float (x : Binary64) : Numeral x.text.toList := by
  have h := magnitudeText_unsigned x
  rw [Binary64.text, String.toList_append]
  cases x.isNegative
  · exact .plain h
  · exact .minus h

end ClassForge.Json.Reader
