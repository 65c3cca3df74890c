import ClassForge.Proofs.Json.Text
import ClassForge.Proofs.Number

/-!
# Different values have different texts

A value without infinities is determined by its text on one line: where the text of a value ends can be
told from the text, and so can what it stands for.
-/

namespace ClassForge.Json

mutual

/-- Whether every floating-point number of a value is finite. -/
def finite : Json → Bool
  | .float x => x.isFinite
  | .array items => finiteItems items
  | .object fields => finiteFields fields
  | _ => true

def finiteItems : List Json → Bool
  | [] => true
  | v :: rest => finite v && finiteItems rest

def finiteFields : List (String × Json) → Bool
  | [] => true
  | (_, v) :: rest => finite v && finiteFields rest

end

theorem finiteItems_iff (l : List Json) : finiteItems l = true ↔ ∀ v ∈ l, v.finite = true := by
  induction l with
  | nil => simp [finiteItems]
  | cons v rest ih => simp [finiteItems, ih]

theorem finiteFields_iff (l : List (String × Json)) :
    finiteFields l = true ↔ ∀ e ∈ l, e.2.finite = true := by
  induction l with
  | nil => simp [finiteFields]
  | cons e rest ih => simp [finiteFields, ih]

open Reader

/-! ## Values without parts -/

/-- The number a text stands for. -/
def floatOf : List Char → Binary64
  | '-' :: text => .withSign true (Binary64.decimalOf text).nearest.bits.toNat
  | text => .withSign false (Binary64.decimalOf text).nearest.bits.toNat

def intOf : List Char → Int
  | '-' :: text => -(Nat.ofDigitChars 10 text 0 : Int)
  | text => Nat.ofDigitChars 10 text 0

/-- The value without parts a text stands for. -/
def leafOf (text : List Char) : Json :=
  if text.head? = some 'n' then .null
  else if text.head? = some 't' then .bool true
  else if text.head? = some 'f' then .bool false
  else if '.' ∈ text ∨ 'e' ∈ text then .float (floatOf text)
  else .int (intOf text)

theorem leafOf_numeral {text : List Char} (h : Numeral text) :
    leafOf text = if '.' ∈ text ∨ 'e' ∈ text then .float (floatOf text) else .int (intOf text) := by
  obtain ⟨c, tail, rfl, hc⟩ := h.head
  have hne {d : Char} (hd : d.isDigit = false ∧ d ≠ '-') : (c :: tail).head? ≠ some d := by
    rintro heq
    cases heq
    exact hc.elim (by simp [hd.1]) hd.2
  rw [leafOf, if_neg (hne (by decide)), if_neg (hne (by decide)), if_neg (hne (by decide))]

theorem floatOf_text {x : Binary64} (hx : x.isFinite = true) : floatOf x.text.toList = x := by
  have hsign := x.withSign_magnitude
  rw [← Binary64.nearest_magnitudeText hx] at hsign
  rw [Binary64.text, String.toList_append]
  obtain ⟨c, tail, htext, hc⟩ := (magnitudeText_unsigned x).head
  cases hneg : x.isNegative with
  | true =>
    rw [hneg] at hsign
    exact hsign
  | false =>
    rw [hneg, htext] at hsign
    simp only [Bool.false_eq_true, if_false, String.toList_empty, List.nil_append, htext]
    rw [floatOf]
    · exact hsign
    · rintro tail' heq
      obtain ⟨rfl, -⟩ := List.cons.inj heq
      exact absurd hc (by decide)

theorem intOf_toDigits (n : Nat) : intOf (Nat.toDigits 10 n) = n := by
  obtain ⟨hne, hdigit⟩ := digits_toDigits n
  rw [intOf, Nat.ofDigitChars_ten_toDigits]
  intro tail heq
  exact absurd (hdigit '-' (by simp [heq])) (by decide)

theorem intOf_toString (n : Int) : intOf (toString n).toList = n := by
  rw [toList_toString]
  split
  · rw [intOf_toDigits]
    omega
  · rw [intOf, Nat.ofDigitChars_ten_toDigits]
    omega

theorem not_mem_toString {c : Char} (hc : c.isDigit = false) (hminus : c ≠ '-') (n : Int) :
    c ∉ (toString n).toList := by
  have hnone (m : Nat) : c ∉ Nat.toDigits 10 m := by
    intro h
    simp [(digits_toDigits m).isDigit c h] at hc
  rw [toList_toString]
  split <;> simp [hnone, hminus]

theorem mem_decimalText (d : Decimal) :
    '.' ∈ (Binary64.decimalText d).toList ∨ 'e' ∈ (Binary64.decimalText d).toList := by
  simp only [Binary64.decimalText]
  repeat' split
  all_goals simp

theorem mem_text (x : Binary64) : '.' ∈ x.text.toList ∨ 'e' ∈ x.text.toList := by
  have h : '.' ∈ x.magnitudeText.toList ∨ 'e' ∈ x.magnitudeText.toList := by
    rw [Binary64.magnitudeText]
    split
    · simp
    · exact mem_decimalText _
  rw [Binary64.text, String.toList_append]
  exact h.imp (List.mem_append_right _) (List.mem_append_right _)

/-! ## Marks -/

/-- Whether a character stands next to values and never inside one without parts. -/
def isMark (c : Char) : Bool := [',', ']', '\x7d', '"', '[', '\x7b'].contains c

/-- What may follow a value on the same line. -/
def Ends (rest : List Char) : Prop := ∀ c ∈ rest.head?, c = ',' ∨ c = ']' ∨ c = '\x7d'

/-- The mark a text of a value begins with. -/
def shape : Json → Option Char
  | .string _ => some '"'
  | .array _ => some '['
  | .object _ => some '\x7b'
  | _ => none

theorem isMark_digit {c : Char} (h : c.isDigit = true) : isMark c = false := by
  rw [isMark, List.contains_eq_mem, decide_eq_false_iff_not]
  intro hc
  simp only [List.mem_cons, List.not_mem_nil, or_false] at hc
  rcases hc with rfl | rfl | rfl | rfl | rfl | rfl <;> exact absurd h (by decide)

theorem unmarked_of_all {text : List Char} (h : text.all (!isMark ·) = true) :
    ∀ c ∈ text, isMark c = false := by simpa using h

theorem Reader.Ending.unmarked {w : List Char} (h : Ending w) : ∀ c ∈ w, isMark c = false := by
  cases h with
  | nothing => simp
  | power hs hds =>
    have hdigits := fun c hc => isMark_digit (hds.isDigit c hc)
    rcases hs with rfl | rfl <;> simpa using ⟨by decide, by decide, hdigits⟩

theorem Reader.Unsigned.unmarked {text : List Char} (h : Unsigned text) :
    ∀ c ∈ text, isMark c = false := by
  obtain ⟨ds, w, hds, -, hw, rfl⟩ := h
  refine List.forall_mem_append.2 ⟨fun c hc => isMark_digit (hds.isDigit c hc), ?_⟩
  cases hw with
  | fraction hfraction hending =>
    exact List.forall_mem_cons.2 ⟨by decide, List.forall_mem_append.2
      ⟨fun c hc => isMark_digit (hfraction.isDigit c hc), hending.unmarked⟩⟩
  | ending hending => exact hending.unmarked

theorem Reader.Numeral.unmarked {text : List Char} (h : Numeral text) :
    ∀ c ∈ text, isMark c = false := by
  cases h with
  | plain h => exact h.unmarked
  | minus h => exact List.forall_mem_cons.2 ⟨by decide, h.unmarked⟩

theorem unmarked_render {v : Json} (hshape : v.shape = none) :
    ∀ c ∈ v.render.toList, isMark c = false := by
  cases v with
  | null => exact unmarked_of_all (by decide)
  | bool b => cases b <;> exact unmarked_of_all (by decide)
  | int n => exact (numeral_int n).unmarked
  | float x =>
    rw [render, floatText]
    split
    · exact (numeral_float x).unmarked
    · exact unmarked_of_all (by decide)
  | string | array | object => cases hshape

theorem leafOf_render {v : Json} (hshape : v.shape = none) (hv : v.finite = true) :
    leafOf v.render.toList = v := by
  cases v with
  | null => rfl
  | bool b => cases b <;> rfl
  | int n =>
    rw [render, leafOf_numeral (numeral_int n), if_neg, intOf_toString]
    rintro (h | h)
    · exact not_mem_toString (by decide) (by decide) n h
    · exact not_mem_toString (by decide) (by decide) n h
  | float x =>
    have hx : x.isFinite = true := hv
    rw [render, floatText, if_pos hx, leafOf_numeral (numeral_float x), if_pos (mem_text x),
      floatOf_text hx]
  | string | array | object => cases hshape

/-! ## Where a text ends -/

/-- What the text of `a` begins with is the text of no other good value, whatever follows either. -/
def Splits {α : Type} (text : α → String) (good : α → Prop) (a : α) : Prop :=
  ∀ b, good b → ∀ rest rest', Ends rest → Ends rest' →
    (text a).toList ++ rest = (text b).toList ++ rest' → a = b ∧ rest = rest'

theorem ends_cons {c : Char} (hc : c = ',' ∨ c = ']' ∨ c = '\x7d') (rest : List Char) :
    Ends (c :: rest) := by
  intro d hd
  cases hd
  exact hc

theorem takeWhile_unmarked {text rest : List Char} (h : ∀ c ∈ text, isMark c = false)
    (hrest : Ends rest) : (text ++ rest).takeWhile (!isMark ·) = text := by
  rw [List.takeWhile_append_of_pos (by simpa using h)]
  cases rest with
  | nil => simp
  | cons c rest =>
    have hc : isMark c = true := by rcases hrest c rfl with rfl | rfl | rfl <;> decide
    simp [hc]

section Rows

variable {α : Type} (text : α → String) (close : Char)

/-- Texts with commas between them, a bracket that closes them, and what follows it. -/
def row (rest : List Char) (l : List α) : List Char :=
  (String.intercalate "," (l.map text)).toList ++ close :: rest

/-- What follows the first text of a row, the others given. -/
def afterFirst (rest : List Char) : List α → List Char
  | [] => close :: rest
  | b :: l => ',' :: row text close rest (b :: l)

theorem row_cons (rest : List Char) (a : α) (l : List α) :
    row text close rest (a :: l) = (text a).toList ++ afterFirst text close rest l := by
  cases l <;> simp [row, afterFirst]

variable {text close} (hclose : close = ']' ∨ close = '\x7d')
  (hopen : ∀ a, ∃ c tail, (text a).toList = c :: tail ∧ c ≠ close)

include hclose

theorem ends_afterFirst (rest : List Char) (l : List α) : Ends (afterFirst text close rest l) := by
  cases l with
  | nil => exact ends_cons (.inr hclose) rest
  | cons b l => exact ends_cons (.inl rfl) _

include hopen

theorem row_inj {good : α → Prop} {l l' : List α} {rest rest' : List Char}
    (hl : ∀ a ∈ l, Splits text good a) (hl' : ∀ a ∈ l', good a)
    (h : row text close rest l = row text close rest' l') : l = l' ∧ rest = rest' := by
  have hnil (rest rest' : List Char) (a : α) (l : List α) :
      row text close rest [] ≠ row text close rest' (a :: l) := by
    obtain ⟨c, tail, hc, hne⟩ := hopen a
    rw [row_cons, hc, row]
    simpa using fun h => absurd h.symm hne
  have hcomma : close ≠ ',' := by rcases hclose with rfl | rfl <;> decide
  induction l generalizing l' with
  | nil =>
    cases l' with
    | nil => simpa [row] using h
    | cons b l' => exact absurd h (hnil _ _ b l')
  | cons a l ih =>
    cases l' with
    | nil => exact absurd h.symm (hnil _ _ a l)
    | cons b l' =>
      rw [row_cons, row_cons] at h
      obtain ⟨rfl, htail⟩ := hl a List.mem_cons_self b (hl' b List.mem_cons_self) _ _
        (ends_afterFirst hclose rest l) (ends_afterFirst hclose rest' l') h
      -- a comma and a closing bracket tell whether there are more texts
      cases l <;> cases l' <;> simp only [afterFirst, List.cons.injEq, hcomma, hcomma.symm,
        false_and, true_and] at htail
      · exact ⟨rfl, htail⟩
      · obtain ⟨heq, hrest⟩ := ih (fun d hd => hl d (List.mem_cons_of_mem a hd))
          (fun d hd => hl' d (List.mem_cons_of_mem a hd)) htail
        exact ⟨by rw [heq], hrest⟩

end Rows

/-! ## Values -/

theorem render_array (items : List Json) (rest : List Char) :
    (render (.array items)).toList ++ rest = '[' :: row render ']' rest items := by
  simp [render, renderItems_eq_map, row]

def renderField (e : String × Json) : String := quote e.1 ++ ":" ++ render e.2

theorem render_object (fields : List (String × Json)) (rest : List Char) :
    (render (.object fields)).toList ++ rest = '\x7b' :: row renderField '\x7d' rest fields := by
  have htext : renderField = fun e => quote e.1 ++ (":" ++ "") ++ render e.2 := by
    funext e
    simp [renderField]
  simp [render, renderFields_eq_map, row, htext]

theorem quote_append_inj {s s' : String} {rest rest' : List Char}
    (h : (quote s).toList ++ rest = (quote s').toList ++ rest') : s = s' ∧ rest = rest' := by
  rw [toList_quote, toList_quote, List.cons_append, List.cons_append] at h
  have hread := quoted_unquoted s rest
  rw [(List.cons.inj h).2, quoted_unquoted] at hread
  cases hread
  exact ⟨rfl, rfl⟩

theorem shape_eq_of_head {v : Json} {c : Char} {tail : List Char} (h : v.render.toList = c :: tail) :
    v.shape = if isMark c then some c else none := by
  have hleaf (hshape : v.shape = none) : v.shape = if isMark c then some c else none := by
    rw [hshape, unmarked_render hshape c (by simp [h])]
    rfl
  cases v with
  | null | bool | int | float => exact hleaf rfl
  | string s =>
    rw [render, toList_quote] at h
    rw [← (List.cons.inj h).1]
    rfl
  | array items =>
    have h' := render_array items []
    rw [List.append_nil, h] at h'
    rw [(List.cons.inj h').1]
    rfl
  | object fields =>
    have h' := render_object fields []
    rw [List.append_nil, h] at h'
    rw [(List.cons.inj h').1]
    rfl

theorem shape_eq {v w : Json} {rest rest' : List Char}
    (h : v.render.toList ++ rest = w.render.toList ++ rest') : v.shape = w.shape := by
  obtain ⟨c, tail, hc, -⟩ := (written_render v).opens
  obtain ⟨d, tail', hd, -⟩ := (written_render w).opens
  rw [hc, hd] at h
  rw [shape_eq_of_head hc, shape_eq_of_head hd, (List.cons.inj h).1]

theorem splits_leaf {v : Json} (hshape : v.shape = none) (hv : v.finite = true) :
    Splits render (·.finite = true) v := by
  intro w hw rest rest' hrest hrest' h
  have hshape' : w.shape = none := (shape_eq h).symm.trans hshape
  have htext : v.render.toList = w.render.toList := by
    rw [← takeWhile_unmarked (unmarked_render hshape) hrest, h,
      takeWhile_unmarked (unmarked_render hshape') hrest']
  rw [htext] at h
  refine ⟨?_, List.append_cancel_left h⟩
  rw [← leafOf_render hshape hv, htext, leafOf_render hshape' hw]

theorem renderField_splits {e : String × Json} (h : Splits render (·.finite = true) e.2) :
    Splits renderField (·.2.finite = true) e := by
  intro f hf rest rest' hrest hrest' heq
  simp only [renderField, String.toList_append, List.append_assoc] at heq
  obtain ⟨hkey, hcolon⟩ := quote_append_inj heq
  obtain ⟨hvalue, hrests⟩ := h f.2 hf rest rest' hrest hrest' (List.append_cancel_left hcolon)
  exact ⟨Prod.ext hkey hvalue, hrests⟩

theorem splits_render (v : Json) (hv : v.finite = true) : Splits render (·.finite = true) v := by
  induction v using induction_parts with
  | null | bool | int | float => exact splits_leaf rfl hv
  | string s =>
    intro w hw rest rest' _ _ h
    have hshape := shape_eq h
    cases w with
    | string s' =>
      obtain ⟨rfl, hrest⟩ := quote_append_inj h
      exact ⟨rfl, hrest⟩
    | _ => simp [shape] at hshape
  | array items ih =>
    intro w hw rest rest' _ _ h
    have hshape := shape_eq h
    cases w with
    | array items' =>
      rw [render_array, render_array] at h
      have hopen (v : Json) : ∃ c tail, v.render.toList = c :: tail ∧ c ≠ ']' := by
        obtain ⟨c, tail, hc, -, hne⟩ := (written_render v).opens
        exact ⟨c, tail, hc, hne⟩
      obtain ⟨rfl, hrest⟩ := row_inj (.inl rfl) hopen
        (fun v hmem => ih v hmem ((finiteItems_iff items).1 hv v hmem))
        ((finiteItems_iff items').1 hw) (List.cons.inj h).2
      exact ⟨rfl, hrest⟩
    | _ => simp [shape] at hshape
  | object fields ih =>
    intro w hw rest rest' _ _ h
    have hshape := shape_eq h
    cases w with
    | object fields' =>
      rw [render_object, render_object] at h
      have hopen (e : String × Json) : ∃ c tail, (renderField e).toList = c :: tail ∧ c ≠ '\x7d' :=
        ⟨'"', unquoted e.1 ++ ':' :: e.2.render.toList, by simp [renderField, toList_quote], by decide⟩
      obtain ⟨rfl, hrest⟩ := row_inj (.inr rfl) hopen
        (fun e he => renderField_splits (ih e he ((finiteFields_iff fields).1 hv e he)))
        ((finiteFields_iff fields').1 hw) (List.cons.inj h).2
      exact ⟨rfl, hrest⟩
    | _ => simp [shape] at hshape

theorem render_inj {v w : Json} (hv : v.finite = true) (hw : w.finite = true)
    (h : v.render = w.render) : v = w := by
  have hnil : Ends [] := by
    intro c hc
    cases hc
  exact (splits_render v hv w hw [] [] hnil hnil (by rw [h])).1

end ClassForge.Json
