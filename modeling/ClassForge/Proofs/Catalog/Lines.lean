import ClassForge.Catalog.Basic
import ClassForge.Proofs.Files.Paths
import ClassForge.Proofs.Json.Number
import ClassForge.Proofs.Symbol
import Mathlib.Data.List.DropRight

/-!
# The lines of a catalog

What a line does to what has been read is decided by its first word: none, one that starts with a number
sign or a quote, or a keyword. Blanks at the ends of a line do not count.
-/

namespace ClassForge

/-! ## Blanks -/

namespace Text

variable {front mid back line cs : List Char}

def Blank (cs : List Char) : Prop := ∀ c ∈ cs, isBlank c = true

theorem dropEndWhile_eq {α : Type} (p : α → Bool) (l : List α) : dropEndWhile p l = l.rdropWhile p := by
  induction l with
  | nil => rfl
  | cons a l ih =>
    rw [dropEndWhile, ih, List.rdropWhile, List.rdropWhile, List.reverse_cons, List.dropWhile_append]
    cases h : l.reverse.dropWhile p with
    | nil => by_cases ha : p a = true <;> simp [ha]
    | cons b rest => simp

theorem trim_eq (cs : List Char) : trim cs = (cs.dropWhile isBlank).rdropWhile isBlank :=
  dropEndWhile_eq isBlank _

theorem rdropWhile_append_blank (h : Blank back) :
    (mid ++ back).rdropWhile isBlank = mid.rdropWhile isBlank := by
  rw [List.rdropWhile, List.reverse_append,
    List.dropWhile_append_of_pos fun c hc => h c (List.mem_reverse.1 hc), List.rdropWhile]

theorem trim_eq_nil : trim cs = [] ↔ Blank cs := by
  rw [trim_eq, List.rdropWhile_eq_nil_iff]
  constructor
  · intro h c hc
    rw [← List.takeWhile_append_dropWhile (p := isBlank) (l := cs), List.mem_append] at hc
    exact hc.elim List.mem_takeWhile_imp (h c)
  · exact fun h c hc => h c ((List.dropWhile_sublist isBlank).subset hc)

theorem blank_nil : Blank [] := by simp [Blank]

theorem trim_surrounded (hfront : Blank front) (mid : List Char) (hback : Blank back) :
    trim (front ++ mid ++ back) = trim mid := by
  rw [List.append_assoc, trim_eq, trim_eq, List.dropWhile_append_of_pos hfront, List.dropWhile_append]
  split
  next hmid =>
    rw [List.isEmpty_iff] at hmid
    rw [hmid, List.dropWhile_eq_nil_iff.2 hback]
  next => exact rdropWhile_append_blank hback

theorem trimEnd_append {c : Char} (hc : isBlank c = false) (a b : List Char) :
    trimEnd (a ++ c :: b) = a ++ c :: trimEnd b := by
  induction a with
  | nil =>
    rw [trimEnd, List.nil_append, dropEndWhile]
    split
    next h => simp [trimEnd, hc, h]
    next => rfl
  | cons d a ih =>
    rw [trimEnd] at ih ⊢
    rw [List.cons_append, dropEndWhile, ih]
    cases a <;> rfl

theorem trim_cons {c : Char} (hc : isBlank c = false) (cs : List Char) :
    trim (c :: cs) = c :: trimEnd cs := by
  rw [trim, trimStart, List.dropWhile_cons_of_neg (by simp [hc])]
  exact trimEnd_append hc [] cs

theorem trim_eq_self {c d : Char} (hc : isBlank c = false) (mid : List Char) (hd : isBlank d = false) :
    trim (c :: (mid ++ [d])) = c :: (mid ++ [d]) := by
  rw [trim_cons hc, trimEnd, dropEndWhile_eq, List.rdropWhile_concat_neg _ _ d (by simp [hd])]

theorem trim_dropReturn (line : List Char) : trim (dropReturn line) = trim line := by
  rw [dropReturn]
  cases h : dropTail? ['\r'] line with
  | none => rfl
  | some rest =>
    rw [dropTail?_eq_some.1 h, Option.getD_some]
    exact (trim_surrounded blank_nil rest (by simp [Blank, isBlank])).symm

/-! ## Lines -/

theorem lines_newline (h : '\n' ∉ line) (cs : List Char) :
    lines (line ++ '\n' :: cs) = dropReturn line :: lines cs := by
  have hsplit : splitOn '\n' (line ++ '\n' :: cs) = line :: splitOn '\n' cs := by
    rw [splitOn_eq, List.splitOn_append_cons_self, List.splitOn_eq_singleton h, splitOn_eq]
    rfl
  obtain ⟨first, pieces, hpieces⟩ : ∃ first pieces, splitOn '\n' cs = first :: pieces :=
    List.exists_cons_of_ne_nil (by rw [splitOn_eq]; exact List.splitOn_ne_nil _ _)
  simp only [lines, hsplit, hpieces, List.getLast?_cons, List.dropLast_cons_cons, List.map_cons]
  split <;> simp_all

theorem lines_of_not_mem (h : '\n' ∉ line) (hne : line ≠ []) : lines line = [line] := by
  rw [lines, splitOn_eq, List.splitOn_eq_singleton h]
  cases line with
  | nil => exact absurd rfl hne
  | cons c rest => rfl

/-! ## Words -/

def firstWord (line : List Char) : List Char := (line.dropWhile isBlank).takeWhile (!isBlank ·)

theorem splitOnce_getD (p : Char → Bool) (cs : List Char) : (splitOnce p cs).getD (cs, []) =
    (cs.takeWhile (!p ·), (cs.dropWhile (!p ·)).tail) := by
  induction cs with
  | nil => rfl
  | cons c cs ih =>
    by_cases hc : p c = true
    · simp [splitOnce, hc]
    · cases h : splitOnce p cs with
      | none =>
        rw [h, Option.getD_none, Prod.mk.injEq] at ih
        simp [splitOnce, hc, h, ← ih.1, ← ih.2]
      | some cut =>
        rw [h, Option.getD_some] at ih
        simp [splitOnce, hc, h, ih]

theorem takeWhile_append_blank (h : Blank back) :
    (mid ++ back).takeWhile (!isBlank ·) = mid.takeWhile (!isBlank ·) := by
  have hback : back.takeWhile (!isBlank ·) = [] := by
    cases back with
    | nil => rfl
    | cons c back => simp [h c List.mem_cons_self]
  rw [List.takeWhile_append]
  split
  next hall => rw [hback, List.append_nil, (List.takeWhile_prefix _).eq_of_length hall]
  next => rfl

theorem takeWhile_trim (line : List Char) : (trim line).takeWhile (!isBlank ·) = firstWord line := by
  have hback : Blank ((line.dropWhile isBlank).rtakeWhile isBlank) := fun _ => List.mem_rtakeWhile_imp
  rw [trim_eq, firstWord, ← takeWhile_append_blank hback, List.rdropWhile_append_rtakeWhile]

theorem isBlank_of_trim {c : Char} {rest : List Char} (h : trim line = c :: rest) :
    isBlank c = false := by
  obtain ⟨back, hback⟩ := trim_eq line ▸ List.rdropWhile_prefix isBlank (l := line.dropWhile isBlank)
  rw [h] at hback
  simpa [← hback] using List.head?_dropWhile_not isBlank line

theorem firstWord_of_trim {c : Char} {rest : List Char} (h : trim line = c :: rest) :
    firstWord line = c :: rest.takeWhile (!isBlank ·) := by
  rw [← takeWhile_trim, h, List.takeWhile_cons_of_pos (by simp [isBlank_of_trim h])]

end Text

/-! ## What a line does -/

namespace Catalog

open Text (trim firstWord isBlank)

variable {r : Reading} {line rest : List Char} {c : Char}

def begun (r : Reading) (keyword : List Char) : Reading :=
  if opens r.field keyword && r.started then
    { r with entries := insert r.entries r.entry, entry := {}, started := true }
  else { r with started := true }

def textOf (line : List Char) : String :=
  String.ofList (unquote (trim ((trim line).dropWhile (!isBlank ·)).tail))

theorem readLine_blank (h : trim line = []) : readLine r line = .ok r := by
  simp only [readLine, h]

theorem readLine_comment (h : trim line = '#' :: rest) : readLine r line = .ok r := by
  simp only [readLine, h]

theorem readLine_quote (h : trim line = '"' :: rest) :
    readLine r line = .ok (continueWith r (String.ofList (unquote (trim line)))) := by
  simp only [readLine, h]

theorem readLine_keyword (h : trim line = c :: rest) (hc : c ≠ '#') (hq : c ≠ '"') :
    readLine r line = readField (begun r (firstWord line)) (firstWord line) (textOf line) := by
  have hline : readLine r line = readKeyword r (trim line) := by
    rw [readLine]
    split
    next h' => cases h.symm.trans h'
    next h' => exact absurd (List.cons.inj (h.symm.trans h')).1 hc
    next h' => exact absurd (List.cons.inj (h.symm.trans h')).1 hq
    next => rfl
  simp only [hline, readKeyword, Text.splitOnce_getD, Text.takeWhile_trim, textOf, begun]
  split <;> rfl

/-! ## Numbers of forms -/

open Json.Reader (Digits)

/-- A number as the keyword of a form has it: digits, and perhaps a plus before them. -/
inductive Numeral : List Char → Nat → Prop where
  | plain {digits : List Char} (h : Digits digits) : Numeral digits (Nat.ofDigitChars 10 digits 0)
  | signed {digits : List Char} (h : Digits digits) :
    Numeral ('+' :: digits) (Nat.ofDigitChars 10 digits 0)

variable {cs digits : List Char} {n : Nat}

theorem foldl_digits (digits : List Char) (n : Nat) :
    digits.foldl (fun n c => n * 10 + (c.toNat - 48)) n = Nat.ofDigitChars 10 digits n := by
  simp only [Nat.ofDigitChars, Nat.mul_comm]
  rfl

theorem word?_eq_some (hcs : (Text.dropHead? ['+'] cs).getD cs = digits) :
    word? cs = some n ↔ Digits digits ∧ Nat.ofDigitChars 10 digits 0 = n ∧ n < UInt64.size := by
  simp only [word?, hcs, foldl_digits]
  by_cases hdigits : Digits digits
  · have hall : digits.all Char.isDigit = true := List.all_eq_true.2 hdigits.isDigit
    have hne : digits.isEmpty = false := List.isEmpty_eq_false_iff.2 hdigits.ne_nil
    simp only [hall, hne, Bool.not_true, Bool.or_false, Bool.false_eq_true, ↓reduceIte,
      Option.ite_none_right_eq_some, Option.some.injEq, hdigits, true_and]
    grind
  · have hbad : (digits.isEmpty || !digits.all Char.isDigit) = true := by
      by_contra hgood
      simp only [Bool.or_eq_true, Bool.not_eq_true', not_or, Bool.not_eq_true, Bool.not_eq_false,
        List.isEmpty_eq_false_iff, List.all_eq_true] at hgood
      exact hdigits ⟨hgood.1, hgood.2⟩
    simp [hbad, hdigits]

theorem word?_eq_some_iff : word? cs = some n ↔ Numeral cs n ∧ n < UInt64.size := by
  constructor
  · intro h
    cases hplus : Text.dropHead? ['+'] cs with
    | none =>
      obtain ⟨hdigits, rfl, hlt⟩ := (word?_eq_some (by rw [hplus, Option.getD_none])).1 h
      exact ⟨.plain hdigits, hlt⟩
    | some rest =>
      obtain ⟨hdigits, rfl, hlt⟩ := (word?_eq_some (by rw [hplus, Option.getD_some])).1 h
      rw [Text.dropHead?_eq_some.1 hplus]
      exact ⟨.signed hdigits, hlt⟩
  · rintro ⟨h, hlt⟩
    cases h with
    | plain h =>
      refine (word?_eq_some ?_).2 ⟨h, rfl, hlt⟩
      cases hplus : Text.dropHead? ['+'] cs with
      | none => rfl
      | some rest =>
        have hdigit := h.isDigit '+' (by simp [Text.dropHead?_eq_some.1 hplus])
        exact absurd hdigit (by decide)
    | signed h => exact (word?_eq_some (by simp [Text.dropHead?])).2 ⟨h, rfl, hlt⟩

def NamesForm (keyword : List Char) (index : Nat) : Prop :=
  ∃ digits, keyword = "msgstr[".toList ++ digits ++ [']'] ∧ Numeral digits index

theorem formIndex?_eq_some_iff {keyword : List Char} {index : Nat} :
    formIndex? keyword = some index ↔ NamesForm keyword index ∧ index < UInt64.size := by
  simp only [formIndex?, Option.bind_eq_bind, Option.bind_eq_some_iff, Text.dropHead?_eq_some,
    Text.dropTail?_eq_some, word?_eq_some_iff, NamesForm]
  constructor
  · rintro ⟨_, rfl, digits, rfl, hnumeral, hlt⟩
    exact ⟨⟨digits, by simp, hnumeral⟩, hlt⟩
  · rintro ⟨⟨digits, rfl, hnumeral⟩, hlt⟩
    exact ⟨_, List.append_assoc .., digits, rfl, hnumeral, hlt⟩

/-! ## Fields -/

variable {keyword : List Char} {index : Nat}

theorem NamesForm.ne (h : NamesForm keyword index) :
    keyword ≠ "msgctxt".toList ∧ keyword ≠ "msgid".toList ∧ keyword ≠ "msgid_plural".toList ∧
      keyword ≠ "msgstr".toList := by
  obtain ⟨digits, rfl, -⟩ := h
  simp

theorem readField_form (h : formIndex? keyword = some index) (text : String) : readField r keyword text =
    if r.entry.forms.length ≤ index ∧ maxForms ≤ index then .error .tooManyForms
    else .ok { r with
      entry := { r.entry with forms := setForm r.entry.forms index text }, field := .form index } := by
  obtain ⟨hcontext, hid, hplural, hsingle⟩ := (formIndex?_eq_some_iff.1 h).1.ne
  simp only [readField, hcontext, hid, hplural, hsingle, h, ↓reduceIte]

theorem length_setForm (forms : List String) (index : Nat) (text : String) :
    (setForm forms index text).length = max forms.length (index + 1) := by
  simp only [setForm, List.length_set, List.length_append, List.length_replicate]
  omega

theorem modify_setForm (forms : List String) (index : Nat) (text more : String) :
    (setForm forms index text).modify index (· ++ more) = setForm forms index (text ++ more) := by
  refine List.ext_getElem? fun k => ?_
  by_cases hk : index = k
  · subst hk
    simp [setForm, List.getElem?_set]
  · simp [setForm, hk]

theorem setForm_length (forms : List String) (text : String) :
    setForm forms forms.length text = forms ++ [text] := by
  simp [setForm]

theorem readField_append (r : Reading) (keyword : List Char) (text more : String) :
    readField r keyword (text ++ more) = (readField r keyword text).map (continueWith · more) := by
  cases hform : formIndex? keyword with
  | some index =>
    rw [readField_form hform, readField_form hform]
    split
    · rfl
    · simp only [Except.map, continueWith, modify_setForm]
  | none =>
    simp only [readField, hform]
    split
    · rfl
    split
    · rfl
    split
    · rfl
    split <;> rfl

end Catalog

end ClassForge
