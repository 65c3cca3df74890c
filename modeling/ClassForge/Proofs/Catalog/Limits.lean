import ClassForge.Proofs.Catalog.Lines

/-!
# How many forms a catalog can have

A form may be named by any number of 64 bits, and the forms before it are filled in. So a catalog can be
read exactly if no line names a form beyond those that fit in memory, and up to a line that does every
form that is looked at is there.
-/

namespace ClassForge.Catalog

open Text (trim firstWord)

variable {r : Reading} {line keyword : List Char}

/-! ## Forms that are there -/

/-- The forms fit in memory, and the form that a line would continue is there. -/
structure Bounded (r : Reading) : Prop where
  forms_le : r.entry.forms.length ≤ maxForms
  form_lt : ∀ i, r.field = .form i → i < r.entry.forms.length

theorem bounded_continueWith (h : Bounded r) (text : String) : Bounded (continueWith r text) := by
  obtain ⟨hle, hlt⟩ := h
  rw [continueWith]
  split <;> constructor <;> simp_all

theorem forms_begun_le (h : r.entry.forms.length ≤ maxForms) (keyword : List Char) :
    (begun r keyword).entry.forms.length ≤ maxForms := by
  rw [begun]
  split
  · exact Nat.zero_le _
  · exact h

theorem readField_other (hle : r.entry.forms.length ≤ maxForms) (h : formIndex? keyword = none)
    (text : String) : ∃ r', readField r keyword text = .ok r' ∧ Bounded r' := by
  have hone : 1 ≤ maxForms := by decide
  simp only [readField, h]
  split
  · exact ⟨_, rfl, hle, by simp⟩
  split
  · exact ⟨_, rfl, hle, by simp⟩
  split
  · exact ⟨_, rfl, hle, by simp⟩
  split
  · exact ⟨_, rfl, hone, by simp⟩
  · exact ⟨_, rfl, hle, by simp⟩

theorem readField_of_lt (hle : r.entry.forms.length ≤ maxForms)
    (h : ∀ index, formIndex? keyword = some index → index < maxForms) (text : String) :
    ∃ r', readField r keyword text = .ok r' ∧ Bounded r' := by
  cases hform : formIndex? keyword with
  | none => exact readField_other hle hform text
  | some index =>
    have hlt : index < maxForms := h index hform
    rw [readField_form hform, if_neg (by omega)]
    refine ⟨_, rfl, ?_, ?_⟩
    · rw [length_setForm]
      omega
    · rintro _ ⟨⟩
      rw [length_setForm]
      omega

/-! ## Lines that can be read -/

/-- Whether no form that a line names is beyond those that fit in memory. A number of more than 64 bits
names none. -/
def Fits (line : List Char) : Prop :=
  ∀ index, NamesForm (firstWord line) index → index < maxForms ∨ UInt64.size ≤ index

theorem fits_iff :
    Fits line ↔ ∀ index, formIndex? (firstWord line) = some index → index < maxForms := by
  refine forall_congr' fun index => ?_
  rw [formIndex?_eq_some_iff, and_imp]
  refine forall_congr' fun _ => ?_
  omega

theorem readLine_of_fits (h : Bounded r) (hfits : Fits line) :
    ∃ r', readLine r line = .ok r' ∧ Bounded r' := by
  cases hline : trim line with
  | nil => exact ⟨r, readLine_blank hline, h⟩
  | cons c rest =>
    by_cases hcomment : c = '#'
    · subst hcomment
      exact ⟨r, readLine_comment hline, h⟩
    by_cases hquote : c = '"'
    · subst hquote
      exact ⟨_, readLine_quote hline, bounded_continueWith h _⟩
    · rw [readLine_keyword hline hcomment hquote]
      exact readField_of_lt (forms_begun_le h.forms_le _) (fits_iff.1 hfits) _

theorem readLine_of_not_fits (h : Bounded r) (hfits : ¬ Fits line) :
    readLine r line = .error .tooManyForms := by
  obtain ⟨index, hform, hge⟩ : ∃ index, formIndex? (firstWord line) = some index ∧ maxForms ≤ index := by
    simpa [fits_iff] using hfits
  -- A line that names a form starts with its keyword, so it is neither a comment nor a quoted text.
  obtain ⟨rest, hline⟩ : ∃ rest, trim line = 'm' :: rest := by
    obtain ⟨⟨digits, hdigits, -⟩, -⟩ := formIndex?_eq_some_iff.1 hform
    cases hline : trim line with
    | nil =>
      rw [← Text.takeWhile_trim, hline] at hdigits
      simp at hdigits
    | cons c rest =>
      rw [Text.firstWord_of_trim hline] at hdigits
      simp only [String.reduceToList, List.cons_append, List.cons.injEq] at hdigits
      exact ⟨rest, by rw [hdigits.1]⟩
  have hle := forms_begun_le h.forms_le (firstWord line)
  rw [readLine_keyword hline (by decide) (by decide), readField_form hform,
    if_pos ⟨hle.trans hge, hge⟩]

/-! ## Texts that can be read -/

theorem bounded_empty : Bounded {} := ⟨Nat.zero_le _, by simp⟩

theorem readLines_of_fits {lines : List (List Char)} (h : Bounded r)
    (hfits : ∀ line ∈ lines, Fits line) : ∃ r', readLines r lines = .ok r' ∧ Bounded r' := by
  induction lines generalizing r with
  | nil => exact ⟨r, rfl, h⟩
  | cons line lines ih =>
    obtain ⟨hline, hlines⟩ := List.forall_mem_cons.1 hfits
    obtain ⟨r₁, hr₁, h₁⟩ := readLine_of_fits h hline
    obtain ⟨r₂, hr₂, h₂⟩ := ih h₁ hlines
    exact ⟨r₂, by rw [readLines, hr₁]; exact hr₂, h₂⟩

theorem readLines_of_not_fits {lines : List (List Char)} (h : Bounded r)
    (hfits : ¬ ∀ line ∈ lines, Fits line) : readLines r lines = .error .tooManyForms := by
  induction lines generalizing r with
  | nil => simp at hfits
  | cons line lines ih =>
    by_cases hline : Fits line
    · obtain ⟨r₁, hr₁, h₁⟩ := readLine_of_fits h hline
      rw [readLines, hr₁]
      exact ih h₁ fun hlines => hfits (List.forall_mem_cons.2 ⟨hline, hlines⟩)
    · rw [readLines, readLine_of_not_fits h hline]
      rfl

theorem parse_ok_iff_fits (locale text : String) :
    ((∃ c, parse locale text = .ok c) ↔ ∀ line ∈ Text.lines text.toList, Fits line) ∧
      ∀ lines, (∀ line ∈ lines, Fits line) → ∃ r, readLines {} lines = .ok r ∧ Bounded r := by
  refine ⟨⟨?_, ?_⟩, fun lines => readLines_of_fits bounded_empty⟩
  · rintro ⟨c, hc⟩
    by_contra hfits
    rw [parse, readLines_of_not_fits bounded_empty hfits] at hc
    cases hc
  · intro hfits
    obtain ⟨r, hr, -⟩ := readLines_of_fits bounded_empty hfits
    rw [parse, hr]
    exact ⟨_, rfl⟩

theorem parse_overflow : ¬ ∃ c, parse "de" "msgstr[18446744073709551615] \"x\"" = .ok c := by
  have hfails : (parse "de" "msgstr[18446744073709551615] \"x\"").isOk = false := by decide +kernel
  rintro ⟨c, hc⟩
  rw [hc] at hfails
  cases hfails

end ClassForge.Catalog
