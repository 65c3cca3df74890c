import Mathlib.Data.List.Basic

/-!
# Schedules

Parties that work at the same time take turns in any order. A schedule is the list of their turns, and
what comes of it is the fold of the turns over the state at the beginning.
-/

namespace ClassForge

variable {S A : Type} {act : S → A → S} {s : S} {a : A} {schedule : List A} {Q : S → A → Prop}

/-- Some turn of the schedule was as `Q` says, in the state in which it was taken. -/
def Happened (act : S → A → S) (s : S) (schedule : List A) (Q : S → A → Prop) : Prop :=
  ∃ (before : List A) (a : A) (after : List A), schedule = before ++ a :: after ∧
    Q (before.foldl act s) a

theorem Happened.head (h : Q s a) : Happened act s (a :: schedule) Q := ⟨[], a, schedule, rfl, h⟩

theorem Happened.tail (h : Happened act (act s a) schedule Q) : Happened act s (a :: schedule) Q := by
  obtain ⟨before, b, after, rfl, hq⟩ := h
  exact ⟨a :: before, b, after, rfl, hq⟩

theorem Happened.append (h : Happened act s schedule Q) (later : List A) :
    Happened act s (schedule ++ later) Q := by
  obtain ⟨before, b, after, rfl, hq⟩ := h
  exact ⟨before, b, after ++ later, List.append_assoc .., hq⟩

theorem Happened.last (h : Q (schedule.foldl act s) a) : Happened act s (schedule ++ [a]) Q :=
  ⟨schedule, a, [], rfl, h⟩

theorem happened_nil : ¬ Happened act s [] Q := by
  rintro ⟨before, b, after, hnil, -⟩
  cases before <;> cases hnil

theorem happened_cons :
    Happened act s (a :: schedule) Q ↔ Q s a ∨ Happened act (act s a) schedule Q := by
  constructor
  · rintro ⟨before, b, after, hcons, hq⟩
    cases before with
    | nil =>
      cases hcons
      exact .inl hq
    | cons _ before =>
      cases hcons
      exact .inr ⟨before, b, after, rfl, hq⟩
  · rintro (hq | h)
    · exact .head hq
    · exact .tail h

theorem happened_or {P : S → Prop} (step : ∀ s a, P s → Q s a ∨ P (act s a)) (h : P s)
    (schedule : List A) : Happened act s schedule Q ∨ P (schedule.foldl act s) := by
  induction schedule generalizing s with
  | nil => exact .inr h
  | cons a schedule ih =>
    rcases step s a h with hq | hp
    · exact .inl (.head hq)
    · exact (ih hp).imp .tail id

end ClassForge
