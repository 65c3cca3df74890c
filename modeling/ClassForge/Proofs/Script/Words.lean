import Mathlib
import ClassForge.Script.Cursor

/-!
# Words have no points

The text of a word has no point in it, since a point is no part of an identifier. Every token that is
read has this property, so a reader meets no other one. What readers give is stated with triples: from a
place with such a token a reader gives only what has a property, and then stands at such a token again.
-/

open Std.Do

set_option mvcgen.warning false

namespace ClassForge.Script

/-! ## Tokens -/

/-- A word is written without a point. -/
def Token.Undotted : Token → Prop
  | .word text _ => '.' ∉ text.toList
  | _ => True

namespace Token

variable {fuel pos stop : Nat} {cs rest : List Char} {t : Token}

theorem not_isIdStart_point : Text.isIdStart '.' = false := by decide +kernel

theorem not_isIdPart_point : Text.isIdPart '.' = false := by decide +kernel

theorem undotted_stringBody {quote : Char} {done : List Unit16}
    (h : stringBody quote fuel pos done cs = some (t, stop, rest)) : t.Undotted := by
  fun_induction stringBody quote fuel pos done cs <;> grind [Undotted]

theorem undotted_templateBody {valid : Bool}
    (h : templateBody fuel pos valid cs = some (t, stop, rest)) : t.Undotted := by
  fun_induction templateBody fuel pos valid cs <;> grind [Undotted]

theorem wordBody_undotted {done : List Char} {escaped escaped' : Bool} {text : String}
    (h : wordBody fuel pos done escaped cs = some (text, escaped', stop, rest))
    (hdone : '.' ∉ done) : '.' ∉ text.toList := by
  fun_induction wordBody fuel pos done escaped cs <;>
    grind -ring -linarith [not_isIdStart_point, not_isIdPart_point, String.toList_ofList]

theorem undotted_radixNumber {base n : Nat} (h : radixNumber fuel base cs = some (t, n, rest)) :
    t.Undotted := by
  simp only [radixNumber, Option.bind_eq_bind, Option.bind_eq_some_iff] at h
  grind -ring -linarith [Undotted]

theorem undotted_readNumber {n : Nat} (h : readNumber fuel cs = some (t, n, rest)) :
    t.Undotted := by
  simp only [readNumber, legacyNumber, Option.bind_eq_bind] at h
  grind -ring -linarith [Undotted, undotted_radixNumber, Option.bind_eq_some_iff, Option.map_eq_some_iff]

theorem undotted_checkedNumber (h : checkedNumber fuel pos cs = some (t, stop, rest)) :
    t.Undotted := by
  simp only [checkedNumber, Option.bind_eq_bind, Option.bind_eq_some_iff] at h
  obtain ⟨⟨number, n, behind⟩, hnumber, h⟩ := h
  have hundotted : number.Undotted := undotted_readNumber hnumber
  split at h
  · split_ifs at h
    cases h
    exact hundotted
  · cases h
    exact hundotted

theorem undotted_regexRest (h : regexRest fuel pos cs = some (t, stop, rest)) : t.Undotted := by
  simp only [regexRest, Option.bind_eq_bind, Option.bind_eq_some_iff] at h
  grind [Undotted]

theorem undotted_readMark (h : readMark pos cs = some (t, stop, rest)) : t.Undotted := by
  obtain ⟨m, -, hm⟩ := List.exists_of_findSome?_eq_some h
  grind [Undotted]

theorem undotted_read (h : Token.read fuel pos cs = some (t, stop, rest)) : t.Undotted := by
  unfold Token.read at h
  split at h
  · cases h
    trivial
  split_ifs at h
  · exact undotted_stringBody h
  · exact undotted_templateBody h
  · exact undotted_checkedNumber h
  · split at h
    · split_ifs at h
      cases h
      trivial
    · cases h
  · split at h
    · next text _ _ _ hword =>
      split_ifs at h
      cases h
      exact wordBody_undotted hword List.not_mem_nil
    · cases h
  · exact undotted_readMark h

end Token

/-! ## Places -/

namespace Cursor

theorem undotted_after {size before : Nat} {p : Passed} {c : Cursor}
    (h : Cursor.after size before p = some c) : c.token.Undotted := by
  simp only [Cursor.after, Option.bind_eq_bind, Option.bind_eq_some_iff] at h
  obtain ⟨_, _, _, hread, h⟩ := h
  cases h
  exact Token.undotted_read hread

theorem undotted_next {c d : Cursor} (h : c.next = some d) : d.token.Undotted :=
  undotted_after h

theorem undotted_start {source : List Char} {c : Cursor} (h : Cursor.start source = some c) :
    c.token.Undotted := by
  unfold Cursor.start at h
  split at h
  · exact undotted_after h
  · exact undotted_after h

end Cursor

/-! ## Readers -/

namespace Reader

variable {α : Type} {P : α → Prop}

abbrev Gives (r : Reader α) (P : α → Prop) : Prop :=
  ⦃fun c => ⌜c.token.Undotted⌝⦄ r ⦃⇓? a c => ⌜P a ∧ c.token.Undotted⌝⦄

theorem gives_iff {r : Reader α} :
    r.Gives P ↔ ∀ c a d, c.token.Undotted → r c = some (a, d) → P a ∧ d.token.Undotted := by
  constructor
  · intro h c a d hc hr
    have hd : (wp⟦r.run c⟧ (fun x => ⌜P x.1 ∧ x.2.token.Undotted⌝, ExceptConds.true)).down := h c hc
    rw [show r.run c = some (a, d) from hr] at hd
    exact hd
  · intro h c hc
    change (wp⟦r.run c⟧ (fun x => ⌜P x.1 ∧ x.2.token.Undotted⌝, ExceptConds.true)).down
    rcases hr : r.run c with _ | ⟨a, d⟩
    · trivial
    · exact h c a d hc hr

@[spec]
theorem failure_gives : (failure : Reader α).Gives fun _ => False :=
  gives_iff.2 fun _ _ _ _ h => by cases h

@[spec]
theorem advance_gives : advance.Gives fun _ => True := by
  refine gives_iff.2 fun c _ d _ h => ⟨trivial, ?_⟩
  obtain ⟨e, he, h⟩ := Option.map_eq_some_iff.1 h
  cases h
  exact Cursor.undotted_next he

@[spec]
theorem peek_gives : peek.Gives fun d => d.token.Undotted := by
  refine gives_iff.2 fun c _ d hc h => ?_
  obtain ⟨e, he, h⟩ := Option.map_eq_some_iff.1 h
  cases h
  exact ⟨Cursor.undotted_next he, hc⟩

@[spec]
theorem require_gives (condition : Bool) : (require condition).Gives fun _ => condition = true := by
  refine gives_iff.2 fun c _ d hc h => ?_
  unfold require at h
  grind

@[spec]
theorem atMark_gives (text : String) : (atMark text).Gives fun _ => True := by mvcgen [atMark]

@[spec]
theorem atWord_gives (text : String) : (atWord text).Gives fun _ => True := by mvcgen [atWord]

@[spec]
theorem eatMark_gives (text : String) : (eatMark text).Gives fun _ => True := by
  mvcgen [eatMark] with grind

@[spec]
theorem eatWord_gives (text : String) : (eatWord text).Gives fun _ => True := by
  mvcgen [eatWord] with grind

@[spec]
theorem expectMark_gives (text : String) : (expectMark text).Gives fun _ => True := by
  mvcgen [expectMark] with grind

@[spec]
theorem expectWord_gives (text : String) : (expectWord text).Gives fun _ => True := by
  mvcgen [expectWord] with grind

@[spec]
theorem startPos_gives : startPos.Gives fun _ => True := by mvcgen [startPos]

@[spec]
theorem spanFrom_gives (start : Nat) : (spanFrom start).Gives fun _ => True := by mvcgen [spanFrom]

@[spec]
theorem endStatement_gives : endStatement.Gives fun _ => True := by
  mvcgen [endStatement] with grind

@[spec]
theorem discard_gives {r : Reader α} (h : r.Gives fun _ => True) :
    (discard r).Gives fun _ => True := by
  rw [discard, LawfulFunctor.map_const]
  mvcgen [Function.comp, h]

theorem collect_go_gives {one : Reader (Option α)} (h : one.Gives fun o => ∀ a ∈ o, P a)
    (fuel : Nat) {done : List α} (hdone : ∀ a ∈ done, P a) :
    (collect.go one fuel done).Gives fun l => ∀ a ∈ l, P a := by
  induction fuel generalizing done with
  | zero =>
    mvcgen [collect.go]
    simp_all
  | succ fuel ih =>
    mvcgen [collect.go, h, ih]
    all_goals simp_all

theorem collect_gives {one : Reader (Option α)} (h : one.Gives fun o => ∀ a ∈ o, P a) :
    (collect one).Gives fun l => ∀ a ∈ l, P a := by
  have hgo := collect_go_gives h
  mvcgen [collect, hgo]
  simp

end Reader

end ClassForge.Script
