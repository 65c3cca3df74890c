import ClassForge.Proofs.Catalog.Lines

/-!
# The two orders of a documented parameter

The type of a parameter stands before its name or after it. Both ways of writing a parameter lead to
the same documentation, wherever the line stands in the comment and whatever follows it.
-/

namespace ClassForge

namespace Text

variable {c : Char} {a b head tail : List Char}

/-! ## Dropping what a text begins and ends with -/

theorem dropHead?_append (hc : c ∉ head) (a b : List Char) :
    dropHead? head (a ++ c :: b) = (dropHead? head a).map (· ++ c :: b) := by
  induction head generalizing a with
  | nil => rfl
  | cons d head ih =>
    obtain ⟨hd, hc⟩ : c ≠ d ∧ c ∉ head := by simpa using hc
    cases a with
    | nil => simp [dropHead?, Ne.symm hd]
    | cons e a =>
      by_cases he : d = e
      · simpa [dropHead?, he] using ih hc a
      · simp [dropHead?, he]

theorem dropHeads_go_append (hc : c ∉ head) (hne : head ≠ []) {n m : Nat} (hn : a.length ≤ n)
    (hm : a.length ≤ m) : dropHeads.go head n (a ++ c :: b) = dropHeads.go head m a ++ c :: b := by
  induction n generalizing a m with
  | zero =>
    obtain rfl := List.length_eq_zero_iff.1 (Nat.le_zero.1 hn)
    have hnil : dropHead? head [] = none := by cases head <;> simp_all [dropHead?]
    cases m <;> simp [dropHeads.go, hnil]
  | succ n ih =>
    rw [dropHeads.go, dropHead?_append hc]
    cases hdrop : dropHead? head a with
    | none => cases m <;> simp [dropHeads.go, hdrop]
    | some rest =>
      obtain rfl := dropHead?_eq_some.1 hdrop
      have hpos := List.length_pos_iff.2 hne
      rw [List.length_append] at hn hm
      obtain ⟨m, rfl⟩ : ∃ k, m = k + 1 := ⟨m - 1, by omega⟩
      rw [dropHeads.go, hdrop]
      exact ih (by omega) (by omega)

theorem dropHeads_append (hc : c ∉ head) (hne : head ≠ []) (a b : List Char) :
    dropHeads head (a ++ c :: b) = dropHeads head a ++ c :: b :=
  dropHeads_go_append hc hne (by simp) (Nat.le_refl _)

theorem dropTails_append (hc : c ∉ tail) (hne : tail ≠ []) (a b : List Char) :
    dropTails tail (a ++ c :: b) = a ++ c :: dropTails tail b := by
  have hc' : c ∉ tail.reverse := by simpa using hc
  have h := dropHeads_append hc' (by simpa using hne) b.reverse a.reverse
  rw [dropTails, List.reverse_append, List.reverse_cons, List.append_assoc, List.singleton_append, h,
    dropTails]
  simp

theorem mem_of_mem_dropTails (h : c ∈ dropTails tail a) : c ∈ a := by
  have hgo (n : Nat) (cs : List Char) : dropHeads.go tail.reverse n cs ⊆ cs := by
    induction n generalizing cs with
    | zero => exact List.Subset.refl cs
    | succ n ih =>
      rw [dropHeads.go]
      split
      next rest hrest =>
        rw [dropHead?_eq_some.1 hrest]
        exact List.Subset.trans (ih rest) (List.subset_append_right ..)
      next => exact List.Subset.refl cs
  exact List.mem_reverse.1 (hgo _ _ (List.mem_reverse.1 h))

theorem lines_append (a b : List Char) : lines (a ++ '\n' :: b) = lines (a ++ ['\n']) ++ lines b := by
  induction hn : a.length using Nat.strong_induction_on generalizing a with
  | h n ih =>
    by_cases hmem : '\n' ∈ a
    · obtain ⟨line, rest, rfl, hline⟩ := List.eq_append_cons_of_mem hmem
      have hlt : rest.length < n := by rw [← hn, List.length_append, List.length_cons]; omega
      rw [List.append_assoc, List.cons_append, lines_newline hline, ih _ hlt rest rfl, List.append_assoc,
        List.cons_append, lines_newline hline, List.cons_append]
    · rw [lines_newline hmem, lines_newline hmem]
      rfl

end Text

namespace DocComment

open Text (isBlank trim trimEnd trimStart Blank)

/-! ## Types in braces -/

/-- A text in which every brace that is opened is closed, and no other. -/
inductive Balanced : List Char → Prop where
  | nil : Balanced []
  | char {c : Char} {rest : List Char} : c ≠ '\x7b' → c ≠ '\x7d' → Balanced rest → Balanced (c :: rest)
  | braces {inner rest : List Char} :
    Balanced inner → Balanced rest → Balanced ('\x7b' :: (inner ++ '\x7d' :: rest))

theorem untilClosed_char {c : Char} (hopen : c ≠ '\x7b') (hclose : c ≠ '\x7d') (depth : Nat)
    (rest : List Char) :
    untilClosed depth (c :: rest) = (untilClosed depth rest).map fun x => (c :: x.1, x.2) := by
  rw [untilClosed.eq_def]
  simp [hopen, hclose]

theorem untilClosed_open (depth : Nat) (rest : List Char) : untilClosed depth ('\x7b' :: rest) =
    (untilClosed (depth + 1) rest).map fun x => ('\x7b' :: x.1, x.2) := by
  rw [untilClosed.eq_def]
  simp

theorem Balanced.untilClosed_append {t : List Char} (h : Balanced t) (depth : Nat) (rest : List Char) :
    untilClosed depth (t ++ rest) = (untilClosed depth rest).map fun x => (t ++ x.1, x.2) := by
  induction h generalizing depth rest with
  | nil => simp
  | char hopen hclose _ ih =>
    rw [List.cons_append, untilClosed_char hopen hclose, ih]
    simp [Function.comp_def]
  | braces _ _ hinner hrest =>
    rw [List.cons_append, List.append_assoc, untilClosed_open, hinner, List.cons_append]
    simp [untilClosed, hrest, Function.comp_def]

theorem takeType_braces {t front : List Char} (ht : Balanced t) (hfront : Blank front) (rest : List Char) :
    takeType (front ++ '\x7b' :: (t ++ '\x7d' :: rest)) = (some (trim t), rest) := by
  have hstart : trimStart (front ++ '\x7b' :: (t ++ '\x7d' :: rest)) = '\x7b' :: (t ++ '\x7d' :: rest) := by
    rw [trimStart, List.dropWhile_append_of_pos hfront, List.dropWhile_cons_of_neg (by decide)]
  have hclosed : untilClosed 0 (t ++ '\x7d' :: rest) = some (t, rest) := by
    rw [ht.untilClosed_append]
    simp [untilClosed]
  simp only [takeType, hstart, hclosed, if_true]

/-! ## Parameters -/

/-- A parameter as it is written: its type, its name and its description. -/
structure ParamText where
  type : List Char
  name : List Char
  description : List Char
  balanced : Balanced type
  name_ne_nil : name ≠ []
  name_plain : ∀ c ∈ name, isBlank c = false ∧ c ≠ '\x7b'
  type_line : '\n' ∉ type
  description_line : '\n' ∉ description

namespace ParamText

variable (x : ParamText)

/-- The type and the name in one of their two orders, before further text. -/
def written (typeFirst : Bool) (rest : List Char) : List Char :=
  if typeFirst then ' ' :: '\x7b' :: (x.type ++ '\x7d' :: ' ' :: (x.name ++ rest))
  else ' ' :: (x.name ++ ' ' :: '\x7b' :: (x.type ++ '\x7d' :: rest))

def line (typeFirst : Bool) : List Char :=
  "@param".toList ++ x.written typeFirst (' ' :: x.description)

theorem written_append (typeFirst : Bool) (rest : List Char) :
    x.written typeFirst rest = x.written typeFirst [] ++ rest := by
  cases typeFirst <;> simp [written]

theorem newline_not_mem_written (typeFirst : Bool) : '\n' ∉ x.written typeFirst [] := by
  have hname : '\n' ∉ x.name := fun h => by cases (x.name_plain _ h).1
  cases typeFirst <;> simp [written, hname, x.type_line]

theorem exists_name_head : ∃ first back, x.name = first :: back ∧ isBlank first = false ∧
    first ≠ '\x7b' := by
  obtain ⟨first, back, h⟩ := List.exists_cons_of_ne_nil x.name_ne_nil
  exact ⟨first, back, h, x.name_plain first (by simp [h])⟩

theorem trimStart_name (rest : List Char) : trimStart (x.name ++ rest) = x.name ++ rest := by
  obtain ⟨first, back, hname, hfirst, -⟩ := x.exists_name_head
  rw [hname, List.cons_append, trimStart, List.dropWhile_cons_of_neg (by simp [hfirst])]

/-- In both orders the parameter begins after one space and ends with no blank. -/
theorem exists_front (typeFirst : Bool) : ∃ front last, isBlank last = false ∧
    ∀ rest, x.written typeFirst rest = ' ' :: (front ++ last :: rest) ∧
      trimStart (front ++ last :: rest) = front ++ last :: rest := by
  cases typeFirst
  · refine ⟨x.name ++ ' ' :: '\x7b' :: x.type, '\x7d', by decide, fun rest => ⟨by simp [written], ?_⟩⟩
    rw [List.append_assoc, x.trimStart_name]
  · obtain ⟨front, last, hname⟩ := List.eq_nil_or_concat' x.name |>.resolve_left x.name_ne_nil
    refine ⟨'\x7b' :: (x.type ++ '\x7d' :: ' ' :: front), last, ?_, fun rest => ⟨by simp [written, hname], rfl⟩⟩
    exact (x.name_plain last (by simp [hname])).1

theorem trimEnd_written (word : List Char) (typeFirst : Bool) (rest : List Char) :
    trimEnd (word ++ x.written typeFirst rest) = word ++ x.written typeFirst (trimEnd rest) := by
  obtain ⟨front, last, hlast, h⟩ := x.exists_front typeFirst
  rw [(h rest).1, (h _).1]
  simpa using Text.trimEnd_append hlast (word ++ ' ' :: front) rest

theorem trim_written (typeFirst : Bool) (rest : List Char) :
    trim (x.written typeFirst rest) = trimStart (x.written typeFirst (trimEnd rest)) := by
  obtain ⟨front, last, hlast, h⟩ := x.exists_front typeFirst
  have hspace (cs : List Char) : trimStart (' ' :: cs) = trimStart cs := rfl
  rw [trim, (h rest).1, (h _).1, hspace, hspace, (h rest).2, (h _).2, Text.trimEnd_append hlast]

/-- What can follow a name: nothing, or a blank. -/
def Follows (rest : List Char) : Prop := ∀ c ∈ rest.head?, isBlank c = true

theorem span_name {rest : List Char} (h : Follows rest) :
    (x.name ++ rest).takeWhile (!endsName ·) = x.name ∧
      (x.name ++ rest).dropWhile (!endsName ·) = rest := by
  have hname : ∀ c ∈ x.name, (!endsName c) = true := by
    intro c hc
    simp [endsName, x.name_plain c hc]
  have hrest : rest.takeWhile (!endsName ·) = [] ∧ rest.dropWhile (!endsName ·) = rest := by
    cases rest with
    | nil => exact ⟨rfl, rfl⟩
    | cons c rest =>
      have hc : (!endsName c) = false := by simp [endsName, h c rfl]
      simp [hc]
  rw [List.takeWhile_append_of_pos hname, List.dropWhile_append_of_pos hname, hrest.1, hrest.2,
    List.append_nil]
  exact ⟨rfl, rfl⟩

theorem paramParts_written (typeFirst : Bool) {rest : List Char} (h : Follows rest) :
    paramParts (trimStart (x.written typeFirst rest)) = (x.name, some (trim x.type), rest) := by
  have hblank : Blank [' '] := by simp [Blank, isBlank]
  cases typeFirst
  · have hstart : trimStart (x.written false rest) =
        x.name ++ ' ' :: '\x7b' :: (x.type ++ '\x7d' :: rest) := x.trimStart_name _
    have hnone : takeType (x.name ++ ' ' :: '\x7b' :: (x.type ++ '\x7d' :: rest)) =
        (none, x.name ++ ' ' :: '\x7b' :: (x.type ++ '\x7d' :: rest)) := by
      rw [takeType, x.trimStart_name]
      obtain ⟨first, back, hname, -, hopen⟩ := x.exists_name_head
      simp [hname, hopen]
    have hspace : Follows (' ' :: '\x7b' :: (x.type ++ '\x7d' :: rest)) := by simp [Follows, isBlank]
    obtain ⟨htake, hdrop⟩ := x.span_name hspace
    have hafter : takeType (' ' :: '\x7b' :: (x.type ++ '\x7d' :: rest)) = (some (trim x.type), rest) :=
      takeType_braces x.balanced hblank rest
    simp only [hstart, paramParts, hnone, x.trimStart_name, htake, hdrop, hafter]
  · have hstart : trimStart (x.written true rest) =
        '\x7b' :: (x.type ++ '\x7d' :: ' ' :: (x.name ++ rest)) := rfl
    have hbefore : takeType ('\x7b' :: (x.type ++ '\x7d' :: ' ' :: (x.name ++ rest))) =
        (some (trim x.type), ' ' :: (x.name ++ rest)) :=
      takeType_braces x.balanced (show Blank [] by simp [Blank]) _
    have hname : trimStart (' ' :: (x.name ++ rest)) = x.name ++ rest := x.trimStart_name rest
    obtain ⟨htake, hdrop⟩ := x.span_name h
    simp only [hstart, paramParts, hbefore, hname, htake, hdrop]

/-- The parameter that is meant, if `rest` follows in the comment. -/
def param (rest : List Char) : DocParam := paramOf x.name (some (trim x.type)) rest

theorem Follows.trimEnd {rest : List Char} (h : Follows rest) : Follows (trimEnd rest) := by
  have hpre : Text.trimEnd rest <+: rest := by
    rw [Text.trimEnd, Text.dropEndWhile_eq]
    exact List.rdropWhile_prefix _ rest
  intro c hc
  obtain ⟨back, hback⟩ := List.head?_eq_some_iff.1 hc
  rw [hback] at hpre
  obtain ⟨more, rfl⟩ := hpre
  exact h c rfl

theorem Follows.append {rest : List Char} (h : Follows rest) (more : List Char) :
    Follows (rest ++ '\n' :: more) := by
  cases rest with
  | nil => simp [Follows, isBlank]
  | cons c rest => exact h

def addTo (doc : DocComment) (rest : List Char) : DocComment :=
  { doc with params := doc.params ++ [x.param rest] }

theorem addTag_written (doc : DocComment) (typeFirst : Bool) {rest : List Char} (h : Follows rest) :
    doc.addTag "param".toList (x.written typeFirst rest) = x.addTo doc (trimEnd rest) := by
  have hparam : param? (trim (x.written typeFirst rest)) = some (x.param (trimEnd rest)) := by
    obtain ⟨first, back, hname, -⟩ := x.exists_name_head
    rw [x.trim_written, param?, x.paramParts_written typeFirst h.trimEnd, hname]
    simp only [param, hname]
  simp only [addTag, if_true, hparam, addTo]

end ParamText

/-! ## Lines -/

variable {doc : DocComment} {description : List (List Char)} {current : Option (List Char × List Char)}

theorem params_addTag (doc : DocComment) (name value : List Char) :
    doc.params <+: (doc.addTag name value).params := by
  unfold addTag
  dsimp only
  split
  · split
    · exact List.prefix_append ..
    · exact List.prefix_rfl
  · split <;> exact List.prefix_rfl

/-- The documentation with the tag that has been read last. -/
def closed (doc : DocComment) : Option (List Char × List Char) → DocComment
  | some (name, value) => doc.addTag name value
  | none => doc

theorem params_closed (doc : DocComment) (current : Option (List Char × List Char)) :
    doc.params <+: (doc.closed current).params := by
  cases current with
  | none => exact List.prefix_rfl
  | some tag => exact params_addTag doc tag.1 tag.2

theorem readLines_tag {line : List Char} {tag : List Char × List Char}
    (h : tagLine? (lineText line) = some tag) (lines : List (List Char)) :
    readLines doc description current (line :: lines) =
      readLines (doc.closed current) description (some tag) lines := by
  cases current <;> simp only [readLines, h] <;> rfl

/-- The state in which a line that is no tag leaves the reader: it describes, or continues a tag. -/
def continued (description : List (List Char)) (line : List Char) :
    Option (List Char × List Char) → List (List Char) × Option (List Char × List Char)
  | some (name, value) => (description, some (name, value ++ '\n' :: trim (lineText line)))
  | none => (lineText line :: description, none)

theorem readLines_text {line : List Char} (h : tagLine? (lineText line) = none)
    (lines : List (List Char)) : readLines doc description current (line :: lines) =
      readLines doc (continued description line current).1 (continued description line current).2 lines := by
  cases current <;> simp only [readLines, h, continued]

theorem params_readLines (doc : DocComment) (description : List (List Char))
    (current : Option (List Char × List Char)) (lines : List (List Char)) :
    doc.params <+: (readLines doc description current lines).params := by
  induction lines generalizing doc description current with
  | nil =>
    have h := params_closed doc current
    cases current <;> exact h
  | cons line lines ih =>
    cases h : tagLine? (lineText line) with
    | some tag =>
      rw [readLines_tag h]
      exact (params_closed doc current).trans (ih ..)
    | none =>
      rw [readLines_text h]
      exact ih ..

/-- A tag ends what the lines before it say. -/
theorem readLines_append (doc : DocComment) (description : List (List Char))
    (current : Option (List Char × List Char)) (before : List (List Char)) :
    ∃ doc' description', doc'.params = (readLines doc description current before).params ∧
      ∀ line tag after, tagLine? (lineText line) = some tag →
        readLines doc description current (before ++ line :: after) =
          readLines doc' description' (some tag) after := by
  induction before generalizing doc description current with
  | nil =>
    refine ⟨doc.closed current, description, ?_, fun line tag after h => readLines_tag h after⟩
    cases current <;> rfl
  | cons first before ih =>
    cases h : tagLine? (lineText first) with
    | some tag =>
      simp only [List.cons_append, readLines_tag h]
      exact ih ..
    | none =>
      simp only [List.cons_append, readLines_text h]
      exact ih ..

theorem ParamText.readLines_written (x : ParamText) (doc : DocComment) (description : List (List Char))
    {rest : List Char} (h : Follows rest) (lines : List (List Char)) :
    ∃ result rest' later, result.params = doc.params ++ x.param rest' :: later ∧ ∀ typeFirst,
      readLines doc description (some ("param".toList, x.written typeFirst rest)) lines = result := by
  induction lines generalizing rest with
  | nil =>
    refine ⟨readLines (x.addTo doc (trimEnd rest)) description none [], _, [], rfl, fun typeFirst => ?_⟩
    rw [← x.addTag_written doc typeFirst h]
    rfl
  | cons line lines ih =>
    cases hline : tagLine? (lineText line) with
    | some tag =>
      obtain ⟨later, hlater⟩ := params_readLines (x.addTo doc (trimEnd rest)) description (some tag) lines
      refine ⟨readLines (x.addTo doc (trimEnd rest)) description (some tag) lines, trimEnd rest, later,
        by rw [← hlater, addTo]; simp, fun typeFirst => ?_⟩
      rw [readLines_tag hline, closed, x.addTag_written doc typeFirst h]
    | none =>
      obtain ⟨result, rest', later, hparams, hresult⟩ := ih (h.append (trim (lineText line)))
      refine ⟨result, rest', later, hparams, fun typeFirst => ?_⟩
      rw [readLines_text hline, ← hresult typeFirst]
      cases typeFirst <;> simp [continued, written]

/-! ## Comments -/

/-- What stands before a tag on its line: blanks, and maybe a star among them. -/
inductive Lead : List Char → Prop where
  | blank {front : List Char} : Blank front → Lead front
  | star {front back : List Char} : Blank front → Blank back → Lead (front ++ '*' :: back)

theorem trimStart_blank {front : List Char} (h : Blank front) (rest : List Char) :
    trimStart (front ++ '@' :: rest) = '@' :: rest := by
  rw [trimStart, List.dropWhile_append_of_pos h, List.dropWhile_cons_of_neg (by decide)]

theorem trimStart_lineText {lead : List Char} (h : Lead lead) (rest : List Char) :
    trimStart (lineText (lead ++ '@' :: rest)) = '@' :: trimEnd rest := by
  cases h with
  | blank hfront =>
    have htrim : trim (lead ++ '@' :: rest) = '@' :: trimEnd rest := by
      rw [trim, trimStart_blank hfront]
      exact Text.trimEnd_append (by decide) [] rest
    rw [lineText, htrim]
    rfl
  | @star front back hfront hback =>
    have htrim : trim ((front ++ '*' :: back) ++ '@' :: rest) = '*' :: (back ++ '@' :: trimEnd rest) := by
      rw [trim, trimStart, List.append_assoc, List.dropWhile_append_of_pos hfront, List.cons_append,
        List.dropWhile_cons_of_neg (by decide)]
      exact Text.trimEnd_append (by decide) ('*' :: back) rest
    have hstar : Text.dropHead? ['*'] ('*' :: (back ++ '@' :: trimEnd rest)) =
      some (back ++ '@' :: trimEnd rest) := rfl
    simp only [lineText, htrim, hstar, Option.getD_some]
    cases hspace : Text.dropHead? [' '] (back ++ '@' :: trimEnd rest) with
    | none => exact trimStart_blank hback _
    | some less =>
      have hless : trimStart less = trimStart (' ' :: less) := rfl
      rw [Option.getD_some, hless, ← List.singleton_append, ← Text.dropHead?_eq_some.1 hspace]
      exact trimStart_blank hback _

theorem ParamText.tagLine?_written (x : ParamText) (typeFirst : Bool) {lead : List Char} (h : Lead lead)
    (rest : List Char) :
    tagLine? (lineText (lead ++ ("@param".toList ++ x.written typeFirst rest))) =
      some ("param".toList, x.written typeFirst (trimEnd rest)) := by
  have hstart : trimStart (lineText (lead ++ ("@param".toList ++ x.written typeFirst rest))) =
      '@' :: ("param".toList ++ x.written typeFirst (trimEnd rest)) := by
    rw [← x.trimEnd_written]
    exact trimStart_lineText h _
  obtain ⟨front, last, -, hwritten⟩ := x.exists_front typeFirst
  rw [tagLine?, hstart, (hwritten _).1]
  rfl

/-- A line of a comment: the text before the line, unless it is the first one, what precedes a tag on
the line, and the text after the line, unless it is the last one. -/
structure Place where
  before : Option (List Char)
  lead : List Char
  after : Option (List Char)
  isLead : Lead lead
  lead_line : '\n' ∉ lead

namespace Place

variable (p : Place)

def opening : List Char := "/**".toList ++ (p.before.map (· ++ ['\n'])).getD []

def closing : List Char := (p.after.map ('\n' :: ·)).getD [] ++ "*/".toList

/-- The comment with a text on the line. -/
def comment (line : List Char) : String := String.ofList (p.opening ++ (p.lead ++ (line ++ p.closing)))

/-- The comment up to the line. -/
def upTo : String := String.ofList (p.opening ++ "*/".toList)

theorem trim_block (inner : List Char) : trim ("/**".toList ++ (inner ++ "*/".toList)) =
    "/**".toList ++ (inner ++ "*/".toList) := by
  simpa using Text.trim_eq_self (c := '/') (d := '/') (by decide) ('*' :: '*' :: (inner ++ ['*']))
    (by decide)

/-- The part of the comment before the line. -/
def head : List Char :=
  match p.before with
  | none => []
  | some before => Text.dropHeads "/**".toList ("/**".toList ++ before) ++ ['\n']

theorem dropHeads_lead {lead : List Char} (h : Lead lead) :
    Text.dropHeads "/**".toList ("/**".toList ++ lead) = lead := by
  have hslash : '/' ∉ lead := by
    have hblank {cs : List Char} (hcs : Blank cs) : '/' ∉ cs := fun hmem => by cases hcs '/' hmem
    cases h with
    | blank hfront => exact hblank hfront
    | star hfront hback => simp [hblank hfront, hblank hback]
  have hnone : Text.dropHead? "/**".toList lead = none := by
    refine Option.eq_none_iff_forall_ne_some.2 fun rest hrest => hslash ?_
    rw [Text.dropHead?_eq_some.1 hrest]
    simp
  have hsome : Text.dropHead? "/**".toList ("/**".toList ++ lead) = some lead :=
    Text.dropHead?_eq_some.2 rfl
  have hlength : ("/**".toList ++ lead).length = lead.length + 2 + 1 := by simp
  rw [Text.dropHeads, hlength, Text.dropHeads.go, hsome]
  simp only [Text.dropHeads.go, hnone]

theorem dropHeads_opening (rest : List Char) :
    Text.dropHeads "/**".toList (p.opening ++ (p.lead ++ '@' :: rest)) =
      p.head ++ (p.lead ++ '@' :: rest) := by
  cases h : p.before with
  | none =>
    simp only [opening, h, Option.map_none, Option.getD_none, List.append_nil, head, List.nil_append]
    rw [← List.append_assoc, Text.dropHeads_append (by decide) (by decide), dropHeads_lead p.isLead]
  | some before =>
    simp only [opening, h, Option.map_some, Option.getD_some, head, List.append_assoc,
      List.singleton_append]
    rw [← List.append_assoc, Text.dropHeads_append (by decide) (by decide)]

theorem parse_upTo : parse p.upTo = readLines {} [] none (Text.lines p.head) := by
  have hbody : body (p.opening ++ "*/".toList) = p.head := by
    cases h : p.before with
    | none =>
      simp only [opening, h, head]
      decide
    | some before =>
      simp only [opening, h, Option.map_some, Option.getD_some, head, body]
      rw [List.append_assoc, trim_block, List.append_assoc, ← List.append_assoc, List.singleton_append,
        Text.dropHeads_append (by decide) (by decide), Text.dropTails_append (by decide) (by decide)]
      rfl
  rw [parse, upTo, String.toList_ofList, hbody]

theorem lines_head (rest : List Char) :
    Text.lines (p.head ++ rest) = Text.lines p.head ++ Text.lines rest := by
  cases h : p.before with
  | none =>
    simp only [head, h]
    rfl
  | some before =>
    simp only [head, h, List.append_assoc, List.singleton_append]
    exact Text.lines_append _ rest

theorem exists_closing {text : List Char} (htext : '\n' ∉ text) : ∃ text' tail, '\n' ∉ text' ∧
    Text.dropTails "*/".toList (text ++ p.closing) = text' ++ tail ∧
      (tail = [] ∨ ∃ rest, tail = '\n' :: rest) := by
  cases h : p.after with
  | none =>
    refine ⟨Text.dropTails "*/".toList (text ++ p.closing), [], fun hmem => ?_, by simp, .inl rfl⟩
    have hmem := Text.mem_of_mem_dropTails hmem
    simp [closing, h, htext] at hmem
  | some after =>
    refine ⟨text, '\n' :: Text.dropTails "*/".toList (after ++ "*/".toList), htext, ?_, .inr ⟨_, rfl⟩⟩
    simp only [closing, h, Option.map_some, Option.getD_some, List.cons_append]
    exact Text.dropTails_append (by decide) (by decide) text _

theorem exists_after {tail : List Char} (htail : tail = [] ∨ ∃ rest, tail = '\n' :: rest) :
    ∃ after, ∀ line, '\n' ∉ line → line ≠ [] → ∃ line', lineText line' = lineText line ∧
      Text.lines (line ++ tail) = line' :: after := by
  obtain rfl | ⟨rest, rfl⟩ := htail
  · refine ⟨[], fun line hline hne => ⟨line, rfl, ?_⟩⟩
    rw [List.append_nil, Text.lines_of_not_mem hline hne]
  · refine ⟨Text.lines rest, fun line hline _ => ⟨_, ?_, Text.lines_newline hline rest⟩⟩
    rw [lineText, Text.trim_dropReturn, ← lineText]

/-- The lines of the comment before and after the line, and what the end of the comment leaves of the
text at the end of the line. -/
theorem exists_lines {text : List Char} (htext : '\n' ∉ text) :
    ∃ before after text', parse p.upTo = readLines {} [] none before ∧
      ∀ word, '\n' ∉ word → ∃ line, lineText line = lineText (p.lead ++ '@' :: (word ++ ' ' :: text')) ∧
        parse (p.comment ('@' :: (word ++ ' ' :: text))) = readLines {} [] none (before ++ line :: after) := by
  obtain ⟨text', tail, htext', hclosing, htail⟩ := p.exists_closing htext
  obtain ⟨after, hafter⟩ := exists_after htail
  refine ⟨Text.lines p.head, after, text', p.parse_upTo, fun word hword => ?_⟩
  obtain ⟨line, hline, hlines⟩ := hafter (p.lead ++ '@' :: (word ++ ' ' :: text'))
    (by simp [p.lead_line, hword, htext']) (by simp)
  have hbody : body (p.opening ++ (p.lead ++ ('@' :: (word ++ ' ' :: text) ++ p.closing))) =
      p.head ++ (p.lead ++ '@' :: (word ++ ' ' :: text') ++ tail) := by
    have htrim : trim (p.opening ++ (p.lead ++ ('@' :: (word ++ ' ' :: text) ++ p.closing))) =
        p.opening ++ (p.lead ++ ('@' :: (word ++ ' ' :: text) ++ p.closing)) := by
      simpa only [opening, closing, List.append_assoc, List.cons_append] using
        trim_block ((p.before.map (· ++ ['\n'])).getD [] ++ (p.lead ++ ('@' :: (word ++ ' ' :: text) ++
          (p.after.map ('\n' :: ·)).getD [])))
    have hblank : ' ' ∉ "*/".toList := by decide
    have hspace := Text.dropTails_append hblank (by decide) (p.head ++ (p.lead ++ '@' :: word))
      (text ++ p.closing)
    rw [hclosing] at hspace
    rw [body, htrim, List.cons_append, p.dropHeads_opening]
    simpa using hspace
  refine ⟨line, hline, ?_⟩
  rw [parse, comment, String.toList_ofList, hbody, p.lines_head, hlines]

end Place

/-! ## Marks of optionality -/

/-- A type ends in a mark of optionality. -/
def Marked (type : List Char) : Prop := type.getLast? = some '?' ∨ type.getLast? = some '='

instance (type : List Char) : Decidable (Marked type) := inferInstanceAs (Decidable (_ ∨ _))

/-- A type without its mark, and without blanks before the mark. -/
def withoutMark (type : List Char) : List Char := if Marked type then trim type.dropLast else type

def InBrackets (name : List Char) : Prop := ∃ inner, name = '[' :: (inner ++ [']'])

/-- What is left of a name without its brackets and the default value in them. -/
inductive Bare : List Char → List Char → Prop where
  | brackets (inner : List Char) : Bare ('[' :: (inner ++ [']'])) (inner.takeWhile (· ≠ '='))
  | plain {name : List Char} : ¬ InBrackets name → Bare name name

theorem dropTail?_singleton (c : Char) (cs : List Char) :
    Text.dropTail? [c] cs = if cs.getLast? = some c then some cs.dropLast else none := by
  split
  next h =>
    obtain ⟨front, rfl⟩ := List.getLast?_eq_some_iff.1 h
    rw [List.dropLast_concat]
    exact Text.dropTail?_eq_some.2 rfl
  next h =>
    refine Option.eq_none_iff_forall_ne_some.2 fun rest hrest => h ?_
    rw [Text.dropTail?_eq_some.1 hrest, List.getLast?_concat]

theorem unmarked?_eq (type : List Char) :
    unmarked? type = if Marked type then some (trim type.dropLast) else none := by
  by_cases hquestion : type.getLast? = some '?'
  · simp [unmarked?, dropTail?_singleton, Marked, hquestion]
  · by_cases hequals : type.getLast? = some '=' <;>
      simp [unmarked?, dropTail?_singleton, Marked, hquestion, hequals]

theorem bracketed?_eq_some {name inner : List Char} :
    bracketed? name = some inner ↔ name = '[' :: (inner ++ [']']) := by
  simp [bracketed?, Option.bind_eq_some_iff, Text.dropHead?_eq_some, Text.dropTail?_eq_some]

theorem paramOf_typeText (name type description : List Char) :
    (paramOf name (some type) description).typeText = some (String.ofList (withoutMark type)) := by
  by_cases h : Marked type <;> simp [paramOf, unmarked?_eq, withoutMark, h]

theorem paramOf_optional (name type description : List Char) :
    (paramOf name (some type) description).optional = true ↔
      InBrackets name ∨ (∃ bare, Bare name bare ∧ bare.getLast? = some '?') ∨ Marked type := by
  cases hname : bracketed? name with
  | some inner =>
    have hin : InBrackets name := ⟨inner, bracketed?_eq_some.1 hname⟩
    have hoptional : (paramOf name (some type) description).optional = true := by
      simp only [paramOf, hname]
      split <;> rfl
    exact iff_of_true hoptional (.inl hin)
  | none =>
    have hout : ¬ InBrackets name := by
      rintro ⟨inner, hinner⟩
      rw [bracketed?_eq_some.2 hinner] at hname
      cases hname
    have hbare : (∃ bare, Bare name bare ∧ bare.getLast? = some '?') ↔ name.getLast? = some '?' := by
      refine ⟨?_, fun h => ⟨name, .plain hout, h⟩⟩
      rintro ⟨bare, hbare, h⟩
      cases hbare with
      | brackets inner => exact absurd ⟨inner, rfl⟩ hout
      | plain => exact h
    rw [hbare, or_iff_right hout]
    by_cases hquestion : name.getLast? = some '?' <;> by_cases hmark : Marked type <;>
      simp [paramOf, hname, dropTail?_singleton, unmarked?_eq, hquestion, hmark]

/-- A parameter means the same with its type before its name and after it. -/
theorem param_orders_agree (p : Place) (x : ParamText) :
    parse (p.comment (x.line false)) = parse (p.comment (x.line true)) ∧
    ∃ param later, (parse (p.comment (x.line true))).params = (parse p.upTo).params ++ param :: later ∧
      param.typeText = some (String.ofList (withoutMark (trim x.type))) ∧
      (param.optional = true ↔ InBrackets x.name ∨
        (∃ bare, Bare x.name bare ∧ bare.getLast? = some '?') ∨ Marked (trim x.type)) := by
  obtain ⟨before, after, text, hupTo, hlines⟩ := p.exists_lines x.description_line
  obtain ⟨doc, description, hdoc, happend⟩ := readLines_append {} [] none before
  have hspace : ParamText.Follows (' ' :: text) := by simp [ParamText.Follows, isBlank]
  obtain ⟨result, rest, later, hparams, hresult⟩ :=
    x.readLines_written doc description hspace.trimEnd after
  have hparse (typeFirst : Bool) : parse (p.comment (x.line typeFirst)) = result := by
    have hline (rest : List Char) : "@param".toList ++ x.written typeFirst rest =
        '@' :: (("param".toList ++ x.written typeFirst []) ++ rest) := by
      rw [x.written_append typeFirst rest, List.append_assoc]
      rfl
    obtain ⟨line, htext, hparsed⟩ := hlines ("param".toList ++ x.written typeFirst [])
      (by simp [x.newline_not_mem_written])
    rw [← hline] at htext hparsed
    unfold ParamText.line
    rw [hparsed, happend line _ after (htext ▸ x.tagLine?_written typeFirst p.isLead _)]
    exact hresult typeFirst
  refine ⟨(hparse false).trans (hparse true).symm, x.param rest, later, ?_, ?_, ?_⟩
  · rw [hparse, hparams, hdoc, hupTo]
  · exact paramOf_typeText ..
  · exact paramOf_optional ..

def recordParam : ParamText where
  type := ['\x7b', 'a', '\x7d', ' ', '?']
  name := ['x']
  description := ['y']
  balanced := show Balanced ('\x7b' :: (['a'] ++ '\x7d' :: [' ', '?'])) from
    .braces (.char (by decide) (by decide) .nil)
      (.char (by decide) (by decide) (.char (by decide) (by decide) .nil))
  name_ne_nil := by decide
  name_plain := by
    intro c hc
    cases List.mem_singleton.1 hc
    decide
  type_line := by decide
  description_line := by decide

def onlyLine : Place where
  before := none
  lead := [' ']
  after := none
  isLead := .blank (by simp [Blank, isBlank])
  lead_line := by decide

theorem param_orders_agree_record :
    onlyLine.comment (recordParam.line false) = "/** @param x \x7b\x7ba\x7d ?\x7d y*/" ∧
    onlyLine.comment (recordParam.line true) = "/** @param \x7b\x7ba\x7d ?\x7d x y*/" ∧
    parse (onlyLine.comment (recordParam.line false)) =
      parse (onlyLine.comment (recordParam.line true)) :=
  ⟨by decide, by decide, (param_orders_agree onlyLine recordParam).1⟩

end DocComment

end ClassForge
