import ClassForge.Proofs.Catalog.Lines

/-!
# Writing catalogs

The fields of an entry are written one after another, each as a keyword and a text in quotes that may be
broken over several lines. Blank lines and comments may stand anywhere, and blanks around each line. A
catalog that is read from such a text has of each message the first entry that was written.
-/

namespace ClassForge.Catalog

open Text (Blank trim firstWord isBlank)

variable {r : Reading} {e : CatalogEntry} {lines : List (List Char)} {word : List Char}

/-! ## Quoted texts -/

def escapeChar (c : Char) : List Char :=
  if c = '\\' then ['\\', '\\']
  else if c = '"' then ['\\', '"']
  else if c = '\n' then ['\\', 'n']
  else if c = '\t' then ['\\', 't']
  else if c = '\r' then ['\\', 'r']
  else [c]

def quoted (cs : List Char) : List Char := '"' :: (cs.flatMap escapeChar ++ ['"'])

theorem unescape_cons {c : Char} (hc : c ≠ '\\') (cs : List Char) :
    unescape (c :: cs) = c :: unescape cs := by
  cases cs <;> simp [unescape, hc]

theorem unescape_escapeChar (c : Char) (cs : List Char) :
    unescape (escapeChar c ++ cs) = c :: unescape cs := by
  by_cases hslash : c = '\\'
  · simp [hslash, escapeChar, unescape]
  by_cases hquote : c = '"'
  · simp [hquote, escapeChar, unescape]
  by_cases hline : c = '\n'
  · simp [hline, escapeChar, unescape]
  by_cases htab : c = '\t'
  · simp [htab, escapeChar, unescape]
  by_cases hreturn : c = '\r'
  · simp [hreturn, escapeChar, unescape]
  · simp [hslash, hquote, hline, htab, hreturn, escapeChar, unescape_cons]

theorem unescape_escaped (cs : List Char) : unescape (cs.flatMap escapeChar) = cs := by
  induction cs with
  | nil => rfl
  | cons c cs ih => rw [List.flatMap_cons, unescape_escapeChar, ih]

theorem unquote_quoted (cs : List Char) : unquote (quoted cs) = cs := by
  have hhead : Text.dropHead? ['"'] (quoted cs) = some (cs.flatMap escapeChar ++ ['"']) :=
    Text.dropHead?_eq_some.2 rfl
  have htail : Text.dropTail? ['"'] (cs.flatMap escapeChar ++ ['"']) = some (cs.flatMap escapeChar) :=
    Text.dropTail?_eq_some.2 rfl
  rw [unquote, hhead, Option.bind_some, htail, Option.getD_some, unescape_escaped]

theorem trim_quoted (cs : List Char) : trim (quoted cs) = quoted cs :=
  Text.trim_eq_self (by decide) _ (by decide)

/-! ## Lines -/

structure Keyword (word : List Char) : Prop where
  head : ∃ rest, word = 'm' :: rest
  noBlank : ∀ c ∈ word, isBlank c = false

theorem readLine_quoted (r : Reading) (piece : List Char) :
    readLine r (quoted piece) = .ok (continueWith r (String.ofList piece)) := by
  rw [readLine_quote (trim_quoted piece), trim_quoted, unquote_quoted]

theorem readLine_field (h : Keyword word) (r : Reading) (piece : List Char) :
    readLine r (word ++ ' ' :: quoted piece) =
      readField (begun r word) word (String.ofList piece) := by
  have hbare : ∀ c ∈ word, (!isBlank c) = true := fun c hc => by rw [h.noBlank c hc]; rfl
  have htrim : trim (word ++ ' ' :: quoted piece) = word ++ ' ' :: quoted piece := by
    obtain ⟨rest, rfl⟩ := h.head
    simpa [quoted] using Text.trim_eq_self (c := 'm') (d := '"') (by decide)
      (rest ++ ' ' :: '"' :: piece.flatMap escapeChar) (by decide)
  have hword : firstWord (word ++ ' ' :: quoted piece) = word := by
    rw [← Text.takeWhile_trim, htrim, List.takeWhile_append_of_pos hbare,
      List.takeWhile_cons_of_neg (by decide), List.append_nil]
  have htext : textOf (word ++ ' ' :: quoted piece) = String.ofList piece := by
    rw [textOf, htrim, List.dropWhile_append_of_pos hbare, List.dropWhile_cons_of_neg (by decide),
      List.tail_cons, trim_quoted, unquote_quoted]
  obtain ⟨rest, hrest⟩ := h.head
  have hline : trim (word ++ ' ' :: quoted piece) = 'm' :: (rest ++ ' ' :: quoted piece) := by
    rw [htrim, hrest, List.cons_append]
  rw [readLine_keyword hline (by decide) (by decide), hword, htext]

/-- The lines of a text with a keyword: pieces in quotes, the first of them after the keyword. A text is
broken between any two characters, but not inside an escape. -/
inductive Block (keyword text : String) : List (List Char) → Prop where
  | pieces (first : List Char) (more : List (List Char)) (h : first ++ more.flatten = text.toList) :
    Block keyword text ((keyword.toList ++ ' ' :: quoted first) :: more.map quoted)

inductive Blocks : List (String × String) → List (List Char) → Prop where
  | nil : Blocks [] []
  | cons {keyword text : String} {fields : List (String × String)} {block lines : List (List Char)}
      (head : Block keyword text block) (tail : Blocks fields lines) :
    Blocks ((keyword, text) :: fields) (block ++ lines)

def readFields : Reading → List (String × String) → Except CatalogError Reading
  | r, [] => .ok r
  | r, (keyword, text) :: fields => do
    let r ← readField (begun r keyword.toList) keyword.toList text
    readFields r fields

theorem readLines_pieces (r : Reading) (word : List Char) (text : String) (more lines : List (List Char)) :
    (readField r word text >>= (readLines · (more.map quoted ++ lines))) =
      (readField r word (text ++ String.ofList more.flatten) >>= (readLines · lines)) := by
  induction more generalizing text with
  | nil => simp
  | cons piece more ih =>
    have hnext : (readField r word text >>= (readLines · ((piece :: more).map quoted ++ lines))) =
        (readField r word (text ++ String.ofList piece) >>=
          (readLines · (more.map quoted ++ lines))) := by
      rw [readField_append]
      cases readField r word text with
      | error e => rfl
      | ok r' =>
        change readLines r' (quoted piece :: (more.map quoted ++ lines)) = _
        rw [readLines, readLine_quoted]
        rfl
    rw [hnext, ih, String.append_assoc, ← String.ofList_append, List.flatten_cons]

theorem readLines_block {keyword text : String} {block : List (List Char)} (hk : Keyword keyword.toList)
    (h : Block keyword text block) (r : Reading) (lines : List (List Char)) :
    readLines r (block ++ lines) =
      (readField (begun r keyword.toList) keyword.toList text >>= (readLines · lines)) := by
  obtain ⟨first, more, htext⟩ := h
  have hwhole : text = String.ofList first ++ String.ofList more.flatten := by
    rw [← String.toList_inj, ← htext]
    simp
  rw [List.cons_append, readLines, readLine_field hk, hwhole]
  exact readLines_pieces _ _ _ more lines

theorem readLines_blocks {fields : List (String × String)} (hk : ∀ f ∈ fields, Keyword f.1.toList)
    (h : Blocks fields lines) (r : Reading) : readLines r lines = readFields r fields := by
  induction h generalizing r with
  | nil => rfl
  | cons head tail ih =>
    obtain ⟨hhead, htail⟩ := List.forall_mem_cons.1 hk
    rw [readLines_block hhead head, readFields]
    congr 1
    funext r'
    exact ih htail r'

/-! ## Lines between and around -/

inductive Idle : List Char → Prop where
  | blank {line : List Char} (h : Blank line) : Idle line
  | comment {front : List Char} (h : Blank front) (rest : List Char) : Idle (front ++ '#' :: rest)

inductive Spaced : List (List Char) → List (List Char) → Prop where
  | nil : Spaced [] []
  | idle {line : List Char} {lines spaced : List (List Char)} (h : Idle line)
      (tail : Spaced lines spaced) : Spaced lines (line :: spaced)
  | line {front line back : List Char} {lines spaced : List (List Char)} (hfront : Blank front)
      (hback : Blank back) (tail : Spaced lines spaced) :
    Spaced (line :: lines) ((front ++ line ++ back) :: spaced)

inductive Laid : List (List Char) → List Char → Prop where
  | nil : Laid [] []
  | last {line : List Char} (h : '\n' ∉ line) (hne : line ≠ []) : Laid [line] line
  | cons {line cs : List Char} {lines : List (List Char)} (h : '\n' ∉ line) (tail : Laid lines cs) :
    Laid (line :: lines) (line ++ '\n' :: cs)

theorem readLine_congr {line line' : List Char} (h : trim line = trim line') (r : Reading) :
    readLine r line = readLine r line' := by
  rw [readLine, readLine, h]

theorem readLine_idle {line : List Char} (h : Idle line) (r : Reading) : readLine r line = .ok r := by
  cases h with
  | blank h => exact readLine_blank (Text.trim_eq_nil.2 h)
  | comment h rest =>
    have htrim := Text.trim_surrounded h ('#' :: rest) Text.blank_nil
    rw [List.append_nil, Text.trim_cons (by decide)] at htrim
    exact readLine_comment htrim

theorem readLines_spaced {lines spaced : List (List Char)} (h : Spaced lines spaced) (r : Reading) :
    readLines r spaced = readLines r lines := by
  induction h generalizing r with
  | nil => rfl
  | idle h _ ih =>
    rw [readLines, readLine_idle h]
    exact ih r
  | line hfront hback _ ih =>
    rw [readLines, readLines, readLine_congr (Text.trim_surrounded hfront _ hback)]
    congr 1
    funext r'
    exact ih r'

theorem readLines_laid {cs : List Char} (h : Laid lines cs) (r : Reading) :
    readLines r (Text.lines cs) = readLines r lines := by
  induction h generalizing r with
  | nil => rfl
  | last h hne => rw [Text.lines_of_not_mem h hne]
  | cons h _ ih =>
    rw [Text.lines_newline h, readLines, readLines, readLine_congr (Text.trim_dropReturn _)]
    congr 1
    funext r'
    exact ih r'

/-! ## Entries -/

def formKeyword (index : Nat) : String := "msgstr[" ++ toString index ++ "]"

def formFields (e : CatalogEntry) : List (String × String) :=
  match e.plural with
  | none => e.forms.map ("msgstr", ·)
  | some plural => ("msgid_plural", plural) :: e.forms.mapIdx fun i s => (formKeyword i, s)

def fields (e : CatalogEntry) : List (String × String) :=
  (e.context.map ("msgctxt", ·)).toList ++ ("msgid", e.id) :: formFields e

/-- An entry that can be written: it has a message, either one form or a plural, and no more forms than
fit in memory. -/
structure Complete (e : CatalogEntry) : Prop where
  id_ne : e.id ≠ ""
  single : e.plural = none → e.forms.length = 1
  forms_le : e.forms.length ≤ maxForms

theorem toList_formKeyword (index : Nat) :
    (formKeyword index).toList = "msgstr[".toList ++ Nat.toDigits 10 index ++ [']'] := by
  simp [formKeyword]

theorem formIndex?_formKeyword {index : Nat} (h : index < UInt64.size) :
    formIndex? (formKeyword index).toList = some index := by
  have hnumeral := Numeral.plain (Json.Reader.digits_toDigits index)
  rw [Nat.ofDigitChars_ten_toDigits] at hnumeral
  exact formIndex?_eq_some_iff.2 ⟨⟨_, toList_formKeyword index, hnumeral⟩, h⟩

theorem isBlank_of_isDigit {c : Char} (h : c.isDigit = true) : isBlank c = false := by
  have hrange : 48 ≤ c.toNat ∧ c.toNat ≤ 57 := by
    simpa [Char.isDigit, UInt32.le_iff_toNat_le] using h
  simp only [isBlank, Bool.or_eq_false_iff, Bool.and_eq_false_iff, decide_eq_false_iff_not,
    beq_eq_false_iff_ne]
  omega

theorem keyword_formKeyword (index : Nat) : Keyword (formKeyword index).toList := by
  rw [toList_formKeyword]
  refine ⟨⟨_, rfl⟩, fun c hc => ?_⟩
  rw [List.mem_append, List.mem_append] at hc
  obtain (hc | hc) | hc := hc
  · revert c
    simp [isBlank]
  · exact isBlank_of_isDigit ((Json.Reader.digits_toDigits index).isDigit c hc)
  · rw [List.mem_singleton.1 hc]
    decide

theorem keyword_of_mem_fields {f : String × String} (h : f ∈ fields e) : Keyword f.1.toList := by
  have hcontext : Keyword "msgctxt".toList := ⟨⟨_, rfl⟩, by simp [isBlank]⟩
  have hid : Keyword "msgid".toList := ⟨⟨_, rfl⟩, by simp [isBlank]⟩
  have hplural : Keyword "msgid_plural".toList := ⟨⟨_, rfl⟩, by simp [isBlank]⟩
  have hsingle : Keyword "msgstr".toList := ⟨⟨_, rfl⟩, by simp [isBlank]⟩
  rw [fields, List.mem_append, List.mem_cons, formFields] at h
  obtain h | rfl | h := h
  · obtain ⟨text, -, rfl⟩ : ∃ text, e.context = some text ∧ ("msgctxt", text) = f := by simpa using h
    exact hcontext
  · exact hid
  · split at h
    · obtain ⟨text, -, rfl⟩ := List.mem_map.1 h
      exact hsingle
    · obtain rfl | h := List.mem_cons.1 h
      · exact hplural
      · obtain ⟨i, _, rfl⟩ := List.mem_mapIdx.1 h
        exact keyword_formKeyword i

/-! ## Reading entries -/

/-- The entries that have been read, with the one that is being read. -/
def closed (r : Reading) : Table CatalogEntry :=
  if r.started then insert r.entries r.entry else r.entries

structure Ready (r : Reading) : Prop where
  field_ne : r.field ≠ .context
  entry_eq : r.started = false → r.entry = {}

theorem begun_opening (h : Ready r) (hword : opens r.field word = true) :
    begun r word = { entries := closed r, entry := {}, field := r.field, started := true } := by
  cases hstarted : r.started with
  | true => simp [begun, closed, hword, hstarted]
  | false => simp [begun, closed, hstarted, h.entry_eq hstarted]

theorem begun_inside (hstarted : r.started = true) (h : opens r.field word = false) :
    begun r word = r := by
  cases r
  cases hstarted
  simp [begun, h]

def opened (t : Table CatalogEntry) (e : CatalogEntry) : Reading where
  entries := t
  entry := { context := e.context, id := e.id }
  field := .id
  started := true

theorem readFields_head (h : Ready r) (e : CatalogEntry) (rest : List (String × String)) :
    readFields r ((e.context.map ("msgctxt", ·)).toList ++ ("msgid", e.id) :: rest) =
      readFields (opened (closed r) e) rest := by
  cases hcontext : e.context with
  | none =>
    have hopens : opens r.field "msgid".toList = true := by simp [opens, h.field_ne]
    simp only [Option.map_none, Option.toList_none, List.nil_append, readFields,
      begun_opening h hopens, opened, hcontext]
    rfl
  | some context =>
    have hopens : opens r.field "msgctxt".toList = true := by simp [opens]
    simp only [Option.map_some, Option.toList_some, List.singleton_append, readFields,
      begun_opening h hopens, opened, hcontext]
    rfl

theorem maxForms_lt : maxForms < UInt64.size := by decide

theorem readField_numbered (hstarted : r.started = true) (hlt : r.entry.forms.length < maxForms)
    (text : String) :
    let word := (formKeyword r.entry.forms.length).toList
    readField (begun r word) word text = .ok { r with
      entry := { r.entry with forms := r.entry.forms ++ [text] }
      field := .form r.entry.forms.length } := by
  intro word
  have hform : formIndex? word = some r.entry.forms.length :=
    formIndex?_formKeyword (hlt.trans maxForms_lt)
  obtain ⟨hcontext, hid, -⟩ := (formIndex?_eq_some_iff.1 hform).1.ne
  have hinside : opens r.field word = false := by
    simp only [opens, hcontext, hid, decide_false, Bool.false_or, Bool.false_and]
  rw [begun_inside hstarted hinside, readField_form hform, if_neg (by omega), setForm_length]

theorem readFields_numbered (hstarted : r.started = true) (hfield : r.field ≠ .context)
    (texts : List String) (hle : r.entry.forms.length + texts.length ≤ maxForms)
    (rest : List (String × String)) :
    ∃ field, field ≠ .context ∧
      readFields r (texts.mapIdx (fun i s => (formKeyword (r.entry.forms.length + i), s)) ++ rest) =
        readFields { r with entry := { r.entry with forms := r.entry.forms ++ texts }, field } rest := by
  induction texts generalizing r with
  | nil => exact ⟨r.field, hfield, by simp⟩
  | cons text texts ih =>
    rw [List.length_cons] at hle
    obtain ⟨field, hne, hrest⟩ := @ih { r with
      entry := { r.entry with forms := r.entry.forms ++ [text] }
      field := .form r.entry.forms.length } hstarted (by simp) (by simp; omega)
    refine ⟨field, hne, ?_⟩
    simp only [List.mapIdx_cons, List.cons_append, Nat.add_zero, readFields,
      readField_numbered hstarted (show r.entry.forms.length < maxForms by omega)]
    simp only [List.length_append, List.length_singleton, List.append_assoc, List.singleton_append,
      Nat.add_assoc, Nat.add_comm 1] at hrest
    exact hrest

theorem readFields_forms (t : Table CatalogEntry) (he : Complete e) (rest : List (String × String)) :
    ∃ field, field ≠ .context ∧ readFields (opened t e) (formFields e ++ rest) =
      readFields { entries := t, entry := e, field, started := true } rest := by
  obtain ⟨context, id, plural, forms⟩ := e
  cases plural with
  | none =>
    obtain ⟨text, rfl⟩ := List.length_eq_one_iff.1 (he.single rfl)
    exact ⟨.form 0, by simp, rfl⟩
  | some plural =>
    obtain ⟨field, hne, hforms⟩ := @readFields_numbered
      { opened t ⟨context, id, some plural, forms⟩ with
        entry := { context, id, plural := some plural }, field := .plural }
      rfl (by simp) forms (by simpa using he.forms_le) rest
    refine ⟨field, hne, ?_⟩
    simp only [List.length_nil, Nat.zero_add, List.nil_append] at hforms
    exact hforms

theorem readFields_entry (h : Ready r) (he : Complete e) (rest : List (String × String)) :
    ∃ r', Ready r' ∧ closed r' = insert (closed r) e ∧
      readFields r (fields e ++ rest) = readFields r' rest := by
  obtain ⟨field, hne, hforms⟩ := readFields_forms (closed r) he rest
  refine ⟨{ entries := closed r, entry := e, field, started := true }, ⟨hne, by simp⟩, rfl, ?_⟩
  rw [fields, List.append_assoc, List.cons_append, readFields_head h, hforms]

theorem readFields_entries (h : Ready r) {entries : List CatalogEntry}
    (hc : ∀ e ∈ entries, Complete e) :
    ∃ r', readFields r (entries.flatMap fields) = .ok r' ∧ closed r' = entries.foldl insert (closed r) := by
  induction entries generalizing r with
  | nil => exact ⟨r, rfl, rfl⟩
  | cons e entries ih =>
    obtain ⟨he, hentries⟩ := List.forall_mem_cons.1 hc
    obtain ⟨r₁, h₁, hclosed₁, hr₁⟩ := readFields_entry h he (entries.flatMap fields)
    obtain ⟨r₂, hr₂, hclosed₂⟩ := ih h₁ hentries
    exact ⟨r₂, by rw [List.flatMap_cons, hr₁, hr₂], by rw [hclosed₂, hclosed₁, List.foldl_cons]⟩

theorem insert_eq_fill (he : e.id ≠ "") (t : Table CatalogEntry) :
    insert t e = t.fill e.id (some e) := by
  have hne : e.id.isEmpty = false := by simpa using he
  rw [insert, hne, Bool.false_or]
  rfl

theorem get?_foldl_insert {entries : List CatalogEntry} (hne : ∀ e ∈ entries, e.id ≠ "")
    (t : Table CatalogEntry) (id : String) :
    (entries.foldl insert t).get? id = (t.get? id).or (entries.find? (·.id = id)) := by
  induction entries generalizing t with
  | nil => simp
  | cons e entries ih =>
    obtain ⟨he, hentries⟩ := List.forall_mem_cons.1 hne
    rw [List.foldl_cons, ih hentries, insert_eq_fill he, Table.get?_fill, List.find?_cons,
      Option.or_assoc]
    by_cases hid : e.id = id
    · simp [hid]
    · simp [hid, Ne.symm hid]

def Written (entries : List CatalogEntry) (text : String) : Prop :=
  ∃ lines spaced, Blocks (entries.flatMap fields) lines ∧ Spaced lines spaced ∧ Laid spaced text.toList

theorem parse_written {entries : List CatalogEntry} {text : String} (hc : ∀ e ∈ entries, Complete e)
    (h : Written entries text) (locale : String) :
    ∃ c, parse locale text = .ok c ∧ c.locale = locale ∧
      (∀ id, c.get? id = entries.find? (·.id = id)) ∧ ∀ id ∈ c.entries.keys, ∃ e ∈ entries, e.id = id := by
  obtain ⟨lines, spaced, hblocks, hspaced, hlaid⟩ := h
  obtain ⟨r, hr, hclosed⟩ := readFields_entries (r := {}) ⟨by simp, fun _ => rfl⟩ hc
  have hkeywords : ∀ f ∈ entries.flatMap fields, Keyword f.1.toList := by
    intro f hf
    obtain ⟨e, -, hf⟩ := List.mem_flatMap.1 hf
    exact keyword_of_mem_fields hf
  have hread : readLines {} (Text.lines text.toList) = .ok r := by
    rw [readLines_laid hlaid, readLines_spaced hspaced, readLines_blocks hkeywords hblocks, hr]
  have hget : ∀ id, (closed r).get? id = entries.find? (·.id = id) := by
    intro id
    rw [hclosed, get?_foldl_insert fun e he => (hc e he).id_ne]
    rfl
  refine ⟨{ locale, entries := closed r }, by rw [parse, hread]; rfl, rfl, hget, ?_⟩
  intro id hid
  obtain ⟨e, he⟩ := Table.mem_keys.1 hid
  rw [hget] at he
  exact ⟨e, List.mem_of_find?_eq_some he, by simpa using List.find?_some he⟩

theorem laid_of_flatMap {cs : List Char} (h : ∀ line ∈ lines, '\n' ∉ line)
    (hcs : lines.flatMap (· ++ ['\n']) = cs) : Laid lines cs := by
  subst hcs
  induction lines with
  | nil => exact .nil
  | cons line lines ih =>
    obtain ⟨hline, hlines⟩ := List.forall_mem_cons.1 h
    simpa using Laid.cons hline (ih hlines)

/-- Three entries, the last of them with a message that has been there before. -/
def greetings : List CatalogEntry := [
  { context := some "d", id := "a\"", forms := ["b\nc"] },
  { id := "e", plural := some "f", forms := ["g", ""] },
  { id := "e", forms := ["h"] }]

def greetingsLines : List String :=
  ["#\r", "msgctxt \"d\"", "msgid \"a\\\"\"", "", "msgstr \"\"", "  \"b\\n\"", "\"c\"\r", "msgid \"e\"",
    "msgid_plural \"f\"", "msgstr[0] \"g\"", "msgstr[1] \"\"", "\t#,", "msgid \"e\"", "msgstr \"h\""]

def greetingsText : String := String.ofList (greetingsLines.flatMap (·.toList ++ ['\n']))

theorem greetings_complete : ∀ e ∈ greetings, Complete e := by
  have hle : 2 ≤ maxForms := by decide
  simp only [greetings, List.forall_mem_cons, List.not_mem_nil, false_implies, implies_true, and_true]
  exact ⟨⟨by simp, by simp, by simp; omega⟩, ⟨by simp, by simp, hle⟩, ⟨by simp, by simp, by simp; omega⟩⟩

theorem greetings_written : Written greetings greetingsText := by
  have hnil : Blank [] := Text.blank_nil
  have hreturn : Blank ['\r'] := by simp [Blank, isBlank]
  have hindent : Blank [' ', ' '] := by simp [Blank, isBlank]
  have htab : Blank ['\t'] := by simp [Blank, isBlank]
  have hblocks : Blocks (greetings.flatMap fields) _ :=
    .cons (.pieces ['d'] [] rfl) <| .cons (.pieces ['a', '"'] [] rfl) <|
      .cons (.pieces [] [['b', '\n'], ['c']] rfl) <| .cons (.pieces ['e'] [] rfl) <|
      .cons (.pieces ['f'] [] rfl) <| .cons (.pieces ['g'] [] rfl) <| .cons (.pieces [] [] rfl) <|
      .cons (.pieces ['e'] [] rfl) <| .cons (.pieces ['h'] [] rfl) .nil
  refine ⟨_, _, hblocks, .idle (.comment hnil ['\r']) <| .line hnil hnil <| .line hnil hnil <|
    .idle (.blank hnil) <| .line hnil hnil <| .line hindent hnil <| .line hnil hreturn <|
    .line hnil hnil <| .line hnil hnil <| .line hnil hnil <| .line hnil hnil <|
    .idle (.comment htab [',']) <| .line hnil hnil <| .line hnil hnil .nil, ?_⟩
  have htext : greetingsText.toList = greetingsLines.flatMap (·.toList ++ ['\n']) := String.toList_ofList
  exact laid_of_flatMap (by decide +kernel) (Eq.trans (by decide +kernel) htext.symm)

theorem parse_greetings : (∀ e ∈ greetings, Complete e) ∧ Written greetings greetingsText ∧
    ∃ c, parse "de" greetingsText = .ok c ∧ c.locale = "de" ∧
      (∀ id, c.get? id = greetings.find? (·.id = id)) ∧
      ∀ id ∈ c.entries.keys, ∃ e ∈ greetings, e.id = id :=
  ⟨greetings_complete, greetings_written, parse_written greetings_complete greetings_written "de"⟩

end ClassForge.Catalog
