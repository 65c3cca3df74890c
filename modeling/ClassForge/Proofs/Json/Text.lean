import ClassForge.Proofs.Json.Number

/-!
# Reading the text of a value

`Written v text` says that `text` is a text of the value, with blanks allowed around commas and next
to brackets. Both printers write such a text, and every such text is read in the same way: as the
value itself, except that numbers are what the text of each of them is read as.
-/

namespace ClassForge.Json

open Reader

/-! ## Quoted text -/

theorem hexDigit?_hexDigit : ∀ n < 16, hexDigit? (hexDigit n) = some n := by decide

theorem quoted_escapeChar (c : Char) (fuel : Nat) (done rest : List Char) :
    quoted (fuel + 1) done (escapeChar c ++ rest) = quoted fuel (c :: done) rest := by
  have hofNat {n : Nat} (h : c.toNat = n) : Char.ofNat n = c := by
    rw [← h]
    exact Char.ofNat_toNat c
  unfold escapeChar
  iterate 5
    split
    · next h => subst h; rfl
  iterate 2
    split
    · next h => simp only [List.cons_append, List.nil_append, quoted, escape, hofNat h]
  split
  · next h =>
    have hhigh := hexDigit?_hexDigit (c.toNat / 16) (by omega)
    have hlow := hexDigit?_hexDigit (c.toNat % 16) (by omega)
    have hzero : hexDigit? '0' = some 0 := by decide
    have hvalue : ((0 * 16 + 0) * 16 + c.toNat / 16) * 16 + c.toNat % 16 = c.toNat := by omega
    simp only [List.cons_append, List.nil_append, quoted, escape, hexFour, hzero, hhigh, hlow,
      Option.bind_eq_bind, Option.bind_some, Option.pure_def, hvalue]
    rw [if_neg (by omega), if_neg (by omega)]
    simp only [Char.ofNat_toNat]
  · next hq hb _ _ _ _ _ h =>
    rw [List.cons_append, List.nil_append, quoted, if_neg h]
    · exact hq
    · exact hb

theorem escapeChar_length (c : Char) : 0 < (escapeChar c).length := by
  unfold escapeChar
  grind

theorem length_le_escaped (cs : List Char) : cs.length ≤ (cs.flatMap escapeChar).length := by
  induction cs with
  | nil => simp
  | cons c cs ih =>
    have hc := escapeChar_length c
    simp only [List.flatMap_cons, List.length_cons, List.length_append]
    omega

theorem quoted_escaped {cs : List Char} {fuel : Nat} (h : cs.length < fuel) (done rest : List Char) :
    quoted fuel done (cs.flatMap escapeChar ++ '"' :: rest) =
      some (String.ofList (done.reverse ++ cs), rest) := by
  induction cs generalizing fuel done with
  | nil =>
    obtain ⟨fuel, rfl⟩ := Nat.exists_eq_succ_of_ne_zero (Nat.ne_zero_of_lt h)
    simp [quoted]
  | cons c cs ih =>
    obtain ⟨fuel, rfl⟩ := Nat.exists_eq_succ_of_ne_zero (Nat.ne_zero_of_lt h)
    rw [List.flatMap_cons, List.append_assoc, quoted_escapeChar,
      ih (Nat.lt_of_succ_lt_succ h)]
    simp

def unquoted (s : String) : List Char := s.toList.flatMap escapeChar ++ ['"']

theorem toList_quote (s : String) : (quote s).toList = '"' :: unquoted s := by
  simp [quote, unquoted]

theorem quoted_unquoted (s : String) (rest : List Char) :
    quoted ((unquoted s ++ rest).length + 1) [] (unquoted s ++ rest) = some (s, rest) := by
  have hle := length_le_escaped s.toList
  rw [unquoted, List.append_assoc, List.singleton_append, quoted_escaped]
  · simp
  · simp only [List.length_append, List.length_cons]
    omega

/-! ## Texts of a value -/

@[elab_as_elim]
theorem induction_parts {motive : Json → Prop} (null : motive .null) (bool : ∀ b, motive (.bool b))
    (int : ∀ n, motive (.int n)) (float : ∀ x, motive (.float x)) (string : ∀ s, motive (.string s))
    (array : ∀ items, (∀ v ∈ items, motive v) → motive (.array items))
    (object : ∀ fields, (∀ e ∈ fields, motive e.2) → motive (.object fields)) (v : Json) : motive v :=
  @Json.rec motive (fun items => ∀ v ∈ items, motive v) (fun fields => ∀ e ∈ fields, motive e.2)
    (fun e => motive e.2) null bool int float string array object (by simp)
    (fun _ _ hv hrest => List.forall_mem_cons.2 ⟨hv, hrest⟩) (by simp)
    (fun _ _ he hrest => List.forall_mem_cons.2 ⟨he, hrest⟩) (fun _ _ hv => hv) v

def Blank (cs : List Char) : Prop := ∀ c ∈ cs, isSpace c = true

mutual

/-- A text of a value. -/
inductive Written : Json → List Char → Prop where
  | null : Written .null "null".toList
  | bool (b : Bool) : Written (.bool b) (if b then "true" else "false").toList
  | int (n : Int) : Written (.int n) (toString n).toList
  | float (x : Binary64) : Written (.float x) (floatText x).toList
  | string (s : String) : Written (.string s) (quote s).toList
  | noItems : Written (.array []) ['[', ']']
  | array {v : Json} {rest : List Json} {text : List Char} :
    WrittenItems v rest text → Written (.array (v :: rest)) ('[' :: text)
  | noFields : Written (.object []) ['\x7b', '\x7d']
  | object {k : String} {v : Json} {rest : List (String × Json)} {text : List Char} :
    WrittenFields k v rest text → Written (.object ((k, v) :: rest)) ('\x7b' :: text)

inductive WrittenItems : Json → List Json → List Char → Prop where
  | last {v : Json} {front text back : List Char} :
    Blank front → Written v text → Blank back → WrittenItems v [] (front ++ (text ++ (back ++ [']'])))
  | more {v w : Json} {rest : List Json} {front text tail : List Char} :
    Blank front → Written v text → WrittenItems w rest tail →
      WrittenItems v (w :: rest) (front ++ (text ++ ',' :: tail))

inductive WrittenFields : String → Json → List (String × Json) → List Char → Prop where
  | last {k : String} {v : Json} {front gap text back : List Char} :
    Blank front → Blank gap → Written v text → Blank back →
      WrittenFields k v []
        (front ++ ((quote k).toList ++ ':' :: (gap ++ (text ++ (back ++ ['\x7d'])))))
  | more {k l : String} {v w : Json} {rest : List (String × Json)} {front gap text tail : List Char} :
    Blank front → Blank gap → Written v text → WrittenFields l w rest tail →
      WrittenFields k v ((l, w) :: rest)
        (front ++ ((quote k).toList ++ ':' :: (gap ++ (text ++ ',' :: tail))))

end

/-! ## What is read -/

def rereadNumber (text : String) : Option Json := (scalar text.toList).map Prod.fst

mutual

/-- What a text of a value is read as, if its containers may be nested `room` levels deep. -/
def reread : (room : Nat) → Json → Option Json
  | _, .null => some .null
  | _, .bool b => some (.bool b)
  | _, .int n => rereadNumber (toString n)
  | _, .float x => rereadNumber (floatText x)
  | _, .string s => some (.string s)
  | 0, .array _ => none
  | room + 1, .array items => (rereadItems room items).map .array
  | 0, .object _ => none
  | room + 1, .object fields => (rereadFields room fields).map .object

def rereadItems (room : Nat) : List Json → Option (List Json)
  | [] => some []
  | v :: rest => do
    let w ← reread room v
    let ws ← rereadItems room rest
    return w :: ws

def rereadFields (room : Nat) : List (String × Json) → Option (List (String × Json))
  | [] => some []
  | (k, v) :: rest => do
    let w ← reread room v
    let ws ← rereadFields room rest
    return (k, w) :: ws

end

/-! ## Steps of the reader -/

def Opens (text : List Char) : Prop := ∃ c tail, text = c :: tail ∧ isSpace c = false ∧ c ≠ ']'

theorem skip_cons {front : List Char} (h : Blank front) {c : Char} (hc : isSpace c = false)
    (rest : List Char) : skip (front ++ c :: rest) = c :: rest := by
  rw [skip, List.dropWhile_append_of_pos h]
  simp [hc]

theorem skip_opens {front text : List Char} (h : Blank front) (ht : Opens text) (rest : List Char) :
    skip (front ++ (text ++ rest)) = text ++ rest := by
  obtain ⟨c, tail, rfl, hc, -⟩ := ht
  exact skip_cons h hc (tail ++ rest)

theorem Opens.ne {text : List Char} (h : Opens text) (rest tail : List Char) :
    text ++ rest ≠ ']' :: tail := by
  obtain ⟨c, _, rfl, -, hc⟩ := h
  exact fun heq => hc (List.cons.inj heq).1

section Steps

variable {one : List Char → Option (Json × List Char)} {fuel : Nat} {more : Bool} {v? : Option Json}
  {cs start left rest : List Char}

section

variable {done : List Json} (hskip : skip cs = start) (hne : ∀ tail, start ≠ ']' :: tail)
  (hone : one start = v?.map (·, left))

include hskip hne hone

theorem items_last (hend : skip left = ']' :: rest) :
    items one (fuel + 1) more done cs = v?.map fun v => (done.reverse ++ [v], rest) := by
  rw [items, hskip]
  split
  · exact absurd rfl (hne _)
  · cases v? <;> simp [hone, hend]

theorem items_more (hend : skip left = ',' :: rest) :
    items one (fuel + 1) more done cs = v?.bind fun v => items one fuel true (v :: done) rest := by
  rw [items, hskip]
  split
  · exact absurd rfl (hne _)
  · cases v? <;> simp [hone, hend]

end

variable {k : String} {done : List (String × Json)} {after : List Char}
  (hskip : skip cs = '"' :: (unquoted k ++ ':' :: after))
  (hone : one (skip after) = v?.map (·, left))

include hskip hone

theorem fields_last (hend : skip left = '\x7d' :: rest) :
    fields one (fuel + 1) more done cs = v?.map fun v => (done.reverse ++ [(k, v)], rest) := by
  have hcolon : skip (':' :: after) = ':' :: after := rfl
  rw [fields, hskip]
  cases v? <;> simp only [quoted_unquoted, hcolon, Option.bind_eq_bind, Option.bind_some, hone] <;>
    simp [hend]

theorem fields_more (hend : skip left = ',' :: rest) :
    fields one (fuel + 1) more done cs =
      v?.bind fun v => fields one fuel true ((k, v) :: done) rest := by
  have hcolon : skip (':' :: after) = ':' :: after := rfl
  rw [fields, hskip]
  cases v? <;> simp only [quoted_unquoted, hcolon, Option.bind_eq_bind, Option.bind_some, hone] <;>
    simp [hend]

end Steps

/-! ## Values without parts -/

structure Leaf (text : List Char) : Prop where
  whole : Whole scalar text
  opens : Opens text
  bracket : text.head? ≠ some '['
  brace : text.head? ≠ some '\x7b'

theorem Leaf.value {text : List Char} (h : Leaf text) (room : Nat) {rest : List Char}
    (hr : Stops rest) : value room (text ++ rest) = ((scalar text).map Prod.fst).map (·, rest) := by
  obtain ⟨v, hv⟩ := h.whole
  have htext := hv [] stops_nil
  rw [List.append_nil] at htext
  have hscalar : Reader.value room (text ++ rest) = scalar (text ++ rest) := by
    obtain ⟨c, tail, rfl, -, -⟩ := h.opens
    have hbracket : c ≠ '[' := fun hc => h.bracket (by rw [hc]; rfl)
    have hbrace : c ≠ '\x7b' := fun hc => h.brace (by rw [hc]; rfl)
    rw [List.cons_append, Reader.value]
    all_goals simp [hbracket, hbrace]
  rw [hscalar, hv rest hr, htext]
  simp [Option.map_map, Function.comp_def]

theorem Numeral.leaf {text : List Char} (h : Numeral text) : Leaf text := by
  obtain ⟨c, tail, rfl, hc | rfl⟩ := h.head
  · have hne (d : Char) (hd : d.isDigit = false) : c ≠ d := by
      rintro rfl
      rw [hc] at hd
      cases hd
    have hspace : isSpace c = false := by
      simp [isSpace, hne ' ' (by decide), hne '\t' (by decide), hne '\n' (by decide),
        hne '\r' (by decide)]
    refine ⟨h.whole, ⟨c, tail, rfl, hspace, hne _ (by decide)⟩, ?_, ?_⟩
    · simpa using hne '[' (by decide)
    · simpa using hne '\x7b' (by decide)
  · exact ⟨h.whole, ⟨'-', tail, rfl, by decide, by decide⟩, by simp, by simp⟩

theorem leaf_null : Leaf "null".toList :=
  ⟨⟨some .null, fun _ _ => rfl⟩, ⟨'n', _, rfl, by decide, by decide⟩, by decide, by decide⟩

theorem leaf_bool (b : Bool) : Leaf (if b then "true" else "false").toList := by
  cases b
  · exact ⟨⟨some (.bool false), fun _ _ => rfl⟩, ⟨'f', _, rfl, by decide, by decide⟩, by decide,
      by decide⟩
  · exact ⟨⟨some (.bool true), fun _ _ => rfl⟩, ⟨'t', _, rfl, by decide, by decide⟩, by decide,
      by decide⟩

theorem leaf_floatText (x : Binary64) : Leaf (floatText x).toList := by
  unfold floatText
  split
  · exact Numeral.leaf (numeral_float x)
  · exact leaf_null

theorem scalar_quote (s : String) (rest : List Char) :
    scalar ((quote s).toList ++ rest) = some (.string s, rest) := by
  rw [toList_quote, List.cons_append, scalar, quoted_unquoted]
  rfl

theorem leaf_quote (s : String) : Leaf (quote s).toList := by
  refine ⟨⟨some (.string s), fun rest _ => scalar_quote s rest⟩,
    ⟨'"', unquoted s, toList_quote s, by decide, by decide⟩, ?_, ?_⟩ <;>
  simp [toList_quote]

/-! ## Reading what is written -/

theorem Written.opens {v : Json} {text : List Char} (h : Written v text) : Opens text := by
  cases h with
  | null => exact leaf_null.opens
  | bool b => exact (leaf_bool b).opens
  | int n => exact (Numeral.leaf (numeral_int n)).opens
  | float x => exact (leaf_floatText x).opens
  | string s => exact (leaf_quote s).opens
  | noItems => exact ⟨_, _, rfl, by decide, by decide⟩
  | array => exact ⟨_, _, rfl, by decide, by decide⟩
  | noFields => exact ⟨_, _, rfl, by decide, by decide⟩
  | object => exact ⟨_, _, rfl, by decide, by decide⟩

theorem stops_cons {c : Char} (hc : c.isDigit = false ∧ c ≠ '.' ∧ c ≠ 'e' ∧ c ≠ 'E')
    (rest : List Char) : Stops (c :: rest) := by
  intro d hmem
  obtain rfl : c = d := Option.some.inj hmem
  exact hc

theorem stops_blank {back rest : List Char} (h : Blank back) (hr : Stops rest) :
    Stops (back ++ rest) := by
  cases back with
  | nil => exact hr
  | cons b back =>
    have hb := h b List.mem_cons_self
    simp only [isSpace, Bool.or_eq_true, decide_eq_true_eq] at hb
    obtain ((rfl | rfl) | rfl) | rfl := hb <;> exact stops_cons (by decide) _

mutual

theorem value_written {v : Json} {text : List Char} (h : Written v text) (room : Nat)
    {rest : List Char} (hr : Stops rest) :
    value room (text ++ rest) = (reread room v).map (·, rest) := by
  match h with
  | .null =>
    rw [leaf_null.value room hr, reread]
    rfl
  | .bool b =>
    rw [(leaf_bool b).value room hr, reread]
    cases b <;> rfl
  | .int n =>
    rw [(Numeral.leaf (numeral_int n)).value room hr, reread]
    rfl
  | .float x =>
    rw [(leaf_floatText x).value room hr, reread]
    rfl
  | .string s =>
    have hs := scalar_quote s []
    rw [List.append_nil] at hs
    rw [(leaf_quote s).value room hr, hs, reread]
    rfl
  | .noItems => cases room <;> rfl
  | .array h =>
    cases room with
    | zero => rfl
    | succ room =>
      rw [List.cons_append, Reader.value, reread, items_written h room (by simp) false [] rest]
      simp [Option.map_map, Function.comp_def]
  | .noFields => cases room <;> rfl
  | .object h =>
    cases room with
    | zero => rfl
    | succ room =>
      rw [List.cons_append, Reader.value, reread, fields_written h room (by simp) false [] rest]
      simp [Option.map_map, Function.comp_def]

theorem items_written {v : Json} {others : List Json} {text : List Char}
    (h : WrittenItems v others text) (room : Nat) {fuel : Nat} (hf : text.length ≤ fuel)
    (more : Bool) (done : List Json) (rest : List Char) :
    items (value room) (fuel + 1) more done (text ++ rest) =
      (rereadItems room (v :: others)).map fun l => (done.reverse ++ l, rest) := by
  match h with
  | @WrittenItems.last _ front text back hfront hv hback =>
    have hread := value_written hv room (stops_blank hback (stops_cons (c := ']') (by decide) rest))
    have hskip := skip_opens hfront hv.opens (back ++ ']' :: rest)
    simp only [List.append_assoc, List.singleton_append, rereadItems]
    rw [items_last hskip (hv.opens.ne _) hread (skip_cons hback (by decide) rest)]
    cases reread room v <;> rfl
  | @WrittenItems.more _ _ others front text tail hfront hv htail =>
    have hread := value_written hv room (stops_cons (c := ',') (by decide) (tail ++ rest))
    have hskip := skip_opens hfront hv.opens (',' :: (tail ++ rest))
    obtain ⟨fuel, rfl⟩ : ∃ m, fuel = m + 1 := Nat.exists_eq_succ_of_ne_zero (by simp at hf; omega)
    have htail := items_written htail room (by simp at hf; omega : tail.length ≤ fuel) true
    simp only [List.append_assoc, List.cons_append]
    rw [rereadItems, items_more hskip (hv.opens.ne _) hread rfl]
    simp only [htail]
    cases reread room v <;> cases rereadItems room (_ :: others) <;> simp

theorem fields_written {k : String} {v : Json} {others : List (String × Json)} {text : List Char}
    (h : WrittenFields k v others text) (room : Nat) {fuel : Nat} (hf : text.length ≤ fuel)
    (more : Bool) (done : List (String × Json)) (rest : List Char) :
    fields (value room) (fuel + 1) more done (text ++ rest) =
      (rereadFields room ((k, v) :: others)).map fun l => (done.reverse ++ l, rest) := by
  match h with
  | @WrittenFields.last _ _ front gap text back hfront hgap hv hback =>
    have hread := value_written hv room
      (stops_blank hback (stops_cons (c := '\x7d') (by decide) rest))
    have hskip := skip_opens hfront (leaf_quote k).opens
      (':' :: (gap ++ (text ++ (back ++ '\x7d' :: rest))))
    rw [← skip_opens hgap hv.opens] at hread
    simp only [List.append_assoc, List.cons_append, List.nil_append, rereadFields]
    rw [toList_quote] at hskip ⊢
    rw [fields_last hskip hread (skip_cons hback (by decide) rest)]
    cases reread room v <;> rfl
  | @WrittenFields.more _ _ _ _ others front gap text tail hfront hgap hv htail =>
    have hread := value_written hv room (stops_cons (c := ',') (by decide) (tail ++ rest))
    have hskip := skip_opens hfront (leaf_quote k).opens
      (':' :: (gap ++ (text ++ ',' :: (tail ++ rest))))
    obtain ⟨fuel, rfl⟩ : ∃ m, fuel = m + 1 := Nat.exists_eq_succ_of_ne_zero (by simp at hf; omega)
    have htail := fields_written htail room (by simp at hf; omega : tail.length ≤ fuel) true
    rw [← skip_opens hgap hv.opens] at hread
    simp only [List.append_assoc, List.cons_append]
    rw [toList_quote] at hskip ⊢
    rw [rereadFields, fields_more hskip hread rfl]
    simp only [htail]
    cases reread room v <;> cases rereadFields room (_ :: others) <;> simp

end

/-! ## What the printers write -/

theorem renderItems_eq_map (l : List Json) : renderItems l = l.map render := by
  induction l with
  | nil => rfl
  | cons v rest ih => rw [renderItems, ih, List.map_cons]

theorem renderFields_eq_map (l : List (String × Json)) :
    renderFields l = l.map fun e => quote e.1 ++ (":" ++ "") ++ render e.2 := by
  induction l with
  | nil => rfl
  | cons e rest ih =>
    rw [renderFields, ih, List.map_cons]
    rfl

theorem renderIndentedItems_eq_map (level : Nat) (l : List Json) :
    renderIndentedItems level l = l.map (renderIndented level) := by
  induction l with
  | nil => rfl
  | cons v rest ih => rw [renderIndentedItems, ih, List.map_cons]

theorem renderIndentedFields_eq_map (level : Nat) (l : List (String × Json)) :
    renderIndentedFields level l =
      l.map fun e => quote e.1 ++ (":" ++ " ") ++ renderIndented level e.2 := by
  induction l with
  | nil => rfl
  | cons e rest ih =>
    rw [renderIndentedFields, ih, List.map_cons]
    rfl

section Layout

variable {start stop gap : String} (hstart : Blank start.toList) (hstop : Blank stop.toList)
  (hgap : Blank gap.toList) {text : Json → String}

include hstart hstop

theorem writtenItems_intercalate (v : Json) (rest : List Json)
    (h : ∀ w ∈ v :: rest, Written w (text w).toList) :
    WrittenItems v rest (start.toList ++
      ((String.intercalate ("," ++ start) ((v :: rest).map text)).toList ++ (stop.toList ++ [']']))) := by
  induction rest generalizing v with
  | nil =>
    simp only [List.map_cons, List.map_nil, String.intercalate_singleton]
    exact .last hstart (h v List.mem_cons_self) hstop
  | cons w rest ih =>
    have hrest := ih w fun u hu => h u (List.mem_cons_of_mem v hu)
    have hall := WrittenItems.more hstart (h v List.mem_cons_self) hrest
    simpa using hall

include hgap

theorem writtenFields_intercalate (e : String × Json) (rest : List (String × Json))
    (h : ∀ f ∈ e :: rest, Written f.2 (text f.2).toList) :
    WrittenFields e.1 e.2 rest (start.toList ++ ((String.intercalate ("," ++ start)
      ((e :: rest).map fun f => quote f.1 ++ (":" ++ gap) ++ text f.2)).toList ++
        (stop.toList ++ ['\x7d']))) := by
  induction rest generalizing e with
  | nil =>
    have hall := WrittenFields.last (k := e.1) hstart hgap (h e List.mem_cons_self) hstop
    simpa using hall
  | cons f rest ih =>
    have hrest := ih f fun u hu => h u (List.mem_cons_of_mem e hu)
    have hall := WrittenFields.more (k := e.1) hstart hgap (h e List.mem_cons_self) hrest
    simpa using hall

end Layout

theorem blank_newLine (level : Nat) : Blank (newLine level).toList := by
  intro c hc
  simp only [newLine, String.toList_ofList, List.mem_cons, List.mem_replicate] at hc
  obtain rfl | ⟨-, rfl⟩ := hc <;> decide

theorem blank_empty : Blank "".toList := by simp [Blank]

theorem blank_space : Blank " ".toList := by simp [Blank, isSpace]

theorem written_render (j : Json) : Written j (render j).toList := by
  induction j using induction_parts with
  | null => exact .null
  | bool b => rw [render]; exact .bool b
  | int n => rw [render]; exact .int n
  | float x => rw [render]; exact .float x
  | string s => rw [render]; exact .string s
  | array items ih =>
    rw [render, renderItems_eq_map]
    cases items with
    | nil => exact .noItems
    | cons v rest =>
      simpa using Written.array (writtenItems_intercalate blank_empty blank_empty v rest ih)
  | object fields ih =>
    rw [render, renderFields_eq_map]
    cases fields with
    | nil => exact .noFields
    | cons e rest =>
      simpa using Written.object
        (writtenFields_intercalate blank_empty blank_empty blank_empty e rest ih)

theorem written_renderIndented (level : Nat) (j : Json) : Written j (renderIndented level j).toList := by
  induction j using induction_parts generalizing level with
  | null => rw [renderIndented]; exact .null
  | bool b => rw [renderIndented]; exact .bool b
  | int n => rw [renderIndented]; exact .int n
  | float x => rw [renderIndented]; exact .float x
  | string s => rw [renderIndented]; exact .string s
  | array items ih =>
    cases items with
    | nil =>
      rw [renderIndented]
      exact .noItems
    | cons v rest =>
      have hitems := writtenItems_intercalate (blank_newLine (level + 1)) (blank_newLine level) v rest
        fun w hw => ih w hw (level + 1)
      rw [renderIndented, renderIndentedItems_eq_map]
      · simpa using Written.array hitems
      · simp
  | object fields ih =>
    cases fields with
    | nil =>
      rw [renderIndented]
      exact .noFields
    | cons e rest =>
      have hfields := writtenFields_intercalate (blank_newLine (level + 1)) (blank_newLine level)
        blank_space e rest fun f hf => ih f hf (level + 1)
      rw [renderIndented, renderIndentedFields_eq_map]
      · simpa using Written.object hfields
      · simp

/-! ## Reading back -/

theorem parse?_written {v : Json} {text : String} (h : Written v text.toList) :
    parse? text = reread 127 v := by
  have hread := value_written h 127 stops_nil
  obtain ⟨c, tail, htext, hc, -⟩ := h.opens
  have hskip : skip text.toList = text.toList := by
    rw [htext]
    exact skip_cons blank_empty hc tail
  rw [List.append_nil] at hread
  rw [parse?, hskip, hread]
  cases reread 127 v <;> rfl

theorem parse?_render (v : Json) : parse? v.render = reread 127 v :=
  parse?_written (written_render v)

theorem parse?_pretty (v : Json) : parse? v.pretty = reread 127 v :=
  parse?_written (written_renderIndented 0 v)

end ClassForge.Json
