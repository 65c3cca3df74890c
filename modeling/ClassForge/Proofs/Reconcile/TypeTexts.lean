import ClassForge.Proofs.Catalog.Lines

/-!
# Completing type texts

A part of a type text is settled if the name at its front needs no package. Completing settles every
part and leaves settled ones alone, so completing a second time changes nothing. The name of a primitive
type is settled, whatever classes the package has.
-/

namespace ClassForge

namespace Text

variable {ch : Char} {cs rest word : List Char} {name name' : String}

/-! ## Names with dots -/

def blankCodes : List Nat :=
  List.range' 9 5 ++ [0x20, 0x85, 0xA0, 0x1680] ++ List.range' 0x2000 11 ++
    [0x2028, 0x2029, 0x202F, 0x205F, 0x3000]

theorem isIdPart_of_isBlank (h : isBlank ch = true) : isIdPart ch = false := by
  have hcode : ch.toNat ∈ blankCodes := by
    simp only [isBlank, Bool.or_eq_true, Bool.and_eq_true, decide_eq_true_eq, beq_iff_eq] at h
    simp only [blankCodes, List.mem_append, List.mem_range'_1, List.mem_cons, List.not_mem_nil]
    omega
  have hall : (blankCodes.all fun n => !isIdPart (Char.ofNat n)) = true := by decide +kernel
  simpa using List.all_eq_true.1 hall _ hcode

/-- Made of identifiers and dots. -/
def Dotted (name : String) : Prop := ∀ ch ∈ name.toList, isIdPart ch = true ∨ ch = '.'

instance : DecidablePred Dotted := fun name => List.decidableBAll _ name.toList

theorem dotted_append : Dotted (name ++ name') ↔ Dotted name ∧ Dotted name' := by
  simp only [Dotted, String.toList_append, List.mem_append, or_imp, forall_and]

theorem Dotted.not_mem (h : Dotted name) (hpart : isIdPart ch = false) (hdot : ch ≠ '.') :
    ch ∉ name.toList := by
  intro hch
  simpa [hpart, hdot] using h ch hch

theorem Dotted.plain (h : Dotted name) : '[' ∉ name.toList ∧ '|' ∉ name.toList :=
  ⟨h.not_mem (by decide +kernel) (by decide), h.not_mem (by decide +kernel) (by decide)⟩

theorem Dotted.isBlank (h : Dotted name) (hch : ch ∈ name.toList) : isBlank ch = false := by
  by_contra hblank
  rw [Bool.not_eq_false] at hblank
  refine h.not_mem (isIdPart_of_isBlank hblank) ?_ hch
  rintro rfl
  cases hblank

theorem Dotted.eq_empty (h : Dotted name) (hblank : Blank name.toList) : name = "" := by
  rw [← String.toList_eq_nil_iff, List.eq_nil_iff_forall_not_mem]
  intro ch hch
  cases (hblank ch hch).symm.trans (h.isBlank hch)

/-! ## Trimming and cutting -/

theorem trimEnd_trim (cs : List Char) : trimEnd (trim cs) = trim cs := by
  simp only [trim, trimEnd, dropEndWhile_eq]
  exact List.rdropWhile_idempotent isBlank _

theorem trimmed_trimmed (s : String) : trimmed (trimmed s) = trimmed s := by
  rw [trimmed, trimmed, String.toList_ofList]
  congr 1
  cases h : trim s.toList with
  | nil => rfl
  | cons c rest =>
    rw [trim, trimStart, List.dropWhile_cons_of_neg (by simp [isBlank_of_trim h]), ← h, trimEnd_trim]

theorem exists_trim (cs : List Char) :
    ∃ front back, Blank front ∧ Blank back ∧ cs = front ++ trim cs ++ back := by
  refine ⟨cs.takeWhile isBlank, (cs.dropWhile isBlank).rtakeWhile isBlank,
    fun _ => List.mem_takeWhile_imp, fun _ => List.mem_rtakeWhile_imp, ?_⟩
  rw [trim_eq, List.append_assoc, List.rdropWhile_append_rtakeWhile, List.takeWhile_append_dropWhile]

theorem eq_of_cutAt {a b : List Char} (h : cutAt word cs = some (a, b)) : cs = a ++ (word ++ b) := by
  induction cs generalizing a with
  | nil =>
    obtain ⟨rest, hrest, heq⟩ := Option.map_eq_some_iff.1 h
    cases heq
    rw [List.nil_append, ← dropHead?_eq_some.1 hrest]
  | cons c cs ih =>
    rw [cutAt] at h
    cases hdrop : dropHead? word (c :: cs) with
    | some rest =>
      rw [hdrop] at h
      cases h
      rw [List.nil_append, ← dropHead?_eq_some.1 hdrop]
    | none =>
      rw [hdrop] at h
      obtain ⟨⟨a', b'⟩, hcut, heq⟩ := Option.map_eq_some_iff.1 h
      cases heq
      rw [List.cons_append, ← ih hcut]

theorem cutAt_append (h : ch ∉ cs) (rest : List Char) : cutAt (ch :: word) (cs ++ rest) =
    (cutAt (ch :: word) rest).map fun cut => (cs ++ cut.1, cut.2) := by
  induction cs with
  | nil => simp
  | cons c cs ih =>
    obtain ⟨hne, hmem⟩ : ch ≠ c ∧ ch ∉ cs := by simpa using h
    rw [List.cons_append, cutAt, dropHead?, if_neg hne, ih hmem, Option.map_map]
    rfl

end Text

namespace ClassRecord

variable {isClass : String → Bool} {package text part name rest front mid back : String}

/-! ## Settled texts -/

/-- What may follow the name of a type. -/
def Brackets (rest : String) : Prop := rest = "" ∨ ∃ more, rest = "[]" ++ more

/-- A name that means nothing by itself, while the package has a class of that name. -/
def Local (isClass : String → Bool) (package name : String) : Prop :=
  (name ∉ primitiveTypes ∧ isClass name = false ∧ package ≠ "") ∧ isClass (package ++ "." ++ name) = true

instance : Decidable (Local isClass package name) := inferInstanceAs (Decidable (_ ∧ _))

/-- However the text is read as a name and what follows it, the name needs no package. -/
def Settled (isClass : String → Bool) (package part : String) : Prop :=
  ∀ name rest, part = name ++ rest → Brackets rest → ¬ Local isClass package name

/-- The text is a name and maybe brackets, blanks around the two apart. -/
def Names (part name : String) : Prop :=
  ∃ mid rest, Text.Blank mid.toList ∧ Brackets rest ∧ Text.trimmed part = name ++ mid ++ rest

/-- The name at the front of a text, and the rest from the first pair of brackets on. -/
def cutType (text : String) : String × String :=
  ((Text.cutAt "[]".toList text.toList).map fun cut =>
    (String.ofList cut.1, "[]" ++ String.ofList cut.2)).getD (text, "")

theorem append_cutType (text : String) :
    text = (cutType text).1 ++ (cutType text).2 ∧ Brackets (cutType text).2 := by
  rw [cutType]
  rcases hcut : Text.cutAt "[]".toList text.toList with _ | ⟨base, more⟩
  · exact ⟨String.append_empty.symm, .inl rfl⟩
  · refine ⟨?_, .inr ⟨_, rfl⟩⟩
    rw [← String.toList_inj, Text.eq_of_cutAt hcut]
    simp

theorem cutType_append (hname : '[' ∉ name.toList) (hrest : Brackets rest) :
    (cutType (name ++ rest)).1 = name := by
  have hword : "[]".toList = ['[', ']'] := rfl
  rw [cutType, String.toList_append, hword, Text.cutAt_append hname]
  obtain rfl | ⟨more, rfl⟩ := hrest <;> simp [Text.cutAt, Text.dropHead?]

/-- Completing puts the package in front of the whole text, or leaves the text as it is. -/
theorem completeType_eq (isClass : String → Bool) (package text : String) :
    completeType isClass package text =
      if Local isClass package (cutType text).1 then package ++ "." ++ text else text := by
  have hcut : completeType isClass package text =
      let cut := cutType text
      if primitiveTypes.contains cut.1 || isClass cut.1 || package.isEmpty then text
      else if isClass (package ++ "." ++ cut.1) then package ++ "." ++ cut.1 ++ cut.2 else text := by
    rw [completeType, cutType]
    cases Text.cutAt "[]".toList text.toList <;> rfl
  simp only [hcut, Local, String.append_assoc, ← (append_cutType text).1]
  grind [String.isEmpty_iff]

theorem completeType_of_settled (h : Settled isClass package text) :
    completeType isClass package text = text := by
  obtain ⟨htext, hrest⟩ := append_cutType text
  rw [completeType_eq, if_neg (h _ _ htext hrest)]

/-- The parts of a text that are completed each for itself. -/
def typeParts (text : String) : List String :=
  if text.toList.contains '|' then (Text.split '|' text).map Text.trimmed else [text]

theorem resolveType_eq (isClass : String → Bool) (package text : String) :
    resolveType isClass package text =
      "|".intercalate ((typeParts text).map (completeType isClass package)) := by
  rw [resolveType, typeParts]
  split
  · simp only [List.map_map, Function.comp_def]
  · simp

theorem typeParts_ne_nil (text : String) : typeParts text ≠ [] := by
  rw [typeParts]
  split <;> simp [Text.split, Text.splitOn_eq, List.splitOn_ne_nil]

theorem not_mem_of_mem_typeParts (h : part ∈ typeParts text) : '|' ∉ part.toList := by
  rw [typeParts] at h
  split at h
  next =>
    obtain ⟨piece, hpiece, rfl⟩ := List.mem_map.1 h
    obtain ⟨front, back, _, _, heq⟩ := Text.exists_trim piece.toList
    have hbar := (Text.of_mem_split hpiece).1
    rw [heq] at hbar
    rw [Text.trimmed, String.toList_ofList]
    exact fun hmem => hbar (List.mem_append_left _ (List.mem_append_right _ hmem))
  next hbar =>
    rw [List.mem_singleton.1 h]
    simpa using hbar

/-! ## Classes with dotted names -/

section

variable (hnames : ∀ c, isClass c = true → Text.Dotted c)
include hnames

theorem Local.dotted (h : Local isClass package name) : Text.Dotted package ∧ Text.Dotted name := by
  have hall := hnames _ h.2
  rw [Text.dotted_append, Text.dotted_append] at hall
  exact ⟨hall.1.1, hall.2⟩

theorem settled_iff : Settled isClass package text ↔ ¬ Local isClass package (cutType text).1 := by
  constructor
  · intro h
    obtain ⟨htext, hrest⟩ := append_cutType text
    exact h _ _ htext hrest
  · rintro h name rest rfl hrest hlocal
    rw [cutType_append (hlocal.dotted hnames).2.plain.1 hrest] at h
    exact h hlocal

theorem settled_completeType (package text : String) :
    Settled isClass package (completeType isClass package text) := by
  rw [settled_iff hnames, completeType_eq]
  split
  next hlocal =>
    obtain ⟨htext, hrest⟩ := append_cutType text
    rw [htext, ← String.append_assoc, cutType_append (hnames _ hlocal.2).plain.1 hrest]
    -- with the package in front, the name is a class
    rintro ⟨⟨_, hclass, _⟩, _⟩
    cases hlocal.2.symm.trans hclass
  next hlocal => exact hlocal

theorem not_mem_completeType (h : '|' ∉ text.toList) :
    '|' ∉ (completeType isClass package text).toList := by
  rw [completeType_eq]
  split
  next hlocal => simp [(hlocal.dotted hnames).1.plain.2, h]
  next => exact h

theorem trimmed_completeType (h : Text.trimmed text = text) :
    Text.trimmed (completeType isClass package text) = completeType isClass package text := by
  rw [completeType_eq]
  split
  next hlocal =>
    obtain ⟨c, cs, hpackage⟩ : ∃ c cs, package.toList = c :: cs :=
      List.exists_cons_of_ne_nil (by simpa using hlocal.1.2.2)
    have hc : Text.isBlank c = false := (hlocal.dotted hnames).1.isBlank (by simp [hpackage])
    have htext : Text.trimEnd text.toList = text.toList := by
      rw [← h, Text.trimmed, String.toList_ofList, Text.trimEnd_trim]
    have hwhole : (package ++ "." ++ text).toList = c :: cs ++ '.' :: text.toList := by simp [hpackage]
    rw [← String.toList_inj, Text.trimmed, String.toList_ofList, hwhole, Text.trim, Text.trimStart,
      List.cons_append, List.dropWhile_cons_of_neg (by simp [hc]), ← List.cons_append,
      Text.trimEnd_append (by decide), htext]
  next => exact h

/-- A primitive type with blanks on both sides of its name: no class of the package has blanks. -/
theorem settled_of_primitive (hname : name ∈ primitiveTypes) (hfront : Text.Blank front.toList)
    (hmid : Text.Blank mid.toList) (hrest : Brackets rest) :
    Settled isClass package (front ++ name ++ mid ++ rest) := by
  have hdotted : ∀ p ∈ primitiveTypes, Text.Dotted p := by decide +kernel
  have hfree : '[' ∉ (front ++ name ++ mid).toList := by
    have hnot : Text.isBlank '[' ≠ true := by decide
    simp only [String.toList_append, List.mem_append, not_or]
    exact ⟨⟨fun h => hnot (hfront _ h), (hdotted name hname).plain.1⟩, fun h => hnot (hmid _ h)⟩
  rw [settled_iff hnames, cutType_append hfree hrest]
  intro hlocal
  have hall := (hlocal.dotted hnames).2
  rw [Text.dotted_append, Text.dotted_append] at hall
  rw [hall.1.1.eq_empty hfront, hall.2.eq_empty hmid, String.empty_append, String.append_empty] at hlocal
  exact hlocal.1.1 hname

theorem Names.settled (h : Names part name) (hname : name ∈ primitiveTypes)
    (hfront : Text.Blank front.toList) (hback : Text.Blank back.toList) :
    Settled isClass package (front ++ Text.trimmed part ++ back) := by
  obtain ⟨mid, rest, hmid, rfl | ⟨more, rfl⟩, htrim⟩ := h
  · have hblank : Text.Blank (mid ++ back).toList := by
      simpa [Text.Blank, or_imp, forall_and] using And.intro hmid hback
    have hsettled : Settled isClass package _ :=
      settled_of_primitive hnames hname hfront hblank (.inl rfl)
    simpa only [htrim, String.append_assoc, String.append_empty] using hsettled
  · have hrest : Brackets ("[]" ++ more ++ back) := .inr ⟨_, String.append_assoc⟩
    have hsettled : Settled isClass package _ := settled_of_primitive hnames hname hfront hmid hrest
    simpa only [htrim, String.append_assoc] using hsettled

/-! ## Unions -/

theorem split_resolveType (package text : String) :
    Text.split '|' (resolveType isClass package text) =
      (typeParts text).map (completeType isClass package) := by
  rw [resolveType_eq]
  refine Text.split_intercalate rfl (by simpa using typeParts_ne_nil text) fun part hpart => ?_
  obtain ⟨piece, hpiece, rfl⟩ := List.mem_map.1 hpart
  exact not_mem_completeType hnames (not_mem_of_mem_typeParts hpiece)

/-- The parts of a completed text are the completed parts: they need no trimming. -/
theorem typeParts_resolveType (package text : String) :
    typeParts (resolveType isClass package text) =
      (typeParts text).map (completeType isClass package) := by
  rw [← split_resolveType hnames, typeParts]
  split
  next hbar =>
    have htext : text.toList.contains '|' = true := by
      by_contra htext
      rw [resolveType, if_neg htext, List.contains_iff_mem] at hbar
      exact not_mem_completeType hnames (by simpa using htext) hbar
    rw [split_resolveType hnames, typeParts, if_pos htext]
    simp only [List.map_map, Function.comp_def, trimmed_completeType hnames (Text.trimmed_trimmed _)]
  next hbar => rw [Text.split_of_not_mem (by simpa using hbar)]

theorem resolveType_resolveType (package text : String) :
    resolveType isClass package (resolveType isClass package text) =
      resolveType isClass package text := by
  have hagain (part : String) : completeType isClass package (completeType isClass package part) =
      completeType isClass package part :=
    completeType_of_settled (settled_completeType hnames package part)
  rw [resolveType_eq _ _ (resolveType ..), typeParts_resolveType hnames, resolveType_eq]
  simp only [List.map_map, Function.comp_def, hagain]

theorem settled_of_mem_resolveType (h : part ∈ Text.split '|' (resolveType isClass package text)) :
    Settled isClass package part := by
  rw [split_resolveType hnames] at h
  obtain ⟨piece, _, rfl⟩ := List.mem_map.1 h
  exact settled_completeType hnames package piece

theorem primitives_resolveType (package text : String) :
    List.Forall₂ (fun part part' => ∀ p ∈ primitiveTypes, Names part p →
        part' = part ∨ part' = Text.trimmed part)
      (Text.split '|' text) (Text.split '|' (resolveType isClass package text)) := by
  have hempty : Text.Blank "".toList := Text.blank_nil
  rw [split_resolveType hnames, typeParts]
  split
  next =>
    rw [List.map_map, List.forall₂_map_right_iff, List.forall₂_same]
    intro part _ p hp hpart
    have hsettled : Settled isClass package _ := hpart.settled hnames hp hempty hempty
    rw [String.empty_append, String.append_empty] at hsettled
    exact .inr ((Function.comp_apply ..).trans (completeType_of_settled hsettled))
  next hbar =>
    -- a text that is no union is not trimmed, so its blanks stay around the name
    rw [Text.split_of_not_mem (by simpa using hbar)]
    refine .cons (fun p hp hpart => ?_) .nil
    obtain ⟨front, back, hfront, hback, htext⟩ := Text.exists_trim text.toList
    have hwhole : String.ofList front ++ Text.trimmed text ++ String.ofList back = text := by
      rw [← String.toList_inj, htext]
      simp [Text.trimmed]
    have hsettled : Settled isClass package
        (String.ofList front ++ Text.trimmed text ++ String.ofList back) :=
      hpart.settled hnames hp (by simpa) (by simpa)
    rw [hwhole] at hsettled
    exact .inl (completeType_of_settled hsettled)

end

end ClassRecord

namespace Metadata

open ClassRecord (resolveType Settled Names)

/-- A second completion in the same package changes nothing: every part of a completed text is settled.
A part that names a primitive type stays, apart from blanks around it. -/
theorem resolveType_stable (m : Metadata) (hnames : ∀ c ∈ m.classnames, Text.Dotted c)
    (package text : String) :
    let resolve := resolveType m.records.contains package
    resolve (resolve text) = resolve text ∧
    (∀ part ∈ Text.split '|' (resolve text), Settled m.records.contains package part) ∧
    List.Forall₂ (fun part part' => ∀ p ∈ primitiveTypes, Names part p →
        part' = part ∨ part' = Text.trimmed part)
      (Text.split '|' text) (Text.split '|' (resolve text)) := by
  have hclasses : ∀ c, m.records.contains c = true → Text.Dotted c := fun c hc =>
    hnames c (Table.mem_keys.2 (Table.contains_iff.1 hc))
  exact ⟨ClassRecord.resolveType_resolveType hclasses package text,
    fun _ => ClassRecord.settled_of_mem_resolveType hclasses,
    ClassRecord.primitives_resolveType hclasses package text⟩

def shadowing : Metadata :=
  { rootDir := ⟨"/"⟩, records := .ofList [("app.String", default), ("app.Widget", default)] }

theorem resolveType_stable_shadowing :
    (∀ c ∈ shadowing.classnames, Text.Dotted c) ∧
    resolveType shadowing.records.contains "app" " String|Widget[] |Text" = "String|app.Widget[]|Text" ∧
    resolveType shadowing.records.contains "app" "String|app.Widget[]|Text" =
      "String|app.Widget[]|Text" := by
  have hrun : (∀ c ∈ shadowing.classnames, Text.Dotted c) ∧
      resolveType shadowing.records.contains "app" " String|Widget[] |Text" =
        "String|app.Widget[]|Text" := by decide +kernel
  obtain ⟨hnames, hfirst⟩ := hrun
  have hagain := (resolveType_stable shadowing hnames "app" " String|Widget[] |Text").1
  rw [hfirst] at hagain
  exact ⟨hnames, hfirst, hagain⟩

end Metadata

end ClassForge
