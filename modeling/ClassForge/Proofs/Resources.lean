import ClassForge.Project.Resource
import ClassForge.Proofs.Files.Paths
import ClassForge.Proofs.Table

/-!
# What asset patterns select

A pattern is cut at its stars into texts that stand for themselves. It selects the resources whose names
consist of these texts, in order, with any text in the place of each star.
-/

namespace ClassForge

namespace Text

/-- Some text, and further ones that each follow a star. The star stands for the first text of a pair. -/
structure Pieces where
  first : List Char
  rest : List (List Char × List Char)
  first_plain : '*' ∉ first
  rest_plain : ∀ x ∈ rest, '*' ∉ x.2

def Pieces.pattern (s : Pieces) : List Char := s.first ++ s.rest.flatMap fun x => '*' :: x.2

def Pieces.text (s : Pieces) : List Char := s.first ++ s.rest.flatMap fun x => x.1 ++ x.2

namespace Regex

/-! ## The expression for a pattern -/

/-- What a character of a pattern becomes. -/
def itemOf (c : Char) : Item := if c = '*' then .many onLine else char c

def sourceOf (c : Char) : List Char := if c = '*' then ".*".toList else escape [c]

theorem intercalate_escape (p : List Char) :
    ".*".toList.intercalate ((splitOn '*' p).map escape) = p.flatMap sourceOf := by
  induction p with
  | nil => rfl
  | cons c p ih =>
    rw [List.flatMap_cons, ← ih, splitOn]
    cases hpieces : splitOn '*' p with
    | nil => exact absurd hpieces (splitOn_ne_nil '*' p)
    | cons piece pieces =>
      by_cases hc : c = '*'
      · simp [hc, sourceOf, escape, List.intercalate]
      · cases pieces <;> simp [hc, sourceOf, escape, List.intercalate]

theorem compile?_sourceOf (done : Regex) (c : Char) (rest : List Char) :
    compile? done (sourceOf c ++ rest) = compile? (itemOf c :: done) rest := by
  by_cases hc : c = '*'
  · subst hc
    simp [sourceOf, itemOf, compile?]
  · by_cases hspecial : c ∈ special
    · simp [sourceOf, itemOf, hc, escape, hspecial, compile?]
    · simp only [sourceOf, itemOf, if_neg hc, escape, List.flatMap_cons, if_neg hspecial]
      rw [List.flatMap_nil, List.append_nil, List.singleton_append]
      rw [compile?, if_neg hspecial]
      -- none of the characters that are read in another way is a plain one
      all_goals
        intros
        subst c
        exact hspecial (by decide)

theorem compile?_flatMap (done : Regex) (p rest : List Char) :
    compile? done (p.flatMap sourceOf ++ rest) = compile? ((p.map itemOf).reverse ++ done) rest := by
  induction p generalizing done with
  | nil => rfl
  | cons c p ih =>
    rw [List.flatMap_cons, List.append_assoc, compile?_sourceOf, ih]
    simp

/-! ## What the expression stands for -/

variable {p t : List Char}

/-- Whether a pattern stands for a whole text. -/
def stands (p t : List Char) : Bool := matchesHere (p.map itemOf ++ [.stop]) false t

theorem repeated_start (items : Regex) (t : List Char) :
    repeated (fun _ => true) (matchesHere (.start :: items)) false t = false := by
  induction t with
  | nil => rfl
  | cons c t ih =>
    rw [repeated, ih]
    rfl

theorem matchesHere_atStart (p : List Char) (atStart : Bool) (t : List Char) :
    matchesHere (p.map itemOf ++ [.stop]) atStart t = stands p t := by
  induction p generalizing atStart t with
  | nil => rfl
  | cons d p ih =>
    rw [stands, List.map_cons, List.cons_append]
    by_cases hd : d = '*'
    · rw [itemOf, if_pos hd]
      cases t <;> simp [matchesHere, repeated, ih]
    · rw [itemOf, if_neg hd, char]
      cases t <;> simp [matchesHere]

theorem isMatch_anchored (p t : List Char) :
    isMatch (.start :: (p.map itemOf ++ [.stop])) t = stands p t := by
  rw [isMatch, ← matchesHere_atStart p true]
  cases t with
  | nil => rfl
  | cons c t => rw [repeated, repeated_start, matchesHere, Bool.true_and, Bool.and_false, Bool.or_false]

theorem stands_nil : stands [] t = true ↔ t = [] := by
  simp [stands, matchesHere]

theorem stands_char {d : Char} (hd : d ≠ '*') :
    stands (d :: p) t = true ↔ ∃ r, t = d :: r ∧ stands p r = true := by
  rw [stands, List.map_cons, List.cons_append, itemOf, if_neg hd, char]
  cases t with
  | nil => simp [matchesHere]
  | cons c t =>
    rw [matchesHere, matchesHere_atStart, Bool.and_eq_true, beq_iff_eq]
    constructor
    · rintro ⟨rfl, hp⟩
      exact ⟨t, rfl, hp⟩
    · rintro ⟨r, heq, hp⟩
      cases heq
      exact ⟨rfl, hp⟩

/-- On one line a star can stand for anything. -/
theorem stands_star (ht : '\n' ∉ t) :
    stands ('*' :: p) t = true ↔ ∃ w r, t = w ++ r ∧ stands p r = true := by
  have hopen (t : List Char) : stands ('*' :: p) t =
    repeated onLine (matchesHere (p.map itemOf ++ [.stop])) false t := rfl
  induction t with
  | nil => simp [hopen, repeated, matchesHere_atStart, and_assoc]
  | cons c t ih =>
    obtain ⟨hc, ht⟩ : '\n' ≠ c ∧ '\n' ∉ t := by simpa using ht
    have hline : onLine c = true := by simpa [onLine] using Ne.symm hc
    rw [hopen, repeated, matchesHere_atStart, hline, Bool.true_and, Bool.or_eq_true, ← hopen]
    refine (or_congr_right (ih ht)).trans ⟨?_, ?_⟩
    · rintro (h | ⟨w, r, rfl, h⟩)
      · exact ⟨[], _, rfl, h⟩
      · exact ⟨c :: w, r, rfl, h⟩
    · rintro ⟨w, r, heq, h⟩
      cases w with
      | nil =>
        rw [List.nil_append] at heq
        exact .inl (heq ▸ h)
      | cons d w =>
        obtain ⟨-, rfl⟩ := List.cons.inj heq
        exact .inr ⟨w, r, rfl, h⟩

theorem stands_literal {l : List Char} (hl : '*' ∉ l) (hp : stands p t = true) :
    stands (l ++ p) (l ++ t) = true := by
  induction l with
  | nil => exact hp
  | cons d l ih =>
    obtain ⟨hd, hl⟩ : '*' ≠ d ∧ '*' ∉ l := by simpa using hl
    exact (stands_char (Ne.symm hd)).2 ⟨_, rfl, ih hl⟩

theorem stands_text (s : Pieces) (hs : '\n' ∉ s.text) : stands s.pattern s.text = true := by
  obtain ⟨first, rest, hfirst, hrest⟩ := s
  refine stands_literal hfirst ?_
  replace hs : '\n' ∉ rest.flatMap fun x => x.1 ++ x.2 := fun h => hs (List.mem_append_right _ h)
  induction rest with
  | nil => exact stands_nil.2 rfl
  | cons x rest ih =>
    obtain ⟨hx, hrest⟩ := List.forall_mem_cons.1 hrest
    rw [List.flatMap_cons, List.cons_append, stands_star hs, List.flatMap_cons]
    refine ⟨x.1, _, List.append_assoc .., stands_literal hx (ih hrest fun h => hs ?_)⟩
    exact List.mem_append_right _ h

theorem exists_pieces (ht : '\n' ∉ t) (h : stands p t = true) :
    ∃ s : Pieces, s.pattern = p ∧ s.text = t := by
  induction p generalizing t with
  | nil => exact ⟨⟨[], [], by simp, by simp⟩, rfl, (stands_nil.1 h).symm⟩
  | cons d p ih =>
    by_cases hd : d = '*'
    · subst hd
      obtain ⟨w, r, rfl, hr⟩ := (stands_star ht).1 h
      obtain ⟨s, rfl, rfl⟩ := ih (fun h => ht (List.mem_append_right _ h)) hr
      refine ⟨⟨[], (w, s.first) :: s.rest, by simp, ?_⟩, rfl, List.append_assoc ..⟩
      exact List.forall_mem_cons.2 ⟨s.first_plain, s.rest_plain⟩
    · obtain ⟨r, rfl, hr⟩ := (stands_char hd).1 h
      obtain ⟨s, rfl, rfl⟩ := ih (fun h => ht (List.mem_cons_of_mem _ h)) hr
      refine ⟨⟨d :: s.first, s.rest, ?_, s.rest_plain⟩, rfl, rfl⟩
      simpa [Ne.symm hd] using s.first_plain

theorem stands_iff (ht : '\n' ∉ t) : stands p t = true ↔ ∃ s : Pieces, s.pattern = p ∧ s.text = t := by
  refine ⟨exists_pieces ht, ?_⟩
  rintro ⟨s, rfl, rfl⟩
  exact stands_text s ht

end Regex

/-- Without a star there is nothing to fill in. -/
theorem exists_pieces_of_plain {p : List Char} (hp : '*' ∉ p) (t : List Char) :
    (∃ s : Pieces, s.pattern = p ∧ s.text = t) ↔ t = p := by
  constructor
  · rintro ⟨⟨first, rest, hfirst, hrest⟩, rfl, rfl⟩
    cases rest with
    | nil => rfl
    | cons x rest => simp [Pieces.pattern] at hp
  · rintro rfl
    exact ⟨⟨t, [], hp, by simp⟩, List.append_nil t, List.append_nil t⟩

end Text

namespace ResourceIndex

variable (r : ResourceIndex) (patterns : List String) (id : String)

theorem assetPattern?_of_star {p : List Char} (hp : '*' ∈ p) :
    assetPattern? p = some (.start :: (p.map Text.Regex.itemOf ++ [.stop])) := by
  rw [assetPattern?, if_pos hp, Text.Regex.intercalate_escape, List.cons_append, Text.Regex.compile?,
    Text.Regex.compile?_flatMap]
  simp [Text.Regex.compile?]

/-- Whether a pattern selects a resource, as an expression or as its name. -/
def selects (p id : String) : Bool :=
  match assetPattern? p.toList with
  | some expression => expression.isMatch id.toList
  | none => id = p

theorem mem_addMatches {selected : NameSet} {p : String} : id ∈ (r.addMatches selected p).toNames ↔
    id ∈ r.files.keys ∧ selects p id = true ∨ id ∈ selected.toNames := by
  rw [addMatches, selects]
  cases assetPattern? p.toList with
  | some expression => rw [NameSet.mem_foldl_add, List.mem_filter]
  | none =>
    simp only [decide_eq_true_eq]
    have hkey : p ∈ r.files.keys ↔ r.files.contains p = true :=
      Table.mem_keys.trans Table.contains_iff.symm
    split
    · next hp =>
      rw [NameSet.mem_add]
      refine or_congr_left ⟨?_, And.right⟩
      rintro rfl
      exact ⟨hkey.2 hp, rfl⟩
    · next hp =>
      refine ⟨.inr, ?_⟩
      rintro (⟨hid, rfl⟩ | hid)
      · exact absurd (hkey.1 hid) hp
      · exact hid

theorem mem_select : id ∈ (r.select patterns).toNames ↔
    id ∈ r.files.keys ∧ ∃ p ∈ patterns, selects p id = true := by
  have hfold (l : List String) (selected : NameSet) : id ∈ (l.foldl r.addMatches selected).toNames ↔
      (id ∈ r.files.keys ∧ ∃ p ∈ l, selects p id = true) ∨ id ∈ selected.toNames := by
    induction l generalizing selected with
    | nil => simp
    | cons p l ih =>
      rw [List.foldl_cons, ih, mem_addMatches]
      simp only [List.mem_cons, exists_eq_or_imp]
      rw [and_or_left, or_assoc, or_left_comm]
  simp [select, hfold]

/-- An expression and a name select alike. -/
theorem selects_iff {p id : String} (hid : '\n' ∉ id.toList) :
    selects p id = true ↔ ∃ s : Text.Pieces, s.pattern = p.toList ∧ s.text = id.toList := by
  by_cases hp : '*' ∈ p.toList
  · rw [selects, assetPattern?_of_star hp]
    dsimp only
    rw [Text.Regex.isMatch_anchored, Text.Regex.stands_iff hid]
  · rw [selects, assetPattern?, if_neg hp, Text.exists_pieces_of_plain hp, decide_eq_true_eq,
      String.toList_inj]

/-- A resource is selected exactly if its name comes of filling the stars of some pattern, all other
characters of which stand for themselves. -/
theorem mem_select_iff_pieces (hline : ∀ id ∈ r.files.keys, '\n' ∉ id.toList) :
    id ∈ (r.select patterns).toNames ↔ id ∈ r.files.keys ∧
      ∃ p ∈ patterns, ∃ s : Text.Pieces, s.pattern = p.toList ∧ s.text = id.toList := by
  rw [mem_select]
  refine and_congr_right fun h => exists_congr fun p => and_congr_right fun _ => ?_
  exact selects_iff (hline id h)

def images : ResourceIndex where
  files := .ofList [("app/a.png", ⟨"a"⟩), ("app/b.png", ⟨"b"⟩)]

-- The first star stands for nothing.
theorem mem_select_images : (∀ id ∈ images.files.keys, '\n' ∉ id.toList) ∧
    "app/b.png" ∈ (images.select ["app/a.png", "*a*/*.png"]).toNames := by
  have hline : ∀ id ∈ images.files.keys, '\n' ∉ id.toList := by decide +kernel
  refine ⟨hline, (mem_select_iff_pieces images _ _ hline).2
    ⟨by decide +kernel, "*a*/*.png", by simp, ?_⟩⟩
  exact ⟨⟨[], [([], ['a']), ("pp".toList, ['/']), (['b'], ".png".toList)], by decide, by decide⟩,
    by decide, by decide⟩

end ResourceIndex

end ClassForge
