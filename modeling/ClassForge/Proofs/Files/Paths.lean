import ClassForge.Files.Path
import Mathlib.Data.List.Basic

/-!
# The parts of paths

What a path leads to is said by its parts. They are read off the texts between its slashes, so they are
those of its beginning followed by those of its end.
-/

namespace ClassForge

/-! ## Cutting a text at a character -/

namespace Text

variable {sep : Char}

theorem splitOn_eq (sep : Char) (cs : List Char) : splitOn sep cs = cs.splitOn sep := by
  induction cs with
  | nil => rfl
  | cons c cs ih =>
    rw [splitOn, ih, List.splitOn_cons_eq_if_modifyHead]
    cases h : cs.splitOn sep with
    | nil => exact absurd h (List.splitOn_ne_nil sep cs)
    | cons piece pieces => by_cases hc : c = sep <;> simp [hc]

theorem splitOn_ne_nil (sep : Char) (cs : List Char) : splitOn sep cs ≠ [] := by
  rw [splitOn_eq]
  exact List.splitOn_ne_nil sep cs

theorem of_mem_splitOn {cs piece : List Char} (h : piece ∈ splitOn sep cs) :
    sep ∉ piece ∧ piece ⊆ cs := by
  induction cs generalizing piece with
  | nil =>
    rw [splitOn, List.mem_singleton] at h
    simp [h]
  | cons c cs ih =>
    rw [splitOn] at h
    cases hpieces : splitOn sep cs with
    | nil =>
      rw [hpieces, List.mem_singleton] at h
      simp [h]
    | cons first pieces =>
      rw [hpieces] at h ih
      by_cases hc : c = sep
      · simp only [if_pos hc, List.mem_cons] at h
        obtain rfl | h := h
        · simp
        · exact (ih (List.mem_cons.2 h)).imp_right (List.subset_cons_of_subset c)
      · simp only [if_neg hc, List.mem_cons] at h
        obtain rfl | h := h
        · obtain ⟨hsep, hsub⟩ := ih List.mem_cons_self
          exact ⟨by simp [Ne.symm hc, hsep], List.cons_subset_cons c hsub⟩
        · exact (ih (List.mem_cons_of_mem _ h)).imp_right (List.subset_cons_of_subset c)

theorem of_mem_split {s piece : String} (h : piece ∈ split sep s) :
    sep ∉ piece.toList ∧ piece.toList ⊆ s.toList := by
  obtain ⟨cs, hcs, rfl⟩ := List.mem_map.1 h
  rw [String.toList_ofList]
  exact of_mem_splitOn hcs

theorem split_of_toList {s a b : String} (h : s.toList = a.toList ++ sep :: b.toList) :
    split sep s = split sep a ++ split sep b := by
  simp only [split, splitOn_eq, h, List.splitOn_append_cons_self, List.map_append]

theorem toList_eq_intercalate (sep : Char) (s : String) :
    s.toList = [sep].intercalate ((split sep s).map String.toList) := by
  simp only [split, splitOn_eq, List.map_map, Function.comp_def, String.toList_ofList, List.map_id',
    List.intercalate_splitOn]

theorem split_inj {a b : String} (h : split sep a = split sep b) : a = b := by
  rw [← String.toList_inj, toList_eq_intercalate sep a, toList_eq_intercalate sep b, h]

theorem split_of_not_mem {s : String} (h : sep ∉ s.toList) : split sep s = [s] := by
  rw [split, splitOn_eq, List.splitOn_eq_singleton h, List.map_singleton, String.ofList_toList]

theorem split_intercalate {word : String} {l : List String} (hword : word.toList = [sep]) (hl : l ≠ [])
    (h : ∀ s ∈ l, sep ∉ s.toList) : split sep (word.intercalate l) = l := by
  have hpieces : ([sep].intercalate (l.map String.toList)).splitOn sep = l.map String.toList :=
    List.splitOn_intercalate sep (by simpa using h) (by simpa using hl)
  rw [split, splitOn_eq, String.toList_intercalate, hword, hpieces, List.map_map]
  simp [Function.comp_def]

end Text

/-! ## Parts -/

namespace Path

variable {p : Path} {first name more s : String} {rest l : List String}

def counted (l : List String) : List PathPart := l.filterMap PathPart.ofSegment?

/-- What the text before the first slash stands for. -/
def startOf (first : String) (rest : List String) : List PathPart :=
  if first = "" ∧ rest ≠ [] then [.root]
  else if first = "." then [.here]
  else (PathPart.ofSegment? first).toList

theorem counted_append (l l' : List String) : counted (l ++ l') = counted l ++ counted l' :=
  List.filterMap_append

theorem exists_segments (p : Path) : ∃ first rest, p.segments = first :: rest := by
  refine List.exists_cons_of_ne_nil ?_
  simp [segments, Text.split, Text.splitOn_eq, List.splitOn_ne_nil]

theorem toList_text (p : Path) : p.text.toList = ['/'].intercalate (p.segments.map String.toList) :=
  Text.toList_eq_intercalate '/' p.text

theorem isAbsolute_iff (h : p.segments = first :: rest) :
    p.isAbsolute = true ↔ first = "" ∧ rest ≠ [] := by
  have hslash : '/' ∉ first.toList :=
    (Text.of_mem_split (s := p.text) (by rw [← segments, h]; exact List.mem_cons_self)).1
  have htext := p.toList_text
  rw [h, List.map_cons] at htext
  have hhead : first.toList.head? ≠ some '/' := fun heq => hslash (List.mem_of_head? heq)
  simp only [isAbsolute, htext, decide_eq_true_eq]
  cases rest with
  | nil => simp [hhead]
  | cons second rest =>
    rw [List.map_cons, List.intercalate_cons_cons]
    cases hfirst : first.toList with
    | nil => simp [String.toList_eq_nil_iff.1 hfirst]
    | cons c cs =>
      have hne : first ≠ "" := by
        rintro rfl
        cases hfirst
      simp only [hfirst, List.head?_cons] at hhead
      simpa [hne] using hhead

theorem parts_eq (h : p.segments = first :: rest) : p.parts = startOf first rest ++ counted rest := by
  simp only [parts, h, startOf, counted, isAbsolute_iff h]

theorem startOf_congr {rest' : List String} (h : first = "" → (rest = [] ↔ rest' = [])) :
    startOf first rest = startOf first rest' := by
  by_cases hfirst : first = ""
  · simp only [startOf, ne_eq, h hfirst]
  · simp only [startOf, hfirst, false_and]

theorem parts_eq_append {l more : List String} (h : p.segments = first :: (l ++ more))
    (hmore : more ≠ []) : p.parts = startOf first more ++ counted l ++ counted more := by
  have hstart : startOf first (l ++ more) = startOf first more := startOf_congr (by simp [hmore])
  rw [parts_eq h, counted_append, ← List.append_assoc, hstart]

theorem parts_child (hp : p.text ≠ "") (hmore : Path.isAbsolute ⟨more⟩ = false) :
    (p.child more).parts = p.parts ++ counted (Text.split '/' more) := by
  have hempty : p.text.isEmpty = false := by simpa using hp
  obtain ⟨next, others, hnext⟩ : ∃ next others, Text.split '/' more = next :: others :=
    exists_segments ⟨more⟩
  by_cases hslash : p.text.toList.getLast? = some '/'
  · -- The path ends with a slash, and the empty text after it is not a part.
    have htext : p.child more = ⟨p.text ++ more⟩ := by simp [child, join, hmore, hempty, hslash]
    obtain ⟨front, hfront⟩ := List.getLast?_eq_some_iff.1 hslash
    obtain ⟨first, l, hfirst⟩ : ∃ first l, Text.split '/' (String.ofList front) = first :: l :=
      exists_segments ⟨String.ofList front⟩
    have hsegments : p.segments = first :: (l ++ [""]) := by
      rw [segments, Text.split_of_toList (a := String.ofList front) (b := "") (by simp [hfront]),
        hfirst]
      rfl
    have hchild : (p.child more).segments = first :: (l ++ next :: others) := by
      rw [htext, segments, Text.split_of_toList (a := String.ofList front) (b := more)
        (by simp [hfront]), hfirst, hnext]
      rfl
    rw [parts_eq_append hsegments (by simp), parts_eq_append hchild (by simp), hnext]
    simp [startOf, counted, PathPart.ofSegment?]
  · have htext : p.child more = ⟨p.text ++ "/" ++ more⟩ := by
      simp [child, join, hmore, hempty, hslash]
    obtain ⟨first, rest, hfirst⟩ := p.exists_segments
    have hchild : (p.child more).segments = first :: (rest ++ next :: others) := by
      rw [htext, segments, Text.split_of_toList (a := p.text) (b := more) (by simp), hnext,
        ← segments, hfirst]
      rfl
    have hstart : startOf first (next :: others) = startOf first rest := by
      refine startOf_congr fun hnil => iff_of_false (by simp) fun hrest => hp ?_
      have htext := p.toList_text
      rw [hfirst, hnil, hrest] at htext
      exact String.toList_eq_nil_iff.1 (by simpa using htext)
    rw [parts_eq_append hchild (by simp), parts_eq hfirst, hstart, hnext]

/-! ## The last part -/

theorem dropIdle_cases (l : List String) : dropIdle l = [] ∧ counted l = [] ∨
    ∃ front s part, dropIdle l = front ++ [s] ∧ front ++ [s] ⊆ l ∧
      PathPart.ofSegment? s = some part ∧ counted l = counted front ++ [part] := by
  induction l with
  | nil => exact .inl ⟨rfl, rfl⟩
  | cons a l ih =>
    have hcounted : counted (a :: l) = (PathPart.ofSegment? a).toList ++ counted l := by
      cases h : PathPart.ofSegment? a <;> simp [counted, h]
    have hidle : dropIdle (a :: l) =
        if dropIdle l = [] then (if a = "" ∨ a = "." then [] else [a]) else a :: dropIdle l := by
      rw [dropIdle, Text.dropEndWhile, ← dropIdle]
      split
      · next hnil => simp [hnil]
      · next hne => rw [if_neg hne]
    obtain ⟨hnil, hnone⟩ | ⟨front, s, part, hdrop, hsub, hpart, heq⟩ := ih
    · rw [hidle, if_pos hnil, hcounted, hnone, List.append_nil]
      by_cases ha : a = "" ∨ a = "."
      · exact .inl ⟨if_pos ha, by simp [PathPart.ofSegment?, ha]⟩
      · have hpart : ∃ part, PathPart.ofSegment? a = some part := by
          simp only [PathPart.ofSegment?, if_neg ha]
          split_ifs <;> exact ⟨_, rfl⟩
        obtain ⟨part, hpart⟩ := hpart
        exact .inr ⟨[], a, part, if_neg ha, by simp, hpart, by simp [hpart, counted]⟩
    · refine .inr ⟨a :: front, s, part, ?_, ?_, hpart, ?_⟩
      · rw [hidle, if_neg (by simp [hdrop]), hdrop]
        rfl
      · exact List.cons_subset_cons a hsub
      · rw [hcounted, heq]
        cases h : PathPart.ofSegment? a <;> simp [counted, h]

def Proper (s : String) : Prop := ¬(s = "" ∨ s = "." ∨ s = "..")

theorem Proper.ofSegment? (h : Proper s) : PathPart.ofSegment? s = some (.name s) := by
  simp only [Proper, not_or] at h
  simp [PathPart.ofSegment?, h]

theorem proper_of_ofSegment? (h : PathPart.ofSegment? s = some (.name name)) :
    s = name ∧ Proper s := by
  rw [PathPart.ofSegment?] at h
  split_ifs at h with hidle hup
  · cases h
  · refine ⟨PathPart.name.inj (Option.some.inj h), ?_⟩
    rintro (hs | hs | hs)
    · exact hidle (.inl hs)
    · exact hidle (.inr hs)
    · exact hup hs

theorem Proper.startOf (h : Proper first) : startOf first rest = [.name first] := by
  have hpart := h.ofSegment?
  simp only [Proper, not_or] at h
  simp [Path.startOf, h, hpart]

theorem fileName?_eq_some :
    p.fileName? = some name ↔ p.spine.getLast? = some name ∧ Proper name := by
  rw [fileName?, Proper]
  cases p.spine.getLast? with
  | none => simp
  | some s =>
    dsimp only
    split_ifs with hs
    · simp only [false_iff, Option.some.injEq]
      rintro ⟨rfl, hnot⟩
      exact hnot hs
    · simp only [Option.some.injEq]
      constructor
      · rintro rfl
        exact ⟨rfl, hs⟩
      · exact fun h => h.1

theorem splitLast_eq {sep : Char} {cs a b : List Char} (h : Text.splitLast sep cs = some (a, b)) :
    cs = a ++ sep :: b := by
  induction cs generalizing a with
  | nil => cases h
  | cons c cs ih =>
    rw [Text.splitLast] at h
    cases hrest : Text.splitLast sep cs with
    | some ab =>
      rw [hrest] at h
      cases h
      exact congrArg (c :: ·) (ih hrest)
    | none =>
      rw [hrest] at h
      dsimp only at h
      split_ifs at h with hc
      cases h
      rw [hc, List.nil_append]

theorem stemOf_cases (h : name ≠ "") : stemOf name ≠ "" ∧ (stemOf name).toList <+: name.toList := by
  rw [stemOf]
  split
  · exact ⟨h, List.prefix_rfl⟩
  · next a b hne heq =>
    refine ⟨fun hnil => hne ?_, ?_⟩
    · exact String.ofList_injective hnil
    · rw [String.toList_ofList, splitLast_eq heq]
      exact List.prefix_append a _
  · exact ⟨h, List.prefix_rfl⟩

theorem proper_extended {stem extension : String} (hstem : stem ≠ "") (hne : extension ≠ "") :
    Proper (stem ++ "." ++ extension) := by
  have hlength {s : String} (h : s ≠ "") : 0 < s.toList.length :=
    List.length_pos_iff.2 fun hnil => h (String.toList_eq_nil_iff.1 hnil)
  have htotal : 3 ≤ (stem ++ "." ++ extension).toList.length := by
    have := hlength hstem
    have := hlength hne
    simp only [String.toList_append, List.length_append, show ".".toList.length = 1 from rfl]
    omega
  rintro (h | h | h)
  all_goals
    rw [h] at htotal
    revert htotal
    decide

theorem segments_intercalate (hl : l ≠ []) (h : ∀ s ∈ l, '/' ∉ s.toList) :
    (⟨"/".intercalate l⟩ : Path).segments = l := Text.split_intercalate rfl hl h

theorem parts_of_fileName (h : p.fileName? = some name) :
    ∃ front, p.parts = front ++ [PathPart.name name] ∧ ∀ extension, extension ≠ "" → '/' ∉ extension.toList →
      (p.withExtension extension).parts = front ++ [PathPart.name (stemOf name ++ "." ++ extension)] := by
  obtain ⟨hlast, hname⟩ := fileName?_eq_some.1 h
  have hnonempty : name ≠ "" := fun hnil => hname (.inl hnil)
  obtain ⟨hstem, hbegins⟩ := stemOf_cases hnonempty
  obtain ⟨first, rest, hfirst⟩ := p.exists_segments
  have hslash : ∀ s ∈ first :: rest, '/' ∉ s.toList := by
    rw [← hfirst]
    exact fun s hs => (Text.of_mem_split hs).1
  have hspine : p.spine = first :: dropIdle rest := by rw [spine, hfirst]
  have hwith (extension : String) (hne : extension ≠ "") :
      p.withExtension extension =
        ⟨"/".intercalate (p.spine.dropLast ++ [stemOf name ++ "." ++ extension])⟩ := by
    simp [withExtension, h, hne]
  have hfree (hmem : name ∈ first :: rest) (extension : String) (hext : '/' ∉ extension.toList) :
      '/' ∉ (stemOf name ++ "." ++ extension).toList := by
    have hpre : '/' ∉ (stemOf name).toList := fun hc => hslash name hmem (hbegins.subset hc)
    simp [hpre, hext]
  obtain ⟨hidle, hnone⟩ | ⟨front, s, part, hdrop, hsub, hpart, heq⟩ := dropIdle_cases rest
  · -- Only the text before the first slash counts.
    rw [hspine, hidle] at hlast hwith
    obtain rfl : first = name := by simpa using hlast
    refine ⟨[], by simp [parts_eq hfirst, hnone, hname.startOf], fun extension hne hext => ?_⟩
    have hsegments : (p.withExtension extension).segments = [stemOf first ++ "." ++ extension] := by
      rw [hwith extension hne]
      exact segments_intercalate (by simp) (by simpa using hfree List.mem_cons_self extension hext)
    rw [parts_eq hsegments, (proper_extended hstem hne).startOf]
    rfl
  · rw [hspine, hdrop, ← List.cons_append] at hlast hwith
    obtain rfl := Option.some.inj (List.getLast?_concat.symm.trans hlast)
    have hmem : s ∈ rest := hsub (by simp)
    have hrest : rest ≠ [] := List.ne_nil_of_mem hmem
    rw [hname.ofSegment?] at hpart
    cases hpart
    refine ⟨startOf first rest ++ counted front, by rw [parts_eq hfirst, heq, List.append_assoc],
      fun extension hne hext => ?_⟩
    have hsegments : (p.withExtension extension).segments =
        first :: (front ++ [stemOf s ++ "." ++ extension]) := by
      rw [hwith extension hne, List.dropLast_concat]
      refine segments_intercalate (by simp) fun x hx => ?_
      simp only [List.cons_append, List.mem_cons, List.mem_append, List.not_mem_nil, or_false] at hx
      obtain rfl | hx | rfl := hx
      · exact hslash x List.mem_cons_self
      · exact hslash x (List.mem_cons_of_mem _ (hsub (List.mem_append_left _ hx)))
      · exact hfree (List.mem_cons_of_mem _ hmem) extension hext
    have hstart : startOf first [stemOf s ++ "." ++ extension] = startOf first rest :=
      startOf_congr (by simp [hrest])
    rw [parts_eq_append hsegments (by simp), hstart]
    simp [counted, (proper_extended hstem hne).ofSegment?]

theorem fileName?_of_parts {front : List PathPart} (h : p.parts = front ++ [PathPart.name name]) :
    p.fileName? = some name := by
  obtain ⟨first, rest, hfirst⟩ := p.exists_segments
  have hspine : p.spine = first :: dropIdle rest := by rw [spine, hfirst]
  rw [parts_eq hfirst] at h
  rw [fileName?_eq_some, hspine]
  obtain ⟨hidle, hnone⟩ | ⟨kept, s, part, hdrop, -, hpart, heq⟩ := dropIdle_cases rest
  · have hmem : .name name ∈ startOf first rest := by
      rw [hnone, List.append_nil] at h
      simp [h]
    rw [startOf] at hmem
    split_ifs at hmem
    · simp at hmem
    · simp at hmem
    · obtain ⟨rfl, hproper⟩ := proper_of_ofSegment? (Option.mem_toList.1 hmem)
      exact ⟨by simp [hidle], hproper⟩
  · rw [heq, ← List.append_assoc] at h
    obtain rfl : part = .name name := by simpa using (List.append_inj' h rfl).2
    obtain ⟨rfl, hproper⟩ := proper_of_ofSegment? hpart
    rw [hdrop, ← List.cons_append]
    exact ⟨List.getLast?_concat, hproper⟩

/-! ## Files of classes -/

/-- The parts are those of the root, or they end with a name. -/
def Ends (parts : List PathPart) : Prop :=
  parts = [.root] ∨ ∃ front name, parts = front ++ [PathPart.name name]

theorem counted_cases (h : ∀ s ∈ l, '.' ∉ s.toList) :
    counted l = [] ∨ ∃ front name, counted l = front ++ [PathPart.name name] := by
  obtain hnil | ⟨front, part, heq⟩ := (counted l).eq_nil_or_concat
  · exact .inl hnil
  · refine .inr ⟨front, ?_⟩
    obtain ⟨s, hs, hpart⟩ : ∃ s ∈ l, PathPart.ofSegment? s = some part :=
      List.mem_filterMap.1 (by rw [← counted, heq]; simp)
    have hproper : Proper s := by
      rintro (rfl | rfl | rfl)
      · cases hpart
      · cases hpart
      · exact h _ hs (by decide)
    rw [hproper.ofSegment?] at hpart
    exact ⟨s, by rw [heq, ← Option.some.inj hpart, List.concat_eq_append]⟩

theorem ends_append {parts more : List PathPart} (h : Ends parts)
    (hmore : more = [] ∨ ∃ front name, more = front ++ [PathPart.name name]) : Ends (parts ++ more) := by
  obtain rfl | ⟨front, name, rfl⟩ := hmore
  · rwa [List.append_nil]
  · exact .inr ⟨parts ++ front, name, by rw [List.append_assoc]⟩

theorem text_child_ne (hp : p.text ≠ "") (hmore : Path.isAbsolute ⟨more⟩ = false) :
    (p.child more).text ≠ "" := by
  intro hnil
  have hempty : p.text.isEmpty = false := by simpa using hp
  simp only [child, join, hmore, hempty, Bool.false_eq_true, or_self, if_false] at hnil
  split_ifs at hnil <;> simp [hp] at hnil

theorem ends_child (hp : p.text ≠ "") (h : Ends p.parts) (hmore : '.' ∉ more.toList) :
    (p.child more).text ≠ "" ∧ Ends (p.child more).parts := by
  have hdots (s : String) (hs : s ∈ Text.split '/' more) : '.' ∉ s.toList :=
    fun hc => hmore ((Text.of_mem_split hs).2 hc)
  cases habsolute : Path.isAbsolute ⟨more⟩ with
  | true =>
    have heq : p.child more = ⟨more⟩ := by simp [child, join, habsolute]
    obtain ⟨first, rest, hfirst⟩ := exists_segments ⟨more⟩
    have hroot := (isAbsolute_iff hfirst).1 habsolute
    rw [heq, parts_eq hfirst, startOf, if_pos hroot]
    refine ⟨?_, ends_append (.inl rfl) (counted_cases fun s hs => hdots s ?_)⟩
    · rintro rfl
      cases habsolute
    · change s ∈ Path.segments ⟨more⟩
      rw [hfirst]
      exact List.mem_cons_of_mem _ hs
  | false =>
    rw [parts_child hp habsolute]
    exact ⟨text_child_ne hp habsolute, ends_append h (counted_cases hdots)⟩

theorem ends_foldl_child (hp : p.text ≠ "") (h : Ends p.parts) (hl : ∀ s ∈ l, '.' ∉ s.toList) :
    Ends (l.foldl child p).parts := by
  induction l generalizing p with
  | nil => exact h
  | cons s l ih =>
    obtain ⟨hs, hrest⟩ := List.forall_mem_cons.1 hl
    obtain ⟨hne, hends⟩ := ends_child hp h hs
    exact ih hne hends hrest

theorem parts_ofClass {base : Path} (hbase : base.text ≠ "") (hends : Ends base.parts)
    (classname : String) :
    (∀ extension, (base.ofClass classname extension).parts = [.root]) ∨
      ∃ front stem, ∀ extension, extension ≠ "" → '/' ∉ extension.toList →
        (base.ofClass classname extension).parts = front ++ [PathPart.name (stem ++ "." ++ extension)] := by
  have hparts : Ends ((Text.split '.' classname).foldl child base).parts :=
    ends_foldl_child hbase hends fun s hs => (Text.of_mem_split hs).1
  obtain hroot | ⟨front, name, heq⟩ := hparts
  · left
    intro extension
    have hnone : ((Text.split '.' classname).foldl child base).fileName? = none := by
      refine Option.eq_none_iff_forall_ne_some.2 fun name hname => ?_
      obtain ⟨front, heq, -⟩ := parts_of_fileName hname
      have hlast := congrArg List.getLast? (hroot.symm.trans heq)
      simp at hlast
    rw [ofClass, withExtension, hnone]
    exact hroot
  · right
    obtain ⟨front', -, hext⟩ := parts_of_fileName (fileName?_of_parts heq)
    exact ⟨front', stemOf name, hext⟩

/-! ## Plain texts -/

theorem text_of_ofSegment? {part : PathPart} (h : PathPart.ofSegment? s = some part) :
    part.text = s := by
  rw [PathPart.ofSegment?] at h
  split_ifs at h with _ hup
  · cases h
    exact hup.symm
  · cases h
    rfl

theorem counted_map_text (l : List String) : counted ((counted l).map PathPart.text) = counted l := by
  induction l with
  | nil => rfl
  | cons s l ih =>
    cases hs : PathPart.ofSegment? s with
    | none => simpa [counted, hs] using ih
    | some part => simpa [counted, hs, text_of_ofSegment? hs] using ih

theorem not_mem_of_mem_map_text (hl : ∀ s ∈ l, '/' ∉ s.toList)
    (h : s ∈ (counted l).map PathPart.text) : '/' ∉ s.toList := by
  obtain ⟨part, hpart, rfl⟩ := List.mem_map.1 h
  obtain ⟨segment, hsegment, hsome⟩ := List.mem_filterMap.1 hpart
  rw [text_of_ofSegment? hsome]
  exact hl segment hsegment

theorem parts_intercalate {part : PathPart}
    (hslash : ∀ s ∈ first :: rest, '/' ∉ s.toList) (hstart : ∀ more, startOf first more = [part]) :
    (⟨"/".intercalate (first :: (counted rest).map PathPart.text)⟩ : Path).parts =
      part :: counted rest := by
  obtain ⟨hfirst, hrest⟩ := List.forall_mem_cons.1 hslash
  have hsegments := segments_intercalate (l := first :: (counted rest).map PathPart.text) (by simp)
    (List.forall_mem_cons.2 ⟨hfirst, fun s => not_mem_of_mem_map_text hrest⟩)
  rw [parts_eq hsegments, hstart, counted_map_text]
  rfl

theorem parts_root_intercalate (hslash : ∀ s ∈ rest, '/' ∉ s.toList) :
    (⟨"/" ++ "/".intercalate ((counted rest).map PathPart.text)⟩ : Path).parts =
      .root :: counted rest := by
  obtain ⟨next, others, hnext⟩ :=
    exists_segments ⟨"/".intercalate ((counted rest).map PathPart.text)⟩
  have hsegments : (⟨"/" ++ "/".intercalate ((counted rest).map PathPart.text)⟩ : Path).segments =
      "" :: next :: others := by
    rw [segments, Text.split_of_toList (a := "")
      (b := "/".intercalate ((counted rest).map PathPart.text)) (by simp)]
    exact congrArg ("" :: ·) hnext
  have hcounted : counted (next :: others) = counted rest := by
    rw [← hnext]
    by_cases hnil : (counted rest).map PathPart.text = []
    · rw [hnil, List.map_eq_nil_iff.1 hnil]
      rfl
    · rw [segments_intercalate hnil fun s => not_mem_of_mem_map_text hslash, counted_map_text]
  rw [parts_eq hsegments, hcounted]
  rfl

theorem parts_plain (p : Path) : (⟨p.plain⟩ : Path).parts = p.parts := by
  obtain ⟨first, rest, hsegments⟩ := p.exists_segments
  have hslash : ∀ s ∈ first :: rest, '/' ∉ s.toList := by
    rw [← hsegments]
    exact fun s hs => (Text.of_mem_split hs).1
  have hparts := parts_eq hsegments
  by_cases hroot : first = "" ∧ rest ≠ []
  · rw [startOf, if_pos hroot] at hparts
    have hplain : p.plain = "/" ++ "/".intercalate ((counted rest).map PathPart.text) := by
      rw [plain, hparts]
      rfl
    rw [hplain, hparts]
    exact parts_root_intercalate fun s hs => hslash s (List.mem_cons_of_mem _ hs)
  · rw [startOf, if_neg hroot] at hparts
    by_cases hhere : first = "."
    · subst hhere
      have hplain : p.plain = "/".intercalate ("." :: (counted rest).map PathPart.text) := by
        rw [plain, hparts]
        rfl
      rw [hplain, hparts]
      exact parts_intercalate hslash fun more => by simp [startOf]
    · rw [if_neg hhere] at hparts
      cases hfirst : PathPart.ofSegment? first with
      | none =>
        -- the text is empty, as it has no slash and nothing before one
        have hempty : first = "" := by
          rw [PathPart.ofSegment?] at hfirst
          split_ifs at hfirst with hidle
          exact hidle.resolve_right hhere
        have hrest : rest = [] := by
          by_contra hne
          exact hroot ⟨hempty, hne⟩
        rw [hfirst, hrest] at hparts
        rw [plain, hparts]
        rfl
      | some part =>
        rw [hfirst] at hparts
        have htext := text_of_ofSegment? hfirst
        have hempty : first ≠ "" := by
          rintro rfl
          cases hfirst
        have hplain : p.plain = "/".intercalate (part.text :: (counted rest).map PathPart.text) := by
          rw [plain, hparts]
          cases part with
          | root =>
            refine absurd ?_ (hslash first List.mem_cons_self)
            rw [← htext]
            decide
          | _ => rfl
        rw [hplain, htext, hparts]
        refine parts_intercalate hslash fun more => ?_
        simp [startOf, hempty, hhere, hfirst]

end Path

end ClassForge
