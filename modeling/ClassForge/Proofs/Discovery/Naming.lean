import ClassForge.Project.Library
import ClassForge.Proofs.Discovery.Replay
import ClassForge.Proofs.Files.Names
import ClassForge.Proofs.Symbol

/-!
# Names of class files

The name of a class is the path of its file below a root, with dots for what divides the path. Taken
back, the dots divide again. So the name leads to the file it was taken from exactly if the path has no
other dots, and no backslashes, which divide as well.
-/

namespace ClassForge

theorem Table.exists_get?_ofList {α : Type} {l : List (String × α)} {k : String} {v : α}
    (h : (k, v) ∈ l) : ∃ v', (Table.ofList l).get? k = some v' := by
  have hkept (l : List (String × α)) (t : Table α) (ht : (∃ v', t.get? k = some v') ∨ (k, v) ∈ l) :
      ∃ v', (l.foldl (fun t e => t.insert e.1 e.2) t).get? k = some v' := by
    induction l generalizing t with
    | nil => exact ht.resolve_right (by simp)
    | cons e l ih =>
      refine ih _ ?_
      rw [Table.get?_insert]
      split_ifs with heq
      · exact .inl ⟨_, rfl⟩
      · refine ht.imp_right fun hmem => ?_
        obtain rfl | hmem := List.mem_cons.1 hmem
        · exact absurd rfl heq
        · exact hmem
  exact hkept l .empty (.inr h)

/-! ## Pieces of texts -/

namespace Text

variable {sep ch : Char} {cs piece last w : List Char} {l front : List (List Char)}

theorem of_mem_intercalate (h : ch ∈ [sep].intercalate l) : ch = sep ∨ ∃ piece ∈ l, ch ∈ piece := by
  induction l with
  | nil => simp at h
  | cons first l ih =>
    cases l with
    | nil => exact .inr ⟨first, List.mem_cons_self, by simpa using h⟩
    | cons second l =>
      rw [List.intercalate_cons_cons, List.mem_append, List.mem_append, List.mem_singleton] at h
      obtain (h | h) | h := h
      · exact .inr ⟨first, List.mem_cons_self, h⟩
      · exact .inl h
      · obtain heq | ⟨piece, hpiece, hch⟩ := ih h
        · exact .inl heq
        · exact .inr ⟨piece, List.mem_cons_of_mem _ hpiece, hch⟩

theorem subset_intercalate (h : piece ∈ l) : piece ⊆ [sep].intercalate l := by
  induction l with
  | nil => cases h
  | cons first l ih =>
    cases l with
    | nil =>
      obtain rfl := List.mem_singleton.1 h
      simp
    | cons second l =>
      rw [List.intercalate_cons_cons]
      obtain rfl | h := List.mem_cons.1 h
      · exact fun ch hch => List.mem_append_left _ (List.mem_append_left _ hch)
      · exact fun ch hch => List.mem_append_right _ (ih h hch)

theorem not_mem_of_splitOn (hne : ch ≠ sep) (h : ∀ piece ∈ splitOn sep cs, ch ∉ piece) : ch ∉ cs := by
  intro hch
  have hjoined : [sep].intercalate (splitOn sep cs) = cs := by
    rw [splitOn_eq]
    exact List.intercalate_splitOn sep
  rw [← hjoined] at hch
  obtain heq | ⟨piece, hpiece, hmem⟩ := of_mem_intercalate hch
  · exact hne heq
  · exact h piece hpiece hmem

theorem splitOn_of_not_mem (h : sep ∉ cs) : splitOn sep cs = [cs] := by
  rw [splitOn_eq, List.splitOn_eq_singleton h]

theorem intercalate_append (front : List (List Char)) (last w : List Char) :
    [sep].intercalate (front ++ [last]) ++ w = [sep].intercalate (front ++ [last ++ w]) := by
  induction front with
  | nil => simp
  | cons first front ih =>
    cases front with
    | nil => simp [List.intercalate_cons_cons]
    | cons second front =>
      simp only [List.cons_append, List.intercalate_cons_cons, List.append_assoc] at ih ⊢
      rw [ih]

theorem splitOn_append (hw : sep ∉ w) (h : splitOn sep cs = front ++ [last]) :
    splitOn sep (cs ++ w) = front ++ [last ++ w] := by
  have hcs : cs = [sep].intercalate (front ++ [last]) := by
    rw [← h, splitOn_eq, List.intercalate_splitOn]
  have hpieces : ∀ piece ∈ front ++ [last], sep ∉ piece := by
    rw [← h]
    exact fun piece hpiece => (of_mem_splitOn hpiece).1
  rw [hcs, intercalate_append, splitOn_eq]
  refine List.splitOn_intercalate sep (fun piece hpiece => ?_) (by simp)
  obtain hfront | hlast := List.mem_append.1 hpiece
  · exact hpieces piece (List.mem_append_left _ hfront)
  · rw [List.mem_singleton.1 hlast, List.mem_append, not_or]
    exact ⟨hpieces last (by simp), hw⟩

end Text

/-! ## Paths below a root -/

namespace Path

variable {root p rel : Path}

theorem counted_cons (s : String) (l : List String) :
    counted (s :: l) = (PathPart.ofSegment? s).toList ++ counted l := by
  cases h : PathPart.ofSegment? s <;> simp [counted, h]

theorem counted_of_proper {l : List String} (h : ∀ s ∈ l, Proper s) : counted l = l.map .name := by
  induction l with
  | nil => rfl
  | cons s l ih =>
    obtain ⟨hs, hl⟩ := List.forall_mem_cons.1 h
    rw [counted_cons, hs.ofSegment?, ih hl]
    rfl

theorem counted_dropIdle (l : List String) : counted (dropIdle l) = counted l := by
  obtain ⟨hnil, hnone⟩ | ⟨front, s, part, hdrop, -, hpart, heq⟩ := dropIdle_cases l
  · rw [hnil, hnone]
    rfl
  · rw [hdrop, counted_append, heq]
    simp [counted, hpart]

theorem counted_dropCounting (n : Nat) (l : List String) :
    counted (dropCounting n l) = (counted l).drop n := by
  induction l generalizing n with
  | nil => simp [dropCounting, counted]
  | cons s l ih =>
    rw [dropCounting.eq_def]
    dsimp only
    split_ifs with hidle
    · rw [ih, counted_cons, PathPart.ofSegment?, if_pos hidle]
      rfl
    · obtain ⟨part, hpart⟩ : ∃ part, PathPart.ofSegment? s = some part := by
        rw [PathPart.ofSegment?, if_neg hidle]
        split_ifs <;> exact ⟨_, rfl⟩
      cases n with
      | zero => rfl
      | succ n =>
        rw [ih, counted_cons, hpart]
        rfl

theorem dropIdle_subset (l : List String) : dropIdle l ⊆ l := by
  obtain ⟨hnil, -⟩ | ⟨front, s, part, hdrop, hsub, -⟩ := dropIdle_cases l
  · simp [hnil]
  · rwa [hdrop]

theorem dropCounting_subset (n : Nat) (l : List String) : dropCounting n l ⊆ l := by
  induction l generalizing n with
  | nil => simp [dropCounting]
  | cons s l ih =>
    rw [dropCounting.eq_def]
    dsimp only
    split_ifs
    · exact List.subset_cons_of_subset s (ih n)
    · cases n with
      | zero => exact List.Subset.refl _
      | succ n => exact List.subset_cons_of_subset s (ih n)

theorem length_startOf {first : String} {rest : List String} (h : first = "" → rest ≠ []) :
    (startOf first rest).length = 1 := by
  rw [startOf, PathPart.ofSegment?]
  by_cases hempty : first = ""
  · simp [hempty, h hempty]
  · by_cases hhere : first = "."
    · simp [hhere]
    · split_ifs <;> simp_all

theorem slash_not_mem_segments {l : List String} (h : l ⊆ p.segments) : ∀ s ∈ l, '/' ∉ s.toList :=
  fun _ hs => (Text.of_mem_split (h hs)).1

theorem parts_of_spine (h : ∀ s ∈ (p.ofSpine p.spine).segments, Proper s) :
    p.parts = (p.ofSpine p.spine).segments.map .name := by
  obtain ⟨first, rest, hsegments⟩ := p.exists_segments
  have hspine : p.spine = first :: dropIdle rest := by rw [spine, hsegments]
  have hsub : first :: dropIdle rest ⊆ p.segments := by
    rw [hsegments]
    exact List.cons_subset_cons first (dropIdle_subset rest)
  have hplain : p.ofSpine p.spine = ⟨"/".intercalate (first :: dropIdle rest)⟩ := by
    rw [hspine, ofSpine.eq_def]
    split
    · next hroot =>
      -- only the root and the empty path have a single segment that is empty
      refine absurd (h "" ?_) fun hproper => hproper (.inl rfl)
      rw [hspine, hroot, ofSpine]
      split_ifs <;> decide
    · rfl
  have hsegs : (p.ofSpine p.spine).segments = first :: dropIdle rest := by
    rw [hplain]
    exact segments_intercalate (by simp) (slash_not_mem_segments hsub)
  rw [hsegs] at h ⊢
  obtain ⟨hfirst, hrest⟩ := List.forall_mem_cons.1 h
  rw [parts_eq hsegments, hfirst.startOf, ← counted_dropIdle rest, counted_of_proper hrest]
  rfl

theorem parts_of_below? (h : root.below? p = some rel) (hrel : ∀ s ∈ rel.segments, Proper s) :
    p.parts = root.parts ++ rel.segments.map .name := by
  rw [below?] at h
  split_ifs at h with hprefix
  obtain ⟨more, hmore⟩ := List.isPrefixOf_iff_prefix.1 hprefix
  obtain ⟨first, rest, hsegments⟩ := p.exists_segments
  cases hlength : root.parts.length with
  | zero =>
    rw [hlength] at h
    cases h
    rw [List.length_eq_zero_iff.1 hlength, List.nil_append]
    exact parts_of_spine hrel
  | succ n =>
    rw [hlength, hsegments] at h
    cases h
    have hne : dropIdle (dropCounting n rest) ≠ [] := by
      intro hnil
      rw [hnil] at hrel
      have hempty : "" ∈ (⟨"/".intercalate []⟩ : Path).segments := by decide
      exact hrel "" hempty (.inl rfl)
    have hsub : dropIdle (dropCounting n rest) ⊆ p.segments := by
      rw [hsegments]
      exact List.Subset.trans (dropIdle_subset _)
        (List.subset_cons_of_subset first (dropCounting_subset n rest))
    have hstart : (startOf first rest).length = 1 := by
      refine length_startOf fun _ hrest => hne ?_
      rw [hrest]
      rfl
    have hdrop : p.parts.drop (n + 1) = counted (dropIdle (dropCounting n rest)) := by
      rw [parts_eq hsegments, counted_dropIdle, counted_dropCounting, List.drop_append, hstart,
        List.drop_eq_nil_of_le (by omega)]
      rfl
    rw [segments_intercalate hne (slash_not_mem_segments hsub)] at hrel ⊢
    rw [← counted_of_proper hrel, ← hdrop, ← hmore, ← hlength, List.drop_left]

end Path

/-! ## Class names -/

namespace Discovery

open Text (splitOn split)

variable {root p q : Path} {stem : List Char} {c : String}

def stemBelow? (root p : Path) : Option (List Char) :=
  (root.below? p).bind fun relative => Text.dropTail? ".js".toList relative.text.toList

def namesIn (stem : List Char) : List (List Char) := (splitOn '/' stem).flatMap (splitOn '\\')

structure Named (stem : List Char) (c : String) : Prop where
  visible : ∀ n ∈ namesIn stem, n ≠ [] ∧ n.head? ≠ some '.'
  text : c.toList = ['.'].intercalate (namesIn stem)

theorem exists_named (h : classnameFor? root p = some c) :
    ∃ stem, stemBelow? root p = some stem ∧ Named stem c := by
  rw [classnameFor?] at h
  obtain ⟨relative, hbelow, h⟩ := Option.bind_eq_some_iff.1 h
  obtain ⟨stem, hstem, h⟩ := Option.bind_eq_some_iff.1 h
  dsimp only at h
  split_ifs at h with hidden
  refine ⟨stem, Option.bind_eq_some_iff.2 ⟨relative, hbelow, hstem⟩, fun n hn => ?_, ?_⟩
  · have hn' : ¬(n.isEmpty || decide (n.head? = some '.')) = true := fun hbad =>
      hidden (List.any_eq_true.2 ⟨n, hn, hbad⟩)
    simpa using hn'
  · rw [← Option.some.inj h, String.toList_intercalate, List.map_map]
    simp [Function.comp_def, namesIn]

namespace Named

theorem names_ne_nil (stem : List Char) : namesIn stem ≠ [] := by
  obtain ⟨seg, segs, hsegs⟩ := List.exists_cons_of_ne_nil (Text.splitOn_ne_nil '/' stem)
  rw [namesIn, hsegs, List.flatMap_cons]
  exact List.append_ne_nil_of_left_ne_nil (Text.splitOn_ne_nil '\\' seg) _

theorem not_mem {ch : Char} (h : Named stem c) (hdot : ch ≠ '.')
    (hnames : ∀ n ∈ namesIn stem, ch ∉ n) : ch ∉ c.toList := by
  intro hch
  rw [h.text] at hch
  obtain heq | ⟨n, hn, hmem⟩ := Text.of_mem_intercalate hch
  · exact hdot heq
  · exact hnames n hn hmem

theorem slash_not_mem (h : Named stem c) : '/' ∉ c.toList := by
  refine h.not_mem (by decide) fun n hn hslash => ?_
  obtain ⟨seg, hseg, hn⟩ := List.mem_flatMap.1 hn
  exact (Text.of_mem_splitOn hseg).1 ((Text.of_mem_splitOn hn).2 hslash)

theorem backslash_not_mem (h : Named stem c) : '\\' ∉ c.toList := by
  refine h.not_mem (by decide) fun n hn => ?_
  obtain ⟨seg, -, hn⟩ := List.mem_flatMap.1 hn
  exact (Text.of_mem_splitOn hn).1

theorem proper (h : Named stem c) {seg : List Char} (hseg : seg ∈ splitOn '/' stem) :
    Path.Proper (String.ofList seg) := by
  -- a text that is not the name of a file has no backslash, so it would be one of the names
  have hnames (hback : '\\' ∉ seg) : seg ≠ [] ∧ seg.head? ≠ some '.' := by
    refine h.visible seg (List.mem_flatMap.2 ⟨seg, hseg, ?_⟩)
    rw [Text.splitOn_of_not_mem hback]
    exact List.mem_singleton_self seg
  rintro (heq | heq | heq)
  all_goals
    obtain rfl := String.ofList_injective (heq.trans (String.ofList_toList).symm)
    revert hnames
    decide

theorem exists_pieces (h : Named stem c) :
    ∃ front last, (split '.' c).filter (· ≠ "") = front ++ [last] := by
  have hne : (split '.' c).filter (· ≠ "") ≠ [] := by
    intro hnil
    obtain ⟨n, names, hn⟩ := List.exists_cons_of_ne_nil (names_ne_nil stem)
    have hmem : n ∈ namesIn stem := by simp [hn]
    obtain ⟨hempty, hhead⟩ := h.visible n hmem
    obtain ⟨ch, rest, rfl⟩ := List.exists_cons_of_ne_nil hempty
    have hch : ch ∈ c.toList := by
      rw [h.text]
      exact Text.subset_intercalate hmem List.mem_cons_self
    refine Text.not_mem_of_splitOn (fun heq => hhead (by rw [heq]; rfl)) (fun piece hpiece => ?_) hch
    have hblank : String.ofList piece = "" := by
      by_contra hne
      have hmem : String.ofList piece ∈ (split '.' c).filter (· ≠ "") :=
        List.mem_filter.2 ⟨List.mem_map_of_mem hpiece, by simpa using hne⟩
      rw [hnil] at hmem
      cases hmem
    rw [String.ofList_injective hblank]
    simp
  exact ⟨_, _, (List.dropLast_append_getLast hne).symm⟩

theorem pieces_eq_iff (h : Named stem c) :
    (split '.' c).filter (· ≠ "") = (splitOn '/' stem).map String.ofList ↔
      '.' ∉ stem ∧ '\\' ∉ stem := by
  constructor
  · intro heq
    have hpiece (seg : List Char) (hseg : seg ∈ splitOn '/' stem) :
        '.' ∉ seg ∧ seg ⊆ c.toList := by
      have hmem : String.ofList seg ∈ (split '.' c).filter (· ≠ "") := by
        rw [heq]
        exact List.mem_map_of_mem hseg
      have hmem := Text.of_mem_split (List.mem_filter.1 hmem).1
      rwa [String.toList_ofList] at hmem
    exact ⟨Text.not_mem_of_splitOn (by decide) fun seg hseg => (hpiece seg hseg).1,
      Text.not_mem_of_splitOn (by decide) fun seg hseg hback =>
        h.backslash_not_mem ((hpiece seg hseg).2 hback)⟩
  · rintro ⟨hdot, hback⟩
    have hnames : namesIn stem = splitOn '/' stem := by
      rw [namesIn, List.flatMap_congr (g := fun seg => [seg]) fun seg hseg =>
        Text.splitOn_of_not_mem fun hmem => hback ((Text.of_mem_splitOn hseg).2 hmem)]
      simp
    have hsplit : split '.' c = (splitOn '/' stem).map String.ofList := by
      rw [split, h.text, hnames, Text.splitOn_eq '.', List.splitOn_intercalate '.'
        (fun seg hseg hmem => hdot ((Text.of_mem_splitOn hseg).2 hmem)) (Text.splitOn_ne_nil '/' stem)]
    rw [hsplit, List.filter_eq_self]
    intro piece hpiece
    obtain ⟨seg, hseg, rfl⟩ := List.mem_map.1 hpiece
    simpa using fun hempty => h.proper hseg (.inl hempty)

end Named

theorem parts_of_stemBelow? (h : Named stem c) (hstem : stemBelow? root p = some stem)
    {front : List String} {last : String}
    (hsegs : (splitOn '/' stem).map String.ofList = front ++ [last]) :
    p.parts = root.parts ++ (front ++ [last ++ "." ++ "js"]).map .name := by
  obtain ⟨relative, hbelow, htail⟩ := Option.bind_eq_some_iff.1 hstem
  obtain ⟨front', tail, hsplit, rfl, htail'⟩ := List.map_eq_append_iff.1 hsegs
  obtain ⟨last', rfl, rfl⟩ : ∃ last', tail = [last'] ∧ String.ofList last' = last := by
    obtain ⟨last', rest, rfl, rfl, hrest⟩ := List.map_eq_cons_iff.1 htail'
    exact ⟨last', by rw [List.map_eq_nil_iff.1 hrest], rfl⟩
  have hsegments : relative.segments =
      front'.map String.ofList ++ [String.ofList last' ++ "." ++ "js"] := by
    rw [Path.segments, split, Text.dropTail?_eq_some.1 htail, Text.splitOn_append (by decide) hsplit]
    simp [String.ext_iff]
  rw [← hsegments]
  refine Path.parts_of_below? hbelow fun s hs => ?_
  rw [hsegments, List.mem_append, List.mem_singleton] at hs
  obtain hs | rfl := hs
  · obtain ⟨seg, hseg, rfl⟩ := List.mem_map.1 hs
    exact h.proper (by rw [hsplit]; exact List.mem_append_left _ hseg)
  · have hproper := h.proper (by rw [hsplit]; exact List.mem_append_right _ List.mem_cons_self)
    exact Path.proper_extended (fun hempty => hproper (.inl hempty)) (by decide)

/-- Below a root, a path has no dots but that of its ending, and no backslashes. -/
def PlainBelow (root p : Path) : Prop :=
  ∃ stem, stemBelow? root p = some stem ∧ '.' ∉ stem ∧ '\\' ∉ stem

theorem parts_ofClass_iff (h : classnameFor? root p = some c) :
    (root.ofClass c "js").parts = p.parts ↔ PlainBelow root p := by
  obtain ⟨stem, hstem, hnamed⟩ := exists_named h
  obtain ⟨front, last, hpieces⟩ := hnamed.exists_pieces
  obtain ⟨front', last', hsegs⟩ : ∃ front' last',
      (splitOn '/' stem).map String.ofList = front' ++ [last'] :=
    ⟨_, _, (List.dropLast_append_getLast (by simpa using Text.splitOn_ne_nil '/' stem)).symm⟩
  have hplain : PlainBelow root p ↔ '.' ∉ stem ∧ '\\' ∉ stem := by
    simp [PlainBelow, hstem]
  rw [hplain, ← hnamed.pieces_eq_iff, hpieces, hsegs, parts_of_stemBelow? hnamed hstem hsegs,
    Path.parts_ofClass_of_pieces root
      (fun s hs hmem => hnamed.slash_not_mem ((Text.of_mem_split hs).2 hmem)) hpieces (by decide)
      (by decide),
    List.append_right_inj, (List.map_injective_iff.2 fun _ _ => PathPart.name.inj).eq_iff]
  constructor
  · intro heq
    obtain ⟨rfl, hlast⟩ := List.append_inj' heq rfl
    simpa [String.ext_iff] using hlast
  · intro heq
    obtain ⟨rfl, hlast⟩ := List.append_inj' heq rfl
    rw [List.cons.inj hlast |>.1]

/-! ## Classes that are found -/

theorem exists_get?_scan {t : FileTree} {names : List String} (hvisible : names ∈ t.visibleBelow root)
    (hname : classnameFor? root (names.foldl Path.child root) = some c) :
    ∃ other ∈ t.visibleBelow root, classnameFor? root (other.foldl Path.child root) = some c ∧
      (scan t root).get? c = some (other.foldl Path.child root) := by
  have hfound : (c, names.foldl Path.child root) ∈ (t.visibleBelow root).filterMap fun names =>
      (classnameFor? root (names.foldl Path.child root)).map fun c =>
        (c, names.foldl Path.child root) :=
    List.mem_filterMap.2 ⟨names, hvisible, by rw [hname]; rfl⟩
  obtain ⟨file, hfile⟩ := Table.exists_get?_ofList hfound
  obtain ⟨other, hother, hentry⟩ := List.mem_filterMap.1 (Table.mem_ofList (Table.mem_entries.2 hfile))
  obtain ⟨c', hc', hpair⟩ := Option.map_eq_some_iff.1 hentry
  cases hpair
  exact ⟨other, hother, hc', hfile⟩

theorem get?_interpret_of_ne {t : FileTree} {isRemoval : Bool} {known : Table Path} {file : Path}
    (hne : ∀ c', classnameFor? root (resolveGone t file) = some c' → c ≠ c') :
    (interpret t root isRemoval known file).2.get? c = known.get? c := by
  rw [interpret]
  dsimp only
  split
  · rfl
  · next c' hc' =>
    have hdrop (p : Path) : (interpret.drop known c' p).2.get? c = known.get? c := by
      rw [known_drop, Table.get?_erase, if_neg (hne c' hc')]
    split
    · exact hdrop _
    · rfl
    · exact hdrop _
    · cases isRemoval with
      | true => exact hdrop _
      | false => exact Table.get?_insert_of_ne (hne c' hc')

theorem same_of_classname (hp : PlainBelow root p) (hq : PlainBelow root q)
    (hpname : classnameFor? root p = some c) (hqname : classnameFor? root q = some c) :
    q.same p = true := by
  rw [Path.same, decide_eq_true_eq]
  exact ((parts_ofClass_iff hqname).2 hq).symm.trans ((parts_ofClass_iff hpname).2 hp)

/-- A class name leads back to the file it was taken from exactly if the path of that file has no other
dots, and no backslashes. Of two such files neither has the class name of the other, neither takes the
place of the other in a scan, and what happens to one of them leaves the other one alone. -/
theorem classname_identifies (l : Library) {p : Path} {c : String}
    (hname : classnameFor? l.classPath p = some c) :
    ((l.classFile c).same p = true ↔ PlainBelow l.classPath p) ∧
      (PlainBelow l.classPath p →
        (∀ q, PlainBelow l.classPath q → classnameFor? l.classPath q = some c → q.same p = true) ∧
        (∀ t names, names ∈ t.visibleBelow l.classPath → names.foldl Path.child l.classPath = p →
          ∃ other ∈ t.visibleBelow l.classPath,
            (scan t l.classPath).get? c = some (other.foldl Path.child l.classPath) ∧
            (PlainBelow l.classPath (other.foldl Path.child l.classPath) →
              (other.foldl Path.child l.classPath).same p = true)) ∧
        ∀ t isRemoval known file, PlainBelow l.classPath (resolveGone t file) →
          (resolveGone t file).same p = false →
          (interpret t l.classPath isRemoval known file).2.get? c = known.get? c) := by
  refine ⟨?_, fun hplain => ⟨fun q hq hqname => same_of_classname hplain hq hname hqname, ?_, ?_⟩⟩
  · rw [Path.same, decide_eq_true_eq, Library.classFile]
    exact parts_ofClass_iff hname
  · rintro t names hvisible rfl
    obtain ⟨other, hother, hothername, hget⟩ := exists_get?_scan hvisible hname
    exact ⟨other, hother, hget, fun hq => same_of_classname hplain hq hname hothername⟩
  · intro t isRemoval known file hfile hother
    refine get?_interpret_of_ne fun c' hc' heq => ?_
    rw [same_of_classname hplain hfile hname (heq ▸ hc')] at hother
    cases hother

def plainLibrary : Library :=
  .ofManifest ⟨"/l"⟩ { info := { name := "l" }, provides := { namespaceName := "l", classDir := "c" } }

theorem classname_identifies_nested :
    classnameFor? plainLibrary.classPath ⟨"/l/c/a/b.js"⟩ = some "a.b" ∧
      (plainLibrary.classFile "a.b").same ⟨"/l/c/a/b.js"⟩ = true := by
  have hname : classnameFor? plainLibrary.classPath ⟨"/l/c/a/b.js"⟩ = some "a.b" := by decide +kernel
  have hstem : stemBelow? plainLibrary.classPath ⟨"/l/c/a/b.js"⟩ = some "a/b".toList := by
    decide +kernel
  exact ⟨hname, (classname_identifies plainLibrary hname).1.2 ⟨_, hstem, by decide, by decide⟩⟩

/-- A directory with a file, and two files that are named as if they were in directories. -/
def alikeFiles : FileTree where
  nodes := Table.ofList [("/l", .directory), ("/l/c", .directory), ("/l/c/a", .directory),
    ("/l/c/a/b.js", .file "" 0), ("/l/c/a.b.js", .file "" 0), ("/l/c/a\\b.js", .file "" 0)]

/-- All three files have one class name, which leads to the first of them, and a scan finds one. -/
theorem classname_shared :
    classnameFor? plainLibrary.classPath ⟨"/l/c/a.b.js"⟩ = some "a.b" ∧
      classnameFor? plainLibrary.classPath ⟨"/l/c/a\\b.js"⟩ = some "a.b" ∧
      (plainLibrary.classFile "a.b").same ⟨"/l/c/a.b.js"⟩ = false ∧
      (plainLibrary.classFile "a.b").same ⟨"/l/c/a\\b.js"⟩ = false ∧
      (alikeFiles.visibleBelow plainLibrary.classPath).length = 3 ∧
      (scan alikeFiles plainLibrary.classPath).keys = ["a.b"] := by decide +kernel

end Discovery

end ClassForge
