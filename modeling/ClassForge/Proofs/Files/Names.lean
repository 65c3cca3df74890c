import ClassForge.Proofs.Files.Places

/-!
# Places of class files

The pieces of a class name lead from a directory to the file of the class. If every piece can be the
name of a directory, two classes never have their files in the same place.
-/

namespace ClassForge

namespace Path

variable {p q : Path} {s c c' extension : String}

/-! ## Places without slashes -/

theorem not_mem_of_mem_counted {l : List String} (hl : ∀ s ∈ l, '/' ∉ s.toList)
    (h : .name s ∈ counted l) : '/' ∉ s.toList := by
  obtain ⟨segment, hsegment, hpart⟩ := List.mem_filterMap.1 h
  obtain ⟨rfl, -⟩ := proper_of_ofSegment? hpart
  exact hl segment hsegment

theorem not_mem_of_mem_parts (h : .name s ∈ p.parts) : '/' ∉ s.toList := by
  obtain ⟨first, rest, hsegments⟩ := p.exists_segments
  have hslash : ∀ s ∈ first :: rest, '/' ∉ s.toList := by
    rw [← hsegments]
    exact fun s hs => (Text.of_mem_split hs).1
  rw [parts_eq hsegments, List.mem_append] at h
  rcases h with h | h
  · rw [startOf] at h
    split_ifs at h
    · simp at h
    · simp at h
    · obtain ⟨rfl, -⟩ := proper_of_ofSegment? (Option.mem_toList.1 h)
      exact hslash first List.mem_cons_self
  · exact not_mem_of_mem_counted (fun s hs => hslash s (List.mem_cons_of_mem _ hs)) h

theorem not_mem_of_mem_trail (h : s ∈ p.trail) : '/' ∉ s.toList := by
  have hlead (parts : List PathPart) (trail : Trail) (hparts : ∀ s, .name s ∈ parts → '/' ∉ s.toList)
      (htrail : ∀ s ∈ trail, '/' ∉ s.toList) :
      ∀ s ∈ parts.foldl PathPart.lead trail, '/' ∉ s.toList := by
    induction parts generalizing trail with
    | nil => exact htrail
    | cons part parts ih =>
      refine ih _ (fun s hs => hparts s (List.mem_cons_of_mem _ hs)) fun s hs => ?_
      cases part with
      | root => cases hs
      | here => exact htrail s hs
      | up => exact htrail s (List.mem_of_mem_tail hs)
      | name name =>
        rcases List.mem_cons.1 hs with rfl | hs
        · exact hparts s List.mem_cons_self
        · exact htrail s hs
  exact hlead p.parts [] (fun _ => not_mem_of_mem_parts) (by simp) s h

theorem trail_eq_of_key (hp : p.trail ≠ []) (hq : q.trail ≠ [])
    (h : FileTree.keyOf p.trail = FileTree.keyOf q.trail) : p.trail = q.trail := by
  have hsplit (p : Path) (hp : p.trail ≠ []) :
      Text.split '/' ("/".intercalate p.trail.reverse) = p.trail.reverse :=
    Text.split_intercalate rfl (by simpa using hp)
      fun s hs => not_mem_of_mem_trail (List.mem_reverse.1 hs)
  have htext : "/".intercalate p.trail.reverse = "/".intercalate q.trail.reverse := by
    simpa [FileTree.keyOf, String.ext_iff] using h
  have hreverse := hsplit p hp
  rw [htext, hsplit q hq] at hreverse
  exact (List.reverse_injective hreverse).symm

theorem trail_eq_of_plain (h : p.plain = q.plain) : p.trail = q.trail := by
  rw [trail, trail, ← p.parts_plain, h, q.parts_plain]

/-! ## Places below a directory -/

theorem parts_child_name (p : Path) (hs : Proper s) (hslash : '/' ∉ s.toList) :
    (p.child s).parts = p.parts ++ [PathPart.name s] := by
  have hsegments : Path.segments ⟨s⟩ = [s] := Text.split_of_not_mem hslash
  by_cases hp : p.text = ""
  · have hchild : p.child s = ⟨s⟩ := by simp [child, join, hp]
    have hparts : p.parts = [] := by
      obtain ⟨text⟩ := p
      cases hp
      rfl
    rw [hchild, hparts, parts_eq hsegments, hs.startOf]
    rfl
  · have habsolute : Path.isAbsolute ⟨s⟩ = false := by
      rw [Bool.eq_false_iff, ne_eq, isAbsolute_iff hsegments]
      simp
    have hcounted : counted [s] = [.name s] := by simp [counted, hs.ofSegment?]
    rw [parts_child hp habsolute, Text.split_of_not_mem hslash, hcounted]

theorem trail_child_name (p : Path) (hs : Proper s) (hslash : '/' ∉ s.toList) :
    (p.child s).trail = s :: p.trail := by
  rw [trail, parts_child_name p hs hslash, List.foldl_append]
  rfl

theorem parts_child_empty (p : Path) : (p.child "").parts = p.parts := by
  by_cases hp : p.text = ""
  · obtain ⟨text⟩ := p
    cases hp
    rfl
  · rw [parts_child hp rfl, show counted (Text.split '/' "") = [] from rfl, List.append_nil]

theorem parts_foldl_child {l : List String} (hl : ∀ s ∈ l, '/' ∉ s.toList ∧ '.' ∉ s.toList)
    (p : Path) : (l.foldl child p).parts = p.parts ++ (l.filter (· ≠ "")).map .name := by
  induction l generalizing p with
  | nil => simp
  | cons s l ih =>
    obtain ⟨⟨hslash, hdot⟩, hrest⟩ := List.forall_mem_cons.1 hl
    rw [List.foldl_cons, ih hrest]
    by_cases hs : s = ""
    · rw [hs, parts_child_empty, List.filter_cons_of_neg (by simp)]
    · have hproper : Proper s := by
        rintro (rfl | rfl | rfl)
        · exact hs rfl
        · exact hdot (by decide)
        · exact hdot (by decide)
      rw [parts_child_name p hproper hslash, List.filter_cons_of_pos (by simpa using hs)]
      simp

theorem foldl_lead_names (l : List String) (trail : Trail) :
    (l.map PathPart.name).foldl PathPart.lead trail = l.reverse ++ trail := by
  induction l generalizing trail with
  | nil => rfl
  | cons s l ih => simp [PathPart.lead, ih]

theorem stemOf_of_not_mem (h : '.' ∉ s.toList) : stemOf s = s := by
  rw [stemOf]
  split
  · rfl
  · next heq =>
    rw [splitLast_eq heq] at h
    simp at h
  · rfl

theorem parts_ofClass_of_pieces (base : Path) (hc : ∀ s ∈ Text.split '.' c, '/' ∉ s.toList)
    {front : List String} {last : String}
    (hpieces : (Text.split '.' c).filter (· ≠ "") = front ++ [last])
    (hne : extension ≠ "") (hslash : '/' ∉ extension.toList) :
    (base.ofClass c extension).parts =
      base.parts ++ (front ++ [last ++ "." ++ extension]).map .name := by
  have hparts := parts_foldl_child (l := Text.split '.' c) (fun s hs =>
    ⟨hc s hs, (Text.of_mem_split hs).1⟩) base
  rw [hpieces, List.map_append, ← List.append_assoc] at hparts
  obtain ⟨front', hfront, hext⟩ := parts_of_fileName (fileName?_of_parts hparts)
  rw [hparts] at hfront
  obtain ⟨rfl, -⟩ := List.append_inj' hfront rfl
  have hlast : last ∈ Text.split '.' c :=
    (List.mem_filter.1 (by rw [hpieces]; simp : last ∈ (Text.split '.' c).filter (· ≠ ""))).1
  rw [ofClass, hext extension hne hslash, stemOf_of_not_mem (Text.of_mem_split hlast).1]
  simp

/-! ## Plain names -/

/-- Every piece of a class name can be the name of a directory. -/
def PlainName (c : String) : Prop := ∀ s ∈ Text.split '.' c, s ≠ "" ∧ '/' ∉ s.toList

instance : DecidablePred PlainName := fun c =>
  inferInstanceAs (Decidable (∀ s ∈ Text.split '.' c, _))

theorem exists_pieces (c : String) : ∃ front last, Text.split '.' c = front ++ [last] := by
  have hne : Text.split '.' c ≠ [] := by
    simp [Text.split, Text.splitOn_eq, List.splitOn_ne_nil]
  exact ⟨_, _, (List.dropLast_append_getLast hne).symm⟩

theorem trail_ofClass (base : Path) (hc : PlainName c) {front : List String} {last : String}
    (hpieces : Text.split '.' c = front ++ [last]) (hne : extension ≠ "")
    (hslash : '/' ∉ extension.toList) :
    (base.ofClass c extension).trail =
      (last ++ "." ++ extension) :: (front.reverse ++ base.trail) := by
  have hall : (Text.split '.' c).filter (· ≠ "") = front ++ [last] := by
    rw [List.filter_eq_self.2 fun s hs => decide_eq_true (hc s hs).1, hpieces]
  rw [trail, parts_ofClass_of_pieces base (fun s hs => (hc s hs).2) hall hne hslash,
    List.foldl_append, foldl_lead_names, List.reverse_append]
  rfl

theorem trail_ofClass_ne_nil (base : Path) (hc : PlainName c) (hne : extension ≠ "")
    (hslash : '/' ∉ extension.toList) : (base.ofClass c extension).trail ≠ [] := by
  obtain ⟨front, last, hpieces⟩ := exists_pieces c
  rw [trail_ofClass base hc hpieces hne hslash]
  simp

theorem trail_ofClass_inj {base : Path} (hc : PlainName c) (hc' : PlainName c') (hne : extension ≠ "")
    (hslash : '/' ∉ extension.toList)
    (h : (base.ofClass c extension).trail = (base.ofClass c' extension).trail) : c = c' := by
  obtain ⟨front, last, hpieces⟩ := exists_pieces c
  obtain ⟨front', last', hpieces'⟩ := exists_pieces c'
  rw [trail_ofClass base hc hpieces hne hslash, trail_ofClass base hc' hpieces' hne hslash,
    List.cons.injEq, List.append_left_inj, List.reverse_inj] at h
  obtain ⟨hlast, rfl⟩ := h
  have hlast : last = last' := by simpa [String.ext_iff] using hlast
  exact Text.split_inj (by rw [hpieces, hpieces', hlast])

theorem trail_ofClass_eq_child (base : Path) (hc : PlainName c) {name : String} (hname : name ≠ "")
    (hdot : '.' ∉ name.toList) (hname' : '/' ∉ name.toList) (hne : extension ≠ "")
    (hslash : '/' ∉ extension.toList) :
    (base.ofClass c extension).trail = (base.child (name ++ "." ++ extension)).trail ↔ c = name := by
  have hplain : PlainName name := by
    rw [PlainName, Text.split_of_not_mem hdot]
    simpa using ⟨hname, hname'⟩
  have hpieces : Text.split '.' name = [] ++ [name] := Text.split_of_not_mem hdot
  have hchild : (base.child (name ++ "." ++ extension)).trail =
      (base.ofClass name extension).trail := by
    rw [trail_child_name base (proper_extended hname hne) (by simp [hname', hslash]),
      trail_ofClass base hplain hpieces hne hslash]
    rfl
  rw [hchild]
  exact ⟨trail_ofClass_inj hc hplain hne hslash, fun h => h ▸ rfl⟩

end Path

end ClassForge
