import ClassForge.Proofs.Metadata.Packages
import Mathlib.Data.Set.Subsingleton

/-!
# What a name stands for

A name is looked up as a class, as a package, as a member of a class, as a setting, and among the
patterns of settings, in this order. Of the classes that it goes on from the one with the longest
name counts, and of the patterns that it fits the longest one. There is at most one of either, since
all of them are beginnings of the same name.
-/

namespace ClassForge

namespace Text

theorem dotSplits_ascending (l : List Char) :
    (dotSplits l).Pairwise fun a b => a.1.length < b.1.length := by
  induction l with
  | nil => exact .nil
  | cons c rest ih =>
    have hmore : ((dotSplits rest).map fun split => (c :: split.1, split.2)).Pairwise
        fun a b => a.1.length < b.1.length :=
      List.pairwise_map.2 (ih.imp fun hlt => Nat.succ_lt_succ hlt)
    rw [dotSplits]
    split
    · refine List.pairwise_cons.2 ⟨fun split hsplit => ?_, hmore⟩
      obtain ⟨shorter, -, rfl⟩ := List.mem_map.1 hsplit
      exact Nat.succ_pos _
    · exact hmore

theorem splitsByLength_descending (name : String) :
    (splitsByLength name).Pairwise fun a b => b.1.length < a.1.length := by
  rw [splitsByLength, List.pairwise_reverse, List.pairwise_map]
  refine (dotSplits_ascending name.toList).imp fun hlt => ?_
  simpa using hlt

theorem dropHead?_eq_some {head cs rest : List Char} :
    dropHead? head cs = some rest ↔ cs = head ++ rest := by
  induction head generalizing cs with
  | nil => simp [dropHead?]
  | cons h head ih =>
    cases cs with
    | nil => simp [dropHead?]
    | cons c cs =>
      by_cases heq : h = c
      · simp [dropHead?, heq, ih]
      · simp [dropHead?, heq, Ne.symm heq]

theorem dropTail?_eq_some {tail cs rest : List Char} :
    dropTail? tail cs = some rest ↔ cs = rest ++ tail := by
  rw [dropTail?, Option.map_eq_some_iff]
  constructor
  · rintro ⟨back, hback, rfl⟩
    rw [← List.reverse_inj, dropHead?_eq_some.1 hback]
    simp
  · rintro rfl
    exact ⟨rest.reverse, dropHead?_eq_some.2 (by simp), by simp⟩

end Text

namespace Resolver

variable {r : Resolver} {name : String} {split other : String × String}

/-! ## Members -/

def Owner (r : Resolver) (name : String) (split : String × String) : Prop :=
  (r.record? split.1).isSome = true ∧ name = split.1 ++ "." ++ split.2

def Nearest (r : Resolver) (name : String) (split : String × String) : Prop :=
  r.Owner name split ∧ ∀ other, r.Owner name other → other.1.length ≤ split.1.length

theorem nearest_subsingleton (r : Resolver) (name : String) :
    {split | r.Nearest name split}.Subsingleton := by
  rintro split ⟨⟨hknown, hsplit⟩, hlongest⟩ other ⟨⟨hknown', hother⟩, hlongest'⟩
  have hlength : split.1.length = other.1.length :=
    Nat.le_antisymm (hlongest' split ⟨hknown, hsplit⟩) (hlongest other ⟨hknown', hother⟩)
  have hchars :
      split.1.toList ++ '.' :: split.2.toList = other.1.toList ++ '.' :: other.2.toList := by
    simpa [String.ext_iff] using hsplit.symm.trans hother
  obtain ⟨hfirst, hrest⟩ := List.append_inj hchars (by
    rw [String.length_toList, String.length_toList, hlength])
  exact Prod.ext (String.toList_inj.1 hfirst) (String.toList_inj.1 (List.cons.inj hrest).2)

theorem nearest_of_nearestClass? (h : r.nearestClass? name = some split) : r.Nearest name split := by
  obtain ⟨hknown, before, after, hsplits, hbefore⟩ := List.find?_eq_some_iff_append.1 h
  have hname : name = split.1 ++ "." ++ split.2 := by
    rw [← Text.mem_splitsByLength, hsplits]
    exact List.mem_append_right _ List.mem_cons_self
  refine ⟨⟨hknown, hname⟩, ?_⟩
  rintro ⟨c, path⟩ ⟨hother, hsplit⟩
  have hmem : (c, path) ∈ before ++ split :: after := hsplits ▸ Text.mem_splitsByLength.2 hsplit
  have hsorted := Text.splitsByLength_descending name
  rw [hsplits, List.pairwise_append, List.pairwise_cons] at hsorted
  -- longer names are tried before the one that is found, and shorter ones after it
  obtain hmem | hmem := List.mem_append.1 hmem
  · have hunknown := hbefore _ hmem
    rw [hother] at hunknown
    cases hunknown
  · obtain heq | hmem := List.mem_cons.1 hmem
    · rw [← heq]
    · exact Nat.le_of_lt (hsorted.2.1.1 _ hmem)

theorem nearestClass?_eq_none : r.nearestClass? name = none ↔ ∀ split, ¬ r.Owner name split := by
  rw [nearestClass?, List.find?_eq_none]
  constructor
  · rintro h ⟨c, path⟩ ⟨hknown, hname⟩
    exact h _ (Text.mem_splitsByLength.2 hname) hknown
  · rintro h ⟨c, path⟩ hmem hknown
    exact h (c, path) ⟨hknown, Text.mem_splitsByLength.1 hmem⟩

/-! ## Patterns of settings -/

section

variable {patterns : List (String × String)} {base base' pattern classname classname' : String}
  {best : Option (Nat × String × String)}

/-- A pattern ends in a star, and the name starts with what comes before it. -/
def Fits (name : String) (patterns : List (String × String)) (base classname : String) : Prop :=
  (base ++ "*", classname) ∈ patterns ∧ base.toList <+: name.toList

def Widest (name : String) (patterns : List (String × String)) (base classname : String) : Prop :=
  Fits name patterns base classname ∧
    ∀ base' classname', Fits name patterns base' classname' → base'.length ≤ base.length

theorem Widest.base_eq (h : Widest name patterns base classname)
    (h' : Widest name patterns base' classname') : base = base' := by
  have hlength : base.length = base'.length :=
    Nat.le_antisymm (h'.2 base classname h.1) (h.2 base' classname' h'.1)
  rw [← String.length_toList, ← String.length_toList] at hlength
  have hstart : base.toList <+: base'.toList :=
    List.prefix_of_prefix_length_le h.1.2 h'.1.2 (Nat.le_of_eq hlength)
  exact String.toList_inj.1 (hstart.eq_of_length hlength)

theorem starBase?_eq_some {chars : List Char} :
    starBase? pattern = some chars ↔ pattern = String.ofList chars ++ "*" := by
  rw [starBase?, Text.dropTail?_eq_some, ← String.toList_inj]
  simp

theorem fits_concat : Fits name (patterns ++ [(pattern, classname)]) base classname' ↔
    Fits name patterns base classname' ∨
      (pattern = base ++ "*" ∧ classname = classname') ∧ base.toList <+: name.toList := by
  rw [Fits, Fits, List.mem_append, List.mem_singleton, or_and_right, Prod.mk.injEq, eq_comm,
    eq_comm (a := classname)]

inductive Found (name : String) (patterns : List (String × String)) :
    Option (Nat × String × String) → Prop where
  | nothing : (∀ base classname, ¬ Fits name patterns base classname) → Found name patterns none
  | widest {base classname : String} : Widest name patterns base classname →
      Found name patterns (some (base.length, base ++ "*", classname))

theorem Found.skip (h : Found name patterns best) (classname : String)
    (hunfit : ∀ base, pattern = base ++ "*" → ¬ base.toList <+: name.toList) :
    Found name (patterns ++ [(pattern, classname)]) best := by
  have hfits : ∀ base c, Fits name (patterns ++ [(pattern, classname)]) base c →
      Fits name patterns base c := by
    intro base c hfit
    obtain hfit | ⟨⟨hpattern, -⟩, hstart⟩ := fits_concat.1 hfit
    · exact hfit
    · exact absurd hstart (hunfit base hpattern)
  cases h with
  | nothing hnone => exact .nothing fun base c hfit => hnone base c (hfits base c hfit)
  | widest hwidest =>
    exact .widest ⟨fits_concat.2 (.inl hwidest.1), fun base c hfit =>
      hwidest.2 base c (hfits base c hfit)⟩

theorem found_last (hstart : base.toList <+: name.toList)
    (hlongest : ∀ base' c, Fits name patterns base' c → base'.length ≤ base.length) :
    Found name (patterns ++ [(base ++ "*", classname)])
      (some (base.length, base ++ "*", classname)) := by
  refine .widest ⟨fits_concat.2 (.inr ⟨⟨rfl, rfl⟩, hstart⟩), fun base' c hfit => ?_⟩
  obtain hfit | ⟨⟨hpattern, -⟩, -⟩ := fits_concat.1 hfit
  · exact hlongest base' c hfit
  · obtain rfl : base = base' := by simpa using hpattern
    exact Nat.le_refl _

theorem Widest.keep (h : Widest name patterns base classname) (hlt : base'.length < base.length)
    (classname' : String) :
    Found name (patterns ++ [(base' ++ "*", classname')])
      (some (base.length, base ++ "*", classname)) := by
  refine .widest ⟨fits_concat.2 (.inl h.1), fun other c hfit => ?_⟩
  obtain hfit | ⟨⟨hpattern, -⟩, -⟩ := fits_concat.1 hfit
  · exact h.2 other c hfit
  · obtain rfl : base' = other := by simpa using hpattern
    exact Nat.le_of_lt hlt

theorem Found.widen (h : Found name patterns best) (entry : String × String) :
    Found name (patterns ++ [entry]) (widen name best entry) := by
  obtain ⟨pattern, classname⟩ := entry
  rw [Resolver.widen]
  split
  · next hstar =>
    refine h.skip classname fun base hpattern => ?_
    rw [starBase?_eq_some.2 (hpattern.trans (by rw [String.ofList_toList]))] at hstar
    cases hstar
  · next chars hstar =>
    obtain ⟨base, rfl⟩ : ∃ base : String, chars = base.toList := ⟨String.ofList chars, by simp⟩
    obtain rfl : pattern = base ++ "*" := by simpa using starBase?_eq_some.1 hstar
    rw [String.length_toList]
    split
    · next hstart =>
      replace hstart := List.isPrefixOf_iff_prefix.1 hstart
      cases h with
      | nothing hnone => exact found_last hstart fun base' c hfit => absurd hfit (hnone base' c)
      | widest hwidest =>
        dsimp only
        split
        · next hle =>
          exact found_last hstart fun base' c hfit => Nat.le_trans (hwidest.2 base' c hfit) hle
        · next hlt => exact hwidest.keep (Nat.lt_of_not_le hlt) classname
    · next hstart =>
      refine h.skip classname fun base' hpattern hprefix => hstart ?_
      obtain rfl : base = base' := by simpa using hpattern
      exact List.isPrefixOf_iff_prefix.2 hprefix

theorem Found.foldl (h : Found name patterns best) (rest : List (String × String)) :
    Found name (patterns ++ rest) (rest.foldl (Resolver.widen name) best) := by
  induction rest generalizing patterns best with
  | nil =>
    rw [List.append_nil]
    exact h
  | cons entry rest ih =>
    rw [List.append_cons, List.foldl_cons]
    exact ih (h.widen entry)

theorem found_widest? (name : String) (patterns : List (String × String)) :
    Found name patterns (widest? name patterns) := by
  have hnone : Found name [] none := .nothing fun base c hfit => by cases hfit.1
  exact hnone.foldl patterns

example : widest? "css.box.model" [("*", "a.A"), ("css.*", "b.B"), ("css.box.*", "c.C")] =
    some (8, "css.box.*", "c.C") := by decide +kernel

end

/-! ## Precedence -/

def Unnamed (r : Resolver) (name : String) : Prop :=
  (r.record? name).isSome = false ∧ r.isPackage name = false

def Unowned (r : Resolver) (name : String) : Prop :=
  r.Unnamed name ∧ ∀ split, ¬ r.Owner name split

/-- What a name stands for, by one rule for each kind of symbol. A rule holds only where those before
it do not. -/
inductive Denotes (r : Resolver) (name : String) : Option Symbol → Prop where
  | aClass : (r.record? name).isSome = true → Denotes r name (some (.aClass name))
  | package : (r.record? name).isSome = false → r.isPackage name = true →
      Denotes r name (some (.package name))
  | member {split : String × String} : r.Unnamed name → r.Nearest name split →
      Denotes r name (some (.member split.1 split.2))
  | setting {classname : String} : r.Unowned name → r.checks.get? name = some classname →
      Denotes r name (some (.setting name classname))
  | pattern {base classname : String} : r.Unowned name → r.checks.get? name = none →
      Widest name r.checks.entries base classname →
      Denotes r name (some (.setting (base ++ "*") classname))
  | nothing : r.Unowned name → r.checks.get? name = none →
      (∀ base classname, ¬ Fits name r.checks.entries base classname) → Denotes r name none

theorem widest_subsingleton (name : String) (checks : Table String) :
    {check : String × String | Widest name checks.entries check.1 check.2}.Subsingleton := by
  rintro ⟨base, classname⟩ h ⟨base', classname'⟩ h'
  obtain rfl : base = base' := h.base_eq h'
  have hsame : some classname = some classname' :=
    (Table.mem_entries.1 h.1.1).symm.trans (Table.mem_entries.1 h'.1.1)
  rw [Option.some.inj hsame]

theorem symbol?_of_unnamed (h : r.Unnamed name) : r.symbol? name =
    match r.nearestClass? name with
    | some (classname, path) => some (.member classname path)
    | none =>
      match r.checks.get? name with
      | some classname => some (.setting name classname)
      | none => (widest? name r.checks.entries).map fun (_, pattern, classname) =>
          .setting pattern classname := by
  rw [symbol?, h.1, h.2]
  rfl

theorem Denotes.symbol?_eq {s : Option Symbol} (h : r.Denotes name s) : r.symbol? name = s := by
  cases h with
  | aClass hknown => rw [symbol?, if_pos hknown]
  | package hunknown hpackage => simp [symbol?, hunknown, hpackage]
  | member hunnamed hnearest =>
    rw [symbol?_of_unnamed hunnamed]
    cases hfound : r.nearestClass? name with
    | none => exact absurd hnearest.1 (nearestClass?_eq_none.1 hfound _)
    | some found =>
      rw [nearest_subsingleton r name hnearest (nearest_of_nearestClass? hfound)]
  | setting hunowned hcheck =>
    rw [symbol?_of_unnamed hunowned.1, nearestClass?_eq_none.2 hunowned.2, hcheck]
  | @pattern base classname hunowned hcheck hwidest =>
    rw [symbol?_of_unnamed hunowned.1, nearestClass?_eq_none.2 hunowned.2, hcheck]
    have hfound := found_widest? name r.checks.entries
    generalize widest? name r.checks.entries = best at hfound
    cases hfound with
    | nothing hnone => exact absurd hwidest.1 (hnone base classname)
    | @widest base' classname' hwidest' =>
      have hsame : (base, classname) = (base', classname') :=
        widest_subsingleton name r.checks hwidest hwidest'
      cases hsame
      rfl
  | nothing hunowned hcheck hnone =>
    rw [symbol?_of_unnamed hunowned.1, nearestClass?_eq_none.2 hunowned.2, hcheck]
    have hfound := found_widest? name r.checks.entries
    generalize widest? name r.checks.entries = best at hfound
    cases hfound with
    | nothing => rfl
    | widest hwidest => exact absurd hwidest.1 (hnone _ _)

theorem exists_denotes (r : Resolver) (name : String) : ∃ s, r.Denotes name s := by
  cases hknown : (r.record? name).isSome with
  | true => exact ⟨_, .aClass hknown⟩
  | false =>
    cases hpackage : r.isPackage name with
    | true => exact ⟨_, .package hknown hpackage⟩
    | false =>
      cases hnearest : r.nearestClass? name with
      | some split => exact ⟨_, .member ⟨hknown, hpackage⟩ (nearest_of_nearestClass? hnearest)⟩
      | none =>
        have hunowned : r.Unowned name := ⟨⟨hknown, hpackage⟩, nearestClass?_eq_none.1 hnearest⟩
        cases hcheck : r.checks.get? name with
        | some classname => exact ⟨_, .setting hunowned hcheck⟩
        | none =>
          have hfound := found_widest? name r.checks.entries
          generalize widest? name r.checks.entries = best at hfound
          cases hfound with
          | nothing hnone => exact ⟨_, .nothing hunowned hcheck hnone⟩
          | widest hwidest => exact ⟨_, .pattern hunowned hcheck hwidest⟩

/-- A name is resolved exactly by the rules in their order, and neither the class that it goes on from
nor the pattern of settings is a matter of choice. -/
theorem symbol?_eq_iff_denotes (r : Resolver) (name : String) :
    (∀ s, r.symbol? name = s ↔ r.Denotes name s) ∧
      {split | r.Nearest name split}.Subsingleton ∧
      {check : String × String | Widest name r.checks.entries check.1 check.2}.Subsingleton := by
  refine ⟨fun s => ⟨?_, Denotes.symbol?_eq⟩, nearest_subsingleton r name,
    widest_subsingleton name r.checks⟩
  rintro rfl
  obtain ⟨s, hs⟩ := exists_denotes r name
  rw [hs.symbol?_eq]
  exact hs

end Resolver

end ClassForge
