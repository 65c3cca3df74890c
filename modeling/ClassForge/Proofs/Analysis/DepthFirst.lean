import ClassForge.Analysis.Analyser
import ClassForge.Proofs.Analysis.LoadOrder

/-!
# Depth-first load orders

A load order lists every class that the roots lead to once. What is needed for loading comes first, and
a class stands behind the classes it needs for loading, unless these in turn need it. The search with a
stack is read as a recursive descent, and what holds of an order is shown along the descent.
-/

namespace ClassForge.LoadOrder

def Loads {α : Type} (classes : Table α) (needs : Table NameSet) (x y : String) : Prop :=
  classes.contains x = true ∧ y ∈ (needs.getD x .empty).toNames ∧ classes.contains y = true

def Depends (classes : Table BuildInfo) (x y : String) : Prop :=
  y ∈ laterNames classes x ∧ classes.contains y = true

abbrev LoadReach {α : Type} (classes : Table α) (needs : Table NameSet) : String → String → Prop :=
  Relation.ReflTransGen (Loads classes needs)

abbrev AnyReach (classes : Table BuildInfo) (needs : Table NameSet) : String → String → Prop :=
  Relation.ReflTransGen fun x y => Loads classes needs x y ∨ Depends classes x y

/-- What a load order of some roots has to be. -/
structure Ordered (classes : Table BuildInfo) (needs : Table NameSet) (roots order : List String) :
    Prop where
  nodup : order.Nodup
  mem_iff : ∀ x, x ∈ order ↔
    ∃ r ∈ roots, classes.contains r = true ∧ AnyReach classes needs r x
  loaded_first : ∃ first later, order = first ++ later ∧ ∀ x, x ∈ first ↔
    ∃ r ∈ roots, classes.contains r = true ∧ LoadReach classes needs r x
  before : ∀ x y, x ∈ order → Loads classes needs x y →
    [y, x].Sublist order ∨ LoadReach classes needs y x

section Descent

variable {α : Type} {classes : Table α} {needs : Table NameSet}
  {visited visited' names order : List String} {x y : String}

inductive Descends (classes : Table α) (needs : Table NameSet) :
    (visited names order visited' : List String) → Prop
  | done (visited : List String) : Descends classes needs visited [] [] visited
  | pass {visited rest order visited' : List String} {c : String}
      (h : c ∈ visited ∨ classes.contains c = false)
      (later : Descends classes needs visited rest order visited') :
      Descends classes needs visited (c :: rest) order visited'
  | enter {visited rest below inner order visited' : List String} {c : String}
      (hnew : c ∉ visited) (hknown : classes.contains c = true)
      (inside : Descends classes needs (c :: visited) (needs.getD c .empty).toNames below inner)
      (later : Descends classes needs inner rest order visited') :
      Descends classes needs visited (c :: rest) (below ++ c :: order) visited'

theorem visit_enter_cons {c : String} {info : α} (hv : c ∉ visited) (hc : classes.get? c = some info)
    (rest : List String) :
    let inside := visit classes needs (c :: visited) ((needs.getD c .empty).toNames.map .enter)
    let later := visit classes needs inside.2 (rest.map .enter)
    visit classes needs visited ((c :: rest).map .enter) = (inside.1 ++ c :: later.1, later.2) := by
  intro inside later
  have hleave : visit classes needs inside.2 (.leave c :: rest.map .enter) =
      (c :: later.1, later.2) := by
    rw [visit]
  rw [List.map_cons, visit, dif_neg (by simpa using hv)]
  split
  · next hnone => cases hc.symm.trans hnone
  · rw [visit_append, hleave]

theorem visit_enter_pass {c : String} (h : c ∈ visited ∨ classes.contains c = false)
    (rest : List String) : visit classes needs visited ((c :: rest).map .enter) =
      visit classes needs visited (rest.map .enter) := by
  rw [List.map_cons, visit]
  split
  · rfl
  · next hv =>
    have hnone : classes.get? c = none := by
      simpa [Table.contains] using h.resolve_left (by simpa using hv)
    split
    · rfl
    · next hsome => cases hnone.symm.trans hsome

theorem descends_visit (classes : Table α) (needs : Table NameSet) (visited names : List String) :
    Descends classes needs visited names (visit classes needs visited (names.map .enter)).1
      (visit classes needs visited (names.map .enter)).2 := by
  -- each class that is entered is one fewer that has not been visited
  induction hn : classes.unseen visited using Nat.strongRecOn generalizing visited names with
  | _ n ih =>
    subst hn
    induction names with
    | nil =>
      rw [List.map_nil, visit]
      exact .done visited
    | cons c rest ihrest =>
      by_cases hpass : c ∈ visited ∨ classes.contains c = false
      · rw [visit_enter_pass hpass]
        exact .pass hpass ihrest
      · obtain ⟨hnew, hknown⟩ : c ∉ visited ∧ classes.contains c = true := by simpa using hpass
        obtain ⟨info, hinfo⟩ := Table.contains_iff.1 hknown
        have hless : classes.unseen (c :: visited) < classes.unseen visited :=
          Table.unseen_cons_lt hinfo (by simpa using hnew)
        have hinside := unseen_visit classes needs (c :: visited)
          ((needs.getD c .empty).toNames.map .enter)
        rw [leaves_enter] at hinside
        rw [visit_enter_cons hnew hinfo]
        exact .enter hnew hknown (ih _ hless _ _ rfl) (ih _ (by omega) _ _ rfl)

namespace Descends

variable (h : Descends classes needs visited names order visited')

include h

theorem mem_visited_iff : x ∈ visited' ↔ x ∈ visited ∨ x ∈ order := by
  induction h with
  | done visited => simp
  | pass _ _ ih => exact ih
  | enter _ _ _ _ ihinside ihlater =>
    rw [ihlater, ihinside]
    simp only [List.mem_cons, List.mem_append]
    grind

theorem nodup : order.Nodup ∧ ∀ x ∈ order, x ∉ visited := by
  induction h with
  | done visited => simp
  | pass _ _ ih => exact ih
  | @enter visited rest below inner order visited' c hnew _ inside _ ihinside ihlater =>
    obtain ⟨hbelow, hfreshBelow⟩ := ihinside
    obtain ⟨horder, hfreshOrder⟩ := ihlater
    have hinner (x : String) (hx : x ∈ order) : x ≠ c ∧ x ∉ visited ∧ x ∉ below := by
      have := mt inside.mem_visited_iff.2 (hfreshOrder x hx)
      simpa [and_assoc] using this
    constructor
    · refine List.nodup_append.2 ⟨hbelow, List.nodup_cons.2 ⟨?_, horder⟩, ?_⟩
      · exact fun hc => (hinner c hc).1 rfl
      · rintro x hx _ hx' rfl
        obtain rfl | hx' := List.mem_cons.1 hx'
        · exact hfreshBelow x hx List.mem_cons_self
        · exact (hinner x hx').2.2 hx
    · intro x hx
      obtain hx | hx := List.mem_append.1 hx
      · exact fun hv => hfreshBelow x hx (List.mem_cons_of_mem c hv)
      · obtain rfl | hx := List.mem_cons.1 hx
        · exact hnew
        · exact (hinner x hx).2.1

theorem visited_of_mem (hx : x ∈ names) (hknown : classes.contains x = true) : x ∈ visited' := by
  induction h with
  | done visited => cases hx
  | @pass visited rest order visited' c hpass later ih =>
    obtain rfl | hx := List.mem_cons.1 hx
    · have hv : x ∈ visited := hpass.resolve_right (by simp [hknown])
      exact later.mem_visited_iff.2 (.inl hv)
    · exact ih hx
  | enter hnew _ inside later _ ihlater =>
    obtain rfl | hx := List.mem_cons.1 hx
    · exact later.mem_visited_iff.2 (.inl (inside.mem_visited_iff.2 (.inl List.mem_cons_self)))
    · exact ihlater hx

theorem reach_of_mem (hx : x ∈ order) :
    ∃ n ∈ names, classes.contains n = true ∧ LoadReach classes needs n x := by
  induction h with
  | done visited => cases hx
  | pass _ _ ih =>
    obtain ⟨n, hn, hreach⟩ := ih hx
    exact ⟨n, List.mem_cons_of_mem _ hn, hreach⟩
  | @enter visited rest below inner order visited' c _ hknown _ _ ihinside ihlater =>
    obtain hx | hx := List.mem_append.1 hx
    · obtain ⟨n, hn, hclass, hreach⟩ := ihinside hx
      exact ⟨c, List.mem_cons_self, hknown, .head ⟨hknown, hn, hclass⟩ hreach⟩
    · obtain rfl | hx := List.mem_cons.1 hx
      · exact ⟨x, List.mem_cons_self, hknown, .refl⟩
      · obtain ⟨n, hn, hreach⟩ := ihlater hx
        exact ⟨n, List.mem_cons_of_mem _ hn, hreach⟩

theorem closed (hx : x ∈ order) (hloads : Loads classes needs x y) : y ∈ visited' := by
  induction h with
  | done visited => cases hx
  | pass _ _ ih => exact ih hx
  | enter _ _ inside later ihinside ihlater =>
    obtain hx | hx := List.mem_append.1 hx
    · exact later.mem_visited_iff.2 (.inl (ihinside hx))
    · obtain rfl | hx := List.mem_cons.1 hx
      · exact later.mem_visited_iff.2 (.inl (inside.visited_of_mem hloads.2.1 hloads.2.2))
      · exact ihlater hx

/-- What a class in the order needs for loading had been visited before, or stands before it, or needs
it in turn: a class that is entered and not yet left leads to all that is visited meanwhile. -/
theorem before (hx : x ∈ order) (hloads : Loads classes needs x y) :
    y ∈ visited ∨ [y, x].Sublist order ∨ LoadReach classes needs y x := by
  induction h with
  | done visited => cases hx
  | pass _ _ ih => exact ih hx
  | @enter visited rest below inner order visited' c _ hknown inside _ ihinside ihlater =>
    obtain hbelow | hx := List.mem_append.1 hx
    · obtain hy | hy | hy := ihinside hbelow
      · obtain rfl | hy := List.mem_cons.1 hy
        · obtain ⟨n, hn, hclass, hreach⟩ := inside.reach_of_mem hbelow
          exact .inr (.inr (.head ⟨hknown, hn, hclass⟩ hreach))
        · exact .inl hy
      · exact .inr (.inl (hy.trans (List.sublist_append_left below _)))
      · exact .inr (.inr hy)
    · have hinner (hy : y ∈ inner) : y ∈ visited ∨ y = c ∨ y ∈ below := by
        have := inside.mem_visited_iff.1 hy
        simp only [List.mem_cons] at this
        grind
      obtain rfl | horder := List.mem_cons.1 hx
      · obtain hy | rfl | hy := hinner (inside.visited_of_mem hloads.2.1 hloads.2.2)
        · exact .inl hy
        · exact .inr (.inr .refl)
        · refine .inr (.inl ?_)
          exact (List.singleton_sublist.2 hy).append (List.singleton_sublist.2 List.mem_cons_self)
      · obtain hy | hy | hy := ihlater horder
        · obtain hy | rfl | hy := hinner hy
          · exact .inl hy
          · refine .inr (.inl ?_)
            exact ((List.singleton_sublist.2 horder).cons_cons y).trans
              (List.sublist_append_right below _)
          · refine .inr (.inl ?_)
            exact (List.singleton_sublist.2 hy).append
              ((List.singleton_sublist.2 horder).trans (List.sublist_cons_self _ _))
        · exact .inr (.inl (hy.trans ((List.sublist_cons_self _ _).trans
            (List.sublist_append_right below _))))
        · exact .inr (.inr hy)

end Descends

end Descent

/-! ## What is needed later -/

variable {classes : Table BuildInfo} {needs : Table NameSet} {visited stack roots : List String}
  {x y : String}

theorem anyReach_of_load (h : LoadReach classes needs x y) : AnyReach classes needs x y :=
  Relation.ReflTransGen.mono (fun _ _ => .inl) _ _ h

theorem nodup_settle (classes : Table BuildInfo) (needs : Table NameSet)
    (visited stack : List String) : (settle classes needs visited stack).Nodup ∧
      ∀ x ∈ settle classes needs visited stack, x ∉ visited := by
  fun_induction settle classes needs visited stack with
  | case1 visited => simp
  | case2 visited c rest later found ih =>
    have hdescent : Descends classes needs visited later found.1 found.2 := descends_visit ..
    obtain ⟨hfound, hfresh⟩ := hdescent.nodup
    obtain ⟨hsettled, hnew⟩ := ih
    have hapart (x : String) (hx : x ∈ settle classes needs found.2 (found.1.reverse ++ rest)) :
        x ∉ visited ∧ x ∉ found.1 := by
      simpa using mt hdescent.mem_visited_iff.2 (hnew x hx)
    constructor
    · refine List.nodup_append.2 ⟨hfound, hsettled, ?_⟩
      rintro x hx _ hx' rfl
      exact (hapart x hx').2 hx
    · intro x hx
      obtain hx | hx := List.mem_append.1 hx
      · exact hfresh x hx
      · exact (hapart x hx).1

theorem reach_of_mem_settle (h : x ∈ settle classes needs visited stack) :
    ∃ c ∈ stack, AnyReach classes needs c x := by
  fun_induction settle classes needs visited stack with
  | case1 visited => cases h
  | case2 visited c rest later found ih =>
    have hdescent : Descends classes needs visited (laterNames classes c) found.1 found.2 :=
      descends_visit ..
    have hfound {z : String} (hz : z ∈ found.1) : AnyReach classes needs c z := by
      obtain ⟨n, hn, hclass, hreach⟩ := hdescent.reach_of_mem hz
      exact .head (.inr ⟨hn, hclass⟩) (anyReach_of_load hreach)
    obtain hx | hx := List.mem_append.1 h
    · exact ⟨c, List.mem_cons_self, hfound hx⟩
    · obtain ⟨z, hz, hreach⟩ := ih hx
      obtain hz | hz := List.mem_append.1 hz
      · exact ⟨c, List.mem_cons_self, (hfound (List.mem_reverse.1 hz)).trans hreach⟩
      · exact ⟨z, List.mem_cons_of_mem c hz, hreach⟩

theorem settle_closed_load (hx : x ∈ settle classes needs visited stack)
    (hloads : Loads classes needs x y) : y ∈ visited ∨ y ∈ settle classes needs visited stack := by
  fun_induction settle classes needs visited stack with
  | case1 visited => cases hx
  | case2 visited c rest later found ih =>
    have hdescent : Descends classes needs visited later found.1 found.2 := descends_visit ..
    have hvisited (hy : y ∈ found.2) : y ∈ visited ∨
        y ∈ found.1 ++ settle classes needs found.2 (found.1.reverse ++ rest) :=
      (hdescent.mem_visited_iff.1 hy).imp_right (List.mem_append_left _)
    obtain hx | hx := List.mem_append.1 hx
    · exact hvisited (hdescent.closed hx hloads)
    · obtain hy | hy := ih hx
      · exact hvisited hy
      · exact .inr (List.mem_append_right _ hy)

theorem settle_before (hx : x ∈ settle classes needs visited stack)
    (hloads : Loads classes needs x y) :
    y ∈ visited ∨ [y, x].Sublist (settle classes needs visited stack) ∨
      LoadReach classes needs y x := by
  fun_induction settle classes needs visited stack with
  | case1 visited => cases hx
  | case2 visited c rest later found ih =>
    have hdescent : Descends classes needs visited later found.1 found.2 := descends_visit ..
    obtain hx | hx := List.mem_append.1 hx
    · obtain hy | hy | hy := hdescent.before hx hloads
      · exact .inl hy
      · exact .inr (.inl (hy.trans (List.sublist_append_left _ _)))
      · exact .inr (.inr hy)
    · obtain hy | hy | hy := ih hx
      · obtain hy | hy := hdescent.mem_visited_iff.1 hy
        · exact .inl hy
        · refine .inr (.inl ?_)
          exact (List.singleton_sublist.2 hy).append (List.singleton_sublist.2 hx)
      · exact .inr (.inl (hy.trans (List.sublist_append_right _ _)))
      · exact .inr (.inr hy)

/-! ## Orders -/

theorem descends_first (classes : Table BuildInfo) (needs : Table NameSet) (roots : List String) :
    Descends classes needs [] roots (visit classes needs [] (roots.map .enter)).1
      (visit classes needs [] (roots.map .enter)).2 := descends_visit classes needs [] roots

theorem mem_first_iff_reach : x ∈ (visit classes needs [] (roots.map .enter)).1 ↔
    ∃ r ∈ roots, classes.contains r = true ∧ LoadReach classes needs r x := by
  have hdescent := descends_first classes needs roots
  refine ⟨hdescent.reach_of_mem, ?_⟩
  rintro ⟨r, hr, hknown, hreach⟩
  rw [← mem_first_iff]
  induction hreach with
  | refl => exact hdescent.visited_of_mem hr hknown
  | tail _ hloads ih => exact hdescent.closed (mem_first_iff.1 ih) hloads

theorem ofRoots_closed_load (hx : x ∈ ofRoots classes needs roots) (hloads : Loads classes needs x y) :
    y ∈ ofRoots classes needs roots := by
  obtain hx | hx := List.mem_append.1 hx
  · have hy := (descends_first classes needs roots).closed hx hloads
    exact List.mem_append_left _ (mem_first_iff.1 hy)
  · obtain hy | hy := settle_closed_load hx hloads
    · exact List.mem_append_left _ (mem_first_iff.1 hy)
    · exact List.mem_append_right _ hy

theorem mem_ofRoots_iff_reach : x ∈ ofRoots classes needs roots ↔
    ∃ r ∈ roots, classes.contains r = true ∧ AnyReach classes needs r x := by
  constructor
  · intro hx
    obtain hx | hx := List.mem_append.1 hx
    · obtain ⟨r, hr, hknown, hreach⟩ := mem_first_iff_reach.1 hx
      exact ⟨r, hr, hknown, anyReach_of_load hreach⟩
    · obtain ⟨c, hc, hreach⟩ := reach_of_mem_settle hx
      obtain ⟨r, hr, hknown, hfirst⟩ := mem_first_iff_reach.1 (List.mem_reverse.1 hc)
      exact ⟨r, hr, hknown, (anyReach_of_load hfirst).trans hreach⟩
  · rintro ⟨r, hr, hknown, hreach⟩
    induction hreach with
    | refl => exact root_mem_ofRoots hr hknown
    | tail _ hstep ih =>
      obtain hloads | hdepends := hstep
      · exact ofRoots_closed_load ih hloads
      · exact ofRoots_closed ih hdepends.1 hdepends.2

theorem nodup_ofRoots : (ofRoots classes needs roots).Nodup := by
  obtain ⟨hsettled, hnew⟩ := nodup_settle classes needs
    (visit classes needs [] (roots.map .enter)).2
    (visit classes needs [] (roots.map .enter)).1.reverse
  refine List.nodup_append.2 ⟨(descends_first classes needs roots).nodup.1, hsettled, ?_⟩
  rintro x hx _ hx' rfl
  exact hnew x hx' (mem_first_iff.2 hx)

theorem ofRoots_before (hx : x ∈ ofRoots classes needs roots) (hloads : Loads classes needs x y) :
    [y, x].Sublist (ofRoots classes needs roots) ∨ LoadReach classes needs y x := by
  obtain hx | hx := List.mem_append.1 hx
  · obtain hy | hy | hy := (descends_first classes needs roots).before hx hloads
    · cases hy
    · exact .inl (hy.trans (List.sublist_append_left _ _))
    · exact .inr hy
  · obtain hy | hy | hy := settle_before hx hloads
    · refine .inl ?_
      exact (List.singleton_sublist.2 (mem_first_iff.1 hy)).append (List.singleton_sublist.2 hx)
    · exact .inl (hy.trans (List.sublist_append_right _ _))
    · exact .inr hy

end LoadOrder

/-- The load order of an analyser is complete, without duplicates, and respects what is needed for
loading, whatever is known of the classes. -/
theorem Analyser.loadOrder_ordered (a : Analyser) (roots : List String) :
    LoadOrder.Ordered a.classes a.loadNeeds roots (a.loadOrder roots) where
  nodup := LoadOrder.nodup_ofRoots
  mem_iff _ := LoadOrder.mem_ofRoots_iff_reach
  loaded_first := ⟨_, _, rfl, fun _ => LoadOrder.mem_first_iff_reach⟩
  before _ _ := LoadOrder.ofRoots_before

end ClassForge
