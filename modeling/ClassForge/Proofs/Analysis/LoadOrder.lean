import ClassForge.Analysis.LoadOrder
import ClassForge.Proofs.Walk

/-!
# What the load order depends on

The load order of some classes has these classes and all that they lead to, as far as there is build
information. What the table says of other classes does not matter for it.
-/

namespace ClassForge.LoadOrder

open Table (mem_keys)

section Visit

variable {α : Type} {classes : Table α} {needs needs' : Table NameSet} {visited : List String}
  {stack rest : List Visit} {names : List String} {x : String}

theorem get?_restrict (classes : Table α) (p : String → Bool) (c : String) :
    (classes.filter fun c _ => p c).get? c = if p c then classes.get? c else none := by
  rw [Table.get?_filter]
  cases classes.get? c <;> cases p c <;> simp

/-! ## Visits -/

theorem visit_append (classes : Table α) (needs : Table NameSet) (visited : List String)
    (stack rest : List Visit) :
    visit classes needs visited (stack ++ rest) =
      ((visit classes needs visited stack).1 ++
          (visit classes needs (visit classes needs visited stack).2 rest).1,
        (visit classes needs (visit classes needs visited stack).2 rest).2) := by
  fun_induction visit classes needs visited stack with
  | case1 visited => rfl
  | case2 visited c stack order visited' h ih =>
    rw [h] at ih
    rw [List.cons_append, visit, ih]
    rfl
  | case3 visited c stack hv ih =>
    rw [List.cons_append, visit, dif_pos hv, ih]
  | case4 visited c stack hv hc ih =>
    rw [List.cons_append, visit, dif_neg hv]
    split
    · exact ih
    · next hsome => cases hc.symm.trans hsome
  | case5 visited c stack hv info hc ih =>
    rw [List.cons_append, visit, dif_neg hv]
    split
    · next hnone => cases hc.symm.trans hnone
    · rw [← ih, List.append_assoc, List.cons_append]

theorem subset_visit : visited ⊆ (visit classes needs visited stack).2 := by
  fun_induction visit classes needs visited stack with
  | case1 visited => exact List.Subset.refl _
  | case2 visited c rest order visited' h ih =>
    rw [h] at ih
    exact ih
  | case3 visited c rest hv ih => exact ih
  | case4 visited c rest hv hc ih => exact ih
  | case5 visited c rest hv info hc ih => exact fun x hx => ih (List.mem_cons_of_mem c hx)

theorem mem_visit : x ∈ (visit classes needs visited stack).1 ↔
    .leave x ∈ stack ∨ x ∈ (visit classes needs visited stack).2 ∧ x ∉ visited := by
  fun_induction visit classes needs visited stack with
  | case1 visited => simp
  | case2 visited c rest order visited' h ih =>
    rw [h] at ih
    simp only [List.mem_cons, ih, Visit.leave.injEq, or_assoc]
  | case3 visited c rest hv ih => simpa using ih
  | case4 visited c rest hv hc ih => simpa using ih
  | case5 visited c rest hv info hc ih =>
    have hc' : c ∈ (visit classes needs (c :: visited)
        ((needs.getD c .empty).toNames.map .enter ++ .leave c :: rest)).2 :=
      subset_visit List.mem_cons_self
    have hv' : c ∉ visited := by simpa using hv
    simp only [ih, List.mem_append, List.mem_map, reduceCtorEq, and_false, exists_false, false_or,
      List.mem_cons, Visit.leave.injEq]
    by_cases hx : x = c
    · simp [hx, hc', hv']
    · simp [hx]

theorem mem_visit_enter : x ∈ (visit classes needs visited (names.map .enter)).1 ↔
    x ∈ (visit classes needs visited (names.map .enter)).2 ∧ x ∉ visited := by
  simp [mem_visit]

theorem contains_of_visit (h : x ∈ (visit classes needs visited stack).2) :
    x ∈ visited ∨ classes.contains x = true := by
  fun_induction visit classes needs visited stack with
  | case1 visited => exact .inl h
  | case2 visited c rest order visited' heq ih =>
    rw [heq] at ih
    exact ih h
  | case3 visited c rest hv ih => exact ih h
  | case4 visited c rest hv hc ih => exact ih h
  | case5 visited c rest hv info hc ih =>
    obtain hx | hx := ih h
    · obtain rfl | hx := List.mem_cons.1 hx
      · exact .inr (Table.contains_iff.2 ⟨info, hc⟩)
      · exact .inl hx
    · exact .inr hx

theorem visited_of_enter (hx : classes.contains x = true) (h : .enter x ∈ stack) :
    x ∈ (visit classes needs visited stack).2 := by
  fun_induction visit classes needs visited stack with
  | case1 visited => cases h
  | case2 visited c rest order visited' heq ih =>
    rw [heq] at ih
    exact ih (by simpa using h)
  | case3 visited c rest hv ih =>
    obtain heq | h := List.mem_cons.1 h
    · cases heq
      exact subset_visit (by simpa using hv)
    · exact ih h
  | case4 visited c rest hv hc ih =>
    obtain heq | h := List.mem_cons.1 h
    · cases heq
      simp [Table.contains, hc] at hx
    · exact ih h
  | case5 visited c rest hv info hc ih =>
    obtain heq | h := List.mem_cons.1 h
    · cases heq
      exact subset_visit List.mem_cons_self
    · exact ih (by simp [h])

theorem visit_filter (classes : Table α) (needs : Table NameSet) (visited names : List String) :
    visit classes needs visited ((names.filter classes.contains).map .enter) =
      visit classes needs visited (names.map .enter) := by
  induction names generalizing visited with
  | nil => rfl
  | cons c names ih =>
    cases hc : classes.contains c with
    | true =>
      have hsplit (rest : List Visit) := visit_append classes needs visited [.enter c] rest
      rw [List.filter_cons_of_pos hc, List.map_cons, List.map_cons]
      exact (hsplit _).trans (by rw [ih, ← hsplit]; rfl)
    | false =>
      have hnone : classes.get? c = none := by simpa [Table.contains] using hc
      rw [List.filter_cons_of_neg (by simp [hc]), ih, List.map_cons, visit]
      split
      · rfl
      · split
        · rfl
        · next hsome => cases hnone.symm.trans hsome

theorem visit_restrict {p : String → Bool}
    (hneeds : ∀ c, p c → classes.contains c = true → needs'.getD c .empty = needs.getD c .empty)
    (hp : ∀ c ∈ (visit classes needs visited stack).2, p c) :
    visit (classes.filter fun c _ => p c) needs' visited stack = visit classes needs visited stack := by
  fun_induction visit classes needs visited stack with
  | case1 visited => rw [visit]
  | case2 visited c rest order visited' heq ih =>
    rw [heq] at ih
    rw [visit, ih hp]
  | case3 visited c rest hv ih => rw [visit, dif_pos hv, ih hp]
  | case4 visited c rest hv hc ih =>
    have hnone : (classes.filter fun c _ => p c).get? c = none := by simp [hc]
    rw [visit, dif_neg hv, ← ih hp]
    split
    · rfl
    · next hsome => cases hnone.symm.trans hsome
  | case5 visited c rest hv info hc ih =>
    have hpc : p c := hp c (subset_visit List.mem_cons_self)
    have hsome : (classes.filter fun c _ => p c).get? c = some info := by
      rw [get?_restrict, if_pos hpc, hc]
    rw [visit, dif_neg hv, ← ih hp, hneeds c hpc (Table.contains_iff.2 ⟨info, hc⟩)]
    split
    · next hnone => cases hnone.symm.trans hsome
    · rfl

end Visit

/-! ## What is needed later -/

variable {classes : Table BuildInfo} {needs needs' : Table NameSet} {visited stack roots : List String}
  {c x : String} {info : BuildInfo}

def laterNames (classes : Table BuildInfo) (c : String) : List String :=
  ((classes.get? c).map fun i => i.dependsOn.keys).getD []

theorem settle_cons (classes : Table BuildInfo) (needs : Table NameSet) (visited stack : List String)
    (c : String) : settle classes needs visited (c :: stack) =
      (visit classes needs visited ((laterNames classes c).map .enter)).1 ++
        settle classes needs (visit classes needs visited ((laterNames classes c).map .enter)).2
          ((visit classes needs visited ((laterNames classes c).map .enter)).1.reverse ++ stack) := by
  rw [settle]
  rfl

theorem contains_of_settle (h : x ∈ settle classes needs visited stack) :
    classes.contains x = true := by
  fun_induction settle classes needs visited stack with
  | case1 visited => cases h
  | case2 visited c rest later found ih =>
    obtain hx | hx := List.mem_append.1 h
    · have hnew := mem_visit_enter.1 hx
      exact (contains_of_visit hnew.1).resolve_left hnew.2
    · exact ih hx

theorem settle_closed {n : String} (hn : classes.contains n = true) (hleads : n ∈ laterNames classes x)
    (hx : x ∈ stack ∨ x ∈ settle classes needs visited stack) :
    n ∈ visited ∨ n ∈ settle classes needs visited stack := by
  fun_induction settle classes needs visited stack with
  | case1 visited => simp at hx
  | case2 visited c rest later found ih =>
    have hfound {y : String} (hy : y ∈ found.2) : y ∈ visited ∨ y ∈ found.1 := by
      by_cases hv : y ∈ visited
      · exact .inl hv
      · exact .inr (mem_visit_enter.2 ⟨hy, hv⟩)
    have hnext : n ∈ found.2 ∨ n ∈ settle classes needs found.2 (found.1.reverse ++ rest) := by
      simp only [List.mem_cons, List.mem_append] at hx
      obtain (rfl | hx) | hx | hx := hx
      · exact .inl (visited_of_enter hn (List.mem_map_of_mem hleads))
      · exact ih (.inl (by simp [hx]))
      · exact ih (.inl (by simp [hx]))
      · exact ih (.inr hx)
    obtain hn | hn := hnext
    · exact (hfound hn).imp_right (List.mem_append_left _)
    · exact .inr (List.mem_append_right _ hn)

theorem settle_restrict {p : String → Bool}
    (hneeds : ∀ c, p c → classes.contains c = true → needs'.getD c .empty = needs.getD c .empty)
    (hstack : ∀ c ∈ stack, p c)
    (hp : ∀ c, c ∈ visited ∨ c ∈ settle classes needs visited stack → p c) :
    settle (classes.filter fun c _ => p c) needs' visited stack =
      settle classes needs visited stack := by
  fun_induction settle classes needs visited stack with
  | case1 visited => rw [settle]
  | case2 visited c rest later found ih =>
    have hlater : laterNames (classes.filter fun c _ => p c) c = laterNames classes c := by
      rw [laterNames, get?_restrict, if_pos (hstack c List.mem_cons_self), laterNames]
    have hfound : ∀ x ∈ found.2, p x := by
      intro x hx
      by_cases hv : x ∈ visited
      · exact hp x (.inl hv)
      · exact hp x (.inr (List.mem_append_left _ (mem_visit_enter.2 ⟨hx, hv⟩)))
    have hvisit : visit (classes.filter fun c _ => p c) needs' visited
        ((laterNames classes c).map .enter) = found := visit_restrict hneeds hfound
    have hnext : ∀ x ∈ found.1.reverse ++ rest, p x := by
      intro x hx
      obtain hx | hx := List.mem_append.1 hx
      · exact hfound x (mem_visit_enter.1 (List.mem_reverse.1 hx)).1
      · exact hstack x (List.mem_cons_of_mem c hx)
    rw [settle_cons, hlater, hvisit, ih hnext fun x hx => ?_]
    obtain hx | hx := hx
    · exact hfound x hx
    · exact hp x (.inr (List.mem_append_right _ hx))

/-! ## Orders -/

theorem contains_of_mem_ofRoots (h : x ∈ ofRoots classes needs roots) : classes.contains x = true := by
  obtain hx | hx := List.mem_append.1 h
  · exact (contains_of_visit (mem_visit_enter.1 hx).1).resolve_left (by simp)
  · exact contains_of_settle hx

theorem mem_first_iff : x ∈ (visit classes needs [] (roots.map .enter)).2 ↔
    x ∈ (visit classes needs [] (roots.map .enter)).1 := by
  simp [mem_visit_enter]

theorem root_mem_ofRoots (hx : x ∈ roots) (hclass : classes.contains x = true) :
    x ∈ ofRoots classes needs roots :=
  List.mem_append_left _ (mem_first_iff.1 (visited_of_enter hclass (List.mem_map_of_mem hx)))

theorem ofRoots_closed {n : String} (hx : x ∈ ofRoots classes needs roots)
    (hleads : n ∈ laterNames classes x) (hn : classes.contains n = true) :
    n ∈ ofRoots classes needs roots := by
  have hsettled := settle_closed hn hleads ((List.mem_append.1 hx).imp_left List.mem_reverse.2)
  exact List.mem_append.2 (hsettled.imp_left mem_first_iff.1)

theorem ofRoots_filter (classes : Table BuildInfo) (needs : Table NameSet) (roots : List String) :
    ofRoots classes needs (roots.filter classes.contains) = ofRoots classes needs roots := by
  rw [ofRoots, ofRoots, visit_filter]

theorem ofRoots_restrict {p : String → Bool}
    (hneeds : ∀ c, p c → classes.contains c = true → needs'.getD c .empty = needs.getD c .empty)
    (hp : ∀ c ∈ ofRoots classes needs roots, p c) :
    ofRoots (classes.filter fun c _ => p c) needs' roots = ofRoots classes needs roots := by
  have hfirst : ∀ c ∈ (visit classes needs [] (roots.map .enter)).2, p c :=
    fun c hc => hp c (List.mem_append_left _ (mem_first_iff.1 hc))
  rw [ofRoots, visit_restrict hneeds hfirst, settle_restrict hneeds, ofRoots]
  · intro c hc
    exact hfirst c (mem_first_iff.2 (List.mem_reverse.1 hc))
  · rintro c (hc | hc)
    · exact hfirst c hc
    · exact hp c (List.mem_append_right _ hc)

/-! ## Needs -/

theorem filter_keys_subset {α : Type} (t : Table α) (p : String → α → Bool) :
    (t.filter p).keys ⊆ t.keys := by
  intro x hx
  obtain ⟨n, hn⟩ := mem_keys.1 hx
  rw [Table.get?_filter] at hn
  exact mem_keys.2 ⟨n, (Option.filter_eq_some_iff.1 hn).1⟩

theorem mem_laterNames (h : classes.get? c = some info) :
    x ∈ laterNames classes c ↔ x ∈ info.dependsOn.keys := by
  simp [laterNames, h]

theorem allNeeds_restrict (hc : c ∈ ofRoots classes needs roots) :
    (allNeeds (classes.filter fun x _ => decide (x ∈ ofRoots classes needs roots))).getD c .empty =
      (allNeeds classes).getD c .empty := by
  obtain ⟨info, hinfo⟩ := Table.contains_iff.1 (contains_of_mem_ofRoots hc)
  -- Whatever the walk comes to is a name that some class in the order depends on.
  have hreach {z y : String} (hz : z ∈ info.loadNeeds)
      (hy : classes.Reach (fun i => i.constructNeeds.filter (· ≠ c)) z y) :
      ∃ x ∈ ofRoots classes needs roots, y ∈ laterNames classes x := by
    induction hy with
    | refl => exact ⟨c, hc, (mem_laterNames hinfo).2 (filter_keys_subset _ _ hz)⟩
    | tail _ hlead ih =>
      obtain ⟨x, hx, hlater⟩ := ih
      obtain ⟨i, hi, hw⟩ := hlead
      refine ⟨_, ofRoots_closed hx hlater (Table.contains_iff.2 ⟨i, hi⟩), (mem_laterNames hi).2 ?_⟩
      exact filter_keys_subset _ _ (List.mem_filter.1 hw).1
  have hwalk : classes.walk (fun i => i.constructNeeds.filter (· ≠ c)) [] info.loadNeeds =
      (classes.filter fun x _ => decide (x ∈ ofRoots classes needs roots)).walk
        (fun i => i.constructNeeds.filter (· ≠ c)) [] info.loadNeeds := by
    refine Table.walk_congr fun z hz y hy => ?_
    obtain ⟨x, hx, hlater⟩ := hreach hz hy
    rw [get?_restrict]
    split
    · rfl
    · next hmem =>
      refine Option.eq_none_iff_forall_ne_some.2 fun i hi => ?_
      exact hmem (decide_eq_true (ofRoots_closed hx hlater (Table.contains_iff.2 ⟨i, hi⟩)))
  simp only [allNeeds, Table.getD, Table.get?_map, get?_restrict, hc, decide_true, if_true, hinfo,
    Option.map_some, Option.getD_some, indirectNeeds, hwalk]

theorem ofRoots_eq (classes : Table BuildInfo) (roots : List String) :
    let order := ofRoots classes (allNeeds classes) roots
    let members := classes.filter fun c _ => decide (c ∈ order)
    order = ofRoots members (allNeeds members) (roots.filter fun c => decide (c ∈ order)) := by
  intro order members
  have hrestrict : ofRoots members (allNeeds members) roots = order := by
    refine ofRoots_restrict (fun c hc _ => ?_) fun c hc => decide_eq_true hc
    exact allNeeds_restrict (of_decide_eq_true hc)
  have hcontains : (fun c => decide (c ∈ order)) = members.contains := by
    funext c
    have hiff : c ∈ order ↔ members.contains c = true := by
      rw [Table.contains_iff]
      simp only [members, get?_restrict]
      constructor
      · intro hc
        obtain ⟨info, hinfo⟩ := Table.contains_iff.1 (contains_of_mem_ofRoots hc)
        exact ⟨info, by simp [hc, hinfo]⟩
      · rintro ⟨info, hinfo⟩
        split at hinfo
        · next hc => exact of_decide_eq_true hc
        · cases hinfo
    rw [Bool.eq_iff_iff, decide_eq_true_iff, hiff]
  rw [hcontains, ofRoots_filter, hrestrict]

end ClassForge.LoadOrder
