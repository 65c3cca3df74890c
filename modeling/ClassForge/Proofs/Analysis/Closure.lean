import ClassForge.Analysis.Analyser
import ClassForge.Proofs.Table
import Mathlib.Data.List.Nodup
import Mathlib.Logic.Function.Iterate

/-!
# What an expansion compiles

Beginning with some roots, an expansion compiles the least set of classes that has the roots which exist
and, with every class that can be compiled, the existing classes it depends on. Each of them is compiled
once. An invariant of the expansion says what the names met so far are; it is kept by every name that a
class depends on, by every class and by every round.
-/

namespace ClassForge

theorem Table.unseen_le {α : Type} (t : Table α) (seen : List String) : t.unseen seen ≤ t.size := by
  induction seen with
  | nil => exact Nat.le_of_eq t.unseen_nil
  | cons x seen ih => exact Nat.le_trans (t.unseen_cons_le x seen) ih

namespace Expansion

def infoOf? (service : Table CompileOutcome) (c : String) : Option BuildInfo :=
  (service.get? c).bind Except.toOption

def failureOf? (service : Table CompileOutcome) (c : String) : Option CompileFailure :=
  match service.get? c with
  | some (.error f) => some f
  | _ => none

def DependsOn (service : Table CompileOutcome) (c d : String) : Prop :=
  ∃ info, infoOf? service c = some info ∧ d ∈ info.dependsOn.keys

/-- The least set of classes that has the existing roots and the existing classes that its members
depend on. -/
inductive Reached (service : Table CompileOutcome) (roots : List String) : String → Prop
  | root {c : String} (hroot : c ∈ roots) (hknown : service.contains c = true) :
      Reached service roots c
  | dependency {c d : String} (hc : Reached service roots c) (hdepends : DependsOn service c d)
      (hknown : service.contains d = true) : Reached service roots d

def missingRoot (c : String) : Marker :=
  .error Marker.missingClass c ("Application class " ++ c ++ " does not exist")

def missingDependency (w : String × String) : Marker :=
  .warning Marker.missingClass w.1 ("Dependency " ++ w.2 ++ " does not exist")

/-- What an analysis from some roots has to find, and the classes it has to compile. -/
structure Exact (service : Table CompileOutcome) (roots compiled : List String) (found : Analysis) :
    Prop where
  compiled_nodup : compiled.Nodup
  compiled_iff : ∀ c, c ∈ compiled ↔ Reached service roots c
  classes_sorted : found.classes.Pairwise (· < ·)
  classes_iff : ∀ c, c ∈ found.classes ↔
    Reached service roots c ∧ (infoOf? service c).isSome = true
  failures_eq : found.failures = compiled.filterMap (failureOf? service)
  markers_eq : ∃ warned : List (String × String),
    found.markers = (roots.filter fun c => !service.contains c).map missingRoot ++
      warned.map missingDependency ∧
    (∀ w ∈ warned, Reached service roots w.1 ∧ DependsOn service w.1 w.2) ∧
    (warned.map Prod.snd).Nodup ∧
    ∀ d, d ∈ warned.map Prod.snd ↔
      service.contains d = false ∧ ∃ c, Reached service roots c ∧ DependsOn service c d

variable {service : Table CompileOutcome} {roots done waiting : List String} {e : Expansion}
  {c d : String}

theorem Reached.contains (h : Reached service roots c) : service.contains c = true := by
  cases h with
  | root _ hknown => exact hknown
  | dependency _ _ hknown => exact hknown

theorem dependsOn_iff {info : BuildInfo} (h : service.get? c = some (.ok info)) :
    DependsOn service c d ↔ d ∈ info.dependsOn.keys := by
  have hinfo : infoOf? service c = some info := by
    rw [infoOf?, h]
    rfl
  simp [DependsOn, hinfo]

theorem not_dependsOn_of_error {f : CompileFailure} (h : service.get? c = some (.error f)) :
    ¬DependsOn service c d := by
  rintro ⟨info, hinfo, -⟩
  rw [infoOf?, h] at hinfo
  cases hinfo

theorem outcomeOf_eq {outcome : CompileOutcome} (h : service.get? c = some outcome) :
    outcomeOf service c = outcome := by
  rw [outcomeOf, Table.getD, h]
  rfl

/-! ## The names met so far -/

structure Sound (service : Table CompileOutcome) (roots done waiting : List String) (e : Expansion) :
    Prop where
  nodup : (done ++ waiting ++ e.next).Nodup
  seen_iff : ∀ c, service.contains c = true → (c ∈ e.seen ↔ c ∈ done ++ waiting ++ e.next)
  reached : ∀ c ∈ done ++ waiting ++ e.next, Reached service roots c
  rooted : ∀ c ∈ roots, service.contains c = true → c ∈ e.seen
  failures_eq : e.failures = done.filterMap (failureOf? service)
  markers_eq : ∃ warned : List (String × String),
    e.markers = (roots.filter fun c => !service.contains c).map missingRoot ++
      warned.map missingDependency ∧
    (∀ w ∈ warned, w.1 ∈ done ∧ DependsOn service w.1 w.2) ∧
    (warned.map Prod.snd).Nodup ∧
    ∀ d, d ∈ warned.map Prod.snd ↔ d ∈ e.seen ∧ service.contains d = false

def Closed (service : Table CompileOutcome) (done : List String) (e : Expansion) : Prop :=
  ∀ c ∈ done, ∀ d, DependsOn service c d → d ∈ e.seen

theorem sound_start (hroots : roots.Nodup) :
    Sound service roots [] (start service.contains roots).frontier
      (start service.contains roots) where
  nodup := by simpa [start] using List.Nodup.filter service.contains hroots
  seen_iff c _ := by simp [start]
  reached c hc := by
    obtain ⟨hroot, hknown⟩ := List.mem_filter.1 (by simpa [start] using hc)
    exact .root hroot hknown
  rooted c hc hknown := List.mem_filter.2 ⟨hc, hknown⟩
  failures_eq := rfl
  markers_eq := by
    refine ⟨[], by simp [start, missingRoot], by simp, List.nodup_nil, ?_⟩
    intro d
    simp only [List.map_nil, List.not_mem_nil, start, List.mem_filter, false_iff, not_and,
      Bool.not_eq_false, and_imp]
    exact fun _ hknown => hknown

theorem subset_need (known : String → Bool) (c d : String) (e : Expansion) :
    e.seen ⊆ (e.need known c d).seen ∧ d ∈ (e.need known c d).seen := by
  unfold need
  split_ifs with hseen
  · exact ⟨List.Subset.refl _, by simpa using hseen⟩
  · exact ⟨List.subset_cons_self _ _, List.mem_cons_self⟩
  · exact ⟨List.subset_cons_self _ _, List.mem_cons_self⟩

/-- A name that a compiled class depends on is met. -/
theorem Sound.need (h : Sound service roots done waiting e) (hc : c ∈ done)
    (hdepends : DependsOn service c d) :
    Sound service roots done waiting (e.need service.contains c d) := by
  unfold Expansion.need
  split_ifs with hseen hknown
  · exact h
  · have hnew : d ∉ e.seen := by simpa using hseen
    have hfresh : d ∉ done ++ waiting ++ e.next := mt (h.seen_iff d hknown).2 hnew
    refine ⟨?_, ?_, ?_, ?_, h.failures_eq, ?_⟩
    · rw [← List.append_assoc, List.nodup_append]
      refine ⟨h.nodup, List.nodup_singleton d, ?_⟩
      rintro x hx y hy rfl
      exact hfresh (List.mem_singleton.1 hy ▸ hx)
    · intro x hx
      have := h.seen_iff x hx
      simp only [List.mem_cons, List.mem_append] at this ⊢
      grind
    · intro x hx
      rw [← List.append_assoc, List.mem_append, List.mem_singleton] at hx
      obtain hx | rfl := hx
      · exact h.reached x hx
      · exact .dependency (h.reached c (by simp [hc])) hdepends hknown
    · exact fun x hx hx' => List.mem_cons_of_mem d (h.rooted x hx hx')
    · obtain ⟨warned, hmarkers, hfrom, hnodup, hiff⟩ := h.markers_eq
      refine ⟨warned, hmarkers, hfrom, hnodup, fun x => ?_⟩
      rw [hiff]
      simp only [List.mem_cons]
      grind
  · have hnew : d ∉ e.seen := by simpa using hseen
    have hunknown : service.contains d = false := by simpa using hknown
    refine ⟨h.nodup, ?_, h.reached, ?_, h.failures_eq, ?_⟩
    · intro x hx
      have := h.seen_iff x hx
      simp only [List.mem_cons] at this ⊢
      grind
    · exact fun x hx hx' => List.mem_cons_of_mem d (h.rooted x hx hx')
    · obtain ⟨warned, hmarkers, hfrom, hnodup, hiff⟩ := h.markers_eq
      refine ⟨warned ++ [(c, d)], ?_, ?_, ?_, fun x => ?_⟩
      · simp only [hmarkers, List.map_append, List.map_cons, List.map_nil, List.append_assoc]
        rfl
      · intro w hw
        obtain hw | hw := List.mem_append.1 hw
        · exact hfrom w hw
        · obtain rfl := List.mem_singleton.1 hw
          exact ⟨hc, hdepends⟩
      · rw [List.map_append, List.nodup_append]
        refine ⟨hnodup, List.nodup_singleton d, ?_⟩
        rintro x hx y hy rfl
        obtain rfl := List.mem_singleton.1 hy
        exact hnew ((hiff x).1 hx).1
      · rw [List.map_append, List.mem_append, hiff]
        simp only [List.map_cons, List.map_nil, List.mem_cons, List.not_mem_nil, or_false]
        grind

theorem Sound.foldl_need {names : List String} (h : Sound service roots done waiting e)
    (hc : c ∈ done) (hnames : ∀ d ∈ names, DependsOn service c d) :
    Sound service roots done waiting (names.foldl (Expansion.need service.contains c) e) ∧
      e.seen ⊆ (names.foldl (Expansion.need service.contains c) e).seen ∧
      names ⊆ (names.foldl (Expansion.need service.contains c) e).seen := by
  induction names generalizing e with
  | nil => exact ⟨h, List.Subset.refl _, List.nil_subset _⟩
  | cons d names ih =>
    obtain ⟨hsub, hmem⟩ := subset_need service.contains c d e
    obtain ⟨hsound, hseen, hmet⟩ := ih (h.need hc (hnames d List.mem_cons_self))
      fun x hx => hnames x (List.mem_cons_of_mem d hx)
    exact ⟨hsound, List.Subset.trans hsub hseen, List.cons_subset.2 ⟨hseen hmem, hmet⟩⟩

/-! ## Classes and rounds -/

theorem Sound.compile (h : Sound service roots done (c :: waiting) e) :
    Sound service roots (done ++ [c]) waiting
      { e with failures := e.failures ++ (failureOf? service c).toList } := by
  have hmoved : done ++ [c] ++ waiting = done ++ c :: waiting := by simp
  refine ⟨?_, ?_, ?_, h.rooted, ?_, ?_⟩
  · rw [hmoved]
    exact h.nodup
  · rw [hmoved]
    exact h.seen_iff
  · rw [hmoved]
    exact h.reached
  · rw [h.failures_eq, List.filterMap_append]
    cases hfailure : failureOf? service c <;> simp [hfailure]
  · obtain ⟨warned, heq, hfrom, hrest⟩ := h.markers_eq
    exact ⟨warned, heq, fun w hw => ⟨List.mem_append_left _ (hfrom w hw).1, (hfrom w hw).2⟩, hrest⟩

theorem Sound.absorb (h : Sound service roots done (c :: waiting) e)
    (hclosed : Closed service done e) :
    Sound service roots (done ++ [c]) waiting (e.absorb service.contains c (outcomeOf service c)) ∧
      Closed service (done ++ [c]) (e.absorb service.contains c (outcomeOf service c)) := by
  obtain ⟨outcome, houtcome⟩ := Table.contains_iff.1 (h.reached c (by simp)).contains
  have hcompiled := h.compile
  rw [outcomeOf_eq houtcome]
  cases outcome with
  | error f =>
    rw [failureOf?, houtcome] at hcompiled
    refine ⟨hcompiled, fun x hx d hd => ?_⟩
    obtain hx | hx := List.mem_append.1 hx
    · exact hclosed x hx d hd
    · obtain rfl := List.mem_singleton.1 hx
      exact absurd hd (not_dependsOn_of_error houtcome)
  | ok info =>
    simp only [failureOf?, houtcome, Option.toList_none, List.append_nil] at hcompiled
    have hnames (d : String) (hd : d ∈ info.dependsOn.keys) : DependsOn service c d :=
      (dependsOn_iff houtcome).2 hd
    obtain ⟨hsound, hsub, hmet⟩ := hcompiled.foldl_need (by simp) hnames
    refine ⟨hsound, fun x hx d hd => ?_⟩
    obtain hx | hx := List.mem_append.1 hx
    · exact hsub (hclosed x hx d hd)
    · obtain rfl := List.mem_singleton.1 hx
      exact hmet ((dependsOn_iff houtcome).1 hd)

theorem Sound.foldl_absorb (h : Sound service roots done waiting e)
    (hclosed : Closed service done e) :
    let results := waiting.map fun c => (c, outcomeOf service c)
    let e' := results.foldl (fun e (c, o) => e.absorb service.contains c o) e
    Sound service roots (done ++ waiting) [] e' ∧ Closed service (done ++ waiting) e' := by
  induction waiting generalizing done e with
  | nil => simpa using ⟨h, hclosed⟩
  | cons c waiting ih =>
    obtain ⟨hsound, hclosed⟩ := h.absorb hclosed
    simpa using ih hsound hclosed

def fixedRound (service : Table CompileOutcome) (e : Expansion) : Expansion :=
  e.round service.contains (results service e)

theorem Sound.round (h : Sound service roots done e.frontier e) (hnext : e.next = [])
    (hclosed : Closed service done e) :
    Sound service roots (done ++ e.frontier) (fixedRound service e).frontier (fixedRound service e) ∧
      (fixedRound service e).next = [] ∧ Closed service (done ++ e.frontier) (fixedRound service e) := by
  have hbegin : Sound service roots done e.frontier { e with next := [] } := by
    rw [show ({ e with next := [] } : Expansion) = e by rw [← hnext]]
    exact h
  obtain ⟨hsound, hclosed⟩ := hbegin.foldl_absorb hclosed
  -- the classes left for the next round are those that wait in it
  have hleft : done ++ e.frontier ++ (fixedRound service e).frontier ++ (fixedRound service e).next =
      done ++ e.frontier ++ [] ++ (fixedRound service e).frontier := by simp [fixedRound, Expansion.round]
  refine ⟨⟨?_, ?_, ?_, hsound.rooted, hsound.failures_eq, hsound.markers_eq⟩, rfl, hclosed⟩
  · rw [hleft]
    exact hsound.nodup
  · rw [hleft]
    exact hsound.seen_iff
  · rw [hleft]
    exact hsound.reached

theorem grow_of_nil (h : e.frontier = []) : grow service e = (e, []) := by
  rw [grow, dif_pos h]

theorem grow_of_ne_nil (h : e.frontier ≠ []) : grow service e =
    ((grow service (fixedRound service e)).1, results service e ++ (grow service (fixedRound service e)).2) := by
  rw [grow, dif_neg h]
  rfl

theorem Sound.grow (h : Sound service roots done e.frontier e) (hnext : e.next = [])
    (hclosed : Closed service done e) :
    ∃ compiled, (grow service e).2 = compiled.map (fun c => (c, outcomeOf service c)) ∧
      Sound service roots (done ++ compiled) [] (grow service e).1 ∧ (grow service e).1.next = [] ∧
      Closed service (done ++ compiled) (grow service e).1 := by
  induction e using grow.induct service generalizing done with
  | case1 e hfrontier =>
    rw [hfrontier] at h
    rw [grow_of_nil hfrontier]
    exact ⟨[], rfl, by simpa using h, hnext, by simpa using hclosed⟩
  | case2 e hfrontier ih =>
    rw [grow_of_ne_nil hfrontier]
    obtain ⟨hstep, hnext, hclosed⟩ := h.round hnext hclosed
    obtain ⟨compiled, hresults, hsound, hdone, hall⟩ := ih hstep hnext hclosed
    refine ⟨e.frontier ++ compiled, ?_, ?_, hdone, ?_⟩
    · rw [List.map_append, ← hresults]
      rfl
    · rw [← List.append_assoc]
      exact hsound
    · rw [← List.append_assoc]
      exact hall

theorem exists_rounds (service : Table CompileOutcome) (e : Expansion) :
    ∃ n ≤ service.unseen e.seen + 1, (Expansion.grow service e).1 = (fixedRound service)^[n] e ∧
      ((fixedRound service)^[n] e).frontier = [] := by
  induction e using grow.induct service with
  | case1 e hfrontier =>
    rw [grow_of_nil hfrontier]
    exact ⟨0, Nat.zero_le _, rfl, hfrontier⟩
  | case2 e hfrontier ih =>
    rw [grow_of_ne_nil hfrontier]
    obtain ⟨n, hn, hgrown, hend⟩ := ih
    have hfewer := unseen_round service e (results service e)
    by_cases hlast : (fixedRound service e).frontier = []
    · exact ⟨1, by omega, congrArg Prod.fst (grow_of_nil hlast), hlast⟩
    · have hpos : 0 < (fixedRound service e).frontier.length := List.length_pos_iff.2 hlast
      refine ⟨n + 1, ?_, hgrown, hend⟩
      simp only [fixedRound] at hpos
      omega

/-! ## The end -/

theorem Sound.reached_iff (h : Sound service roots done [] e) (hnext : e.next = [])
    (hclosed : Closed service done e) : c ∈ done ↔ Reached service roots c := by
  have hseen {x : String} (hx : service.contains x = true) : x ∈ e.seen ↔ x ∈ done := by
    simpa [hnext] using h.seen_iff x hx
  refine ⟨fun hc => h.reached c (by simp [hc]), fun hreached => ?_⟩
  induction hreached with
  | root hroot hknown => exact (hseen hknown).1 (h.rooted _ hroot hknown)
  | dependency _ hdepends hknown ih => exact (hseen hknown).1 (hclosed _ ih _ hdepends)

end Expansion

namespace Analyser

open Expansion

theorem get?_keep (service : Table CompileOutcome) (compiled : List String) (a : Analyser)
    (hknown : ∀ c ∈ compiled, service.contains c = true) (c : String) :
    (a.keep (compiled.map fun c => (c, outcomeOf service c))).classes.get? c =
      if c ∈ compiled then (infoOf? service c).or (a.classes.get? c) else a.classes.get? c := by
  induction compiled generalizing a with
  | nil => rfl
  | cons x compiled ih =>
    obtain ⟨outcome, houtcome⟩ := Table.contains_iff.1 (hknown x List.mem_cons_self)
    have hrest := ih (a.keep [(x, outcomeOf service x)])
      fun y hy => hknown y (List.mem_cons_of_mem x hy)
    refine hrest.trans ?_
    rw [outcomeOf_eq houtcome]
    cases outcome with
    | error f =>
      have hinfo : infoOf? service x = none := by
        rw [infoOf?, houtcome]
        rfl
      by_cases hc : c = x
      · subst hc
        simp [keep, hinfo]
      · simp [keep, hc]
    | ok info =>
      have hinfo : infoOf? service x = some info := by
        rw [infoOf?, houtcome]
        rfl
      by_cases hc : c = x
      · subst hc
        simp [keep, hinfo]
      · simp [keep, hc, Table.get?_insert_of_ne hc]

theorem conclude_exact {a : Analyser} {service : Table CompileOutcome} {roots compiled : List String}
    {e : Expansion} (h : a.classes = .empty) (hsound : Sound service roots compiled [] e)
    (hnext : e.next = []) (hclosed : Closed service compiled e) :
    Exact service roots compiled
      ((a.keep (compiled.map fun c => (c, outcomeOf service c))).conclude e).1 := by
  have hiff (c : String) : c ∈ compiled ↔ Reached service roots c :=
    hsound.reached_iff hnext hclosed
  have hknown (c : String) (hc : c ∈ compiled) : service.contains c = true :=
    ((hiff c).1 hc).contains
  have hseen (c : String) (hc : c ∈ compiled) : c ∈ e.seen :=
    (hsound.seen_iff c (hknown c hc)).2 (by simp [hc])
  refine ⟨?_, hiff, Table.keys_sorted _, fun c => ?_, hsound.failures_eq, ?_⟩
  · simpa [hnext] using hsound.nodup
  · rw [conclude, Table.mem_keys, Table.get?_filter, get?_keep service compiled a hknown, h,
      Table.get?_empty, ← hiff]
    by_cases hc : c ∈ compiled
    · cases infoOf? service c <;> simp [hc, Option.filter_some, hseen c hc]
    · simp [hc]
  · obtain ⟨warned, hmarkers, hfrom, hnodup, hwarned⟩ := hsound.markers_eq
    refine ⟨warned, hmarkers, fun w hw => ⟨(hiff _).1 (hfrom w hw).1, (hfrom w hw).2⟩, hnodup, ?_⟩
    intro d
    rw [hwarned, and_comm]
    refine and_congr_right fun hmissing => ⟨fun hd => ?_, ?_⟩
    · obtain ⟨w, hw, rfl⟩ := List.mem_map.1 ((hwarned d).2 ⟨hd, hmissing⟩)
      exact ⟨w.1, (hiff _).1 (hfrom w hw).1, (hfrom w hw).2⟩
    · rintro ⟨c, hc, hdepends⟩
      exact hclosed c ((hiff c).2 hc) d hdepends

theorem exists_compiled (a : Analyser) (service : Table CompileOutcome) :
    ∃ compiled e,
      grow service (a.begin service.contains) = (e, compiled.map fun c => (c, outcomeOf service c)) ∧
      Sound service a.roots.toNames compiled [] e ∧ e.next = [] ∧ Closed service compiled e := by
  have hroots : a.roots.toNames.Nodup := by
    refine List.Pairwise.imp ?_ a.roots.keys_sorted
    rintro x y hlt rfl
    exact String.lt_irrefl x hlt
  have hstart : Sound service a.roots.toNames [] (a.begin service.contains).frontier
      (a.begin service.contains) := sound_start hroots
  have hnone : Closed service [] (a.begin service.contains) := fun c hc => by cases hc
  obtain ⟨compiled, hresults, hend⟩ := hstart.grow rfl hnone
  exact ⟨compiled, _, by rw [← hresults], hend⟩

/-- An analyser that knows no class yet finds exactly what its roots lead to, after finitely many
rounds. -/
theorem resolve_exact (a : Analyser) (service : Table CompileOutcome) (h : a.classes = .empty) :
    (∃ n ≤ service.size + 1,
      ((fixedRound service)^[n] (a.begin service.contains)).frontier = []) ∧
      Exact service a.roots.toNames (a.resolve service).2.1 (a.resolve service).1 := by
  obtain ⟨compiled, e, hgrown, hsound, hnext, hclosed⟩ := exists_compiled a service
  constructor
  · obtain ⟨n, hn, -, hend⟩ := exists_rounds service (a.begin service.contains)
    have hall := service.unseen_le (a.begin service.contains).seen
    exact ⟨n, by omega, hend⟩
  · have hcompiled : (a.resolve service).2.1 = compiled := by
      simp [resolve, hgrown, Function.comp_def]
    have hfound : (a.resolve service).1 =
        ((a.keep (compiled.map fun c => (c, outcomeOf service c))).conclude e).1 := by
      rw [resolve, hgrown]
    rw [hcompiled, hfound]
    exact conclude_exact h hsound hnext hclosed

/-! ## Classes that need each other -/

/-- Two classes that depend on each other; one of them depends on a name that does not exist, the other
one on a class that cannot be compiled. -/
def ring : Table CompileOutcome := .ofList
  [("a.A", .ok ⟨"a.A", "", 0, .ofList [("b.B", {}), ("n.N", {})], [], [], [], []⟩),
    ("b.B", .ok ⟨"b.B", "", 0, .ofList [("a.A", {}), ("c.C", {})], [], [], [], []⟩),
    ("c.C", .error ⟨"c.C", "broken"⟩)]

def ringAnalyser : Analyser := setRoots ⟨"source", ⟨"out"⟩, false, .empty, .empty, .empty, .empty,
  .empty, .empty⟩ ["a.A", "r.R"]

theorem resolve_exact_ring : ringAnalyser.classes = .empty ∧
    ringAnalyser.roots.toNames = ["a.A", "r.R"] ∧ ring.keys = ["a.A", "b.B", "c.C"] ∧
    (∃ n ≤ ring.size + 1,
      ((fixedRound ring)^[n] (ringAnalyser.begin ring.contains)).frontier = []) ∧
    Exact ring ringAnalyser.roots.toNames (ringAnalyser.resolve ring).2.1
      (ringAnalyser.resolve ring).1 :=
  ⟨rfl, by decide +kernel, by decide +kernel, resolve_exact ringAnalyser ring rfl⟩

end Analyser

end ClassForge
