import ClassForge.Proofs.Analysis.Closure

/-!
# Analysing again

An analyser keeps what it knows of classes from one analysis to the next, and drops at the end of each
the classes whose names were not met. A name is met also where a class depends on it that does not exist.
So a class that is gone is dropped as soon as nothing reached depends on it, but is listed as long as
something does.
-/

namespace ClassForge

theorem Table.mem_keys_filter {α : Type} {t : Table α} {p : String → Bool} {c : String} :
    c ∈ (t.filter fun x _ => p x).keys ↔ c ∈ t.keys ∧ p c = true := by
  simp [mem_keys, Option.filter_eq_some_iff]

namespace Expansion

variable {service : Table CompileOutcome} {roots done : List String} {e : Expansion} {c : String}

def Met (service : Table CompileOutcome) (roots : List String) (c : String) : Prop :=
  Reached service roots c ∨ ∃ x, Reached service roots x ∧ DependsOn service x c

theorem Met.reached (h : Met service roots c) (hknown : service.contains c = true) :
    Reached service roots c := by
  obtain h | ⟨x, hx, hdepends⟩ := h
  · exact h
  · exact .dependency hx hdepends hknown

theorem Sound.mem_seen_iff (h : Sound service roots done [] e) (hnext : e.next = [])
    (hclosed : Closed service done e) : c ∈ e.seen ↔ Met service roots c := by
  have hreached {x : String} : x ∈ done ↔ Reached service roots x := h.reached_iff hnext hclosed
  cases hknown : service.contains c with
  | true =>
    have hdone : c ∈ e.seen ↔ c ∈ done := by simpa [hnext] using h.seen_iff c hknown
    rw [hdone, hreached]
    exact ⟨.inl, fun hmet => hmet.reached hknown⟩
  | false =>
    obtain ⟨warned, -, hfrom, -, hwarned⟩ := h.markers_eq
    constructor
    · intro hseen
      obtain ⟨w, hw, rfl⟩ := List.mem_map.1 ((hwarned c).2 ⟨hseen, hknown⟩)
      exact .inr ⟨w.1, hreached.1 (hfrom w hw).1, (hfrom w hw).2⟩
    · rintro (hc | ⟨x, hx, hdepends⟩)
      · rw [hc.contains] at hknown
        cases hknown
      · exact hclosed x (hreached.2 hx) c hdepends

end Expansion

namespace Analyser

open Expansion

variable {a : Analyser} {c : String}

/-! ## One analysis -/

theorem mem_classes_resolve (a : Analyser) (service : Table CompileOutcome) (c : String) :
    c ∈ (a.resolve service).2.2.classes.keys ↔
      Reached service a.roots.toNames c ∧ (infoOf? service c).isSome = true ∨
        c ∈ a.classes.keys ∧ Met service a.roots.toNames c := by
  obtain ⟨compiled, e, hgrown, hsound, hnext, hclosed⟩ := exists_compiled a service
  have hreached {x : String} : x ∈ compiled ↔ Reached service a.roots.toNames x :=
    hsound.reached_iff hnext hclosed
  have hknown (x : String) (hx : x ∈ compiled) : service.contains x = true :=
    (hreached.1 hx).contains
  have hkept : c ∈ (a.keep (compiled.map fun c => (c, outcomeOf service c))).classes.keys ↔
      c ∈ compiled ∧ (infoOf? service c).isSome = true ∨ c ∈ a.classes.keys := by
    simp only [Table.mem_keys, ← Option.isSome_iff_exists, get?_keep service compiled a hknown]
    by_cases hc : c ∈ compiled <;> simp [hc]
  have hclasses : (a.resolve service).2.2.classes =
      (a.keep (compiled.map fun c => (c, outcomeOf service c))).classes.filter
        fun x _ => e.seen.contains x := by
    rw [resolve, hgrown]
    rfl
  rw [hclasses, Table.mem_keys_filter, List.contains_iff_mem, hkept, hsound.mem_seen_iff hnext hclosed,
    hreached, or_and_right, and_assoc]
  refine or_congr_left (and_congr_right fun hc => ?_)
  exact and_iff_left (.inl hc)

/-! ## Many calls -/

/-- What is asked of an analyser. -/
inductive Call where
  | setRoots (classes : List String)
  | noteCompiled (info : BuildInfo)
  | resolve (service : Table CompileOutcome)

def Call.run (a : Analyser) : Call → Analyser
  | setRoots classes => a.setRoots classes
  | noteCompiled info => a.noteCompiled info
  | resolve service => (a.resolve service).2.2

def runAll (a : Analyser) (calls : List Call) : Analyser := calls.foldl Call.run a

def Call.Compiles (a : Analyser) (c : String) : Call → Prop
  | setRoots _ => False
  | noteCompiled info => info.classname = c
  | resolve service => Reached service a.roots.toNames c ∧ (infoOf? service c).isSome = true

def Call.Meets (a : Analyser) (c : String) : Call → Prop
  | setRoots _ => True
  | noteCompiled _ => True
  | resolve service => Met service a.roots.toNames c

def AllMeet (c : String) : Analyser → List Call → Prop
  | _, [] => True
  | a, call :: rest => call.Meets a c ∧ AllMeet c (call.run a) rest

/-- One of some calls has compiled a class, and all analyses since have met its name. -/
def Lingers (a : Analyser) (calls : List Call) (c : String) : Prop :=
  ∃ before call after, calls = before ++ call :: after ∧ call.Compiles (a.runAll before) c ∧
    AllMeet c (call.run (a.runAll before)) after

theorem mem_classes_run (a : Analyser) (call : Call) (c : String) :
    c ∈ (call.run a).classes.keys ↔ call.Compiles a c ∨ c ∈ a.classes.keys ∧ call.Meets a c := by
  cases call with
  | setRoots classes => simp [Call.run, Call.Compiles, Call.Meets, setRoots]
  | noteCompiled info =>
    simp only [Call.run, Call.Compiles, Call.Meets, noteCompiled, Table.mem_keys, Table.get?_insert,
      and_true]
    by_cases hc : c = info.classname
    · simp [hc]
    · simp [hc, Ne.symm hc]
  | resolve service => exact mem_classes_resolve a service c

theorem lingers_cons {call : Call} {rest : List Call} :
    a.Lingers (call :: rest) c ↔
      call.Compiles a c ∧ AllMeet c (call.run a) rest ∨ (call.run a).Lingers rest c := by
  constructor
  · rintro ⟨before, other, after, hsplit, hcompiles, hmeet⟩
    cases before with
    | nil =>
      obtain ⟨rfl, rfl⟩ := List.cons.inj hsplit
      exact .inl ⟨hcompiles, hmeet⟩
    | cons first before =>
      obtain ⟨rfl, rfl⟩ := List.cons.inj hsplit
      exact .inr ⟨before, other, after, rfl, hcompiles, hmeet⟩
  · rintro (⟨hcompiles, hmeet⟩ | ⟨before, other, after, rfl, hcompiles, hmeet⟩)
    · exact ⟨[], call, rest, rfl, hcompiles, hmeet⟩
    · exact ⟨call :: before, other, after, rfl, hcompiles, hmeet⟩

/-- After some calls the analyser holds what they have compiled and what it held before, as far as all
analyses since have met it. -/
theorem mem_classes_runAll (a : Analyser) (calls : List Call) (c : String) :
    c ∈ (a.runAll calls).classes.keys ↔
      c ∈ a.classes.keys ∧ AllMeet c a calls ∨ a.Lingers calls c := by
  induction calls generalizing a with
  | nil => simp [runAll, AllMeet, Lingers]
  | cons call rest ih =>
    have hrest : c ∈ (a.runAll (call :: rest)).classes.keys ↔
        c ∈ (call.run a).classes.keys ∧ AllMeet c (call.run a) rest ∨
          (call.run a).Lingers rest c := ih (call.run a)
    rw [hrest, mem_classes_run, lingers_cons, AllMeet]
    tauto

/-- An analysis after any calls lists a class that does not exist exactly if a call compiled it, all
analyses since have met its name, and a class that this one reaches depends on it. -/
theorem missing_class_listed_iff (h : a.classes = .empty) (calls : List Call)
    (service : Table CompileOutcome) (hmissing : service.contains c = false) :
    c ∈ ((a.runAll calls).resolve service).1.classes ↔
      a.Lingers calls c ∧
        ∃ x, Reached service (a.runAll calls).roots.toNames x ∧ DependsOn service x c := by
  have hunreached : ¬Reached service (a.runAll calls).roots.toNames c := by
    intro hreached
    rw [hreached.contains] at hmissing
    cases hmissing
  have hnothing : c ∉ a.classes.keys := by simp [h, Table.mem_keys]
  have hlisted : c ∈ ((a.runAll calls).resolve service).1.classes ↔
      c ∈ ((a.runAll calls).resolve service).2.2.classes.keys := .rfl
  rw [hlisted, mem_classes_resolve, mem_classes_runAll, Met]
  simp only [hunreached, hnothing, false_and, false_or]

/-! ## A class that is gone -/

def dependent : BuildInfo := ⟨"a.A", "", 0, .ofList [("b.B", {})], [], [], [], []⟩

def foundation : BuildInfo := ⟨"b.B", "", 0, .empty, [], [], [], []⟩

/-- A service that knows both classes. -/
def whole : Table CompileOutcome := .ofList [("a.A", .ok dependent), ("b.B", .ok foundation)]

/-- The service after the second class has been deleted. -/
def bereft : Table CompileOutcome := .ofList [("a.A", .ok dependent)]

def newcomer : Analyser :=
  ⟨"source", ⟨"out"⟩, false, .empty, .empty, .empty, .empty, .empty, .empty⟩

theorem missing_class_listed_iff_noted :
    newcomer.classes = .empty ∧ bereft.contains "b.B" = false ∧
      newcomer.Lingers [.setRoots ["a.A"], .noteCompiled foundation] "b.B" ∧
      ∃ x, Reached bereft
          (newcomer.runAll [.setRoots ["a.A"], .noteCompiled foundation]).roots.toNames x ∧
        DependsOn bereft x "b.B" := by
  have hmissing : bereft.contains "b.B" = false := by decide +kernel
  have hlisted : "b.B" ∈ ((newcomer.runAll
      [.setRoots ["a.A"], .noteCompiled foundation]).resolve bereft).1.classes := by decide +kernel
  exact ⟨rfl, hmissing, (missing_class_listed_iff rfl _ bereft hmissing).1 hlisted⟩

theorem missing_class_listed_deleted :
    bereft.contains "b.B" = false ∧
      ((newcomer.runAll [.setRoots ["a.A"], .resolve whole]).resolve bereft).1.classes =
        ["a.A", "b.B"] := by
  decide +kernel

end Analyser

end ClassForge
