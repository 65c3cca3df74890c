import ClassForge.Proofs.Build.Interleaving

/-!
# Requests to make

A run of a maker is active from the turn in which a request starts it to the turn in which that
request clears the slot. A request that says that something has changed either starts a run or marks
the slot of the one that is active, and whoever clears a marked slot asks again. So no change is lost,
whatever other requests do between the clearing of the slot and the next run.
-/

namespace ClassForge.Build.System

variable {s s' : System} {k m r : Nat}

/-! ## Who started what -/

def Starter (s : System) (k m r : Nat) : Prop :=
  ∃ q, s.requesters[k]? = some q ∧ q.thread.maker = m ∧ q.thread.progress = .waiting r true

def Active (s : System) (m r : Nat) : Prop := ∃ k, s.Starter k m r

def Restarting (s : System) (m : Nat) : Prop :=
  ∃ (k : Nat) (q : Requester), s.requesters[k]? = some q ∧ q.thread.maker = m ∧ q.asked = true ∧
    q.thread.progress = .asking

def Starts (m : Nat) (s : System) (a : Action) : Prop :=
  (s.act a).build.runs = s.build.runs ++ [{ maker := m }]

structure Tidy (s : System) : Prop where
  running : ∀ {k m r}, s.Starter k m r → (s.build.slots m).running = some r
  unique : ∀ {k k' m r r'}, s.Starter k m r → s.Starter k' m r' → k = k'
  starter : ∀ {m r}, (s.build.slots m).running = some r → s.Active m r
  unfinished : ∀ {r : Nat} {run : MakeRun}, s.build.runs[r]? = some run → run.isDone = false →
    (s.build.slots run.maker).running = some r

theorem Tidy.active_unique (h : Tidy s) {r r' : Nat} (ha : s.Active m r) (ha' : s.Active m r') :
    r = r' := by
  obtain ⟨k, hk⟩ := ha
  obtain ⟨k', hk'⟩ := ha'
  have := h.running hk
  rw [h.running hk'] at this
  exact (Option.some.inj this).symm

/-! ## Turns that are about something else -/

structure Undisturbed (s s' : System) : Prop where
  slots : s'.build.slots = s.build.slots
  runs : ∀ {r : Nat} {run' : MakeRun}, s'.build.runs[r]? = some run' →
    ∃ run, s.build.runs[r]? = some run ∧ run.maker = run'.maker ∧
      (run'.isDone = false → run.isDone = false)
  requesters : s'.requesters = s.requesters ∨
    ∃ maker dirty, s'.requesters = s.requesters ++ [{ thread := { maker, dirty } }]

theorem undisturbed_of_runs (hslots : s'.build.slots = s.build.slots)
    (hruns : s'.build.runs = s.build.runs) (hrequesters : s'.requesters = s.requesters) :
    Undisturbed s s' where
  slots := hslots
  runs := by
    intro r run' hrun
    rw [hruns] at hrun
    exact ⟨run', hrun, rfl, id⟩
  requesters := .inl hrequesters

theorem undisturbed_of_ledger {b : Build} (h : b.ledger = s.build.ledger) :
    Undisturbed s { s with build := b } :=
  undisturbed_of_runs (congrArg Ledger.slots h) (congrArg Ledger.runs h) rfl

theorem undisturbed_of_setRun {b : Build} {run : MakeRun} {progress : RunProgress}
    (hslots : b.slots = s.build.slots)
    (hruns : b.runs = s.build.runs.set r { run with progress })
    (hrun : s.build.runs[r]? = some run) (hdone : run.isDone = false) :
    Undisturbed s { s with build := b } where
  slots := hslots
  runs := by
    intro i run' hi
    simp only [hruns, List.getElem?_set] at hi
    split at hi
    · subst i
      have hrun' : { run with progress } = run' := by simpa using (Option.ite_none_right_eq_some.1 hi).2
      exact ⟨run, hrun, by rw [← hrun'], fun _ => hdone⟩
    · exact ⟨run', hi, rfl, id⟩
  requesters := .inl rfl

theorem stepCompile_runs (b : Build) (t : CompileThread) :
    (b.stepCompile t).1.slots = b.slots ∧ (b.stepCompile t).1.runs = b.runs := by
  rcases b.stepCompile_cases t with h | ⟨force, j, h⟩
  · exact ⟨congrArg Ledger.slots h, congrArg Ledger.runs h⟩
  · exact ⟨congrArg Ledger.slots h, congrArg Ledger.runs h⟩

/-- Only a turn of a request to make touches slots and starts runs. -/
theorem undisturbed_act (s : System) {a : Action} (ha : ∀ k, a ≠ .make k) :
    Undisturbed s (s.act a) := by
  cases a with
  | make k => exact absurd rfl (ha k)
  | askCompile maker classname force => exact undisturbed_of_runs rfl rfl rfl
  | askMake maker dirty => exact ⟨rfl, fun h => ⟨_, h, rfl, id⟩, .inr ⟨maker, dirty, rfl⟩⟩
  | compile k =>
    simp only [act]
    split
    · exact undisturbed_of_runs rfl rfl rfl
    · obtain ⟨hslots, hruns⟩ := stepCompile_runs s.build ‹_›
      exact undisturbed_of_runs hslots hruns rfl
  | compileIn r k =>
    simp only [act]
    split
    · rename_i hrun
      split
      · exact undisturbed_of_runs rfl rfl rfl
      · obtain ⟨hslots, hruns⟩ := stepCompile_runs s.build ‹_›
        exact undisturbed_of_setRun hslots (congrArg (List.set · r _) hruns) hrun rfl
    · exact undisturbed_of_runs rfl rfl rfl
  | job j =>
    rcases s.build.stepJob_cases j with h | ⟨job, _, _, ⟨_, h⟩ | ⟨b, outcome, h, heq⟩⟩
    · exact undisturbed_of_ledger h
    · exact undisturbed_of_runs (congrArg Ledger.slots h) (congrArg Ledger.runs h) rfl
    · simp only [act, heq]
      exact undisturbed_of_runs (congrArg Ledger.slots h) (congrArg Ledger.runs h) rfl
  | run r =>
    rcases s.build.stepRun_cases r with h | ⟨run, progress, hrun, hdone, h⟩
    · exact undisturbed_of_ledger h
    · exact undisturbed_of_setRun (congrArg Ledger.slots h) (congrArg Ledger.runs h) hrun hdone
  | change change => exact undisturbed_of_ledger (s.build.ledger_handle change)
  | autoMake on => exact undisturbed_of_runs rfl rfl rfl
  | edit files => exact undisturbed_of_runs rfl rfl rfl

theorem Undisturbed.requester (h : Undisturbed s s') {q : Requester}
    (hq : s'.requesters[k]? = some q) :
    s.requesters[k]? = some q ∨ q.asked = false ∧ q.thread.progress = .asking := by
  rcases h.requesters with heq | ⟨maker, dirty, heq⟩
  · exact .inl (heq ▸ hq)
  · rw [heq, List.getElem?_append] at hq
    split at hq
    · exact .inl hq
    · obtain rfl := List.mem_singleton.1 (List.mem_of_getElem? hq)
      exact .inr ⟨rfl, rfl⟩

theorem Undisturbed.requester_kept (h : Undisturbed s s') {q : Requester}
    (hq : s.requesters[k]? = some q) : s'.requesters[k]? = some q := by
  rcases h.requesters with heq | ⟨maker, dirty, heq⟩
  · exact heq ▸ hq
  · rw [heq, List.getElem?_append_left (List.getElem?_eq_some_iff.1 hq).1, hq]

theorem Undisturbed.starter_iff (h : Undisturbed s s') : s'.Starter k m r ↔ s.Starter k m r := by
  constructor
  · rintro ⟨q, hq, hm, hp⟩
    rcases h.requester hq with hq | ⟨-, hasking⟩
    · exact ⟨q, hq, hm, hp⟩
    · rw [hasking] at hp
      cases hp
  · rintro ⟨q, hq, hm, hp⟩
    exact ⟨q, h.requester_kept hq, hm, hp⟩

theorem Undisturbed.restarting (h : Undisturbed s s') (hs : s.Restarting m) : s'.Restarting m := by
  obtain ⟨k, q, hq, hrest⟩ := hs
  exact ⟨k, q, h.requester_kept hq, hrest⟩

theorem Tidy.congr (ht : Tidy s)
    (hslots : ∀ m, (s'.build.slots m).running = (s.build.slots m).running)
    (hruns : ∀ {r : Nat} {run' : MakeRun}, s'.build.runs[r]? = some run' →
      ∃ run, s.build.runs[r]? = some run ∧ run.maker = run'.maker ∧
        (run'.isDone = false → run.isDone = false))
    (hstarter : ∀ {k m r}, s'.Starter k m r ↔ s.Starter k m r) : Tidy s' where
  running hk := by
    rw [hslots]
    exact ht.running (hstarter.1 hk)
  unique hk hk' := ht.unique (hstarter.1 hk) (hstarter.1 hk')
  starter hr := by
    rw [hslots] at hr
    obtain ⟨k, hk⟩ := ht.starter hr
    exact ⟨k, hstarter.2 hk⟩
  unfinished hrun hdone := by
    obtain ⟨run, hrun, hmaker, hdone'⟩ := hruns hrun
    rw [hslots, ← hmaker]
    exact ht.unfinished hrun (hdone' hdone)

theorem Tidy.undisturbed (ht : Tidy s) (h : Undisturbed s s') : Tidy s' :=
  ht.congr (fun m => by rw [h.slots]) h.runs h.starter_iff

/-! ## Turns of requests to make -/

theorem isDone_of_runResult? {b : Build} {run : MakeRun} {result : MakeResult}
    (hrun : b.runs[r]? = some run) (hresult : b.runResult? r = some result) : run.isDone = true := by
  obtain ⟨maker, progress⟩ := run
  cases progress <;> simp [runResult?, hrun, MakeRun.isDone] at hresult ⊢

def answered (s : System) (k : Nat) (b : Build) (t : MakeThread) : System :=
  { s with build := b, requesters := s.requesters.set k { thread := t, asked := true } }

section

variable {q : Requester} {b : Build} {t : MakeThread} {i : Nat} (hq : s.requesters[k]? = some q)

include hq

theorem act_make : s.act (.make k) =
      s.answered k (s.build.stepMake q.thread).1 (s.build.stepMake q.thread).2 := by
  simp only [act, hq]
  rfl

theorem requester_answered : (s.answered k b t).requesters[i]? =
    if i = k then some { thread := t, asked := true } else s.requesters[i]? := by
  have hk := (List.getElem?_eq_some_iff.1 hq).1
  rw [answered, List.getElem?_set]
  by_cases h : i = k
  · simp [h, hk]
  · rw [if_neg h, if_neg fun h' => h h'.symm]

theorem starter_answered_self :
    (s.answered k b t).Starter k m r ↔ t.maker = m ∧ t.progress = .waiting r true := by
  simp [Starter, requester_answered hq]

theorem starter_answered_of_ne (h : i ≠ k) : (s.answered k b t).Starter i m r ↔ s.Starter i m r := by
  simp [Starter, requester_answered hq, h]

theorem Starter.thread_eq (h : s.Starter k m r) :
    q.thread.maker = m ∧ q.thread.progress = .waiting r true := by
  obtain ⟨q', hq', h⟩ := h
  obtain rfl := Option.some.inj (hq.symm.trans hq')
  exact h

theorem starter_answered (hmaker : t.maker = q.thread.maker)
    (hp : ∀ r, t.progress = .waiting r true ↔ q.thread.progress = .waiting r true) :
    (s.answered k b t).Starter i m r ↔ s.Starter i m r := by
  by_cases h : i = k
  · subst h
    rw [starter_answered_self hq, hmaker, hp]
    exact ⟨fun h => ⟨q, hq, h⟩, fun h => h.thread_eq hq⟩
  · exact starter_answered_of_ne hq h

theorem Tidy.start (ht : Tidy s)
    (hfree : (s.build.slots q.thread.maker).running = none)
    (hslots : b.slots = (s.build.setSlot q.thread.maker
      { running := some s.build.runs.length, dirty := false }).slots)
    (hruns : b.runs = s.build.runs ++ [{ maker := q.thread.maker }])
    (ht' : t = { q.thread with progress := .waiting s.build.runs.length true }) :
    Tidy (s.answered k b t) := by
  subst ht'
  -- no request has started a run of that maker, since its slot is free
  have hnone {i r : Nat} : ¬s.Starter i q.thread.maker r := by
    intro h
    have := ht.running h
    rw [hfree] at this
    cases this
  have hfresh : (b.slots q.thread.maker).running = some s.build.runs.length := by
    simp [hslots, setSlot]
  have hold {m r : Nat} (hm : m ≠ q.thread.maker) :
      (b.slots m).running = some r ↔ (s.build.slots m).running = some r := by
    simp [hslots, setSlot, hm]
  constructor
  · intro i m r h
    by_cases hi : i = k
    · subst hi
      obtain ⟨rfl, hr⟩ := (starter_answered_self hq).1 h
      cases hr
      exact hfresh
    · have h := (starter_answered_of_ne hq hi).1 h
      have hm : m ≠ q.thread.maker := fun hm => hnone (hm ▸ h)
      exact (hold hm).2 (ht.running h)
  · intro i i' m r r' h h'
    by_cases hi : i = k <;> by_cases hi' : i' = k
    · rw [hi, hi']
    · subst hi
      obtain ⟨rfl, -⟩ := (starter_answered_self hq).1 h
      exact absurd ((starter_answered_of_ne hq hi').1 h') hnone
    · subst hi'
      obtain ⟨rfl, -⟩ := (starter_answered_self hq).1 h'
      exact absurd ((starter_answered_of_ne hq hi).1 h) hnone
    · exact ht.unique ((starter_answered_of_ne hq hi).1 h) ((starter_answered_of_ne hq hi').1 h')
  · intro m r h
    by_cases hm : m = q.thread.maker
    · subst hm
      have hr : s.build.runs.length = r := Option.some.inj (hfresh.symm.trans h)
      exact ⟨k, (starter_answered_self hq).2 ⟨rfl, by rw [hr]⟩⟩
    · obtain ⟨i, hi⟩ := ht.starter ((hold hm).1 h)
      have hne : i ≠ k := by
        rintro rfl
        exact hm (hi.thread_eq hq).1.symm
      exact ⟨i, (starter_answered_of_ne hq hne).2 hi⟩
  · intro r run hrun hdone
    have hrun : b.runs[r]? = some run := hrun
    rw [hruns, List.getElem?_append] at hrun
    split at hrun
    · have hrunning := ht.unfinished hrun hdone
      have hm : run.maker ≠ q.thread.maker := by
        intro hm
        rw [hm, hfree] at hrunning
        cases hrunning
      exact (hold hm).2 hrunning
    · have hr := (List.getElem?_eq_some_iff.1 hrun).1
      obtain rfl := List.mem_singleton.1 (List.mem_of_getElem? hrun)
      simp only [List.length_singleton] at hr
      have : r = s.build.runs.length := by omega
      exact this ▸ hfresh

theorem Tidy.clear (ht : Tidy s) (hp : q.thread.progress = .waiting r true) {result : MakeResult}
    (hresult : s.build.runResult? r = some result)
    (hb : b = s.build.setSlot q.thread.maker {}) (ht' : ∀ r, t.progress ≠ .waiting r true) :
    Tidy (s.answered k b t) := by
  have hk : s.Starter k q.thread.maker r := ⟨q, hq, rfl, hp⟩
  have hstarter {i m r : Nat} :
      (s.answered k b t).Starter i m r ↔ m ≠ q.thread.maker ∧ s.Starter i m r := by
    by_cases hi : i = k
    · subst hi
      rw [starter_answered_self hq]
      exact ⟨fun h => absurd h.2 (ht' r), fun h => absurd (h.2.thread_eq hq).1.symm h.1⟩
    · rw [starter_answered_of_ne hq hi]
      refine ⟨fun h => ⟨?_, h⟩, fun h => h.2⟩
      rintro rfl
      exact hi (ht.unique h hk)
  have hold {m r : Nat} : (b.slots m).running = some r ↔
      m ≠ q.thread.maker ∧ (s.build.slots m).running = some r := by
    by_cases hm : m = q.thread.maker <;> simp [hb, setSlot, hm]
  constructor
  · intro i m r h
    obtain ⟨hm, h⟩ := hstarter.1 h
    exact hold.2 ⟨hm, ht.running h⟩
  · intro i i' m r r' h h'
    exact ht.unique (hstarter.1 h).2 (hstarter.1 h').2
  · intro m r h
    obtain ⟨hm, h⟩ := hold.1 h
    obtain ⟨i, h⟩ := ht.starter h
    exact ⟨i, hstarter.2 ⟨hm, h⟩⟩
  · intro r' run hrun hdone
    have hrun : s.build.runs[r']? = some run := by rwa [answered, hb] at hrun
    have hrunning := ht.unfinished hrun hdone
    refine hold.2 ⟨?_, hrunning⟩
    intro hm
    -- the run that the request started has ended
    rw [hm, ht.running hk] at hrunning
    cases hrunning
    rw [isDone_of_runResult? hrun hresult] at hdone
    cases hdone

end

theorem Tidy.act (ht : Tidy s) (a : Action) : Tidy (s.act a) := by
  by_cases hmake : ∃ k, a = .make k
  · obtain ⟨k, rfl⟩ := hmake
    cases hq : s.requesters[k]? with
    | none => simpa only [System.act, hq] using ht
    | some q =>
      rw [act_make hq]
      rcases s.build.stepMake_cases q.thread with
        ⟨r, hp, hrunning, heq⟩ | ⟨hp, hfree, heq⟩ | ⟨r, result, hp, hresult, heq⟩ |
        ⟨r, result, hp, heq⟩ | ⟨hp, heq⟩
      · rw [heq]
        refine ht.congr ?_ (fun h => ⟨_, h, rfl, id⟩) (starter_answered hq rfl (by simp [hp]))
        intro m
        by_cases hm : m = q.thread.maker <;> simp [answered, setSlot, hm, hrunning]
      · rw [heq]
        exact ht.start hq hfree rfl rfl rfl
      · rw [heq]
        refine ht.clear hq hp hresult rfl ?_
        intro r
        simp only
        split <;> simp
      · rw [heq]
        exact ht.congr (fun _ => rfl) (fun h => ⟨_, h, rfl, id⟩)
          (starter_answered hq rfl (by simp [hp]))
      · rw [heq]
        exact ht.congr (fun _ => rfl) (fun h => ⟨_, h, rfl, id⟩) (starter_answered hq rfl (by simp))
  · exact ht.undisturbed (s.undisturbed_act fun k h => hmake ⟨k, h⟩)

/-! ## What is owed -/

/-- A change of which no run has taken notice: the slot of the active run is marked, or the slot has
been cleared and some request is about to ask for it again. -/
def Owes (s : System) (m : Nat) : Prop :=
  (s.build.slots m).running.isSome = true ∧ (s.build.slots m).dirty = true ∨
    (s.build.slots m).running = none ∧ s.Restarting m

theorem stepMake_slots_of_ne (b : Build) (t : MakeThread) (hm : m ≠ t.maker) :
    (b.stepMake t).1.slots m = b.slots m := by
  rcases b.stepMake_cases t with
    ⟨r, -, -, heq⟩ | ⟨-, -, heq⟩ | ⟨r, result, -, -, heq⟩ | ⟨r, result, -, heq⟩ | ⟨-, heq⟩ <;>
    simp [heq, setSlot, hm]

section

variable {q : Requester} {b : Build} {t : MakeThread} (hq : s.requesters[k]? = some q)

include hq

theorem owes_or_starts_of_dirty (hp : q.thread.progress = .asking) (hdirty : q.thread.dirty = true) :
    Starts q.thread.maker s (.make k) ∨ (s.act (.make k)).Owes q.thread.maker := by
  rw [Starts, act_make hq]
  rcases s.build.stepMake_cases q.thread with
    ⟨r, -, -, heq⟩ | ⟨-, -, heq⟩ | ⟨r, result, hp', -⟩ | ⟨r, result, hp', -⟩ | ⟨hp', -⟩
  · refine .inr (.inl ?_)
    simp [heq, answered, setSlot, hdirty]
  · refine .inl ?_
    rw [heq]
    rfl
  · rw [hp] at hp'
    cases hp'
  · rw [hp] at hp'
    cases hp'
  · exact absurd hp hp'

theorem Restarting.answered (hs : s.Restarting m)
    (h : q.thread.maker = m → q.thread.progress ≠ .asking) : (s.answered k b t).Restarting m := by
  obtain ⟨i, q', hq', hmaker, hasked, hp⟩ := hs
  refine ⟨i, q', ?_, hmaker, hasked, hp⟩
  rw [requester_answered hq, if_neg, hq']
  rintro rfl
  obtain rfl := Option.some.inj (hq.symm.trans hq')
  exact h hmaker hp

theorem Owes.answered (ho : s.Owes m) (hslots : b.slots m = s.build.slots m)
    (h : q.thread.maker = m → q.thread.progress ≠ .asking) : (s.answered k b t).Owes m := by
  rw [Owes, System.answered, hslots]
  exact ho.imp_right fun ho => ⟨ho.1, ho.2.answered hq h⟩

theorem Tidy.owes_make (ht : Tidy s) (ho : s.Owes q.thread.maker) :
    Starts q.thread.maker s (.make k) ∨ (s.act (.make k)).Owes q.thread.maker := by
  rw [Starts, act_make hq]
  rcases s.build.stepMake_cases q.thread with
    ⟨r, -, hrunning, heq⟩ | ⟨-, -, heq⟩ | ⟨r, result, hp, -, heq⟩ | ⟨r, result, hp, heq⟩ | ⟨hp, heq⟩
  · rcases ho with ⟨-, hdirty⟩ | ⟨hfree, -⟩
    · refine .inr (.inl ?_)
      simp [heq, System.answered, setSlot, hdirty]
    · rw [hfree] at hrunning
      cases hrunning
  · rw [heq]
    exact .inl rfl
  · have hrunning := ht.running ⟨q, hq, rfl, hp⟩
    rcases ho with ⟨-, hdirty⟩ | ⟨hfree, -⟩
    · refine .inr (.inr ⟨?_, k, { thread := (s.build.stepMake q.thread).2, asked := true }, ?_⟩)
      · simp [heq, System.answered, setSlot]
      · rw [requester_answered hq, if_pos rfl, heq]
        exact ⟨rfl, rfl, rfl, if_pos hdirty⟩
    · rw [hfree] at hrunning
      cases hrunning
  · rw [heq]
    exact .inr (ho.answered hq rfl fun _ => by simp [hp])
  · rw [heq]
    exact .inr (ho.answered hq rfl fun _ => hp)

end

theorem Tidy.owes_step (ht : Tidy s) (ho : s.Owes m) (a : Action) :
    Starts m s a ∨ (s.act a).Owes m := by
  by_cases hmake : ∃ k, a = .make k
  · obtain ⟨k, rfl⟩ := hmake
    cases hq : s.requesters[k]? with
    | none =>
      right
      simpa only [System.act, hq] using ho
    | some q =>
      by_cases hm : m = q.thread.maker
      · subst hm
        exact ht.owes_make hq ho
      · right
        rw [act_make hq]
        exact ho.answered hq (stepMake_slots_of_ne _ _ hm) fun h => absurd h.symm hm
  · have h := s.undisturbed_act fun k h => hmake ⟨k, h⟩
    right
    rw [Owes, h.slots]
    exact ho.imp_right fun ho => ⟨ho.1, h.restarting ho.2⟩

/-! ## Requests are joined and none is lost -/

/-- What callers can rely on after a schedule. -/
structure Deduplicated (start : System) (schedule : List Action) : Prop where
  one_run : ∀ m r r', (schedule.foldl System.act start).Active m r →
    (schedule.foldl System.act start).Active m r' → r = r'
  active : ∀ (r : Nat) (run : MakeRun),
    (schedule.foldl System.act start).build.runs[r]? = some run → run.isDone = false →
    (schedule.foldl System.act start).Active run.maker r
  /-- If a request says that something has changed, then some run of its maker starts with that
  request or later, as soon as no run is active and no request is about to restart one. -/
  no_change_lost : ∀ (before after : List Action) (k : Nat) (q : Requester),
    schedule = before ++ .make k :: after →
    (before.foldl System.act start).requesters[k]? = some q →
    q.thread.progress = .asking → q.thread.dirty = true →
    (∀ r, ¬(schedule.foldl System.act start).Active q.thread.maker r) →
    ¬(schedule.foldl System.act start).Restarting q.thread.maker →
    Happened System.act (before.foldl System.act start) (.make k :: after) (Starts q.thread.maker)

theorem tidy_start (files : FileTree) (backend : Backend) (metadata : Metadata)
    (classes : Table Path) (makers : List Maker) :
    Tidy (start files backend metadata classes makers) where
  running := by
    rintro k m r ⟨q, hq, -⟩
    cases hq
  unique := by
    rintro k k' m r r' ⟨q, hq, -⟩
    cases hq
  starter h := by cases h
  unfinished h := by cases h

theorem Tidy.run (ht : Tidy s) (schedule : List Action) : Tidy (schedule.foldl System.act s) :=
  List.foldlRecOn schedule System.act ht fun _ ht a _ => ht.act a

theorem Tidy.not_owes (ht : Tidy s) (hidle : ∀ r, ¬s.Active m r) (hrest : ¬s.Restarting m) :
    ¬s.Owes m := by
  rintro (⟨hrunning, -⟩ | ⟨-, h⟩)
  · obtain ⟨r, hr⟩ := Option.isSome_iff_exists.1 hrunning
    exact hidle r (ht.starter hr)
  · exact hrest h

theorem requests_deduplicated (files : FileTree) (backend : Backend) (metadata : Metadata)
    (classes : Table Path) (makers : List Maker) (schedule : List Action) :
    Deduplicated (start files backend metadata classes makers) schedule := by
  have ht := tidy_start files backend metadata classes makers
  generalize start files backend metadata classes makers = s₀ at ht
  constructor
  · intro m r r' h h'
    exact (ht.run schedule).active_unique h h'
  · intro r run hrun hdone
    exact (ht.run schedule).starter ((ht.run schedule).unfinished hrun hdone)
  · rintro before after k q rfl hq hp hdirty hidle hrest
    have hbefore := ht.run before
    rw [List.foldl_append, List.foldl_cons] at hidle hrest
    generalize before.foldl System.act s₀ = s at hq hidle hrest hbefore
    rcases owes_or_starts_of_dirty hq hp hdirty with h | h
    · exact .head h
    · have hstep : ∀ s a, Tidy s ∧ s.Owes q.thread.maker →
          Starts q.thread.maker s a ∨ Tidy (s.act a) ∧ (s.act a).Owes q.thread.maker :=
        fun s a h => (h.1.owes_step h.2 a).imp_right fun ho => ⟨h.1.act a, ho⟩
      rcases happened_or hstep ⟨hbefore.act _, h⟩ after with h | ⟨hend, h⟩
      · exact .tail h
      · exact absurd h (hend.not_owes hidle hrest)

def idle : System :=
  start {} { transformer := .passthrough, engine := .inline {} } { rootDir := ⟨"meta"⟩ } .empty []

def firstRuns : List Action := [.askMake 0 false, .askMake 0 true, .make 0]

/-- The second request asks while the run is active. -/
def changedMeanwhile : List Action :=
  firstRuns ++ Action.make 1 :: [.run 0, .make 0, .make 0, .run 1, .make 0]

theorem requests_deduplicated_changedMeanwhile :
    (firstRuns.foldl System.act idle).Active 0 0 ∧
    (∀ r, ¬(changedMeanwhile.foldl System.act idle).Active 0 r) ∧
    Happened System.act (firstRuns.foldl System.act idle)
      (.make 1 :: [.run 0, .make 0, .make 0, .run 1, .make 0]) (Starts 0) := by
  have hend : (changedMeanwhile.foldl System.act idle).requesters =
      [{ thread := { maker := 0, progress := .done (.error "no maker 0") }, asked := true },
        { thread := { maker := 0, dirty := true, progress := .waiting 0 false }, asked := true }] :=
    rfl
  have hidle : ∀ r, ¬(changedMeanwhile.foldl System.act idle).Active 0 r := by
    rintro r ⟨k, q, hq, -, hp⟩
    rw [hend] at hq
    rcases List.mem_pair.1 (List.mem_of_getElem? hq) with rfl | rfl <;> cases hp
  have hrest : ¬(changedMeanwhile.foldl System.act idle).Restarting 0 := by
    rintro ⟨k, q, hq, -, -, hp⟩
    rw [hend] at hq
    rcases List.mem_pair.1 (List.mem_of_getElem? hq) with rfl | rfl <;> cases hp
  refine ⟨⟨0, _, rfl, rfl, rfl⟩, hidle, ?_⟩
  exact (requests_deduplicated {} { transformer := .passthrough, engine := .inline {} }
    { rootDir := ⟨"meta"⟩ } .empty [] changedMeanwhile).no_change_lost _ _ 1 _ rfl rfl rfl rfl
      hidle hrest

end ClassForge.Build.System
