import ClassForge.Run.Server
import Mathlib.Data.List.Nodup

/-!
# Runs that are told to end

A server tells those runs to end that are registered, and a run is registered when it begins, not when
its call is read, until it ends, not until its call is answered. So at the end of the input a run is told
to end exactly if it is under way then. One that begins later is never told, and if it watches its files,
the server waits for it for ever.
-/

namespace ClassForge.Server

namespace RunCall

def isRunning (c : RunCall) : Bool :=
  match c.progress with
  | .running _ => true
  | _ => false

def isEnded (c : RunCall) : Bool :=
  match c.progress with
  | .ended _ => true
  | _ => false

def isAnswered (c : RunCall) : Bool :=
  match c.progress with
  | .answered => true
  | _ => false

theorem isRunning_of_isEnded {c : RunCall} (h : c.isEnded = true) : c.isRunning = false := by
  unfold isEnded at h
  unfold isRunning
  grind

/-- The run has begun and goes on until it is told to end. -/
def watches (c : RunCall) : Bool :=
  match c.progress with
  | .running config => config.watch
  | _ => false

end RunCall

/-- A turn of a run, or a change of the files that runs read. -/
inductive RunTurn where
  | begin (i : Nat)
  | finish (i : Nat)
  | reply (i : Nat)
  | edit (files : FileTree)

/-- A turn while there is input: the reader takes a line, or the runs go on. -/
inductive Turn where
  | line (text : String)
  | run (turn : RunTurn)

/-- A session with the files around it. -/
structure Serving where
  session : Session := {}
  files : FileTree

namespace Serving

def actRun (s : Serving) : RunTurn → Serving
  | .begin i => { s with session := s.session.beginRun i }
  | .finish i =>
    let (session, files) := (s.session.finishRun i).run s.files
    { session, files }
  | .reply i => { s with session := s.session.reply i }
  | .edit files => { s with files }

def act (s : Serving) : Turn → Serving
  | .line text => { s with session := s.session.readLine text }
  | .run turn => s.actRun turn

def close (s : Serving) : Serving := { s with session := s.session.close }

end Serving

namespace Session

variable {s s' : Session} {i : Nat} {call : RunCall}

/-! ## What a turn does -/

/-- The numbers by which callers know their calls. -/
def ids (s : Session) : List UInt64 := s.calls.map (·.id)

inductive Moves (s s' : Session) : Prop
  | kept (calls : s'.calls = s.calls) (running : s'.running = s.running)
  | begun (i : Nat) (call : RunCall) (config : Config) (found : s.calls[i]? = some call)
      (opened : call.isAnswered = false)
      (calls : s'.calls = s.calls.set i { call with progress := .running config })
      (running : s'.running = (call.id, i) :: s.running.filter (·.1 ≠ call.id))
  | ended (i : Nat) (call : RunCall) (outcome : Except String Datum) (found : s.calls[i]? = some call)
      (opened : call.isAnswered = false)
      (calls : s'.calls = s.calls.set i { call with progress := .ended outcome })
      (running : s'.running = s.running.filter (·.1 ≠ call.id))
  | answered (i : Nat) (call : RunCall) (found : s.calls[i]? = some call) (ended : call.isEnded = true)
      (calls : s'.calls = s.calls.set i { call with progress := .answered })
      (running : s'.running = s.running)

theorem moves_beginRun (s : Session) (i : Nat) : s.Moves (s.beginRun i) := by
  rw [beginRun]
  split
  · next call id args stopped hcall =>
    split
    · exact .ended i _ _ hcall rfl rfl rfl
    · exact .begun i _ _ hcall rfl rfl rfl
  · exact .kept rfl rfl

theorem moves_finishRun (s : Session) (i : Nat) (t : FileTree) :
    s.Moves ((s.finishRun i).run t).1 := by
  rw [finishRun]
  split
  · next call id args stopped config hcall => exact .ended i _ _ hcall rfl rfl rfl
  · exact .kept rfl rfl

theorem moves_reply (s : Session) (i : Nat) : s.Moves (s.reply i) := by
  rw [reply]
  split
  · next call id args stopped outcome hcall => exact .answered i _ hcall rfl rfl rfl
  · exact .kept rfl rfl

theorem moves_actRun (s : Serving) (turn : RunTurn) : s.session.Moves (s.actRun turn).session := by
  cases turn with
  | begin i => exact moves_beginRun s.session i
  | finish i => exact moves_finishRun s.session i s.files
  | reply i => exact moves_reply s.session i
  | edit files => exact .kept rfl rfl

theorem readLine_cases (s : Session) (line : String) :
    ((s.readLine line).calls = s.calls ∧ (s.readLine line).running = s.running) ∨
    (∃ id args, (s.readLine line).calls = s.calls ++ [({ id, args } : RunCall)] ∧
      (s.readLine line).running = s.running) ∨
    (s.readLine line).calls = s.stopRuns.calls ∧ (s.readLine line).running = s.running := by
  rw [readLine]
  split
  · exact .inl ⟨rfl, rfl⟩
  · split
    · exact .inr (.inl ⟨_, _, rfl, rfl⟩)
    · split
      · exact .inr (.inr ⟨rfl, rfl⟩)
      · split
        · exact .inl ⟨rfl, rfl⟩
        · exact .inl ⟨rfl, rfl⟩

theorem getElem?_stopRuns (s : Session) (i : Nat) :
    s.stopRuns.calls[i]? = (s.calls[i]?).map fun c =>
      if s.running.any (·.2 = i) then { c with stopped := true } else c := by
  rw [stopRuns, List.getElem?_mapIdx]

/-! ## Calls keep their numbers -/

theorem ids_set (hcall : s.calls[i]? = some call) (progress : CallProgress) :
    (s.calls.set i { call with progress }).map (·.id) = s.ids := by
  apply List.ext_getElem?
  intro k
  rw [ids, List.getElem?_map, List.getElem?_map, List.getElem?_set]
  split
  · next h =>
    subst h
    split
    · simp [hcall]
    · next hlen => simp [List.getElem?_eq_none (Nat.le_of_not_lt hlen)]
  · rfl

theorem Moves.ids_eq (h : s.Moves s') : s'.ids = s.ids := by
  cases h with
  | kept calls running => rw [ids, calls, ids]
  | begun i call config found opened calls running => rw [ids, calls, ids_set found]
  | ended i call outcome found opened calls running => rw [ids, calls, ids_set found]
  | answered i call found ended calls running => rw [ids, calls, ids_set found]

theorem ids_stopRuns (s : Session) : s.stopRuns.ids = s.ids := by
  apply List.ext_getElem?
  intro k
  rw [ids, ids, List.getElem?_map, List.getElem?_map, getElem?_stopRuns, Option.map_map]
  congr 1
  funext c
  dsimp only [Function.comp_apply]
  split <;> rfl

theorem ids_readLine (s : Session) (line : String) : s.ids <+: (s.readLine line).ids := by
  rcases s.readLine_cases line with ⟨hcalls, -⟩ | ⟨id, args, hcalls, -⟩ | ⟨hcalls, -⟩
  · have hids : (s.readLine line).ids = s.ids := congrArg (List.map _) hcalls
    exact hids ▸ List.prefix_rfl
  · rw [ids, ids, hcalls, List.map_append]
    exact List.prefix_append _ _
  · have hids : (s.readLine line).ids = s.ids := (congrArg (List.map _) hcalls).trans s.ids_stopRuns
    exact hids ▸ List.prefix_rfl

theorem eq_of_id_eq (hids : s.ids.Nodup) {j : Nat} {call' : RunCall} (hi : s.calls[i]? = some call)
    (hj : s.calls[j]? = some call') (h : call.id = call'.id) : i = j := by
  have hlt : i < s.ids.length := by
    rw [ids, List.length_map]
    exact (List.getElem?_eq_some_iff.1 hi).1
  refine (List.getElem?_inj hlt hids).1 ?_
  rw [ids, List.getElem?_map, List.getElem?_map, hi, hj, Option.map_some, Option.map_some, h]

/-! ## Which runs are registered -/

structure Tidy (s : Session) : Prop where
  registered : ∀ {id : UInt64} {i : Nat}, (id, i) ∈ s.running →
    ∃ call, s.calls[i]? = some call ∧ call.id = id ∧ call.isRunning = true
  complete : ∀ {i : Nat} {call : RunCall}, s.calls[i]? = some call → call.isRunning = true →
    (call.id, i) ∈ s.running
  told : ∀ {i : Nat} {call : RunCall}, s.calls[i]? = some call → call.stopped = true →
    call.isRunning = true ∨ call.isEnded = true ∨ call.isAnswered = true

theorem Tidy.registered_iff (h : Tidy s) (hcall : s.calls[i]? = some call) :
    s.running.any (·.2 = i) = true ↔ call.isRunning = true := by
  rw [List.any_eq_true]
  constructor
  · rintro ⟨⟨id, k⟩, hmem, hk⟩
    obtain rfl : k = i := of_decide_eq_true hk
    obtain ⟨call', hcall', -, hrunning⟩ := h.registered hmem
    rw [hcall] at hcall'
    cases hcall'
    exact hrunning
  · intro hrunning
    exact ⟨(call.id, i), h.complete hcall hrunning, decide_eq_true rfl⟩

theorem tidy_empty : Tidy {} where
  registered h := by cases h
  complete h := by cases h
  told h := by cases h

theorem Tidy.congr (h : Tidy s) (hcalls : s'.calls = s.calls) (hrunning : s'.running = s.running) :
    Tidy s' := by
  constructor
  · rw [hcalls, hrunning]
    exact h.registered
  · rw [hcalls, hrunning]
    exact h.complete
  · rw [hcalls]
    exact h.told

/-- A call goes on: what is registered under its number changes, and nothing else. -/
theorem Tidy.set (h : Tidy s) (hids : s.ids.Nodup) (hcall : s.calls[i]? = some call)
    {progress : CallProgress} (entry : List (UInt64 × Nat))
    (hcalls : s'.calls = s.calls.set i { call with progress })
    (hrunning : s'.running = entry ++ s.running.filter (·.1 ≠ call.id))
    (hentry : ∀ p ∈ entry, p = (call.id, i) ∧ ({ call with progress } : RunCall).isRunning = true)
    (hregistered : ({ call with progress } : RunCall).isRunning = true → (call.id, i) ∈ entry)
    (hgone : ({ call with progress } : RunCall).isRunning = true ∨
      ({ call with progress } : RunCall).isEnded = true ∨
      ({ call with progress } : RunCall).isAnswered = true) : Tidy s' := by
  have hself : s'.calls[i]? = some { call with progress } := by
    rw [hcalls, List.getElem?_set_self (List.getElem?_eq_some_iff.1 hcall).1]
  have hother {k : Nat} (hk : k ≠ i) : s'.calls[k]? = s.calls[k]? := by
    rw [hcalls, List.getElem?_set_ne hk.symm]
  constructor
  · intro id k hmem
    rw [hrunning, List.mem_append, List.mem_filter] at hmem
    rcases hmem with hmem | ⟨hmem, hne⟩
    · obtain ⟨hp, hr⟩ := hentry _ hmem
      cases hp
      exact ⟨_, hself, rfl, hr⟩
    · obtain ⟨call', hcall', rfl, hr⟩ := h.registered hmem
      have hk : k ≠ i := by
        rintro rfl
        rw [hcall] at hcall'
        cases hcall'
        simp at hne
      exact ⟨call', (hother hk).trans hcall', rfl, hr⟩
  · intro k call' hcall' hr
    rw [hrunning, List.mem_append, List.mem_filter]
    by_cases hk : k = i
    · subst hk
      rw [hself] at hcall'
      cases hcall'
      exact .inl (hregistered hr)
    · rw [hother hk] at hcall'
      have hid : call'.id ≠ call.id := fun hid => hk (eq_of_id_eq hids hcall' hcall hid)
      exact .inr ⟨h.complete hcall' hr, by simpa using hid⟩
  · intro k call' hcall' hstopped
    by_cases hk : k = i
    · subst hk
      rw [hself] at hcall'
      cases hcall'
      exact hgone
    · rw [hother hk] at hcall'
      exact h.told hcall' hstopped

/-- What is not registered need not be taken out. -/
theorem Tidy.filter_running (h : Tidy s) (hids : s.ids.Nodup) (hcall : s.calls[i]? = some call)
    (hnot : call.isRunning = false) : s.running.filter (·.1 ≠ call.id) = s.running := by
  refine List.filter_eq_self.2 fun p hp => decide_eq_true fun hid => ?_
  obtain ⟨call', hcall', hid', hrunning⟩ := h.registered hp
  obtain rfl := eq_of_id_eq hids hcall' hcall (hid'.trans hid)
  rw [hcall] at hcall'
  cases hcall'
  rw [hnot] at hrunning
  cases hrunning

theorem Tidy.moves (h : Tidy s) (hids : s.ids.Nodup) (hm : s.Moves s') : Tidy s' := by
  cases hm with
  | kept calls running => exact h.congr calls running
  | begun i call config found opened calls running =>
    refine h.set hids found [(call.id, i)] calls running ?_ ?_ (.inl rfl)
    · intro p hp
      exact ⟨List.mem_singleton.1 hp, rfl⟩
    · intro _
      exact List.mem_singleton_self _
  | ended i call outcome found opened calls running =>
    refine h.set hids found [] calls running ?_ ?_ (.inr (.inl rfl))
    · intro p hp
      cases hp
    · intro hr
      cases hr
  | answered i call found ended calls running =>
    rw [← h.filter_running hids found (RunCall.isRunning_of_isEnded ended)] at running
    refine h.set hids found [] calls running ?_ ?_ (.inr (.inr rfl))
    · intro p hp
      cases hp
    · intro hr
      cases hr

theorem Tidy.stopRuns (h : Tidy s) : Tidy s.stopRuns := by
  have hcase {k : Nat} {call' : RunCall} (hcall' : s.stopRuns.calls[k]? = some call') :
      ∃ call, s.calls[k]? = some call ∧ call'.id = call.id ∧ call'.isRunning = call.isRunning ∧
        call'.isEnded = call.isEnded ∧ call'.isAnswered = call.isAnswered ∧
        (call'.stopped = true → call.isRunning = true ∨ call.stopped = true) := by
    rw [getElem?_stopRuns, Option.map_eq_some_iff] at hcall'
    obtain ⟨call, hcall, rfl⟩ := hcall'
    refine ⟨call, hcall, ?_⟩
    split
    · next hany => exact ⟨rfl, rfl, rfl, rfl, fun _ => .inl ((h.registered_iff hcall).1 hany)⟩
    · exact ⟨rfl, rfl, rfl, rfl, .inr⟩
  constructor
  · intro id k hmem
    obtain ⟨call, hcall, rfl, hr⟩ := h.registered hmem
    have hget := getElem?_stopRuns s k
    rw [hcall, Option.map_some] at hget
    refine ⟨_, hget, ?_⟩
    split <;> exact ⟨rfl, hr⟩
  · intro k call' hcall' hr
    obtain ⟨call, hcall, hid, hrunning, -⟩ := hcase hcall'
    rw [hid]
    exact h.complete hcall (hrunning ▸ hr)
  · intro k call' hcall' hstopped
    obtain ⟨call, hcall, -, hrunning, hended, hanswered, htold⟩ := hcase hcall'
    rw [hrunning, hended, hanswered]
    exact (htold hstopped).elim .inl (h.told hcall)

theorem Tidy.readLine (h : Tidy s) (line : String) : Tidy (s.readLine line) := by
  rcases s.readLine_cases line with ⟨hcalls, hrunning⟩ | ⟨id, args, hcalls, hrunning⟩ |
    ⟨hcalls, hrunning⟩
  · exact h.congr hcalls hrunning
  · -- the new call is neither registered nor told to end
    have hcase {k : Nat} {call' : RunCall} (hcall' : (s.readLine line).calls[k]? = some call') :
        s.calls[k]? = some call' ∨ call' = { id, args } := by
      rw [hcalls, List.getElem?_append] at hcall'
      split at hcall'
      · exact .inl hcall'
      · exact .inr (List.mem_singleton.1 (List.mem_of_getElem? hcall'))
    constructor
    · intro id' k hmem
      rw [hrunning] at hmem
      obtain ⟨call', hcall', hrest⟩ := h.registered hmem
      refine ⟨call', ?_, hrest⟩
      rw [hcalls, List.getElem?_append_left (List.getElem?_eq_some_iff.1 hcall').1, hcall']
    · intro k call' hcall' hr
      rw [hrunning]
      rcases hcase hcall' with hcall' | rfl
      · exact h.complete hcall' hr
      · cases hr
    · intro k call' hcall' hstopped
      rcases hcase hcall' with hcall' | rfl
      · exact h.told hcall' hstopped
      · cases hstopped
  · exact h.stopRuns.congr hcalls hrunning

/-! ## After the end of the input -/

def Continues (s s' : Session) : Prop :=
  ∀ (i : Nat) (call' : RunCall), s'.calls[i]? = some call' →
    ∃ call, s.calls[i]? = some call ∧ call'.stopped = call.stopped ∧
      (call'.isAnswered = false → call.isAnswered = false)

theorem Moves.continues (h : s.Moves s') : s.Continues s' := by
  have hset {k : Nat} {call : RunCall} {progress : CallProgress} (hcall : s.calls[k]? = some call)
      (hcalls : s'.calls = s.calls.set k { call with progress })
      (hopen : ({ call with progress } : RunCall).isAnswered = false → call.isAnswered = false) :
      s.Continues s' := by
    intro i call' hcall'
    rw [hcalls, List.getElem?_set] at hcall'
    split at hcall'
    · next hk =>
      subst hk
      split at hcall'
      · cases hcall'
        exact ⟨call, hcall, rfl, hopen⟩
      · cases hcall'
    · exact ⟨call', hcall', rfl, id⟩
  cases h with
  | kept calls running =>
    intro i call' hcall'
    rw [calls] at hcall'
    exact ⟨call', hcall', rfl, id⟩
  | begun i call config found opened calls running => exact hset found calls fun _ => opened
  | ended i call outcome found opened calls running => exact hset found calls fun _ => opened
  | answered i call found ended calls running => exact hset found calls fun h => by cases h

theorem Continues.refl (s : Session) : s.Continues s := fun _ call hcall => ⟨call, hcall, rfl, id⟩

theorem Continues.trans {s'' : Session} (h : s.Continues s') (h' : s'.Continues s'') :
    s.Continues s'' := by
  intro i call'' hcall''
  obtain ⟨call', hcall', hstopped', hopen'⟩ := h' i call'' hcall''
  obtain ⟨call, hcall, hstopped, hopen⟩ := h i call' hcall'
  exact ⟨call, hcall, hstopped'.trans hstopped, fun h => hopen (hopen' h)⟩

end Session

namespace Serving

open Session (Tidy)

variable {s : Serving}

theorem ids_act (s : Serving) (turn : Turn) : s.session.ids <+: (s.act turn).session.ids := by
  cases turn with
  | line text => exact s.session.ids_readLine text
  | run turn =>
    have hids : (s.act (.run turn)).session.ids = s.session.ids := (Session.moves_actRun s turn).ids_eq
    exact hids ▸ List.prefix_rfl

theorem ids_foldl_act (s : Serving) (turns : List Turn) :
    s.session.ids <+: (turns.foldl act s).session.ids := by
  induction turns generalizing s with
  | nil => exact List.prefix_rfl
  | cons turn turns ih => exact (s.ids_act turn).trans (ih (s.act turn))

theorem tidy_act (h : Tidy s.session) (hids : s.session.ids.Nodup) (turn : Turn) :
    Tidy (s.act turn).session := by
  cases turn with
  | line text => exact h.readLine text
  | run turn => exact h.moves hids (Session.moves_actRun s turn)

theorem tidy_foldl_act (h : Tidy s.session) {turns : List Turn}
    (hids : (turns.foldl act s).session.ids.Nodup) : Tidy (turns.foldl act s).session := by
  induction turns generalizing s with
  | nil => exact h
  | cons turn turns ih =>
    have hbefore : s.session.ids.Nodup := hids.sublist (s.ids_foldl_act (turn :: turns)).sublist
    exact ih (tidy_act h hbefore turn) hids

theorem continues_foldl_actRun (s : Serving) (turns : List RunTurn) :
    s.session.Continues (turns.foldl actRun s).session := by
  induction turns generalizing s with
  | nil => exact .refl _
  | cons turn turns ih => exact (Session.moves_actRun s turn).continues.trans (ih (s.actRun turn))

/-- After the end of the input, a run whose call is not answered has been told to end exactly if it was
under way at the end of the input, or had been told and had ended before. -/
theorem stopped_iff_begun {files : FileTree} {before : List Turn} {after : List RunTurn} {i : Nat}
    {call : RunCall} (hids : (before.foldl act { files }).session.ids.Nodup)
    (hcall : (after.foldl actRun (before.foldl act { files }).close).session.calls[i]? = some call)
    (hopen : call.isAnswered = false) :
    call.stopped = true ↔ ((before.foldl act { files }).session.calls[i]?).any
      (fun c => c.isRunning || c.isEnded && c.stopped) = true := by
  have htidy := tidy_foldl_act (s := { files }) Session.tidy_empty hids
  generalize before.foldl act { files } = s at *
  obtain ⟨closed, hclosed, hstopped, hopen'⟩ := continues_foldl_actRun s.close after i call hcall
  have hget := Session.getElem?_stopRuns s.session i
  rw [close, Session.close, hget, Option.map_eq_some_iff] at hclosed
  obtain ⟨begun, hbegun, rfl⟩ := hclosed
  have hregistered := htidy.registered_iff hbegun
  rw [hstopped, hbegun, Option.any_some, Bool.or_eq_true, ← hregistered, Bool.and_eq_true]
  split
  · next hany => exact iff_of_true rfl (.inl hany)
  · next hany =>
    rw [if_neg hany] at hopen'
    refine ⟨fun htold => .inr ⟨?_, htold⟩, fun h => (h.resolve_left hany).2⟩
    -- it has begun, since it was told before, and neither is it under way nor answered
    rcases htidy.told hbegun htold with hr | he | ha
    · exact absurd (hregistered.2 hr) hany
    · exact he
    · rw [hopen' hopen] at ha
      cases ha

def watchLine (id : String) : String :=
  "\x7b\"type\":\"callMethod\",\"methodName\":\"compile\",\"args\":[\x7b\"targets\":[\x7b\"type\":" ++
    "\"source\",\"outputPath\":\"o\"\x7d],\"watch\":true\x7d],\"callId\":" ++ id ++ "\x7d"

def firstBegun : List Turn := [.line (watchLine "1"), .run (.begin 0), .line (watchLine "2")]

theorem stopped_iff_begun_first :
    ((firstBegun.foldl act { files := {} }).session.ids).Nodup ∧
    ∃ call, ([RunTurn.begin 1].foldl actRun (firstBegun.foldl act { files := {} }).close).session.calls[0]? =
      some call ∧ call.isAnswered = false ∧ call.stopped = true := by
  obtain ⟨hids, hlater, hbegun⟩ : ((firstBegun.foldl act { files := {} }).session.ids).Nodup ∧
      (([RunTurn.begin 1].foldl actRun
        (firstBegun.foldl act { files := {} }).close).session.calls[0]?).any (!·.isAnswered) = true ∧
      ((firstBegun.foldl act { files := {} }).session.calls[0]?).any
        (fun c => c.isRunning || c.isEnded && c.stopped) = true := by
    decide +kernel
  obtain ⟨call, hcall, hopen⟩ := (Option.any_eq_true _ _).1 hlater
  have hopen : call.isAnswered = false := by simpa using hopen
  exact ⟨hids, call, hcall, hopen, (stopped_iff_begun hids hcall hopen).2 hbegun⟩

/-- The second run begins after the end of the input. -/
theorem stopped_iff_begun_second :
    ((firstBegun.foldl act { files := {} }).session.ids).Nodup ∧
    (([RunTurn.begin 1].foldl actRun
      (firstBegun.foldl act { files := {} }).close).session.calls[1]?).any
        (fun call => call.watches && !call.stopped) = true := by
  decide +kernel

end Serving

end ClassForge.Server
