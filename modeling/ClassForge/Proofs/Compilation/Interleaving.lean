import ClassForge.Proofs.Compilation.Entries

/-!
# Interleaved use of the cache

Callers ask for classes, mark them and clear output directories in any order, and a compile ends at
any time after it began. A single flag of an entry tells that it was marked: during a compile this
means a mark since the compile began, afterwards that the entry must not be served.
-/

namespace ClassForge.Cache

inductive Event where
  | lookup (key : Key) (force : Bool) (answer : CacheLookup)
  | finish (key : Key) (outcome : CompileOutcome) (followUp : Bool)
  | mark (key : Key)
  | markClass (classname : String)
  | clear (dir : String)

namespace Event

def starts (k : Key) : Event → Bool
  | lookup k' _ (.started _) => k' = k
  | _ => false

def finishes (k : Key) : Event → Bool
  | finish k' _ _ => k' = k
  | _ => false

def asks (k : Key) : Event → Bool
  | lookup k' _ _ => k' = k
  | _ => false

def hits (k : Key) : Event → Bool
  | lookup k' force _ => force && k' = k
  | mark k' => k' = k
  | markClass name => name = k.2
  | _ => false

end Event

/-! ## Histories -/

abbrev History := List Event

def underway (k : Key) : History → Nat
  | [] => 0
  | e :: h =>
    if e.starts k then underway k h + 1
    else if e.finishes k then underway k h - 1
    else underway k h

def hitSinceStart (k : Key) : History → Bool
  | [] => false
  | e :: h => !e.starts k && (e.hits k || hitSinceStart k h)

def lastOutcome? (k : Key) : History → Option CompileOutcome
  | [] => none
  | .finish k' outcome _ :: h => if k' = k then some outcome else lastOutcome? k h
  | _ :: h => lastOutcome? k h

def owed (k : Key) : History → Bool
  | [] => false
  | .finish k' _ followUp :: h => if k' = k then followUp else owed k h
  | .lookup k' _ _ :: h => !decide (k' = k) && owed k h
  | _ :: h => owed k h

/-- The cache after a history in which compiles end only after they began. -/
inductive Trace : History → Cache → Prop
  | nil : Trace [] {}
  | lookup {h c} (dir : Path) (name : String) (force : Bool) (job : Nat) : Trace h c →
    Trace (.lookup (dir.plain, name) force (c.lookup dir name force job).1 :: h)
      (c.lookup dir name force job).2
  | finish {h c} (dir : Path) (name : String) (outcome : CompileOutcome) : Trace h c →
    0 < underway (dir.plain, name) h →
    Trace (.finish (dir.plain, name) outcome (c.finish dir name outcome).1 :: h)
      (c.finish dir name outcome).2
  | mark {h c} (dir : Path) (name : String) : Trace h c →
    Trace (.mark (dir.plain, name) :: h) (c.markDirty dir name)
  | markClass {h c} (name : String) : Trace h c →
    Trace (.markClass name :: h) (c.markClassDirty name)
  | clear {h c} (dir : Path) : Trace h c → Trace (.clear dir.plain :: h) (c.clear dir)

/-! ## What an entry says about the history -/

structure Agrees (h : History) (k : Key) (e : CacheEntry) : Prop where
  underway : underway k h = if e.compiling.isSome then 1 else 0
  marked : e.compiling.isSome = true → e.dirty = hitSinceStart k h
  clean : e.compiling = none → e.dirty = false → ∀ info, e.cached = some info →
    lastOutcome? k h = some (.ok info) ∧ hitSinceStart k h = false
  owed : owed k h = true → e.compiling = none ∧ (e.dirty = true ∨ e.cached = none)

variable {h : History} {k : Key} {e : CacheEntry}

theorem agrees_nil (k : Key) : Agrees [] k {} where
  underway := rfl
  marked := by simp
  clean := by simp
  owed := by simp [Cache.owed]

theorem agrees_empty (hnone : Cache.underway k h = 0) : Agrees h k {} where
  underway := hnone
  marked := by simp
  clean := by simp
  owed _ := ⟨rfl, .inr rfl⟩

def Event.concerns (k : Key) : Event → Prop
  | lookup k' _ _ => k' = k
  | finish k' _ _ => k' = k
  | mark k' => k' = k
  | markClass name => name = k.2
  | clear _ => False

section

variable (ha : Agrees h k e)

include ha

theorem Agrees.start (hc : e.compiling = none) (force : Bool) (job : Nat) :
    Agrees (.lookup k force (.started job) :: h) k
      { e with compiling := some job, dirty := false } where
  underway := by simp [Cache.underway, Event.starts, ha.underway, hc]
  marked := by simp [hitSinceStart, Event.starts]
  clean := by simp
  owed := by simp [Cache.owed]

theorem Agrees.ready (info : BuildInfo) : Agrees (.lookup k false (.ready info) :: h) k e where
  underway := by simpa [Cache.underway, Event.starts, Event.finishes] using ha.underway
  marked := by simpa [hitSinceStart, Event.starts, Event.hits] using ha.marked
  clean := by simpa [hitSinceStart, lastOutcome?, Event.starts, Event.hits] using ha.clean
  owed := by simp [Cache.owed]

theorem Agrees.join {running : Nat} (hc : e.compiling = some running) (force : Bool) :
    Agrees (.lookup k force (.joined running) :: h) k { e with dirty := e.dirty || force } where
  underway := by simpa [Cache.underway, Event.starts, Event.finishes] using ha.underway
  marked := by
    intro hsome
    have := ha.marked hsome
    simp [hitSinceStart, Event.starts, Event.hits, this, Bool.or_comm]
  clean := by simp [hc]
  owed := by simp [Cache.owed]

theorem Agrees.lookup (force : Bool) (job : Nat) :
    Agrees (.lookup k force (e.lookup force job).1 :: h) k (e.lookup force job).2 := by
  rcases e.lookup_cases force job with
    ⟨running, hc, heq⟩ | ⟨hc, _, heq⟩ | ⟨info, _, rfl, _, _, heq⟩
  · rw [heq]
    exact ha.join hc force
  · rw [heq]
    exact ha.start hc force job
  · rw [heq]
    exact ha.ready info

theorem Agrees.isSome (hrun : 0 < Cache.underway k h) : e.compiling.isSome = true := by
  rw [ha.underway] at hrun
  by_contra hnone
  simp [hnone] at hrun

theorem Agrees.finish (hrun : 0 < Cache.underway k h) (outcome : CompileOutcome) :
    Agrees (.finish k outcome e.dirty :: h) k (e.finish outcome) := by
  have hsome := ha.isSome hrun
  have hmarked := ha.marked hsome
  constructor
  · simp [Cache.underway, Event.starts, Event.finishes, CacheEntry.finish, ha.underway, hsome]
  · simp [CacheEntry.finish]
  · intro _ hd info hcached
    have hclean : e.dirty = false := hd
    have houtcome : outcome = .ok info := by
      cases outcome with
      | error failure => simp [CacheEntry.finish, Except.toOption] at hcached
      | ok info' => simpa [CacheEntry.finish, Except.toOption] using hcached
    simp [lastOutcome?, hitSinceStart, Event.starts, Event.hits, houtcome, ← hmarked, hclean]
  · intro howed
    have hdirty : e.dirty = true := by simpa [Cache.owed] using howed
    exact ⟨rfl, .inl hdirty⟩

theorem Agrees.mark {event : Event} (hevent : event = .mark k ∨ event = .markClass k.2) :
    Agrees (event :: h) k { e with dirty := true } := by
  have hstarts : event.starts k = false := by rcases hevent with rfl | rfl <;> rfl
  have hfinishes : event.finishes k = false := by rcases hevent with rfl | rfl <;> rfl
  have hhits : event.hits k = true := by rcases hevent with rfl | rfl <;> simp [Event.hits]
  have howed : Cache.owed k (event :: h) = Cache.owed k h := by rcases hevent with rfl | rfl <;> rfl
  constructor
  · simpa [Cache.underway, hstarts, hfinishes] using ha.underway
  · simp [hitSinceStart, hstarts, hhits]
  · simp
  · intro h
    rw [howed] at h
    exact ⟨(ha.owed h).1, .inl rfl⟩

theorem Agrees.other {event : Event} (hevent : ¬event.concerns k) :
    Agrees (event :: h) k e := by
  have hstarts : event.starts k = false := by
    cases event with
    | lookup k' force answer => cases answer <;> simp_all [Event.starts, Event.concerns]
    | _ => rfl
  have hfinishes : event.finishes k = false := by
    cases event <;> simp_all [Event.finishes, Event.concerns]
  have hhits : event.hits k = false := by
    cases event <;> simp_all [Event.hits, Event.concerns]
  have hlast : lastOutcome? k (event :: h) = lastOutcome? k h := by
    cases event <;> simp_all [lastOutcome?, Event.concerns]
  have howed : Cache.owed k (event :: h) = Cache.owed k h := by
    cases event <;> simp_all [Cache.owed, Event.concerns]
  constructor
  · simpa [Cache.underway, hstarts, hfinishes] using ha.underway
  · simpa [hitSinceStart, hstarts, hhits] using ha.marked
  · simpa [hitSinceStart, hstarts, hhits, hlast] using ha.clean
  · rw [howed]
    exact ha.owed

theorem Agrees.clear (hc : e.compiling.isSome = false) (dir : String) :
    Agrees (.clear dir :: h) k {} := by
  apply agrees_empty
  simpa [Cache.underway, Event.starts, Event.finishes, hc] using ha.underway

end

theorem Agrees.put {c : Cache} (ha : Agrees h k (c.entryAt k)) {dir : Path} {name : String}
    {event : Event} (hevent : event.concerns k → (dir.plain, name) = k)
    (hself : (dir.plain, name) = k → Agrees (event :: h) k e) :
    Agrees (event :: h) k ((c.put dir name e).entryAt k) := by
  rw [entryAt_put]
  by_cases hk : k = (dir.plain, name)
  · rw [if_pos hk]
    exact hself hk.symm
  · rw [if_neg hk]
    exact ha.other fun h => hk (hevent h).symm

theorem Trace.agrees {c : Cache} (ht : Trace h c) (k : Key) : Agrees h k (c.entryAt k) := by
  induction ht with
  | nil => exact agrees_nil k
  | @lookup h c dir name force job _ ih =>
    refine ih.put id ?_
    rintro rfl
    exact ih.lookup force job
  | @finish h c dir name outcome _ hrun ih =>
    refine ih.put id ?_
    rintro rfl
    exact ih.finish hrun outcome
  | @mark h c dir name _ ih =>
    refine ih.put id ?_
    rintro rfl
    exact ih.mark (.inl rfl)
  | @markClass h c name _ ih =>
    rw [entryAt, entryAt?_markClassDirty]
    rw [entryAt] at ih
    generalize c.entryAt? k = o at ih
    by_cases hk : k.2 = name
    · subst hk
      rw [if_pos rfl]
      cases o with
      -- marking a class makes no entries
      | none => exact agrees_empty ih.underway
      | some e => exact ih.mark (.inr rfl)
    · rw [if_neg hk]
      exact ih.other fun heq => hk heq.symm
  | @clear h c dir _ ih =>
    rw [entryAt, entryAt?_clear]
    rw [entryAt] at ih
    generalize c.entryAt? k = o at ih
    by_cases hk : k.1 = dir.plain
    · rw [if_pos hk]
      cases o with
      | none => exact ih.clear rfl dir.plain
      | some e =>
        cases hc : e.compiling.isSome with
        | false =>
          rw [Option.filter_some, if_neg (by simp [hc])]
          exact ih.clear hc dir.plain
        | true =>
          rw [Option.filter_some, if_pos hc]
          exact ih.other id
    · rw [if_neg hk]
      exact ih.other id

/-! ## Reading a history back -/

def Quiet (k : Key) (events : List Event) : Prop :=
  ∀ e ∈ events, e.starts k = false ∧ e.finishes k = false

namespace Trace

variable {c : Cache} {event : Event}

theorem tail (ht : Trace (event :: h) c) : ∃ c', Trace h c' := by
  cases ht <;> exact ⟨_, ‹_›⟩

theorem underway_pos (ht : Trace (event :: h) c) (hf : event.finishes k = true) :
    0 < underway k h := by
  cases ht with
  | finish dir name outcome _ hrun =>
    obtain rfl : (dir.plain, name) = k := by simpa [Event.finishes] using hf
    exact hrun
  | _ => cases hf

theorem underway_le (ht : Trace h c) (k : Key) : underway k h ≤ 1 := by
  rw [(ht.agrees k).underway]
  split <;> omega

/-- The compile under way began at a certain event, and nothing of the key began or ended since. -/
theorem during (ht : Trace h c) (hrun : underway k h = 1) :
    ∃ (during : History) (start : Event) (before : History), h = during ++ start :: before ∧
      start.starts k = true ∧ Quiet k during ∧ hitSinceStart k h = during.any (·.hits k) := by
  induction h generalizing c with
  | nil => cases hrun
  | cons event h ih =>
    obtain ⟨c', ht'⟩ := ht.tail
    have hle := ht'.underway_le k
    rw [underway] at hrun
    by_cases hs : event.starts k = true
    · exact ⟨[], event, h, rfl, hs, by simp [Quiet], by simp [hitSinceStart, hs]⟩
    · rw [if_neg hs] at hrun
      by_cases hf : event.finishes k = true
      · -- two compiles of the key would have been under way
        rw [if_pos hf] at hrun
        omega
      · rw [if_neg hf] at hrun
        obtain ⟨during, start, before, rfl, hstart, hquiet, hhit⟩ := ih ht' hrun
        refine ⟨event :: during, start, before, rfl, hstart, ?_, ?_⟩
        · exact List.forall_mem_cons.2 ⟨⟨by simpa using hs, by simpa using hf⟩, hquiet⟩
        · simp [hitSinceStart, hs, hhit]

/-- The last compile that ended and gave a certain outcome, if none is under way. -/
theorem after (ht : Trace h c) (hidle : underway k h = 0) {outcome : CompileOutcome}
    (hlast : lastOutcome? k h = some outcome) :
    ∃ (after : History) (followUp : Bool) (during : History) (start : Event) (before : History),
      h = after ++ Event.finish k outcome followUp :: (during ++ start :: before) ∧
      start.starts k = true ∧ Quiet k (after ++ during) ∧
      hitSinceStart k h = (after ++ during).any (·.hits k) := by
  induction h generalizing c with
  | nil => cases hlast
  | cons event h ih =>
    obtain ⟨c', ht'⟩ := ht.tail
    have hle := ht'.underway_le k
    rw [underway] at hidle
    by_cases hs : event.starts k = true
    · rw [if_pos hs] at hidle
      cases hidle
    · rw [if_neg hs] at hidle
      by_cases hf : event.finishes k = true
      · have hpos := ht.underway_pos hf
        rw [if_pos hf] at hidle
        obtain ⟨during, start, before, rfl, hstart, hquiet, hhit⟩ :=
          ht'.during (k := k) (by omega)
        cases event with
        | finish k' outcome' followUp =>
          obtain rfl : k' = k := by simpa [Event.finishes] using hf
          obtain rfl : outcome' = outcome := by simpa [lastOutcome?] using hlast
          refine ⟨[], followUp, during, start, before, rfl, hstart, hquiet, ?_⟩
          simpa [hitSinceStart, Event.starts, Event.hits] using hhit
        | _ => cases hf
      · rw [if_neg hf] at hidle
        have hlast' : lastOutcome? k h = some outcome := by
          cases event <;> simp_all [lastOutcome?, Event.finishes]
        obtain ⟨after, followUp, during, start, before, rfl, hstart, hquiet, hhit⟩ :=
          ih ht' hidle hlast'
        refine ⟨event :: after, followUp, during, start, before, rfl, hstart, ?_, ?_⟩
        · exact List.forall_mem_cons.2 ⟨⟨by simpa using hs, by simpa using hf⟩, hquiet⟩
        · simp [hitSinceStart, hs, hhit]

theorem finish_between {later between before : History} {start start' : Event}
    (ht : Trace (later ++ start' :: (between ++ start :: before)) c)
    (hs : start.starts k = true) (hs' : start'.starts k = true) :
    ∃ e ∈ between, e.finishes k = true := by
  induction later generalizing c with
  | nil =>
    by_contra hnone
    have hmany : 1 ≤ underway k (between ++ start :: before) := by
      clear ht
      induction between with
      | nil => simp [underway, hs]
      | cons e between ih =>
        have hf : e.finishes k = false := by
          simpa using fun h => hnone ⟨e, List.mem_cons_self, h⟩
        have ih := ih (by
          rintro ⟨x, hx, h⟩
          exact hnone ⟨x, List.mem_cons_of_mem _ hx, h⟩)
        rw [List.cons_append, underway, hf]
        split
        · omega
        · exact ih
    have hle := ht.underway_le k
    rw [List.nil_append, underway, if_pos hs'] at hle
    omega
  | cons e later ih =>
    obtain ⟨c', ht'⟩ := ht.tail
    exact ih ht'

theorem owed_of_followUp {later before : History} {outcome : CompileOutcome}
    (ht : Trace (later ++ .finish k outcome true :: before) c)
    (hlater : ∀ e ∈ later, e.asks k = false) :
    owed k (later ++ .finish k outcome true :: before) = true ∧
      underway k (later ++ .finish k outcome true :: before) = 0 := by
  induction later generalizing c with
  | nil =>
    obtain ⟨c', ht'⟩ := ht.tail
    have hle := ht'.underway_le k
    refine ⟨by simp [owed], ?_⟩
    simp only [List.nil_append, underway, Event.starts, Event.finishes, decide_true, if_true,
      Bool.false_eq_true, if_false]
    omega
  | cons e later ih =>
    rw [List.cons_append] at ht ⊢
    obtain ⟨c', ht'⟩ := ht.tail
    obtain ⟨howed, hidle⟩ := ih ht' fun x hx => hlater x (List.mem_cons_of_mem _ hx)
    have hasks := hlater e List.mem_cons_self
    generalize later ++ .finish k outcome true :: before = h at ht howed hidle
    have hf : e.finishes k = false := by
      by_contra hf
      have := ht.underway_pos (k := k) (by simpa using hf)
      omega
    have hs : e.starts k = false := by
      cases e with
      | lookup k' force answer => cases answer <;> first | exact hasks | rfl
      | _ => rfl
    constructor
    · cases e with
      | lookup k' force answer =>
        have hk : decide (k' = k) = false := hasks
        rw [owed, hk, howed]
        rfl
      | finish k' outcome' followUp =>
        rw [owed, if_neg (of_decide_eq_false hf)]
        exact howed
      | _ => exact howed
    · simp [underway, hs, hf, hidle]

end Trace

theorem lastOutcome?_of_finish {later before : History} {outcome : CompileOutcome}
    {followUp : Bool} (hlater : ∀ e ∈ later, e.finishes k = false) :
    lastOutcome? k (later ++ .finish k outcome followUp :: before) = some outcome := by
  induction later with
  | nil => simp [lastOutcome?]
  | cons e later ih =>
    have ih := ih fun x hx => hlater x (List.mem_cons_of_mem _ hx)
    have hf := hlater e List.mem_cons_self
    rw [List.cons_append]
    cases e with
    | finish k' outcome' followUp' =>
      rw [lastOutcome?, if_neg (of_decide_eq_false hf)]
      exact ih
    | _ => exact ih

/-! ## Safety -/

/-- What callers can rely on after a history. -/
structure Safe (h : History) (c : Cache) : Prop where
  one_at_a_time : ∀ (k : Key) (later between before : History) (start start' : Event),
    h = later ++ start' :: (between ++ start :: before) → start.starts k = true →
    start'.starts k = true → ∃ e ∈ between, e.finishes k = true
  counted : (∀ k, underway k h ≤ 1) ∧ ∃ keys : List Key, keys.Nodup ∧
    (∀ k, k ∈ keys ↔ underway k h = 1) ∧ c.inFlight = keys.length
  /-- What is served is what the last compile that ended gave, and the key was not hit since that
  compile began. -/
  ready : ∀ (dir : Path) (name : String) (force : Bool) (job : Nat) (info : BuildInfo),
    (c.lookup dir name force job).1 = .ready info →
    ∃ after followUp during start before,
      h = after ++ .finish (dir.plain, name) (.ok info) followUp :: (during ++ start :: before) ∧
      start.starts (dir.plain, name) = true ∧ Quiet (dir.plain, name) (after ++ during) ∧
      ∀ e ∈ after ++ during, e.hits (dir.plain, name) = false
  /-- The end of a compile asks for a follow-up exactly if the key was hit since it began. -/
  follow_up : ∀ (dir : Path) (name : String) (outcome : CompileOutcome),
    0 < underway (dir.plain, name) h →
    ∃ during start before, h = during ++ start :: before ∧
      start.starts (dir.plain, name) = true ∧ Quiet (dir.plain, name) during ∧
      ((c.finish dir name outcome).1 = true ↔ ∃ e ∈ during, e.hits (dir.plain, name) = true)
  /-- After a follow-up was asked for, the next request for the key begins a compile. -/
  compiled_again : ∀ (dir : Path) (name : String) (force : Bool) (job : Nat)
    (later before : History) (outcome : CompileOutcome),
    h = later ++ .finish (dir.plain, name) outcome true :: before →
    (∀ e ∈ later, e.asks (dir.plain, name) = false) →
    (c.lookup dir name force job).1 = .started job
  failed : ∀ (dir : Path) (name : String) (force : Bool) (job : Nat) (later before : History)
    (failure : CompileFailure) (followUp : Bool) (info : BuildInfo),
    h = later ++ .finish (dir.plain, name) (.error failure) followUp :: before →
    (∀ e ∈ later, e.finishes (dir.plain, name) = false) →
    (c.lookup dir name force job).1 ≠ .ready info

theorem Agrees.of_ready (ha : Agrees h k e) {force : Bool} {job : Nat} {info : BuildInfo}
    (hready : (e.lookup force job).1 = .ready info) :
    Cache.underway k h = 0 ∧ lastOutcome? k h = some (.ok info) ∧ hitSinceStart k h = false := by
  rcases e.lookup_cases force job with
    ⟨running, _, heq⟩ | ⟨_, _, heq⟩ | ⟨_, hc, _, hd, hcached, heq⟩
  · rw [heq] at hready
    cases hready
  · rw [heq] at hready
    cases hready
  · rw [heq] at hready
    cases hready
    refine ⟨?_, ha.clean hc hd info hcached⟩
    rw [ha.underway, hc]
    rfl

theorem Agrees.of_owed (ha : Agrees h k e) (howed : Cache.owed k h = true) (force : Bool)
    (job : Nat) : (e.lookup force job).1 = .started job := by
  obtain ⟨hc, hstale⟩ := ha.owed howed
  rcases e.lookup_cases force job with
    ⟨running, hc', _⟩ | ⟨_, _, heq⟩ | ⟨info, _, _, hd, hcached, _⟩
  · rw [hc] at hc'
    cases hc'
  · rw [heq]
  · rw [hd, hcached] at hstale
    rcases hstale with hstale | hstale <;> cases hstale

theorem mem_inFlightKeys_iff {c : Cache} (ht : Trace h c) (k : Key) :
    k ∈ c.inFlightKeys ↔ underway k h = 1 := by
  rw [mem_inFlightKeys, (ht.agrees k).underway]
  cases (c.entryAt k).compiling <;> simp

/-- However callers and compiles are interleaved, the cache is safe. -/
theorem safe_of_trace {c : Cache} (ht : Trace h c) : Safe h c where
  one_at_a_time := by
    rintro k later between before start start' rfl hs hs'
    exact ht.finish_between hs hs'
  counted :=
    ⟨ht.underway_le, c.inFlightKeys, c.nodup_inFlightKeys, mem_inFlightKeys_iff ht, c.inFlight_eq⟩
  ready := by
    intro dir name force job info hready
    obtain ⟨hidle, hlast, hhit⟩ := (ht.agrees (dir.plain, name)).of_ready hready
    obtain ⟨after, followUp, during, start, before, rfl, hstart, hquiet, hany⟩ :=
      ht.after hidle hlast
    refine ⟨after, followUp, during, start, before, rfl, hstart, hquiet, ?_⟩
    rw [hhit, eq_comm, List.any_eq_false] at hany
    simpa using hany
  follow_up := by
    intro dir name outcome hrun
    have hle := ht.underway_le (dir.plain, name)
    obtain ⟨during, start, before, rfl, hstart, hquiet, hany⟩ :=
      ht.during (k := (dir.plain, name)) (by omega)
    refine ⟨during, start, before, rfl, hstart, hquiet, ?_⟩
    have ha := ht.agrees (dir.plain, name)
    have hdirty : (c.finish dir name outcome).1 = (c.entryAt (dir.plain, name)).dirty := rfl
    rw [hdirty, ha.marked (ha.isSome hrun), hany, List.any_eq_true]
  compiled_again := by
    rintro dir name force job later before outcome rfl hlater
    exact (ht.agrees (dir.plain, name)).of_owed (ht.owed_of_followUp hlater).1 force job
  failed := by
    rintro dir name force job later before failure followUp info rfl hlater hready
    obtain ⟨_, hlast, _⟩ := (ht.agrees (dir.plain, name)).of_ready hready
    rw [lastOutcome?_of_finish hlater] at hlast
    cases hlast

def sampleInfo : BuildInfo :=
  { classname := "a.A", hash := "", sourceTime := 0, dependsOn := .empty }

/-- A class is marked while it is compiled, and compiled again. -/
def recompiled : History :=
  let k : Key := ((⟨"out"⟩ : Path).plain, "a.A")
  [.finish k (.ok sampleInfo) false, .lookup k false (.started 1),
    .finish k (.ok sampleInfo) true, .mark k, .lookup k false (.started 0)]

theorem safe_recompiled :
    ∃ c, Trace recompiled c ∧ (c.lookup ⟨"out"⟩ "a.A" false 2).1 = .ready sampleInfo ∧
      Safe recompiled c := by
  have t₁ := Trace.nil.lookup ⟨"out"⟩ "a.A" false 0
  rw [show (lookup {} ⟨"out"⟩ "a.A" false 0).1 = .started 0 by decide +kernel] at t₁
  have t₂ := t₁.mark ⟨"out"⟩ "a.A"
  have t₃ := t₂.finish ⟨"out"⟩ "a.A" (.ok sampleInfo) (by decide +kernel)
  rw [show (finish _ ⟨"out"⟩ "a.A" (.ok sampleInfo)).1 = true by decide +kernel] at t₃
  have t₄ := t₃.lookup ⟨"out"⟩ "a.A" false 1
  rw [show (lookup _ ⟨"out"⟩ "a.A" false 1).1 = .started 1 by decide +kernel] at t₄
  have t₅ := t₄.finish ⟨"out"⟩ "a.A" (.ok sampleInfo) (by decide +kernel)
  rw [show (finish _ ⟨"out"⟩ "a.A" (.ok sampleInfo)).1 = false by decide +kernel] at t₅
  exact ⟨_, t₅, by decide +kernel, safe_of_trace t₅⟩

end ClassForge.Cache
