import ClassForge.Compilation.Cache
import ClassForge.Proofs.Table
import Mathlib.Data.List.Nodup

/-!
# Entries of the cache

What each operation on the cache does to the entry of each key, and which keys are counted as being
compiled. A key is the plain path of an output directory together with a class.
-/

namespace ClassForge

/-- A request joins the compile that is under way, begins one, or gets what is held. -/
theorem CacheEntry.lookup_cases (e : CacheEntry) (force : Bool) (job : Nat) :
    (∃ running, e.compiling = some running ∧
      e.lookup force job = (.joined running, { e with dirty := e.dirty || force })) ∨
    (e.compiling = none ∧ (force = true ∨ e.dirty = true ∨ e.cached = none) ∧
      e.lookup force job = (.started job, { e with compiling := some job, dirty := false })) ∨
    ∃ info, e.compiling = none ∧ force = false ∧ e.dirty = false ∧ e.cached = some info ∧
      e.lookup force job = (.ready info, e) := by
  obtain ⟨compiling, dirty, cached⟩ := e
  cases compiling with
  | some running => exact .inl ⟨running, rfl, rfl⟩
  | none =>
    refine .inr ?_
    cases force with
    | true => exact .inl ⟨rfl, .inl rfl, rfl⟩
    | false =>
      cases dirty with
      | true => exact .inl ⟨rfl, .inr (.inl rfl), rfl⟩
      | false =>
        cases cached with
        | none => exact .inl ⟨rfl, .inr (.inr rfl), rfl⟩
        | some info => exact .inr ⟨info, rfl, rfl, rfl, rfl, rfl⟩

namespace Cache

abbrev Key := String × String

def entryAt? (c : Cache) (k : Key) : Option CacheEntry := (c.outputs.get? k.1).bind (·.get? k.2)

def entryAt (c : Cache) (k : Key) : CacheEntry := (c.entryAt? k).getD {}

variable (c : Cache) (dir : Path) (name : String) (k : Key)

/-! ## Operations -/

theorem entryAt_put (e : CacheEntry) :
    (c.put dir name e).entryAt k = if k = (dir.plain, name) then e else c.entryAt k := by
  obtain ⟨d, n⟩ := k
  simp only [entryAt, entryAt?, put, Table.get?_insert, Prod.mk.injEq]
  by_cases hd : d = dir.plain
  · subst hd
    by_cases hn : n = name
    · subst hn
      simp
    · simp only [hn, if_true, and_false, if_false, Option.bind_some, Table.get?_insert]
      rw [Table.getD]
      cases c.outputs.get? dir.plain <;> rfl
  · simp [hd]

theorem entryAt?_markClassDirty :
    (c.markClassDirty name).entryAt? k =
      if k.2 = name then (c.entryAt? k).map fun e => { e with dirty := true }
      else c.entryAt? k := by
  simp only [entryAt?, markClassDirty, Table.modify, Table.get?_map, Option.bind_map,
    Function.comp_def]
  by_cases h : k.2 = name
  · simp only [h, if_true, Option.map_bind]
    rfl
  · simp [h]

theorem entryAt?_clear :
    (c.clear dir).entryAt? k =
      if k.1 = dir.plain then (c.entryAt? k).filter fun e => e.compiling.isSome
      else c.entryAt? k := by
  simp only [entryAt?, clear, Table.get?_map]
  by_cases h : k.1 = dir.plain
  · simp only [h, if_true]
    cases c.outputs.get? dir.plain with
    | none => rfl
    | some t => simp [Table.get?_filter]
  · simp [h]

/-! ## Counting -/

def inFlightKeys : List Key :=
  c.outputs.entries.flatMap fun d =>
    (d.2.entries.filter fun e => e.2.compiling.isSome).map fun e => (d.1, e.1)

theorem mem_inFlightKeys : k ∈ c.inFlightKeys ↔ (c.entryAt k).compiling.isSome = true := by
  obtain ⟨d, n⟩ := k
  simp only [inFlightKeys, List.mem_flatMap, List.mem_map, List.mem_filter, Prod.exists,
    Table.mem_entries, Prod.mk.injEq, entryAt, entryAt?]
  constructor
  · rintro ⟨_, t, ht, _, e, ⟨he, hcompiling⟩, rfl, rfl⟩
    simpa [ht, he] using hcompiling
  · intro h
    rcases ht : c.outputs.get? d with _ | t
    · simp [ht] at h
    · rcases he : t.get? n with _ | e
      · simp [ht, he] at h
      · exact ⟨d, t, ht, n, e, ⟨he, by simpa [ht, he] using h⟩, rfl, rfl⟩

theorem nodup_inFlightKeys : c.inFlightKeys.Nodup := by
  rw [inFlightKeys, List.nodup_flatMap]
  constructor
  · intro d _
    refine List.pairwise_map.2 ((d.2.sorted.filter _).imp ?_)
    intro a b hab he
    exact String.lt_irrefl _ ((Prod.mk.inj he).2 ▸ hab)
  · refine c.outputs.sorted.imp ?_
    intro a b hab k hk hk'
    obtain ⟨_, _, rfl⟩ := List.mem_map.1 hk
    obtain ⟨_, _, he⟩ := List.mem_map.1 hk'
    exact String.lt_irrefl _ ((Prod.mk.inj he).1 ▸ hab)

theorem inFlight_eq : c.inFlight = c.inFlightKeys.length := by
  have hcount : ∀ t : Table CacheEntry, (t.values.filter (·.compiling.isSome)).length =
      (t.entries.filter fun e => e.2.compiling.isSome).length := by
    intro t
    rw [Table.values, List.filter_map, List.length_map]
    rfl
  rw [inFlight, inFlightKeys, List.length_flatMap, List.length_flatMap, Table.values, List.map_map]
  simp only [Function.comp_def, hcount, List.length_map]

end Cache

end ClassForge
