import ClassForge.Table.Walk

/-!
# Looking up names in tables

Every operation on tables is described by what it does to `get?`. Since the entries are sorted, a
table is determined by its look-ups.
-/

namespace ClassForge.Table

variable {α β : Type} {t : Table α} {k : String} {v : α}

/-! ## Entries and look-ups -/

theorem find?_eq_some_of_mem {l : List (String × α)} (hl : l.Pairwise fun a b => a.1 < b.1)
    (h : (k, v) ∈ l) : find? k l = some v := by
  induction l with
  | nil => cases h
  | cons x rest ih =>
    obtain ⟨k', v'⟩ := x
    obtain ⟨hx, hrest⟩ := List.pairwise_cons.1 hl
    rcases List.mem_cons.1 h with he | h
    · cases he
      simp [find?]
    · have hne : k ≠ k' := fun e => String.lt_irrefl _ (e ▸ hx _ h)
      simp [find?, hne, ih hrest h]

theorem mem_entries : (k, v) ∈ t.entries ↔ t.get? k = some v :=
  ⟨find?_eq_some_of_mem t.sorted, mem_of_find?⟩

theorem mem_keys : k ∈ t.keys ↔ ∃ v, t.get? k = some v := by
  simp only [keys, List.mem_map, Prod.exists, mem_entries]
  constructor
  · rintro ⟨_, v, hv, rfl⟩
    exact ⟨v, hv⟩
  · rintro ⟨v, hv⟩
    exact ⟨k, v, hv, rfl⟩

theorem mem_values : v ∈ t.values ↔ ∃ k, t.get? k = some v := by
  simp only [values, List.mem_map, Prod.exists, mem_entries]
  constructor
  · rintro ⟨k, _, hv, rfl⟩
    exact ⟨k, hv⟩
  · rintro ⟨k, hv⟩
    exact ⟨k, v, hv, rfl⟩

theorem contains_iff : t.contains k = true ↔ ∃ v, t.get? k = some v := by
  simp [contains, Option.isSome_iff_exists]

theorem nodup_of_sorted {l : List (String × α)} (hl : l.Pairwise fun a b => a.1 < b.1) :
    l.Nodup := by
  refine hl.imp ?_
  intro a b hab he
  subst he
  exact String.lt_irrefl _ hab

theorem eq_of_find?_eq {l l' : List (String × α)} (hl : l.Pairwise fun a b => a.1 < b.1)
    (hl' : l'.Pairwise fun a b => a.1 < b.1) (h : ∀ k, find? k l = find? k l') : l = l' := by
  have hmem : ∀ e, e ∈ l ↔ e ∈ l' := by
    rintro ⟨k, v⟩
    constructor
    · intro he
      exact mem_of_find? ((h k).symm.trans (find?_eq_some_of_mem hl he))
    · intro he
      exact mem_of_find? ((h k).trans (find?_eq_some_of_mem hl' he))
  have hperm : l.Perm l' :=
    (List.perm_ext_iff_of_nodup (nodup_of_sorted hl) (nodup_of_sorted hl')).2 hmem
  exact hperm.eq_of_pairwise (fun a b _ _ hab hba => absurd (String.lt_trans hab hba)
    (String.lt_irrefl _)) hl hl'

theorem ext_get? {s t : Table α} (h : ∀ k, s.get? k = t.get? k) : s = t :=
  ext_entries (eq_of_find?_eq s.sorted t.sorted h)

theorem keys_sorted (t : Table α) : t.keys.Pairwise (· < ·) := List.pairwise_map.2 t.sorted

theorem keys_eq_of_mem_iff {s : Table α} {t : Table β} (h : ∀ k, k ∈ s.keys ↔ k ∈ t.keys) :
    s.keys = t.keys := by
  have hnodup {l : List String} (hl : l.Pairwise (· < ·)) : l.Nodup := by
    refine hl.imp ?_
    rintro a b hlt rfl
    exact String.lt_irrefl a hlt
  have hperm : s.keys.Perm t.keys :=
    (List.perm_ext_iff_of_nodup (hnodup s.keys_sorted) (hnodup t.keys_sorted)).2 h
  exact hperm.eq_of_pairwise (fun a b _ _ hab hba => absurd (String.lt_trans hab hba)
    (String.lt_irrefl _)) s.keys_sorted t.keys_sorted

/-! ## Operations -/

@[simp] theorem get?_empty (k : String) : (empty : Table α).get? k = none := rfl

theorem find?_put (k k' : String) (v : α) (l : List (String × α)) :
    find? k (put k' v l) = if k = k' then some v else find? k l := by
  induction l with
  | nil => simp [put, find?]
  | cons x rest ih =>
    obtain ⟨k₁, v₁⟩ := x
    simp only [put]
    split
    · simp [find?]
    · split
      · rename_i he
        subst he
        by_cases h : k = k'
        · simp [find?, h]
        · simp [find?, h]
      · rename_i hne
        by_cases h : k = k₁
        · subst h
          simp [find?, Ne.symm hne]
        · simp [find?, h, ih]

theorem get?_insert (t : Table α) (k k' : String) (v : α) :
    (t.insert k' v).get? k = if k = k' then some v else t.get? k :=
  find?_put k k' v t.entries

@[simp] theorem get?_insert_self (t : Table α) (k : String) (v : α) :
    (t.insert k v).get? k = some v := by
  simp [get?_insert]

theorem get?_insert_of_ne {k k' : String} (h : k ≠ k') : (t.insert k' v).get? k = t.get? k := by
  simp [get?_insert, h]

@[simp] theorem get?_map (f : String → α → β) (t : Table α) (k : String) :
    (t.map f).get? k = (t.get? k).map (f k) := by
  show find? k (t.entries.map fun e => (e.1, f e.1 e.2)) = (find? k t.entries).map (f k)
  induction t.entries with
  | nil => rfl
  | cons x rest ih =>
    obtain ⟨k', v⟩ := x
    by_cases h : k = k'
    · subst h
      simp [find?]
    · simp [find?, h, ih]

@[simp] theorem get?_filter (p : String → α → Bool) (t : Table α) (k : String) :
    (t.filter p).get? k = (t.get? k).filter (p k) := by
  rcases hk : t.get? k with _ | v
  · rcases hf : (t.filter p).get? k with _ | v
    · rfl
    · have hmem : (k, v) ∈ t.entries := (List.mem_filter.1 (mem_entries.2 hf)).1
      rw [mem_entries, hk] at hmem
      cases hmem
  · by_cases hp : p k v = true
    · have hmem : (k, v) ∈ (t.filter p).entries := List.mem_filter.2 ⟨mem_entries.2 hk, hp⟩
      simpa [Option.filter_some, hp] using mem_entries.1 hmem
    · rcases hf : (t.filter p).get? k with _ | w
      · simp [Option.filter_some, hp]
      · obtain ⟨hmem, hw⟩ := List.mem_filter.1 (mem_entries.2 hf)
        rw [mem_entries, hk] at hmem
        cases hmem
        exact absurd hw hp

theorem get?_erase (t : Table α) (k k' : String) :
    (t.erase k').get? k = if k = k' then none else t.get? k := by
  rw [erase, get?_filter]
  cases t.get? k with
  | none => simp
  | some v => by_cases h : k = k' <;> simp [Option.filter_some, h]

/-- Puts a value under a name that is not there yet. -/
def fill (t : Table α) (k : String) (v : Option α) : Table α :=
  if t.contains k then t else (v.map (t.insert k)).getD t

theorem get?_fill (t : Table α) (k k' : String) (v : Option α) :
    (t.fill k' v).get? k = (t.get? k).or (if k = k' then v else none) := by
  rw [fill, contains]
  rcases ht : t.get? k' with _ | w
  · rw [if_neg (by simp)]
    rcases v with _ | v
    · simp
    · by_cases h : k = k'
      · simp [h, ht]
      · simp [h, get?_insert_of_ne h]
  · rw [if_pos (by simp)]
    by_cases h : k = k'
    · simp [h, ht]
    · simp [h]

/-- Going through a table and adding, for each entry, what is missing: a name that is there keeps
its value, and another gets what the entry of that name yields. -/
theorem get?_foldl_fill {step : Table α → String × α → Table α} (yield : String → α → Option α)
    (hstep : ∀ t e, step t e = t.fill e.1 (yield e.1 e.2)) (other t : Table α) (k : String) :
    (other.entries.foldl step t).get? k = (t.get? k).or ((other.get? k).bind (yield k)) := by
  have key : ∀ (l : List (String × α)) (_ : l.Pairwise fun a b => a.1 < b.1) (t : Table α),
      (l.foldl step t).get? k = (t.get? k).or ((find? k l).bind (yield k)) := by
    intro l hl
    induction l with
    | nil => intro t; simp [find?]
    | cons x rest ih =>
      intro t
      obtain ⟨k', v⟩ := x
      obtain ⟨hx, hrest⟩ := List.pairwise_cons.1 hl
      rw [List.foldl_cons, ih hrest, hstep, get?_fill]
      by_cases h : k = k'
      · subst h
        -- the names of the remaining entries are greater
        have hnone : find? k rest = none := by
          rcases hf : find? k rest with _ | w
          · rfl
          · exact absurd (hx _ (mem_of_find? hf)) (String.lt_irrefl _)
        simp [find?, hnone]
      · simp [find?, h]
  exact key other.entries other.sorted t

end ClassForge.Table

/-! ## Sets of names -/

namespace ClassForge.NameSet

open Table

@[simp] theorem mem_empty {x : String} : x ∈ toNames .empty ↔ False := by
  simp [toNames, mem_keys]

@[simp] theorem mem_add {s : NameSet} {x y : String} :
    x ∈ (s.add y).toNames ↔ x = y ∨ x ∈ s.toNames := by
  simp only [toNames, add, mem_keys, get?_insert]
  by_cases h : x = y
  · simp [h]
  · simp [h]

theorem mem_foldl_add {l : List String} {s : NameSet} {x : String} :
    x ∈ (l.foldl add s).toNames ↔ x ∈ l ∨ x ∈ s.toNames := by
  induction l generalizing s with
  | nil => simp
  | cons y rest ih =>
    rw [List.foldl_cons, ih, mem_add, List.mem_cons]
    grind

theorem mem_erase {s : NameSet} {x y : String} :
    x ∈ NameSet.toNames (s.erase y) ↔ x ≠ y ∧ x ∈ s.toNames := by
  simp only [toNames, mem_keys, get?_erase]
  by_cases h : x = y
  · simp [h]
  · simp [h]

theorem ofNames_eq_foldl (l : List String) : ofNames l = l.foldl add .empty := by
  rw [ofNames, ofList, List.foldl_map]
  rfl

@[simp] theorem mem_ofNames {l : List String} {x : String} : x ∈ (ofNames l).toNames ↔ x ∈ l := by
  rw [ofNames_eq_foldl, mem_foldl_add]
  simp

end ClassForge.NameSet
