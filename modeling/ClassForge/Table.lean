/-!
# Tables

A finite map from names to values, held as the list of its entries in strictly ascending order of
the names. Two tables with the same entries are therefore equal, and listing a table needs no sort.
-/

namespace ClassForge

/-- A finite map from names to values. -/
structure Table (α : Type) where
  entries : List (String × α)
  sorted : entries.Pairwise fun a b => a.1 < b.1

abbrev NameSet := Table Unit

namespace Table

variable {α β : Type} {l : List (String × α)} {e : String × α}

instance [DecidableEq α] : DecidableEq (Table α) := fun s t =>
  if h : s.entries = t.entries then
    .isTrue (by cases s; cases t; cases h; rfl)
  else .isFalse (fun e => h (e ▸ rfl))

def empty : Table α := ⟨[], .nil⟩

instance : Inhabited (Table α) := ⟨empty⟩
instance : EmptyCollection (Table α) := ⟨empty⟩

def find? (k : String) : List (String × α) → Option α
  | [] => none
  | (k', v) :: rest => if k = k' then some v else find? k rest

def get? (t : Table α) (k : String) : Option α := find? k t.entries

/-- The value of a name, or a default. -/
def getD (t : Table α) (k : String) (d : α) : α := (t.get? k).getD d

def contains (t : Table α) (k : String) : Bool := (t.get? k).isSome

instance : Membership String (Table α) := ⟨fun t k => t.contains k = true⟩
instance (k : String) (t : Table α) : Decidable (k ∈ t) := inferInstanceAs (Decidable (_ = true))

def put (k : String) (v : α) : List (String × α) → List (String × α)
  | [] => [(k, v)]
  | (k', v') :: rest =>
    if k < k' then (k, v) :: (k', v') :: rest
    else if k = k' then (k, v) :: rest
    else (k', v') :: put k v rest

theorem mem_put {k : String} {v : α} (h : e ∈ put k v l) : e = (k, v) ∨ e ∈ l := by
  induction l with
  | nil => simp_all [put]
  | cons x rest ih =>
    obtain ⟨k', v'⟩ := x
    simp only [put] at h
    split at h
    · simpa using h
    · split at h <;> grind

theorem put_sorted {k : String} {v : α} (h : l.Pairwise fun a b => a.1 < b.1) :
    (put k v l).Pairwise fun a b => a.1 < b.1 := by
  induction l with
  | nil => simp [put]
  | cons x rest ih =>
    obtain ⟨k', v'⟩ := x
    obtain ⟨hx, hrest⟩ := List.pairwise_cons.1 h
    simp only [put]
    split
    · rename_i hlt
      refine List.pairwise_cons.2 ⟨fun e he => ?_, h⟩
      rcases List.mem_cons.1 he with rfl | he
      · exact hlt
      · exact String.lt_trans hlt (hx e he)
    · split
      · rename_i heq
        exact List.pairwise_cons.2 ⟨fun e he => heq ▸ hx e he, hrest⟩
      · rename_i hlt hne
        refine List.pairwise_cons.2 ⟨fun e he => ?_, ih hrest⟩
        rcases mem_put he with rfl | he
        · exact Std.lt_of_le_of_ne (Std.not_lt.1 hlt) (Ne.symm hne)
        · exact hx e he

def insert (t : Table α) (k : String) (v : α) : Table α := ⟨put k v t.entries, put_sorted t.sorted⟩

def filter (p : String → α → Bool) (t : Table α) : Table α :=
  ⟨t.entries.filter fun e => p e.1 e.2, t.sorted.sublist List.filter_sublist⟩

def erase (t : Table α) (k : String) : Table α := t.filter fun k' _ => k' ≠ k

def map (f : String → α → β) (t : Table α) : Table β :=
  ⟨t.entries.map fun e => (e.1, f e.1 e.2), by
    simpa [List.pairwise_map] using t.sorted⟩

def ofList (l : List (String × α)) : Table α := l.foldl (fun t e => t.insert e.1 e.2) empty

theorem mem_foldl_insert {t : Table α} (h : e ∈ (l.foldl (fun t e => t.insert e.1 e.2) t).entries) :
    e ∈ t.entries ∨ e ∈ l := by
  induction l generalizing t with
  | nil => exact .inl h
  | cons x rest ih =>
    rcases ih h with h | h
    · rcases mem_put h with rfl | h
      · exact .inr List.mem_cons_self
      · exact .inl h
    · exact .inr (List.mem_cons_of_mem _ h)

theorem mem_ofList (h : e ∈ (ofList l).entries) : e ∈ l := by
  rcases mem_foldl_insert h with h | h
  · cases h
  · exact h

theorem put_eq_append {k : String} {v : α} (h : ∀ e ∈ l, e.1 < k) : put k v l = l ++ [(k, v)] := by
  induction l with
  | nil => rfl
  | cons x rest ih =>
    obtain ⟨k', v'⟩ := x
    have hk : k' < k := h _ List.mem_cons_self
    have hne : k ≠ k' := fun e => String.lt_irrefl _ (e ▸ hk)
    have hlt : ¬ k < k' := fun h' => String.lt_irrefl _ (String.lt_trans h' hk)
    simp [put, hlt, hne, ih fun e he => h e (List.mem_cons_of_mem _ he)]

theorem foldl_insert_entries {t : Table α} (h : (t.entries ++ l).Pairwise fun a b => a.1 < b.1) :
    (l.foldl (fun t e => t.insert e.1 e.2) t).entries = t.entries ++ l := by
  induction l generalizing t with
  | nil => simp
  | cons x rest ih =>
    have hx : (t.insert x.1 x.2).entries = t.entries ++ [x] :=
      put_eq_append fun e he => (List.pairwise_append.1 h).2.2 e he x List.mem_cons_self
    have hsorted : ((t.insert x.1 x.2).entries ++ rest).Pairwise fun a b => a.1 < b.1 := by
      simpa [hx] using h
    simpa [hx] using ih hsorted

@[ext] theorem ext_entries {s t : Table α} (h : s.entries = t.entries) : s = t := by
  cases s; cases t; cases h; rfl

@[simp] theorem ofList_entries (t : Table α) : ofList t.entries = t :=
  ext_entries (foldl_insert_entries (l := t.entries) (t := empty) t.sorted)

def keys (t : Table α) : List String := t.entries.map Prod.fst

def values (t : Table α) : List α := t.entries.map Prod.snd

def size (t : Table α) : Nat := t.entries.length

def isEmpty (t : Table α) : Bool := t.entries.isEmpty

def modify (t : Table α) (k : String) (f : α → α) : Table α :=
  t.map fun k' v => if k' = k then f v else v

/-- Both tables together; where both have a value the second counts. -/
def union (s t : Table α) : Table α := t.entries.foldl (fun u e => u.insert e.1 e.2) s

end Table

namespace NameSet

def ofNames (names : List String) : NameSet := Table.ofList (names.map fun n => (n, ()))

def add (s : NameSet) (name : String) : NameSet := s.insert name ()

def toNames (s : NameSet) : List String := s.keys

end NameSet

def sortedNames (names : List String) : List String := (NameSet.ofNames names).toNames

end ClassForge
