import ClassForge.Table

/-!
# Breadth-first walks

A table whose values name further entries is a graph. A walk lists what can be reached from a queue
of names: each name once, nearer ones first. Names without an entry are listed and lead nowhere.
-/

namespace ClassForge.Table

variable {α : Type}

def weight (w : α → Nat) (t : Table α) (seen : List String) : Nat :=
  t.entries.foldr (fun e n => (if seen.contains e.1 then 0 else w e.2) + n) 0

def unseen (t : Table α) (seen : List String) : Nat := t.weight (fun _ => 1) seen

theorem foldr_seen_le (w : α → Nat) (x : String) (seen : List String)
    (l : List (String × α)) :
    l.foldr (fun e n => (if (x :: seen).contains e.1 then 0 else w e.2) + n) 0 ≤
      l.foldr (fun e n => (if seen.contains e.1 then 0 else w e.2) + n) 0 := by
  induction l with
  | nil => exact Nat.le_refl 0
  | cons e rest ih =>
    simp only [List.foldr_cons]
    refine Nat.add_le_add ?_ ih
    by_cases hs : e.1 ∈ seen
    · simp [hs]
    · by_cases hx : e.1 = x <;> simp [hs, hx]

theorem mem_of_find? {k : String} {v : α} {l : List (String × α)} (h : find? k l = some v) :
    (k, v) ∈ l := by
  induction l with
  | nil => cases h
  | cons x rest ih =>
    obtain ⟨k', v'⟩ := x
    simp only [find?] at h
    split at h
    · rename_i hk
      cases h
      exact hk ▸ List.mem_cons_self
    · exact List.mem_cons_of_mem _ (ih h)

theorem weight_cons_le (w : α → Nat) (t : Table α) (x : String) (seen : List String) :
    t.weight w (x :: seen) ≤ t.weight w seen := foldr_seen_le w x seen t.entries

theorem weight_cons_add_le (w : α → Nat) {t : Table α} {x : String} {v : α} {seen : List String}
    (h : t.get? x = some v) (hs : seen.contains x = false) :
    t.weight w (x :: seen) + w v ≤ t.weight w seen := by
  have hmem : (x, v) ∈ t.entries := mem_of_find? h
  rw [weight, weight]
  generalize t.entries = l at hmem
  induction l with
  | nil => cases hmem
  | cons e rest ih =>
    simp only [List.foldr_cons]
    rcases List.mem_cons.1 hmem with rfl | hmem
    · have := foldr_seen_le w x seen rest
      have hx : (x :: seen).contains x = true := by simp
      simp only [hx, hs, if_true]
      simp only [Bool.false_eq_true, if_false]
      omega
    · have ih := ih hmem
      have he := foldr_seen_le w x seen [e]
      simp only [List.foldr_cons, List.foldr_nil] at he
      omega

theorem unseen_nil (t : Table α) : t.unseen [] = t.size := by
  rw [unseen, weight, size]
  induction t.entries with
  | nil => rfl
  | cons e rest ih =>
    rw [List.foldr_cons, ih, List.length_cons, Nat.add_comm]
    rfl

theorem unseen_cons_le (t : Table α) (x : String) (seen : List String) :
    t.unseen (x :: seen) ≤ t.unseen seen := t.weight_cons_le _ x seen

theorem unseen_cons_lt {t : Table α} {x : String} {v : α} {seen : List String}
    (h : t.get? x = some v) (hs : seen.contains x = false) :
    t.unseen (x :: seen) < t.unseen seen := weight_cons_add_le (fun _ => 1) h hs

def walk (edges : α → List String) (t : Table α) (seen : List String) : (queue : List String) →
    List String
  | [] => []
  | x :: rest =>
    if _hs : seen.contains x then walk edges t seen rest
    else
      match _hx : t.get? x with
      | none => x :: walk edges t (x :: seen) rest
      | some a => x :: walk edges t (x :: seen) (rest ++ edges a)
termination_by queue => t.weight (fun a => (edges a).length) seen + queue.length
decreasing_by
  · simp
  · have := t.weight_cons_le (fun a => (edges a).length) x seen
    simp only [List.length_cons]
    omega
  · have := weight_cons_add_le (fun a => (edges a).length) _hx (by simpa using _hs)
    simp only [List.length_cons, List.length_append]
    omega

end ClassForge.Table
