import ClassForge.Proofs.Walk
import Mathlib.Data.ENat.Lattice

/-!
# Nearer names come first

A walk is breadth first: it lists names in the order of their distance from where it begins. Its queue
may hold a name several times, and names count as seen only once they are taken from it. What carries
the order is that the queue is always made of two layers, the rest of one distance and what is known of
the next.
-/

namespace ClassForge.Table

variable {α : Type} {edges : α → List String} {t : Table α}

/-! ## Distance -/

def Away (edges : α → List String) (t : Table α) : Nat → String → String → Prop
  | 0, x, y => x = y
  | n + 1, x, y => ∃ z, t.Away edges n x z ∧ t.Leads edges z y

/-- The least number of edges that lead from a name to another. -/
noncomputable def distance (edges : α → List String) (t : Table α) (x y : String) : ℕ∞ :=
  ⨅ (n : ℕ) (_ : t.Away edges n x y), (n : ℕ∞)

theorem distance_le {n : Nat} {x y : String} (h : t.Away edges n x y) :
    t.distance edges x y ≤ n := iInf₂_le n h

theorem exists_away_of_distance_lt {n : Nat} {x y : String} (h : t.distance edges x y < n) :
    ∃ j < n, t.Away edges j x y := by
  simp only [distance, iInf_lt_iff] at h
  obtain ⟨j, hj, hlt⟩ := h
  exact ⟨j, by exact_mod_cast hlt, hj⟩

/-! ## Layers -/

/-- A walk from a name has come to some distance: the front of its queue holds what is left of that
distance, the back what has been found one edge further on. -/
structure Layered (edges : α → List String) (t : Table α) (c : String) (k : Nat)
    (seen front back : List String) : Prop where
  nearer : ∀ j < k, ∀ y, t.Away edges j c y → y ∈ seen
  here : ∀ y, t.Away edges k c y → y ∈ seen ∨ y ∈ front
  beyond : ∀ x ∈ seen, t.distance edges c x = k → ∀ y, t.Leads edges x y → y ∈ seen ∨ y ∈ back
  front_away : ∀ x ∈ front, t.Away edges k c x
  back_away : ∀ x ∈ back, t.Away edges (k + 1) c x
  seen_away : ∀ x ∈ seen, ∃ j ≤ k, t.Away edges j c x

namespace Layered

variable {c x : String} {k : Nat} {seen front back rest queue : List String}

theorem start (h : ∀ y, t.Leads edges c y ↔ y ∈ queue) : t.Layered edges c 0 [c] [] queue where
  nearer j hj := absurd hj (Nat.not_lt_zero j)
  here y hy := .inl (List.mem_singleton.2 (Eq.symm hy))
  beyond x hx _ y hy := by
    obtain rfl := List.mem_singleton.1 hx
    exact .inr ((h y).1 hy)
  front_away x hx := by cases hx
  back_away x hx := ⟨c, rfl, (h x).2 hx⟩
  seen_away x hx := ⟨0, Nat.le_refl 0, (List.mem_singleton.1 hx).symm⟩

theorem next (h : t.Layered edges c k seen [] back) : t.Layered edges c (k + 1) seen back [] where
  nearer j hj y hy := by
    obtain hlt | rfl := Nat.lt_or_eq_of_le (Nat.le_of_lt_succ hj)
    · exact h.nearer j hlt y hy
    · exact (h.here y hy).resolve_right List.not_mem_nil
  here y hy := by
    obtain ⟨z, hz, hzy⟩ := hy
    have hseen : z ∈ seen := (h.here z hz).resolve_right List.not_mem_nil
    obtain hlt | heq := (distance_le hz).lt_or_eq
    · -- a shorter way to the name before it makes the name one that has been seen
      obtain ⟨j, hj, hzj⟩ := exists_away_of_distance_lt hlt
      have hy : t.Away edges (j + 1) c y := ⟨z, hzj, hzy⟩
      obtain hlt | heq := Nat.lt_or_eq_of_le (Nat.succ_le_of_lt hj)
      · exact .inl (h.nearer (j + 1) hlt y hy)
      · exact .inl ((h.here y (heq ▸ hy)).resolve_right List.not_mem_nil)
    · exact h.beyond z hseen heq y hzy
  beyond x hx hfar := by
    obtain ⟨j, hj, hxj⟩ := h.seen_away x hx
    have hle := distance_le hxj
    rw [hfar] at hle
    have : k + 1 ≤ j := by exact_mod_cast hle
    omega
  front_away := h.back_away
  back_away x hx := by cases hx
  seen_away x hx := by
    obtain ⟨j, hj, hxj⟩ := h.seen_away x hx
    exact ⟨j, Nat.le_succ_of_le hj, hxj⟩

theorem skip (h : t.Layered edges c k seen (x :: front) back) (hx : x ∈ seen) :
    t.Layered edges c k seen front back where
  nearer := h.nearer
  here y hy := by
    obtain hy | hy := h.here y hy
    · exact .inl hy
    · obtain rfl | hy := List.mem_cons.1 hy
      · exact .inl hx
      · exact .inr hy
  beyond := h.beyond
  front_away y hy := h.front_away y (List.mem_cons_of_mem x hy)
  back_away := h.back_away
  seen_away := h.seen_away

theorem visit (h : t.Layered edges c k seen (x :: front) back) {more : List String}
    (hmore : ∀ y, t.Leads edges x y ↔ y ∈ more) :
    t.Layered edges c k (x :: seen) front (back ++ more) where
  nearer j hj y hy := List.mem_cons_of_mem x (h.nearer j hj y hy)
  here y hy := by
    obtain hy | hy := h.here y hy
    · exact .inl (List.mem_cons_of_mem x hy)
    · obtain rfl | hy := List.mem_cons.1 hy
      · exact .inl List.mem_cons_self
      · exact .inr hy
  beyond z hz hfar y hy := by
    obtain rfl | hz := List.mem_cons.1 hz
    · exact .inr (List.mem_append_right back ((hmore y).1 hy))
    · exact (h.beyond z hz hfar y hy).imp (List.mem_cons_of_mem x) (List.mem_append_left more)
  front_away y hy := h.front_away y (List.mem_cons_of_mem x hy)
  back_away y hy := by
    obtain hy | hy := List.mem_append.1 hy
    · exact h.back_away y hy
    · exact ⟨x, h.front_away x List.mem_cons_self, (hmore y).2 hy⟩
  seen_away y hy := by
    obtain rfl | hy := List.mem_cons.1 hy
    · exact ⟨k, Nat.le_refl k, h.front_away y List.mem_cons_self⟩
    · exact h.seen_away y hy

theorem exists_front (h : t.Layered edges c k seen front back) (hqueue : front ++ back = x :: rest) :
    ∃ k' front' back', t.Layered edges c k' seen (x :: front') back' ∧ rest = front' ++ back' := by
  cases front with
  | nil =>
    obtain rfl : back = x :: rest := hqueue
    exact ⟨k + 1, rest, [], h.next, (List.append_nil rest).symm⟩
  | cons z front =>
    obtain ⟨rfl, rfl⟩ := List.cons.inj hqueue
    exact ⟨k, front, back, h, rfl⟩

theorem le_distance (h : t.Layered edges c k seen front back) {y : String} (hy : y ∉ seen) :
    (k : ℕ∞) ≤ t.distance edges c y := by
  refine le_iInf₂ fun j hj => ?_
  by_contra hlt
  exact hy (h.nearer j (by exact_mod_cast not_le.1 hlt) y hj)

theorem forall_distance_le (h : t.Layered edges c k seen (x :: front) back) :
    ∀ y ∈ t.walk edges (x :: seen) queue, t.distance edges c x ≤ t.distance edges c y := by
  intro y hy
  have hnew : y ∉ seen := fun hseen => (reach_of_mem_walk hy).1 (List.mem_cons_of_mem x hseen)
  exact (distance_le (h.front_away x List.mem_cons_self)).trans (h.le_distance hnew)

theorem pairwise_walk (h : t.Layered edges c k seen front back) (hqueue : front ++ back = queue) :
    (t.walk edges seen queue).Pairwise fun x y =>
      t.distance edges c x ≤ t.distance edges c y := by
  fun_induction walk edges t seen queue generalizing k front back with
  | case1 seen => exact .nil
  | case2 seen x rest hs ih =>
    obtain ⟨k, front, back, h, rfl⟩ := h.exists_front hqueue
    exact ih (h.skip (by simpa using hs)) rfl
  | case3 seen x rest hs hx ih =>
    obtain ⟨k, front, back, h, rfl⟩ := h.exists_front hqueue
    have hmore : ∀ y, t.Leads edges x y ↔ y ∈ ([] : List String) := by simp [Leads, hx]
    exact List.pairwise_cons.2 ⟨h.forall_distance_le, ih (h.visit hmore) (by simp)⟩
  | case4 seen x rest hs a hx ih =>
    obtain ⟨k, front, back, h, rfl⟩ := h.exists_front hqueue
    have hmore : ∀ y, t.Leads edges x y ↔ y ∈ edges a := by simp [Leads, hx]
    exact List.pairwise_cons.2 ⟨h.forall_distance_le, ih (h.visit hmore) (by simp)⟩

end Layered

end ClassForge.Table
