import ClassForge.Proofs.Table
import Mathlib.Logic.Relation

/-!
# What a walk reaches

A table whose values name further entries is a graph. A walk from a queue lists exactly what can be
reached from it, and depends on nothing else of the table.
-/

namespace ClassForge.Table

variable {α : Type} {edges : α → List String} {t : Table α} {seen queue : List String} {y : String}

/-- An entry of the first name names the second. -/
def Leads (edges : α → List String) (t : Table α) (x y : String) : Prop :=
  ∃ a, t.get? x = some a ∧ y ∈ edges a

abbrev Reach (edges : α → List String) (t : Table α) : String → String → Prop :=
  Relation.ReflTransGen (t.Leads edges)

theorem reach_of_mem_walk (h : y ∈ t.walk edges seen queue) :
    y ∉ seen ∧ ∃ x ∈ queue, t.Reach edges x y := by
  fun_induction walk edges t seen queue with
  | case1 seen => simp at h
  | case2 seen x rest hs ih =>
    obtain ⟨hy, z, hz, hr⟩ := ih h
    exact ⟨hy, z, List.mem_cons_of_mem _ hz, hr⟩
  | case3 seen x rest hs hx ih =>
    rcases List.mem_cons.1 h with rfl | h
    · exact ⟨by simpa using hs, y, List.mem_cons_self, .refl⟩
    · obtain ⟨hy, z, hz, hr⟩ := ih h
      exact ⟨fun h' => hy (List.mem_cons_of_mem _ h'), z, List.mem_cons_of_mem _ hz, hr⟩
  | case4 seen x rest hs a hx ih =>
    rcases List.mem_cons.1 h with rfl | h
    · exact ⟨by simpa using hs, y, List.mem_cons_self, .refl⟩
    · obtain ⟨hy, z, hz, hr⟩ := ih h
      refine ⟨fun h' => hy (List.mem_cons_of_mem _ h'), ?_⟩
      rcases List.mem_append.1 hz with hz | hz
      · exact ⟨z, List.mem_cons_of_mem _ hz, hr⟩
      · exact ⟨x, List.mem_cons_self, .head ⟨a, hx, hz⟩ hr⟩

theorem nodup_walk (t : Table α) (seen queue : List String) : (t.walk edges seen queue).Nodup := by
  fun_induction walk edges t seen queue with
  | case1 seen => exact .nil
  | case2 seen x rest hs ih => exact ih
  | case3 seen x rest hs hx ih =>
    exact List.nodup_cons.2 ⟨fun h => (reach_of_mem_walk h).1 List.mem_cons_self, ih⟩
  | case4 seen x rest hs a hx ih =>
    exact List.nodup_cons.2 ⟨fun h => (reach_of_mem_walk h).1 List.mem_cons_self, ih⟩

def Closed (edges : α → List String) (t : Table α) (seen queue : List String) : Prop :=
  ∀ x ∈ seen, ∀ y, t.Leads edges x y → y ∈ seen ∨ y ∈ queue

theorem Closed.skip {seen rest : List String} {x : String} (h : Closed edges t seen (x :: rest))
    (hs : x ∈ seen) : Closed edges t seen rest := by
  intro z hz y hy
  rcases h z hz y hy with h | h
  · exact .inl h
  · rcases List.mem_cons.1 h with rfl | h
    · exact .inl hs
    · exact .inr h

theorem Closed.visit {seen rest more : List String} {x : String}
    (h : Closed edges t seen (x :: rest)) (hx : ∀ y, t.Leads edges x y → y ∈ more) :
    Closed edges t (x :: seen) (rest ++ more) := by
  intro z hz y hy
  rcases List.mem_cons.1 hz with rfl | hz
  · exact .inr (List.mem_append_right _ (hx y hy))
  · rcases h z hz y hy with h | h
    · exact .inl (List.mem_cons_of_mem _ h)
    · rcases List.mem_cons.1 h with rfl | h
      · exact .inl List.mem_cons_self
      · exact .inr (List.mem_append_left _ h)

theorem walk_covers (h : Closed edges t seen queue) :
    (∀ x ∈ queue, x ∈ seen ∨ x ∈ t.walk edges seen queue) ∧
    ∀ x y, x ∈ seen ∨ x ∈ t.walk edges seen queue → t.Leads edges x y →
      y ∈ seen ∨ y ∈ t.walk edges seen queue := by
  fun_induction walk edges t seen queue with
  | case1 seen =>
    refine ⟨fun x hx => by simp at hx, fun x y hx hy => ?_⟩
    exact (h x (hx.resolve_right (by simp)) y hy).imp_right fun h => h
  | case2 seen x rest hs ih =>
    have hs' : x ∈ seen := by simpa using hs
    obtain ⟨hq, hc⟩ := ih (h.skip hs')
    refine ⟨fun z hz => ?_, hc⟩
    rcases List.mem_cons.1 hz with rfl | hz
    · exact .inl hs'
    · exact hq z hz
  | case3 seen x rest hs hx ih =>
    have hdead : ∀ y, t.Leads edges x y → y ∈ ([] : List String) := by
      rintro y ⟨a, ha, _⟩
      rw [hx] at ha
      cases ha
    obtain ⟨hq, hc⟩ := ih (by simpa using h.visit hdead)
    simp only [List.mem_cons] at hq hc ⊢
    grind
  | case4 seen x rest hs a hx ih =>
    have hnext : ∀ y, t.Leads edges x y → y ∈ edges a := by
      rintro y ⟨b, hb, hy⟩
      rw [hx] at hb
      cases hb
      exact hy
    obtain ⟨hq, hc⟩ := ih (h.visit hnext)
    simp only [List.mem_cons, List.mem_append] at hq hc ⊢
    grind

theorem mem_walk_iff (h : Closed edges t seen queue) :
    y ∈ t.walk edges seen queue ↔ y ∉ seen ∧ ∃ x ∈ queue, t.Reach edges x y := by
  obtain ⟨hq, hc⟩ := walk_covers h
  have hreach : ∀ x ∈ queue, ∀ z, t.Reach edges x z → z ∈ seen ∨ z ∈ t.walk edges seen queue := by
    intro x hx z hr
    induction hr with
    | refl => exact hq x hx
    | tail _ hzw ih => exact hc _ _ ih hzw
  refine ⟨reach_of_mem_walk, ?_⟩
  rintro ⟨hy, x, hx, hr⟩
  exact (hreach x hx y hr).resolve_left hy

theorem mem_walk_nil_iff : y ∈ t.walk edges [] queue ↔ ∃ x ∈ queue, t.Reach edges x y := by
  rw [mem_walk_iff (fun x hx => by simp at hx)]
  simp

theorem walk_congr {t t' : Table α} (h : ∀ x ∈ queue, ∀ y, t.Reach edges x y → t.get? y = t'.get? y) :
    t.walk edges seen queue = t'.walk edges seen queue := by
  fun_induction walk edges t seen queue with
  | case1 seen => rw [walk]
  | case2 seen x rest hs ih =>
    rw [walk, dif_pos hs]
    exact ih fun z hz => h z (List.mem_cons_of_mem _ hz)
  | case3 seen x rest hs hx ih =>
    have hx' : t'.get? x = none := (h x List.mem_cons_self x .refl).symm.trans hx
    rw [walk, dif_neg hs]
    split
    · rw [ih fun z hz => h z (List.mem_cons_of_mem _ hz)]
    · simp_all
  | case4 seen x rest hs a hx ih =>
    have hx' : t'.get? x = some a := (h x List.mem_cons_self x .refl).symm.trans hx
    rw [walk, dif_neg hs]
    split
    · simp_all
    · rename_i b hb
      obtain rfl : a = b := by rw [hx'] at hb; exact Option.some.inj hb
      rw [ih]
      intro z hz y hr
      rcases List.mem_append.1 hz with hz | hz
      · exact h z (List.mem_cons_of_mem _ hz) y hr
      · exact h x List.mem_cons_self y (.head ⟨a, hx, hz⟩ hr)

end ClassForge.Table
