import ClassForge.Files.Tree
import ClassForge.Proofs.Files.Paths
import ClassForge.Proofs.Table

/-!
# Where paths lead

Whether a path can be followed depends on the tree, but where it leads does not. So what a write
changes, and what it leaves as it was, is said by the places of two paths.
-/

namespace ClassForge

def PathPart.lead (trail : Trail) : PathPart → Trail
  | root => []
  | here => trail
  | up => trail.tail
  | name s => s :: trail

def Path.trail (p : Path) : Trail := p.parts.foldl PathPart.lead []

theorem exists_of_bind_ok {α β ε : Type} {x : Except ε α} {f : α → Except ε β} {b : β}
    (h : (x >>= f) = .ok b) : ∃ a, x = .ok a ∧ f a = .ok b := by
  cases x with
  | error e => cases h
  | ok a => exact ⟨a, rfl, h⟩

theorem foldlM_induction {α β ε : Type} {f : β → α → Except ε β} {P : β → Prop}
    (step : ∀ {b a b'}, P b → f b a = .ok b' → P b') {l : List α} {b b' : β} (hb : P b)
    (h : l.foldlM f b = .ok b') : P b' := by
  induction l generalizing b with
  | nil =>
    cases h
    exact hb
  | cons a l ih =>
    rw [List.foldlM_cons] at h
    obtain ⟨next, hnext, hrest⟩ := exists_of_bind_ok h
    exact ih (step hb hnext) hrest

namespace FileTree

variable {t t' : FileTree} {p q : Path} {trail other : Trail} {n : FileNode} {text : String}
  {time : UInt64}

/-! ## Following a path -/

theorem needDirectory_eq {u : Unit} :
    t.needDirectory trail = .ok u ↔ t.node? trail = some .directory := by
  rw [needDirectory]
  split <;> simp_all

theorem follow_eq {part : PathPart} {next : Trail} (h : t.follow trail part = .ok next) :
    next = part.lead trail := by
  cases part with
  | root | here =>
    cases h
    rfl
  | up =>
    obtain ⟨_, -, h⟩ := exists_of_bind_ok h
    cases h
    rfl
  | name s =>
    obtain ⟨_, -, h⟩ := exists_of_bind_ok h
    obtain ⟨_, -, h⟩ := exists_of_bind_ok h
    cases h
    rfl

theorem foldlM_follow {parts : List PathPart} {next : Trail}
    (h : parts.foldlM t.follow trail = .ok next) : next = parts.foldl PathPart.lead trail := by
  induction parts generalizing trail with
  | nil =>
    cases h
    rfl
  | cons part parts ih =>
    rw [List.foldlM_cons] at h
    obtain ⟨first, hfirst, hrest⟩ := exists_of_bind_ok h
    rw [ih hrest, follow_eq hfirst, List.foldl_cons]

theorem locate_eq (h : t.locate p = .ok trail) : trail = p.trail := by
  rw [locate] at h
  split_ifs at h
  exact foldlM_follow h

theorem locate_mono
    (hkept : ∀ trail, t.node? trail = some .directory → t'.node? trail = some .directory)
    (h : t.locate p = .ok trail) : t'.locate p = .ok trail := by
  have hneed {trail : Trail} {u : Unit} (h : t.needDirectory trail = .ok u) :
      t'.needDirectory trail = .ok u := needDirectory_eq.2 (hkept _ (needDirectory_eq.1 h))
  have hfollow {trail next : Trail} {part : PathPart} (h : t.follow trail part = .ok next) :
      t'.follow trail part = .ok next := by
    cases part with
    | root | here => exact h
    | up | name s =>
      obtain ⟨_, hdirectory, hrest⟩ := exists_of_bind_ok h
      rw [follow, hneed hdirectory]
      exact hrest
  rw [locate] at h ⊢
  split_ifs at h ⊢
  generalize p.parts = parts, ([] : Trail) = start at h ⊢
  induction parts generalizing start with
  | nil => exact h
  | cons part parts ih =>
    rw [List.foldlM_cons] at h ⊢
    obtain ⟨first, hfirst, hrest⟩ := exists_of_bind_ok h
    rw [hfollow hfirst]
    exact ih _ hrest

theorem find_eq (h : t.find p = .ok (trail, n)) : t.node? p.trail = some n := by
  obtain ⟨found, hfound, h⟩ := exists_of_bind_ok h
  obtain rfl := locate_eq hfound
  split at h
  · cases h
  · next hnode =>
    cases h
    exact hnode
  · next hnode =>
    split_ifs at h
    cases h
    exact hnode

/-! ## Reading -/

theorem read_eq (h : t.read p = .ok text) : ∃ m, t.node? p.trail = some (.file text m) := by
  obtain ⟨⟨trail, n⟩, hfound, h⟩ := exists_of_bind_ok h
  cases n with
  | directory => cases h
  | file text' m =>
    cases h
    exact ⟨m, find_eq hfound⟩

theorem find_file {m : UInt64} (hlocate : t.locate p = .ok trail) (hmeans : meansDirectory p = false)
    (hnode : t.node? p.trail = some (.file text m)) :
    t.find p = .ok (trail, .file text m) := by
  obtain rfl := locate_eq hlocate
  rw [find, hlocate]
  simp only [bind, Except.bind, hnode, hmeans]
  rfl

/-! ## Writing -/

theorem node?_put : (t.put trail n).node? other =
    if other ≠ [] ∧ keyOf other = keyOf trail then some n else t.node? other := by
  cases other with
  | nil => rfl
  | cons s other => simp [node?, put, Table.get?_insert]

theorem node?_eq_of_key (hne : trail ≠ []) (hother : other ≠ []) (h : keyOf other = keyOf trail) :
    t.node? other = t.node? trail := by
  simp [node?, hne, hother, h]

section

variable (h : t.writeAt p text time = .ok t')

include h

theorem writeAt_eq : t' = t.put p.trail (.file text time) ∧ t.node? p.trail ≠ some .directory ∧
    meansDirectory p = false ∧ t.locate p = .ok p.trail := by
  obtain ⟨found, hfound, h⟩ := exists_of_bind_ok h
  obtain rfl := locate_eq hfound
  cases hmeans : meansDirectory p with
  | true =>
    rw [hmeans] at h
    cases h
  | false =>
    simp only [hmeans, Bool.false_eq_true, if_false] at h
    split at h
    · cases h
    · next hnode =>
      cases h
      exact ⟨rfl, hnode, rfl, hfound⟩

theorem trail_ne_nil_of_writeAt : p.trail ≠ [] := by
  obtain ⟨-, hnode, -⟩ := writeAt_eq h
  intro hnil
  rw [hnil] at hnode
  exact hnode rfl

theorem node?_writeAt_self : t'.node? p.trail = some (.file text time) := by
  have hne := trail_ne_nil_of_writeAt h
  obtain ⟨rfl, -⟩ := writeAt_eq h
  rw [node?_put, if_pos ⟨hne, rfl⟩]

theorem node?_writeAt_of_ne (hne : keyOf trail ≠ keyOf p.trail) : t'.node? trail = t.node? trail := by
  obtain ⟨rfl, -⟩ := writeAt_eq h
  rw [node?_put, if_neg fun hkey => hne hkey.2]

theorem directory_writeAt (htrail : t.node? trail = some .directory) :
    t'.node? trail = some .directory := by
  have hne := trail_ne_nil_of_writeAt h
  obtain ⟨rfl, hnode, -⟩ := writeAt_eq h
  rw [node?_put, if_neg, htrail]
  rintro ⟨hne', hkey⟩
  rw [node?_eq_of_key hne hne' hkey] at htrail
  exact hnode htrail

theorem read_writeAt : t'.read p = .ok text := by
  have hkept (trail : Trail) (htrail : t.node? trail = some .directory) :
      t'.node? trail = some .directory := directory_writeAt h htrail
  obtain ⟨-, -, hmeans, hlocate⟩ := writeAt_eq h
  rw [read, find_file (locate_mono hkept hlocate) hmeans (node?_writeAt_self h)]
  rfl

end

def SameFiles (t t' : FileTree) : Prop :=
  ∀ trail text m, t'.node? trail = some (.file text m) ↔ t.node? trail = some (.file text m)

theorem sameFiles_createDirectories (h : t.createDirectories p = .ok t') : t.SameFiles t' := by
  obtain ⟨⟨made, trail⟩, hmade, h⟩ := exists_of_bind_ok h
  cases h
  refine foldlM_induction (P := fun s => t.SameFiles s.1) ?_ (fun _ _ _ => Iff.rfl) hmade
  rintro ⟨t₁, trail₁⟩ part ⟨t₂, trail₂⟩ hsame hstep
  obtain ⟨next, hnext, hstep⟩ := exists_of_bind_ok hstep
  split at hstep
  · cases hstep
    exact hsame
  · cases hstep
  · next hnone =>
    cases hstep
    intro trail text m
    rw [← hsame, node?_put]
    split_ifs with hkey
    · have hne : trail₂ ≠ [] := by
        rintro rfl
        cases hnone
      rw [node?_eq_of_key hne hkey.1 hkey.2, hnone]
      simp
    · exact Iff.rfl

end FileTree

end ClassForge
