import ClassForge.Proofs.Metadata.Heirs
import ClassForge.Proofs.Metadata.Operations

/-!
# Reading a batch of files

What is read of different files is put in place in the order of the classes. A class that is read keeps
its record unless a file that was registered under it is read for a later class, and one that is not
read keeps it unless any file registered under it is read.
-/

namespace ClassForge.Metadata

variable {m : Metadata} {c : String} {q : Path} {a : Reading} {found before after : List Reading}

def Reading.classname (a : Reading) : String := a.2.2.record.classname

def Reading.staged (a : Reading) : ClassRecord := Metadata.staged a.1 a.2.1 a.2.2

def InOrder (found : List Reading) : Prop :=
  found.Pairwise fun a b => a.classname < b.classname ∧ a.1.plain ≠ b.1.plain

def put (m : Metadata) (a : Reading) : Metadata := m.stage a.1 a.2.1 a.2.2

theorem classOf?_put (m : Metadata) (a : Reading) (q : Path) :
    (m.put a).classOf? q = if q.plain = a.1.plain then some a.classname else m.classOf? q :=
  classOf?_stage m a.1 a.2.1 a.2.2 q

theorem record?_put (m : Metadata) (a : Reading) (c : String) :
    (m.put a).record? c =
      if c = a.classname then some a.staged
      else if m.classOf? a.1 = some c then none else m.record? c :=
  record?_stage m a.1 a.2.1 a.2.2 c

theorem stageAll_cons (m : Metadata) (a : Reading) (rest : List Reading) :
    m.stageAll (a :: rest) = (m.put a).stageAll rest := rfl

theorem stageAll_append (m : Metadata) (before after : List Reading) :
    m.stageAll (before ++ after) = (m.stageAll before).stageAll after := List.foldl_append

theorem classOf?_stageAll_of_unread (h : ∀ a ∈ found, a.1.plain ≠ q.plain) :
    (m.stageAll found).classOf? q = m.classOf? q := by
  induction found generalizing m with
  | nil => rfl
  | cons a rest ih =>
    obtain ⟨ha, hrest⟩ := List.forall_mem_cons.1 h
    rw [stageAll_cons, ih hrest, classOf?_put, if_neg (Ne.symm ha)]

theorem record?_stageAll_of_unread (hfound : InOrder found)
    (h : ∀ a ∈ found, a.classname ≠ c ∧ m.classOf? a.1 ≠ some c) :
    (m.stageAll found).record? c = m.record? c := by
  induction found generalizing m with
  | nil => rfl
  | cons a rest ih =>
    obtain ⟨ha, hrest⟩ := List.forall_mem_cons.1 h
    obtain ⟨hfirst, hfound⟩ := List.pairwise_cons.1 hfound
    rw [stageAll_cons, ih hfound fun b hb => ⟨(hrest b hb).1, ?_⟩, record?_put,
      if_neg (Ne.symm ha.1), if_neg ha.2]
    rw [classOf?_put, if_neg (Ne.symm (hfirst b hb).2)]
    exact (hrest b hb).2

theorem classOf?_stageAll (hfound : InOrder found) (ha : a ∈ found) :
    (m.stageAll found).classOf? a.1 = some a.classname := by
  obtain ⟨before, after, rfl⟩ := List.append_of_mem ha
  obtain ⟨-, hafter, -⟩ := List.pairwise_append.1 hfound
  rw [stageAll_append, stageAll_cons, classOf?_stageAll_of_unread, classOf?_put, if_pos rfl]
  exact fun b hb => Ne.symm ((List.pairwise_cons.1 hafter).1 b hb).2

theorem InOrder.classOf?_eq (hfound : InOrder (before ++ a :: after)) :
    (m.stageAll before).classOf? a.1 = m.classOf? a.1 := by
  obtain ⟨-, -, hcross⟩ := List.pairwise_append.1 hfound
  exact classOf?_stageAll_of_unread fun b hb => (hcross b hb a List.mem_cons_self).2

theorem record?_stageAll (hfound : InOrder found) (ha : a ∈ found)
    (h : ∀ b ∈ found, a.classname < b.classname → m.classOf? b.1 ≠ some a.classname) :
    (m.stageAll found).record? a.classname = some a.staged := by
  obtain ⟨before, after, rfl⟩ := List.append_of_mem ha
  obtain ⟨-, hafter, hcross⟩ := List.pairwise_append.1 hfound
  obtain ⟨hlater, hafter⟩ := List.pairwise_cons.1 hafter
  rw [stageAll_append, stageAll_cons, record?_stageAll_of_unread hafter, record?_put, if_pos rfl]
  intro b hb
  obtain ⟨hlt, hplain⟩ := hlater b hb
  refine ⟨fun heq => String.lt_irrefl _ (heq ▸ hlt), ?_⟩
  rw [classOf?_put, if_neg (Ne.symm hplain), classOf?_stageAll_of_unread fun d hd => ?_]
  · exact h b (by simp [hb]) hlt
  · exact (hcross d hd b (List.mem_cons_of_mem _ hb)).2

theorem record?_stageAll_eq_none (hfound : InOrder found) (ha : a ∈ found)
    (hlt : c < a.classname) (hfile : m.classOf? a.1 = some c) :
    (m.stageAll found).record? c = none := by
  obtain ⟨before, after, rfl⟩ := List.append_of_mem ha
  obtain ⟨-, hafter, -⟩ := List.pairwise_append.1 hfound
  have hne : c ≠ a.classname := fun heq => String.lt_irrefl _ (heq ▸ hlt)
  have hnone : ((m.stageAll before).put a).record? c = none := by
    rw [record?_put, if_neg hne, hfound.classOf?_eq, if_pos hfile]
  rw [stageAll_append, stageAll_cons]
  refine Option.eq_none_iff_forall_ne_some.2 fun r hr => ?_
  obtain ⟨b, hb, hname⟩ := List.mem_map.1
    (read_of_contains_stageAll hnone (Table.contains_iff.2 ⟨r, hr⟩))
  have hlater := ((List.pairwise_cons.1 hafter).1 b hb).1
  exact String.lt_irrefl _ (String.lt_trans (hname ▸ hlater) hlt)

end ClassForge.Metadata
