import ClassForge.Project.Discovery
import ClassForge.Proofs.Table
import Mathlib.Data.List.Basic

/-!
# Reports of changes

Whoever starts with the classes that are known and follows the changes that are reported knows the same
classes as the one who reports them. A single path says at most one change, and that change fits what is
known when it is reported; everything longer is made of such steps.
-/

namespace ClassForge

namespace ClassChange

def apply (known : Table Path) (e : ClassChange) : Table Path :=
  match e.kind with
  | .added | .changed => known.insert e.classname e.path
  | .removed => known.erase e.classname

/-- Only a class that is not known is added, and only one that is known is changed or removed. -/
def Fits (known : Table Path) (e : ClassChange) : Prop :=
  match e.kind with
  | .added => e.classname ∉ known
  | .changed | .removed => e.classname ∈ known

end ClassChange

theorem Table.erase_of_not_mem {α : Type} {t : Table α} {k : String} (h : k ∉ t) : t.erase k = t := by
  have hnone : t.get? k = none := by
    simpa [Membership.mem, Table.contains] using h
  refine Table.ext_get? fun k' => ?_
  rw [Table.get?_erase]
  split_ifs with heq
  · rw [heq, hnone]
  · rfl

namespace Discovery

abbrev Report := Except DiscoveryError ClassChange

def replay (known : Table Path) : Report → Table Path
  | .ok e => e.apply known
  | .error _ => known

inductive Leads : Table Path → List Report → Table Path → Prop
  | done {known} : Leads known [] known
  | failure {known known' error reports} :
      Leads known reports known' → Leads known (.error error :: reports) known'
  | change {known known' e reports} :
      e.Fits known → Leads (e.apply known) reports known' → Leads known (.ok e :: reports) known'

variable {t : FileTree} {root p : Path} {isRemoval : Bool} {known known' known'' : Table Path}
  {reports more : List Report} {classname : String}

namespace Leads

theorem append (h : Leads known reports known') (h' : Leads known' more known'') :
    Leads known (reports ++ more) known'' := by
  induction h with
  | done => exact h'
  | failure _ ih => exact .failure (ih h')
  | change hfits _ ih => exact .change hfits (ih h')

theorem foldl_replay (h : Leads known reports known') : reports.foldl replay known = known' := by
  induction h with
  | done => rfl
  | failure _ ih => exact ih
  | change _ _ ih => exact ih

theorem fits (h : Leads known reports known') {before after : List Report} {e : ClassChange}
    (heq : reports = before ++ .ok e :: after) : e.Fits (before.foldl replay known) := by
  induction h generalizing before with
  | done => simp at heq
  | failure _ ih =>
    cases before with
    | nil => cases heq
    | cons first before =>
      obtain ⟨rfl, hrest⟩ := List.cons.inj heq
      rw [List.foldl_cons, replay]
      exact ih hrest
  | change hfits _ ih =>
    cases before with
    | nil =>
      cases heq
      exact hfits
    | cons first before =>
      obtain ⟨rfl, hrest⟩ := List.cons.inj heq
      exact ih hrest

end Leads

/-! ## One path -/

theorem leads_drop (known : Table Path) (classname : String) (p : Path) :
    Leads known (interpret.drop known classname p).1.toList (interpret.drop known classname p).2 := by
  rw [interpret.drop]
  split_ifs with hknown
  · exact .change hknown .done
  · exact .done

theorem leads_interpret (t : FileTree) (root : Path) (isRemoval : Bool) (known : Table Path) (p : Path) :
    Leads known (interpret t root isRemoval known p).1.toList
      (interpret t root isRemoval known p).2 := by
  rw [interpret]
  dsimp only
  split
  · exact .done
  · split
    · exact leads_drop ..
    · exact .failure .done
    · exact leads_drop ..
    · split_ifs with hremoval hknown
      · exact leads_drop ..
      · exact .change hknown .done
      · exact .change hknown .done

theorem known_drop (known : Table Path) (classname : String) (p : Path) :
    (interpret.drop known classname p).2 = known.erase classname := by
  rw [interpret.drop]
  split_ifs with hknown
  · rfl
  · exact (Table.erase_of_not_mem hknown).symm

def IsGone (t : FileTree) (p : Path) : Prop :=
  t.find p = .error .notFound ∨ ∃ trail, t.find p = .ok (trail, .directory)

/-- What a path says of the classes that are known: nothing if it has no class or it cannot be told
whether the file is there, and otherwise whether the class is at that path or is gone. -/
structure Says (t : FileTree) (root : Path) (isRemoval : Bool) (known : Table Path) (p : Path)
    (known' : Table Path) : Prop where
  nameless : classnameFor? root p = none → known' = known
  failed : ∀ e ≠ .notFound, t.find p = .error e → known' = known
  there : ∀ c, classnameFor? root p = some c → t.isFile p = true → isRemoval = false →
    known' = known.insert c p
  gone : ∀ c, classnameFor? root p = some c → IsGone t p ∨ t.isFile p = true ∧ isRemoval = true →
    known' = known.erase c

theorem says_interpret (t : FileTree) (root : Path) (isRemoval : Bool) (known : Table Path) (p : Path) :
    Says t root isRemoval known (resolveGone t p) (interpret t root isRemoval known p).2 := by
  rw [interpret]
  dsimp only
  generalize resolveGone t p = p
  cases hname : classnameFor? root p with
  | none => exact ⟨fun _ => rfl, fun _ _ _ => rfl, by simp [hname], by simp [hname]⟩
  | some c =>
    dsimp only
    constructor
    · simp [hname]
    · intro e hne hfind
      rw [hfind]
      cases e with
      | notFound => exact absurd rfl hne
      | _ => rfl
    · intro c' hc hfile hremoval
      obtain rfl := Option.some.inj (hname.symm.trans hc)
      rw [FileTree.isFile] at hfile
      split at hfile
      · next hfind => rw [hfind, hremoval]; rfl
      · cases hfile
    · intro c' hc hgone
      obtain rfl := Option.some.inj (hname.symm.trans hc)
      obtain (hfind | ⟨trail, hfind⟩) | ⟨hfile, hremoval⟩ := hgone
      · rw [hfind]
        exact known_drop ..
      · rw [hfind]
        exact known_drop ..
      · rw [FileTree.isFile] at hfile
        split at hfile
        · next hfind =>
          rw [hfind, hremoval]
          exact known_drop ..
        · cases hfile

/-! ## Notices -/

theorem leads_interpretAll (t : FileTree) (root : Path) (isRemoval : Bool) (known : Table Path)
    (paths : List Path) :
    Leads known (interpretAll t root isRemoval known paths).1
      (interpretAll t root isRemoval known paths).2 := by
  induction paths generalizing known with
  | nil => exact .done
  | cons p paths ih => exact (leads_interpret t root isRemoval known p).append (ih _)

theorem leads_notice (t : FileTree) (root : Path) (known : Table Path) (n : Notice) :
    Leads known (notice t root known n).1 (notice t root known n).2 := by
  cases n with
  | touched paths => exact leads_interpretAll t root false known paths
  | removed paths => exact leads_interpretAll t root true known paths
  | ignored => exact .done

/-- A notice about files below a root, and the files as they are by then. -/
structure Sighting where
  files : FileTree
  root : Path
  notice : Notice

/-- What is reported of one notice after another, and the classes that are known in the end. -/
def watch : Table Path → List Sighting → List Report × Table Path
  | known, [] => ([], known)
  | known, s :: rest =>
    let (first, known) := notice s.files s.root known s.notice
    let (others, known) := watch known rest
    (first ++ others, known)

theorem leads_watch (known : Table Path) (log : List Sighting) :
    Leads known (watch known log).1 (watch known log).2 := by
  induction log generalizing known with
  | nil => exact .done
  | cons s log ih => exact (leads_notice s.files s.root known s.notice).append (ih _)

theorem watch_append (known : Table Path) (log later : List Sighting) :
    watch known (log ++ later) =
      ((watch known log).1 ++ (watch (watch known log).2 later).1,
        (watch (watch known log).2 later).2) := by
  induction log generalizing known with
  | nil => rfl
  | cons s log ih => simp only [List.cons_append, watch, ih, List.append_assoc]

theorem noticeAll_eq_watch (t : FileTree) (root : Path) (known : Table Path) (notices : List Notice) :
    noticeAll t root known notices = watch known (notices.map (Sighting.mk t root)) := by
  induction notices generalizing known with
  | nil => rfl
  | cons n notices ih => simp only [noticeAll, List.map_cons, watch, ih]

def sightings (t : FileTree) (change : FileChange) (roots : List Path) : List Sighting :=
  roots.flatMap fun root => (change.notices root).map (Sighting.mk t root)

theorem observe_eq_watch {d : Discovery} (h : d.state = .started) (t : FileTree) (change : FileChange) :
    d.observe t change = ((watch d.known (sightings t change d.roots)).1,
      { d with known := (watch d.known (sightings t change d.roots)).2 }) := by
  have hroots (roots : List Path) (reports : List Report) (known : Table Path) :
      roots.foldl (fun (x : List Report × Table Path) root =>
          (x.1 ++ (noticeAll t root x.2 (change.notices root)).1,
            (noticeAll t root x.2 (change.notices root)).2)) (reports, known) =
        (reports ++ (watch known (sightings t change roots)).1,
          (watch known (sightings t change roots)).2) := by
    induction roots generalizing reports known with
    | nil => simp [sightings, watch]
    | cons root roots ih =>
      have hcons : sightings t change (root :: roots) =
          (change.notices root).map (Sighting.mk t root) ++ sightings t change roots := rfl
      rw [List.foldl_cons, ih, hcons, watch_append, noticeAll_eq_watch, List.append_assoc]
  rw [observe, if_neg (not_not.2 h)]
  dsimp only
  rw [hroots]
  rfl

/-- The reports of any notices, whatever the files are at each of them, replay to the classes that are
known in the end. What does not matter, what has no class and what cannot be told leaves them alone. -/
theorem watch_replays (known : Table Path) (log : List Sighting) :
    (watch known log).1.foldl replay known = (watch known log).2 ∧
      (∀ before e after, (watch known log).1 = before ++ .ok e :: after →
        e.Fits (before.foldl replay known)) ∧
      (∀ t root, notice t root known .ignored = ([], known)) ∧
      ∀ t root isRemoval p, Says t root isRemoval known (resolveGone t p)
        (interpret t root isRemoval known p).2 :=
  ⟨(leads_watch known log).foldl_replay, fun _ _ _ => (leads_watch known log).fits, fun _ _ => rfl,
    fun t root isRemoval p => says_interpret t root isRemoval known p⟩

end Discovery

end ClassForge
