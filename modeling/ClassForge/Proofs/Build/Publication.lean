import ClassForge.Build.Step
import ClassForge.Proofs.Schedule
import Mathlib.Data.List.Induction
import Mathlib.Order.Nat

/-!
# Publication of metadata

A change of a class first changes the metadata and then the version. A compile first makes sure that
the backend has the present metadata: under a lock it compares the versions, takes a snapshot if they
differ, installs it in the backend and notes the version it has read. Changes and other compiles come
in between any two of these turns. Since the version is read before the snapshot is taken, a snapshot
never lacks a change that its version tells of.
-/

namespace ClassForge.Build

inductive ChangeProgress where
  | waiting
  | applied
  | published (version : UInt64)

def ChangeProgress.isPublished : ChangeProgress → Bool
  | published _ => true
  | _ => false

/-- How far a call is that makes sure that the backend has the present metadata. From `locked` to
`given` it has the lock. -/
inductive PushProgress where
  | called
  | locked
  | outdated (version : UInt64)
  | holding (version : UInt64) (snapshot : Snapshot)
  | given (version : UInt64) (result : Except PoolError Unit)
  | returned (result : Except PoolError Unit)

namespace PushProgress

def isLocked : PushProgress → Bool
  | called | returned _ => false
  | _ => true

def version? : PushProgress → Option UInt64
  | outdated version | holding version _ | given version _ => some version
  | _ => none

def secures (b : Build) : PushProgress → Nat
  | outdated version | holding version _ | given version _ => version.toNat
  | returned (.ok _) => b.pushed.toNat
  | _ => b.version.toNat

theorem secures_mono {b b' : Build} (hversion : b.version.toNat ≤ b'.version.toNat)
    (hpushed : b.pushed.toNat ≤ b'.pushed.toNat) (p : PushProgress) : p.secures b ≤ p.secures b' := by
  cases p with
  | called | locked => exact hversion
  | outdated v | holding v _ | given v _ => exact le_rfl
  | returned result =>
    cases result with
    | ok _ => exact hpushed
    | error _ => exact hversion

theorem isLocked_of_version? {p : PushProgress} {v : UInt64} (h : p.version? = some v) :
    p.isLocked = true := by
  cases p <;> simp_all [version?, isLocked]

end PushProgress

structure Feed where
  build : Build
  changes : List (ClassChange × ChangeProgress) := []
  pushes : List PushProgress := []
  installed : Option Snapshot := none

namespace Feed

/-- A turn. -/
inductive Action where
  | announce (change : ClassChange)
  | handle (i : Nat)
  | call
  /-- A call goes on. -/
  | push (k : Nat)
  | compile (request : CompileRequest)
  | edit (files : FileTree)

/-- A build of which nothing has been asked yet. -/
def start (files : FileTree) (backend : Backend) (metadata : Metadata) (classes : Table Path)
    (makers : List Maker) : Feed :=
  { build := { files, backend, metadata, classes, makers } }

def setPush (s : Feed) (k : Nat) (p : PushProgress) : Feed := { s with pushes := s.pushes.set k p }

def push (s : Feed) (k : Nat) : PushProgress → Feed
  | .called => if s.pushes.any (·.isLocked) then s else s.setPush k .locked
  | .locked =>
    match s.build.missingVersion? with
    | none => s.setPush k (.returned (.ok ()))
    | some version => s.setPush k (.outdated version)
  | .outdated version => s.setPush k (.holding version s.build.metadata.snapshot)
  | .holding version snapshot =>
    let ((result, backend), files) := (s.build.backend.install snapshot).run s.build.files
    let installed := if result.toBool then some snapshot else s.installed
    { s with build := { s.build with backend, files }, installed }.setPush k (.given version result)
  | .given version (.ok ()) =>
    { s with build := { s.build with pushed := version } }.setPush k (.returned (.ok ()))
  | .given _ (.error e) => s.setPush k (.returned (.error e))
  | .returned _ => s

def act (s : Feed) : Action → Feed
  | .announce change => { s with changes := s.changes ++ [(change, .waiting)] }
  | .handle i =>
    match s.changes[i]? with
    | some (change, .waiting) =>
      { s with
        build := s.build.applyChange change
        changes := s.changes.set i (change, .applied) }
    | some (change, .applied) =>
      { s with
        build := s.build.bumpVersion
        changes := s.changes.set i (change, .published s.build.bumpVersion.version) }
    | _ => s
  | .call => { s with pushes := s.pushes ++ [.called] }
  | .push k =>
    match s.pushes[k]? with
    | some progress => s.push k progress
    | none => s
  | .compile request =>
    let ((_, backend), files) := (s.build.backend.compile request).run s.build.files
    { s with build := { s.build with backend, files } }
  | .edit files => { s with build := { s.build with files } }

def Applied (s : Feed) (i : Nat) : Prop :=
  ∃ change progress, s.changes[i]? = some (change, progress) ∧ progress ≠ .waiting

def Published (s : Feed) (i : Nat) (v : UInt64) : Prop :=
  ∃ change, s.changes[i]? = some (change, .published v)

variable {s s' : Feed} {i k : Nat} {v : UInt64} {p : PushProgress}

theorem Published.applied (h : s.Published i v) : s.Applied i := by
  obtain ⟨change, hc⟩ := h
  exact ⟨change, _, hc, by simp⟩

/-! ## What a call and a change do when nobody is in between -/

theorem act_push (h : s.pushes[k]? = some p) : s.act (.push k) = s.push k p := by
  simp only [act, h]

@[simp] theorem pushes_setPush (s : Feed) (k : Nat) (p : PushProgress) :
    (s.setPush k p).pushes = s.pushes.set k p := rfl

@[simp] theorem setPush_setPush (s : Feed) (k : Nat) (p q : PushProgress) :
    (s.setPush k p).setPush k q = s.setPush k q := by simp [setPush]

theorem act_push_setPush (h : k < s.pushes.length) :
    (s.setPush k p).act (.push k) = (s.setPush k p).push k p :=
  act_push (by simp [h])

theorem push_alone (hk : s.pushes[k]? = some .called) (free : s.pushes.any (·.isLocked) = false) :
    let s' := (List.replicate 5 (.push k)).foldl act s
    s'.build = s.build.ensureSnapshot.2 ∧
      s'.pushes[k]? = some (.returned s.build.ensureSnapshot.1) := by
  have hlt := (List.getElem?_eq_some_iff.1 hk).1
  have hlocked : s.act (.push k) = s.setPush k .locked := by simp [act_push hk, push, free]
  have hnext : (s.setPush k .locked).act (.push k) = (s.setPush k .locked).push k .locked :=
    act_push_setPush hlt
  simp only [List.replicate, List.foldl_cons, List.foldl_nil, hlocked, hnext]
  have hversion : (s.setPush k .locked).build.missingVersion? = s.build.missingVersion? := rfl
  cases hm : s.build.missingVersion? with
  | none =>
    have hpush : (s.setPush k .locked).push k .locked = s.setPush k (.returned (.ok ())) := by
      simp [push, hversion, hm]
    have hdone : (s.setPush k (.returned (.ok ()))).act (.push k) =
        s.setPush k (.returned (.ok ())) := act_push_setPush hlt
    simp only [hpush, hdone, ensureSnapshot, hm]
    exact ⟨rfl, by simp [hlt]⟩
  | some version =>
    have hpush : (s.setPush k .locked).push k .locked = s.setPush k (.outdated version) := by
      simp [push, hversion, hm]
    have htake : (s.setPush k (.outdated version)).act (.push k) =
        s.setPush k (.holding version s.build.metadata.snapshot) := by
      rw [act_push_setPush hlt, push, setPush_setPush]; rfl
    obtain ⟨⟨result, backend⟩, files, hinstall⟩ :
        ∃ r files, (s.build.backend.install s.build.metadata.snapshot).run s.build.files = (r, files) :=
      ⟨_, _, rfl⟩
    let given : Feed :=
      { s with
        build := { s.build with backend, files }
        installed := if result.toBool then some s.build.metadata.snapshot else s.installed }
    have hgive : (s.setPush k (.holding version s.build.metadata.snapshot)).act (.push k) =
        given.setPush k (.given version result) := by
      rw [act_push_setPush hlt, push]
      simp only [setPush, List.set_set, hinstall, given]
    rw [hpush, htake, hgive, act_push_setPush (s := given) hlt]
    simp only [ensureSnapshot, hm, install, hinstall]
    cases result with
    | ok u => exact ⟨rfl, by simp [push, setPush, given, hlt]⟩
    | error e => exact ⟨rfl, by simp [push, setPush, given, hlt]⟩

/-- A change whose handling is not interrupted leaves the metadata, the versions and the backend as
`Build.handle` does. -/
theorem handle_alone {change : ClassChange} (hi : s.changes[i]? = some (change, .waiting)) :
    let b := ((s.act (.handle i)).act (.handle i)).build
    let b' := (s.build.handle change).1
    b.metadata = b'.metadata ∧ b.version = b'.version ∧ b.pushed = b'.pushed ∧
      b.backend = b'.backend := by
  have hlt := (List.getElem?_eq_some_iff.1 hi).1
  have happly : s.act (.handle i) =
      { s with
        build := s.build.applyChange change
        changes := s.changes.set i (change, .applied) } := by simp only [act, hi]
  have h : ((s.act (.handle i)).act (.handle i)).build = (s.build.applyChange change).bumpVersion := by
    rw [happly]
    simp only [act, List.getElem?_set_self hlt]
  simp only [h]
  cases hk : change.kind <;> simp [handle, hk, emit]

/-! ## What a turn can do -/

structure Alike (b b' : Build) : Prop where
  metadata : b'.metadata = b.metadata
  version : b'.version = b.version
  pushed : b'.pushed = b.pushed
  inline : ∀ {snapshot}, b'.backend.engine = .inline snapshot → b.backend.engine = .inline snapshot

/-- What a turn can lead to. -/
inductive Turn (s : Feed) : Feed → Prop
  | other {build : Build} (h : Alike s.build build) : Turn s { s with build }
  | announce (change : ClassChange) : Turn s { s with changes := s.changes ++ [(change, .waiting)] }
  | apply {i : Nat} {change : ClassChange} {build : Build}
      (hi : s.changes[i]? = some (change, .waiting)) (hversion : build.version = s.build.version)
      (hpushed : build.pushed = s.build.pushed) (hbackend : build.backend = s.build.backend) :
      Turn s { s with build, changes := s.changes.set i (change, .applied) }
  | publish {i : Nat} {change : ClassChange} (hi : s.changes[i]? = some (change, .applied)) :
      Turn s
        { s with
          build := s.build.bumpVersion
          changes := s.changes.set i (change, .published (s.build.version + 1)) }
  | call : Turn s { s with pushes := s.pushes ++ [.called] }
  | lock {k : Nat} (hk : s.pushes[k]? = some .called) (free : ∀ p ∈ s.pushes, p.isLocked = false) :
      Turn s (s.setPush k .locked)
  | skip {k : Nat} (hk : s.pushes[k]? = some .locked) (h : s.build.pushed = s.build.version) :
      Turn s (s.setPush k (.returned (.ok ())))
  | read {k : Nat} (hk : s.pushes[k]? = some .locked) :
      Turn s (s.setPush k (.outdated s.build.version))
  | take {k : Nat} {v : UInt64} (hk : s.pushes[k]? = some (.outdated v)) :
      Turn s (s.setPush k (.holding v s.build.metadata.snapshot))
  | install {k : Nat} {v : UInt64} {snapshot : Snapshot} {build : Build}
      (hk : s.pushes[k]? = some (.holding v snapshot)) (hversion : build.version = s.build.version)
      (hpushed : build.pushed = s.build.pushed)
      (inline : ∀ {x}, build.backend.engine = .inline x → x = snapshot) :
      Turn s ({ s with build, installed := some snapshot }.setPush k (.given v (.ok ())))
  | fail {k : Nat} {v : UInt64} {snapshot : Snapshot} {build : Build} {e : PoolError}
      (hk : s.pushes[k]? = some (.holding v snapshot)) (h : Alike s.build build) :
      Turn s ({ s with build }.setPush k (.given v (.error e)))
  | note {k : Nat} {v : UInt64} (hk : s.pushes[k]? = some (.given v (.ok ()))) :
      Turn s ({ s with build := { s.build with pushed := v } }.setPush k (.returned (.ok ())))
  | giveUp {k : Nat} {v : UInt64} {e : PoolError} (hk : s.pushes[k]? = some (.given v (.error e))) :
      Turn s (s.setPush k (.returned (.error e)))

theorem Alike.refl (b : Build) : Alike b b := ⟨rfl, rfl, rfl, id⟩

theorem install_inline {b b' : Backend} {snapshot x : Snapshot} {files files' : FileTree}
    {result : Except PoolError Unit}
    (h : (b.install snapshot).run files = ((result, b'), files')) (hx : b'.engine = .inline x) :
    x = snapshot ∧ result = .ok () := by
  unfold Backend.install at h
  cases he : b.engine with
  | inline old =>
    simp only [he] at h
    cases h
    cases hx
    exact ⟨rfl, rfl⟩
  | pooled pool =>
    exfalso
    simp only [he, StateT.run_bind] at h
    rcases hw : (pool.wait b.transformer).run files with ⟨⟨waited, pool'⟩, files''⟩
    simp only [hw] at h
    cases waited with
    | error e => cases h; cases hx
    | ok u => cases h; cases hx

theorem compile_inline {b b' : Backend} {r : CompileRequest} {x : Snapshot} {files files' : FileTree}
    {outcome : CompileOutcome} (h : (b.compile r).run files = ((outcome, b'), files'))
    (hx : b'.engine = .inline x) : b.engine = .inline x := by
  unfold Backend.compile at h
  cases he : b.engine with
  | inline old =>
    simp only [he] at h
    cases h
    rw [← he, hx]
  | pooled pool =>
    exfalso
    simp only [he] at h
    cases h
    cases hx

theorem push_turn (hk : s.pushes[k]? = some p) : Turn s (s.push k p) := by
  cases p with
  | called =>
    rw [push]
    split
    · exact .other (.refl _)
    · next h => exact .lock hk (by simpa using h)
  | locked =>
    rw [push, missingVersion?]
    split_ifs with h
    · exact .skip hk h
    · exact .read hk
  | outdated v => exact .take hk
  | holding v snapshot =>
    rcases hi : (s.build.backend.install snapshot).run s.build.files with ⟨⟨result, backend⟩, files⟩
    simp only [push, hi]
    cases result with
    | ok u => exact .install hk rfl rfl fun hx => (install_inline hi hx).1
    | error e => exact .fail hk ⟨rfl, rfl, rfl, fun hx => by cases (install_inline hi hx).2⟩
  | given v result =>
    cases result with
    | ok u => exact .note hk
    | error e => exact .giveUp hk
  | returned result => exact .other (.refl _)

theorem act_turn (s : Feed) (a : Action) : Turn s (s.act a) := by
  cases a with
  | announce change => exact .announce change
  | handle i =>
    simp only [act]
    split
    · next change hi => exact .apply hi rfl rfl rfl
    · next change hi => exact .publish hi
    · exact .other (.refl _)
  | call => exact .call
  | push k =>
    simp only [act]
    split
    · next p hk => exact push_turn hk
    · exact .other (.refl _)
  | compile request =>
    rcases hc : (s.build.backend.compile request).run s.build.files with ⟨⟨outcome, backend⟩, files⟩
    simp only [act, hc]
    exact .other ⟨rfl, rfl, rfl, compile_inline hc⟩
  | edit files => exact .other ⟨rfl, rfl, rfl, id⟩

/-! ## The order of the versions -/

/-- What calls and changes have got as versions, and who has the lock. -/
structure Ordered (s : Feed) : Prop where
  version_pos : 0 < s.build.version.toNat
  version_le : s.build.version.toNat ≤ 1 + s.changes.countP (·.2.isPublished)
  pushed_le : s.build.pushed.toNat ≤ s.build.version.toNat
  published_le : ∀ {i v}, s.Published i v → v.toNat ≤ s.build.version.toNat
  read : ∀ {k : Nat} {v : UInt64} {p : PushProgress}, s.pushes[k]? = some p → p.version? = some v →
    s.build.pushed.toNat ≤ v.toNat ∧ v.toNat ≤ s.build.version.toNat
  lock : ∀ {k k' : Nat} {p p' : PushProgress}, s.pushes[k]? = some p → s.pushes[k']? = some p' →
    p.isLocked = true → p'.isLocked = true → k = k'

/-- The change that gets its version next gets a new one. -/
def Fits (s : Feed) : Prop :=
  ∀ (i : Nat) (change : ClassChange), s.changes[i]? = some (change, .applied) →
    (s.build.version + 1).toNat = s.build.version.toNat + 1

theorem Ordered.fits (h : Ordered s) (hroom : s.changes.length + 1 < UInt64.size) : s.Fits := by
  intro i change hi
  have hle := h.version_le
  have hlt : s.changes.countP (·.2.isPublished) < s.changes.length := by
    refine List.countP_le_length.lt_of_ne fun heq => ?_
    cases List.countP_eq_length.1 heq _ (List.mem_of_getElem? hi)
  rw [UInt64.size] at hroom
  rw [UInt64.toNat_add, UInt64.toNat_one, Nat.mod_eq_of_lt]
  omega

theorem getElem?_setPush {p q : PushProgress} {j : Nat} (h : (s.setPush k p).pushes[j]? = some q) :
    (j = k ∧ q = p) ∨ (j ≠ k ∧ s.pushes[j]? = some q) := by
  rw [pushes_setPush, List.getElem?_set] at h
  split_ifs at h with hj hlt
  · exact .inl ⟨hj.symm, (Option.some.inj h).symm⟩
  · exact .inr ⟨Ne.symm hj, h⟩

theorem Turn.published (h : Turn s s') (hs : s.Fits) (hp : s'.Published i v) :
    s.Published i v ∨ v.toNat = s.build.version.toNat + 1 ∧ s'.build.version = v := by
  obtain ⟨change, hc⟩ := hp
  cases h with
  | announce _ => grind [Published]
  | apply hi _ _ _ => grind [Published]
  | publish hi =>
    have hnext := hs _ _ hi
    grind [Published, bumpVersion]
  | _ => exact .inl ⟨change, hc⟩

theorem Turn.published_mono (h : Turn s s') (hp : s.Published i v) : s'.Published i v := by
  obtain ⟨change, hc⟩ := hp
  refine ⟨change, ?_⟩
  cases h with
  | announce _ => grind
  | apply hi _ _ _ => grind
  | publish hi => grind
  | _ => exact hc

theorem Turn.version_le (h : Turn s s') (hs : s.Fits) :
    s.build.version.toNat ≤ s'.build.version.toNat := by
  cases h with
  | other h => rw [h.version]
  | apply _ hversion _ _ => rw [hversion]
  | publish hi => exact (Nat.le_succ _).trans (hs _ _ hi).ge
  | install _ hversion _ _ => exact (congrArg UInt64.toNat hversion).ge
  | fail _ h => exact (congrArg UInt64.toNat h.version).ge
  | _ => exact le_rfl

theorem Turn.length_le (h : Turn s s') : s.changes.length ≤ s'.changes.length := by
  cases h with
  | announce _ => simp
  | apply _ _ _ _ | publish _ => exact List.length_set.ge
  | _ => exact le_rfl

theorem Turn.locked (h : Turn s s') (hk : s'.pushes[k]? = some p) (hp : p.isLocked = true) :
    (∃ q, s.pushes[k]? = some q ∧ q.isLocked = true) ∨
      (∀ q ∈ s.pushes, q.isLocked = false) ∧ s'.pushes = s.pushes.set k .locked := by
  cases h with
  | other _ | announce _ | apply _ _ _ _ | publish _ => exact .inl ⟨p, hk, hp⟩
  | call =>
    rw [List.getElem?_append] at hk
    split_ifs at hk with hlt
    · exact .inl ⟨p, hk, hp⟩
    · obtain rfl : p = .called := by simpa using List.mem_of_getElem? hk
      cases hp
  | lock hj free =>
    obtain ⟨rfl, -⟩ | ⟨-, hk⟩ := getElem?_setPush hk
    · exact .inr ⟨free, rfl⟩
    · exact .inl ⟨p, hk, hp⟩
  | skip hj _ | read hj | take hj | install hj _ _ _ | fail hj _ | note hj | giveUp hj =>
    obtain ⟨rfl, -⟩ | ⟨-, hk⟩ := getElem?_setPush hk
    · exact .inl ⟨_, hj, rfl⟩
    · exact .inl ⟨p, hk, hp⟩

theorem Ordered.turn (h : Ordered s) (hs : s.Fits) (ht : Turn s s') : Ordered s' where
  version_pos := h.version_pos.trans_le (ht.version_le hs)
  version_le := by
    have hle := h.version_le
    cases ht with
    | other ha => rw [ha.version]; exact hle
    | announce _ => simpa [ChangeProgress.isPublished] using hle
    | @apply i change build hi hversion _ _ =>
      obtain ⟨hlt, hget⟩ := List.getElem?_eq_some_iff.1 hi
      rw [hversion, List.countP_set hlt, hget]
      exact hle
    | @publish i change hi =>
      obtain ⟨hlt, hget⟩ := List.getElem?_eq_some_iff.1 hi
      rw [List.countP_set hlt, hget]
      exact (hs i change hi).trans_le (Nat.succ_le_succ hle)
    | install _ hversion _ _ => exact (congrArg UInt64.toNat hversion).trans_le hle
    | fail _ ha => exact (congrArg UInt64.toNat ha.version).trans_le hle
    | _ => exact hle
  pushed_le := by
    cases ht with
    | other ha => rw [ha.version, ha.pushed]; exact h.pushed_le
    | apply _ hversion hpushed _ => rw [hversion, hpushed]; exact h.pushed_le
    | publish hi => exact h.pushed_le.trans (Turn.version_le (.publish hi) hs)
    | install _ hversion hpushed _ => simp only [setPush, hversion, hpushed]; exact h.pushed_le
    | fail _ ha => simp only [setPush, ha.version, ha.pushed]; exact h.pushed_le
    | note hk => exact (h.read hk rfl).2
    | _ => exact h.pushed_le
  published_le hp := by
    rcases ht.published hs hp with hp | ⟨-, rfl⟩
    · exact (h.published_le hp).trans (ht.version_le hs)
    · exact le_rfl
  read := by
    intro j w q hj hq
    cases ht with
    | other ha => rw [ha.version, ha.pushed]; exact h.read hj hq
    | announce _ => exact h.read hj hq
    | apply _ hversion hpushed _ => rw [hversion, hpushed]; exact h.read hj hq
    | publish hi => exact (h.read hj hq).imp_right (·.trans (Turn.version_le (.publish hi) hs))
    | call =>
      rw [List.getElem?_append] at hj
      split_ifs at hj with hlt
      · exact h.read hj hq
      · obtain rfl : q = .called := by simpa using List.mem_of_getElem? hj
        cases hq
    | lock _ _ | skip _ _ | giveUp _ =>
      obtain ⟨-, rfl⟩ | ⟨-, hj⟩ := getElem?_setPush hj
      · cases hq
      · exact h.read hj hq
    | read _ =>
      obtain ⟨-, rfl⟩ | ⟨-, hj⟩ := getElem?_setPush hj
      · cases hq
        exact ⟨h.pushed_le, le_rfl⟩
      · exact h.read hj hq
    | take hk =>
      obtain ⟨-, rfl⟩ | ⟨-, hj⟩ := getElem?_setPush hj
      · exact h.read hk hq
      · exact h.read hj hq
    | install hk hversion hpushed _ =>
      simp only [setPush, hversion, hpushed]
      obtain ⟨-, rfl⟩ | ⟨-, hj⟩ := getElem?_setPush hj
      · exact h.read hk hq
      · exact h.read hj hq
    | fail hk ha =>
      simp only [setPush, ha.version, ha.pushed]
      obtain ⟨-, rfl⟩ | ⟨-, hj⟩ := getElem?_setPush hj
      · exact h.read hk hq
      · exact h.read hj hq
    | note hk =>
      obtain ⟨-, rfl⟩ | ⟨hne, hj⟩ := getElem?_setPush hj
      · cases hq
      -- A second call with a version would have the lock too.
      · exact absurd (h.lock hj hk (PushProgress.isLocked_of_version? hq) rfl) hne
  lock := by
    intro j j' p p' hj hj' hp hp'
    obtain ⟨q, hq, hlocked⟩ | ⟨free, heq⟩ := ht.locked hj hp
    · obtain ⟨q', hq', hlocked'⟩ | ⟨free, -⟩ := ht.locked hj' hp'
      · exact h.lock hq hq' hlocked hlocked'
      · rw [free q (List.mem_of_getElem? hq)] at hlocked
        cases hlocked
    · rw [heq, List.getElem?_set] at hj'
      split_ifs at hj' with hjj
      · exact hjj
      · rw [free p' (List.mem_of_getElem? hj')] at hp'
        cases hp'

/-! ## What a call secures -/

theorem Ordered.pushed_mono (h : Ordered s) (ht : Turn s s') :
    s.build.pushed.toNat ≤ s'.build.pushed.toNat := by
  cases ht with
  | other ha => rw [ha.pushed]
  | apply _ _ hpushed _ => rw [hpushed]
  | install _ _ hpushed _ => exact (congrArg UInt64.toNat hpushed).ge
  | fail _ ha => exact (congrArg UInt64.toNat ha.pushed).ge
  | note hk => exact (h.read hk rfl).1
  | _ => exact le_rfl

/-- What a call secures never becomes less. -/
theorem Ordered.secures_le (h : Ordered s) (hs : s.Fits) (ht : Turn s s')
    (hk : s.pushes[k]? = some p) :
    ∃ p', s'.pushes[k]? = some p' ∧ p.secures s.build ≤ p'.secures s'.build := by
  have hmono := PushProgress.secures_mono (ht.version_le hs) (h.pushed_mono ht)
  -- A call that goes on must secure at least as much as before; the others stay as they are.
  have hset {j : Nat} {q q' : PushProgress} (hj : s.pushes[j]? = some q)
      (heq : s'.pushes = s.pushes.set j q') (hle : q.secures s.build ≤ q'.secures s'.build) :
      ∃ p', s'.pushes[k]? = some p' ∧ p.secures s.build ≤ p'.secures s'.build := by
    rw [heq]
    by_cases hjk : j = k
    · subst hjk
      obtain rfl : q = p := Option.some.inj (hj.symm.trans hk)
      exact ⟨q', List.getElem?_set_self (List.getElem?_eq_some_iff.1 hj).1, hle⟩
    · exact ⟨p, by rw [List.getElem?_set_ne hjk, hk], hmono p⟩
  cases ht with
  | other _ | announce _ | apply _ _ _ _ | publish _ => exact ⟨p, hk, hmono p⟩
  | call =>
    exact ⟨p, by rw [List.getElem?_append_left (List.getElem?_eq_some_iff.1 hk).1, hk], hmono p⟩
  | lock hj _ => exact hset hj rfl le_rfl
  | skip hj hcurrent => exact hset hj rfl (congrArg UInt64.toNat hcurrent).ge
  | read hj => exact hset hj rfl le_rfl
  | take hj => exact hset hj rfl le_rfl
  | install hj _ _ _ => exact hset hj rfl le_rfl
  | fail hj _ => exact hset hj rfl le_rfl
  | note hj => exact hset hj rfl le_rfl
  | giveUp hj => exact hset hj rfl (h.read hj rfl).2

/-! ## What a snapshot covers -/

/-- The snapshot is one of the metadata at some moment of the schedule, when they had all changes that
have got a version up to `v`. -/
def Covers (s₀ : Feed) (schedule : List Action) (snapshot : Snapshot) (v : Nat) : Prop :=
  ∃ past later, schedule = past ++ later ∧
    snapshot = (past.foldl act s₀).build.metadata.snapshot ∧
      ∀ {i w}, (schedule.foldl act s₀).Published i w → w.toNat ≤ v → (past.foldl act s₀).Applied i

variable {s₀ : Feed} {schedule : List Action} {a : Action} {snapshot : Snapshot}

theorem Covers.mono {v w : Nat} (h : Covers s₀ schedule snapshot v) (hw : w ≤ v) :
    Covers s₀ schedule snapshot w := by
  obtain ⟨past, later, heq, hsnap, hall⟩ := h
  exact ⟨past, later, heq, hsnap, fun hp hle => hall hp (hle.trans hw)⟩

theorem Covers.concat {v : Nat} (h : Covers s₀ schedule snapshot v)
    (hs : (schedule.foldl act s₀).Fits) (hv : v ≤ (schedule.foldl act s₀).build.version.toNat) :
    Covers s₀ (schedule ++ [a]) snapshot v := by
  obtain ⟨past, later, rfl, hsnap, hall⟩ := h
  refine ⟨past, later ++ [a], by simp, hsnap, fun {i w} hp hw => ?_⟩
  rw [List.foldl_concat] at hp
  rcases (act_turn _ a).published hs hp with hp | ⟨hnew, -⟩
  · exact hall hp hw
  · omega

structure Covered (s₀ : Feed) (schedule : List Action) (s : Feed) : Prop where
  holding : ∀ {k : Nat} {v : UInt64} {snapshot}, s.pushes[k]? = some (.holding v snapshot) →
    Covers s₀ schedule snapshot v.toNat
  given : ∀ {k : Nat} {v : UInt64}, s.pushes[k]? = some (.given v (.ok ())) →
    ∃ snapshot, s.installed = some snapshot ∧ Covers s₀ schedule snapshot v.toNat
  installed : ∀ {snapshot}, s.installed = some snapshot →
    Covers s₀ schedule snapshot s.build.pushed.toNat
  some_installed : 0 < s.build.pushed.toNat → ∃ snapshot, s.installed = some snapshot
  inline : ∀ {x snapshot}, s.build.backend.engine = .inline x → s.installed = some snapshot →
    x = snapshot

theorem Covered.keep (h : Covered s₀ schedule s) (hinstalled : s'.installed = s.installed)
    (hpushed : s'.build.pushed = s.build.pushed)
    (hinline : ∀ {x}, s'.build.backend.engine = .inline x → s.build.backend.engine = .inline x)
    (hpushes : ∀ {k : Nat} {p : PushProgress}, s'.pushes[k]? = some p → s.pushes[k]? = some p ∨
      (∀ v, p ≠ .given v (.ok ())) ∧ ∀ v x, p = .holding v x → Covers s₀ schedule x v.toNat) :
    Covered s₀ schedule s' where
  holding hk := by
    obtain hk | ⟨-, hnew⟩ := hpushes hk
    · exact h.holding hk
    · exact hnew _ _ rfl
  given hk := by
    obtain hk | ⟨hnot, -⟩ := hpushes hk
    · rw [hinstalled]; exact h.given hk
    · exact absurd rfl (hnot _)
  installed hs := by rw [hpushed]; exact h.installed (hinstalled ▸ hs)
  some_installed hp := by rw [hinstalled]; exact h.some_installed (hpushed ▸ hp)
  inline hx hs := h.inline (hinline hx) (hinstalled ▸ hs)

theorem Covered.turn (h : Covered s₀ schedule s) (ho : Ordered s) (ht : Turn s s')
    (hnow : ∀ v ≤ s.build.version.toNat, Covers s₀ schedule s.build.metadata.snapshot v) :
    Covered s₀ schedule s' := by
  cases ht with
  | other ha => exact h.keep rfl ha.pushed ha.inline .inl
  | announce _ => exact h.keep rfl rfl id .inl
  | apply _ _ hpushed hbackend => exact h.keep rfl hpushed (by simp only [hbackend]; exact id) .inl
  | publish _ => exact h.keep rfl rfl id .inl
  | call =>
    refine h.keep rfl rfl id fun {j p} hj => ?_
    rw [List.getElem?_append] at hj
    split_ifs at hj with hlt
    · exact .inl hj
    · obtain rfl : p = .called := by simpa using List.mem_of_getElem? hj
      exact .inr (by simp)
  | lock _ _ | skip _ _ | read _ | giveUp _ =>
    refine h.keep rfl rfl id fun {j p} hj => ?_
    obtain ⟨-, rfl⟩ | ⟨-, hj⟩ := getElem?_setPush hj
    · exact .inr (by simp)
    · exact .inl hj
  | take hk =>
    refine h.keep rfl rfl id fun {j p} hj => ?_
    obtain ⟨-, rfl⟩ | ⟨-, hj⟩ := getElem?_setPush hj
    · refine .inr ⟨by simp, fun v x hx => ?_⟩
      cases hx
      exact hnow _ (ho.read hk rfl).2
    · exact .inl hj
  | fail _ ha =>
    refine h.keep rfl ha.pushed ha.inline fun {j p} hj => ?_
    obtain ⟨-, rfl⟩ | ⟨-, hj⟩ := getElem?_setPush hj
    · exact .inr (by simp)
    · exact .inl hj
  | @install k v snapshot build hk _ hpushed inline =>
    exact {
      holding := fun hj => by
        obtain ⟨-, hp⟩ | ⟨-, hj⟩ := getElem?_setPush hj
        · cases hp
        · exact h.holding hj
      given := fun hj => by
        obtain ⟨-, hp⟩ | ⟨hne, hj⟩ := getElem?_setPush hj
        · cases hp
          exact ⟨snapshot, rfl, h.holding hk⟩
        · exact absurd (ho.lock hj hk rfl rfl) hne
      installed := fun hs => by
        cases hs
        exact (h.holding hk).mono (hpushed ▸ (ho.read hk rfl).1)
      some_installed := fun _ => ⟨snapshot, rfl⟩
      inline := fun hx hs => by
        cases hs
        exact inline hx }
  | @note k v hk =>
    obtain ⟨snapshot, hinstalled, hcovers⟩ := h.given hk
    exact {
      holding := fun hj => by
        obtain ⟨-, hp⟩ | ⟨-, hj⟩ := getElem?_setPush hj
        · cases hp
        · exact h.holding hj
      given := fun hj => by
        obtain ⟨-, hp⟩ | ⟨-, hj⟩ := getElem?_setPush hj
        · cases hp
        · exact h.given hj
      installed := fun hs => by
        cases hinstalled.symm.trans hs
        exact hcovers
      some_installed := fun _ => ⟨snapshot, hinstalled⟩
      inline := h.inline }

theorem ordered_covered (files : FileTree) (backend : Backend) (metadata : Metadata)
    (classes : Table Path) (makers : List Maker)
    (hroom : (schedule.foldl act (start files backend metadata classes makers)).changes.length + 1 <
      UInt64.size) :
    let start := start files backend metadata classes makers
    Ordered (schedule.foldl act start) ∧ Covered start schedule (schedule.foldl act start) := by
  intro start
  induction schedule using List.reverseRecOn with
  | nil =>
    constructor
    · constructor <;> simp [start, Feed.start, Published]
    · constructor <;> simp [start, Feed.start]
  | append_singleton schedule a ih =>
    rw [List.foldl_concat] at hroom ⊢
    have ht := act_turn (schedule.foldl act start) a
    have hbefore := (Nat.succ_le_succ ht.length_le).trans_lt hroom
    obtain ⟨ho, hc⟩ := ih hbefore
    have hs := ho.fits hbefore
    refine ⟨ho.turn hs ht, Covered.turn (s := schedule.foldl act start) ?_ ho ht ?_⟩
    · exact {
        holding := fun hk => (hc.holding hk).concat hs (ho.read hk rfl).2
        given := fun hk => by
          obtain ⟨snapshot, hi, hcovers⟩ := hc.given hk
          exact ⟨snapshot, hi, hcovers.concat hs (ho.read hk rfl).2⟩
        installed := fun hi => (hc.installed hi).concat hs ho.pushed_le
        some_installed := hc.some_installed
        inline := hc.inline }
    · intro v hv
      have hcovers : Covers start schedule (schedule.foldl act start).build.metadata.snapshot v :=
        ⟨schedule, [], by simp, rfl, fun hp _ => hp.applied⟩
      exact hcovers.concat hs hv

/-! ## Compiles never see metadata older than what was published -/

theorem published_foldl (h : s.Published i v) (schedule : List Action) :
    (schedule.foldl act s).Published i v :=
  List.foldlRecOn schedule act h fun s h a _ => (act_turn s a).published_mono h

theorem length_foldl_le (s : Feed) (schedule : List Action) :
    s.changes.length ≤ (schedule.foldl act s).changes.length := by
  induction schedule generalizing s with
  | nil => exact le_rfl
  | cons a schedule ih => exact (act_turn s a).length_le.trans (ih (s.act a))

theorem Ordered.secures_foldl (h : Ordered s) (hk : s.pushes[k]? = some p)
    (hroom : (schedule.foldl act s).changes.length + 1 < UInt64.size) :
    ∃ p', (schedule.foldl act s).pushes[k]? = some p' ∧
      p.secures s.build ≤ p'.secures (schedule.foldl act s).build := by
  induction schedule generalizing s p with
  | nil => exact ⟨p, hk, le_rfl⟩
  | cons a schedule ih =>
    have hs := h.fits ((Nat.succ_le_succ (s.length_foldl_le (a :: schedule))).trans_lt hroom)
    obtain ⟨q, hq, hle⟩ := h.secures_le hs (act_turn s a) hk
    obtain ⟨p', hp', hle'⟩ := ih (h.turn hs (act_turn s a)) hq hroom
    exact ⟨p', hp', hle.trans hle'⟩

/-- From the moment a call returns without an error, the snapshot that was installed last is one of
metadata that had all the changes that had got their versions when the call was made. A backend that
compiles at once compiles against just that snapshot. -/
theorem installed_reflects_published (files : FileTree) (backend : Backend) (metadata : Metadata)
    (classes : Table Path) (makers : List Maker) (before after : List Action)
    (h : ((before ++ .call :: after).foldl act (start files backend metadata classes makers)).pushes[
      (before.foldl act (start files backend metadata classes makers)).pushes.length]? =
        some (.returned (.ok ())))
    (hroom : ((before ++ .call :: after).foldl act
      (start files backend metadata classes makers)).changes.length + 1 < UInt64.size) :
    let start := start files backend metadata classes makers
    let now := (before ++ .call :: after).foldl act start
    ∃ past later, before ++ .call :: after = past ++ later ∧
      now.installed = some (past.foldl act start).build.metadata.snapshot ∧
      (∀ i v, (before.foldl act start).Published i v → (past.foldl act start).Applied i) ∧
      ∀ snapshot, now.build.backend.engine = .inline snapshot → now.installed = some snapshot := by
  intro start now
  have hnow : now = after.foldl act ((before.foldl act start).act .call) := by
    simp only [now, List.foldl_append, List.foldl_cons]
  have hearly : (before.foldl act start).changes.length + 1 < UInt64.size := by
    refine (Nat.succ_le_succ ?_).trans_lt hroom
    rw [List.foldl_append]
    exact length_foldl_le _ _
  obtain ⟨hbefore, -⟩ := ordered_covered files backend metadata classes makers hearly
  obtain ⟨-, hcovered⟩ := ordered_covered files backend metadata classes makers hroom
  -- The call secures the version at its beginning, and in the end that is what the backend has.
  have hle : (before.foldl act start).build.version.toNat ≤ now.build.pushed.toNat := by
    obtain ⟨p, hp, hle⟩ := (hbefore.turn (hbefore.fits hearly) (act_turn _ .call)).secures_foldl
      (k := (before.foldl act start).pushes.length) (p := .called) (by simp [act, start])
      (show (after.foldl act _).changes.length + 1 < _ from hnow ▸ hroom)
    rw [← hnow] at hp hle
    cases Option.some.inj (hp.symm.trans h)
    exact hle
  obtain ⟨snapshot, hinstalled⟩ := hcovered.some_installed (hbefore.version_pos.trans_le hle)
  obtain ⟨past, later, heq, rfl, hcovers⟩ := hcovered.installed hinstalled
  refine ⟨past, later, heq, hinstalled, fun i v hp => ?_, fun x hx => ?_⟩
  · refine hcovers (w := v) ?_ ((hbefore.published_le hp).trans hle)
    rw [List.foldl_append]
    exact published_foldl hp _
  · rw [hcovered.inline hx hinstalled]
    exact hinstalled

/-- A class changes after the first call has read the version and before it takes its snapshot. -/
def changedBetween : List Action :=
  [.announce ⟨.removed, "a.A", ⟨"a/A.js"⟩⟩, .call, .push 0, .push 0, .handle 0, .handle 0]

/-- The first call ends, and then a call that was made after the change. -/
def calledAfter : List Action :=
  [.push 0, .push 0, .push 0, .push 1, .push 1, .push 1, .push 1, .push 1]

def unasked : Feed :=
  start {} { transformer := .passthrough, engine := .inline {} } { rootDir := ⟨"meta"⟩ } .empty []

theorem installed_reflects_published_changedBetween :
    (changedBetween.foldl act unasked).Published 0 2 ∧
    ((changedBetween ++ .call :: calledAfter).foldl act unasked).pushes[1]? =
      some (.returned (.ok ())) ∧
    ∃ past later, changedBetween ++ .call :: calledAfter = past ++ later ∧
      ((changedBetween ++ .call :: calledAfter).foldl act unasked).installed =
        some (past.foldl act unasked).build.metadata.snapshot ∧
      (past.foldl act unasked).Applied 0 := by
  have hp : (changedBetween.foldl act unasked).Published 0 2 := ⟨_, rfl⟩
  have hr : ((changedBetween ++ .call :: calledAfter).foldl act unasked).pushes[1]? =
      some (.returned (.ok ())) := rfl
  obtain ⟨past, later, heq, hinstalled, happlied, -⟩ := installed_reflects_published {}
    { transformer := .passthrough, engine := .inline {} } { rootDir := ⟨"meta"⟩ } .empty []
    changedBetween calledAfter hr (by decide +kernel)
  exact ⟨hp, hr, past, later, heq, hinstalled, happlied 0 2 hp⟩

end Feed

end ClassForge.Build
