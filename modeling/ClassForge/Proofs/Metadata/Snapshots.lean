import ClassForge.Proofs.Extract
import ClassForge.Proofs.Json.Sorted
import ClassForge.Proofs.Metadata.Operations

/-!
# Records and snapshots that are read back

A record is read back from its form, also with the fields sorted, exactly if its version is finite.
All records of metadata have the present form version, whose text is read back too: so a snapshot goes
to the workers as text, and names resolve there to the same symbols as in the metadata.
-/

namespace ClassForge

open Json

/-! ## Records -/

namespace ClassRecord

theorem decode_encode_iff (r : ClassRecord) :
    decode (encode r) = Except.ok r ↔ r.version.isFinite = true := by
  refine ⟨fun h => ?_, decode_encode_finite⟩
  by_contra hinfinite
  rw [encode_eq, decode_unversioned] at h
  simp only [encode, hinfinite] at h
  cases h

theorem decode_canonical_iff (r : ClassRecord) :
    decode (encode r).canonical = Except.ok r ↔ r.version.isFinite = true := by
  refine ⟨fun h => ?_, decode_canonical_finite⟩
  by_contra hinfinite
  rw [encode_eq, decode_canonical_unversioned, canonical_encode_version] at h
  simp only [encode, hinfinite] at h
  cases h

theorem decode_version {fields : List (String × Json)} {r : ClassRecord}
    (h : decode (Json.object fields) = Except.ok r) :
    requiredOf "version" (fieldsAt "version" fields) = Except.ok r.version := by
  change readFields _ (.object fields) = _ at h
  simp only [readFields_object, readNamed_required, readNamed_defaulted] at h
  obtain ⟨version, hversion, h⟩ := exists_of_bind_ok h
  iterate 19 obtain ⟨_, -, h⟩ := exists_of_bind_ok h
  cases h
  exact hversion

theorem version_of_requiredOf {fields : List (String × Json)} {x : Binary64}
    (h : requiredOf "version" (fieldsAt "version" fields) = Except.ok x) :
    ((Json.object fields).field? "version").bind
      (fun v => (decode v : Except DecodeError Binary64).toOption) = some x := by
  have hreverse : fieldsAt "version" fields.reverse = (fieldsAt "version" fields).reverse :=
    List.filter_reverse
  rw [field?, lookup_eq_head?, hreverse, List.head?_reverse]
  rcases hfound : fieldsAt "version" fields with _ | ⟨⟨k, v⟩, _ | ⟨e, rest⟩⟩
  · rw [hfound] at h
    cases h
  · rw [hfound, requiredOf_single] at h
    exact congrArg Except.toOption h
  · rw [hfound] at h
    cases h

theorem version_load? {t : FileTree} {file : Path} {r : ClassRecord}
    (h : load? t file = .ok (some r)) : r.version = formVersion := by
  unfold load? at h
  split at h
  · cases h
  · cases h
  · split at h
    · cases h
    · next text _ j _ =>
      dsimp only at h
      generalize j.canonical = v at h
      split at h
      · next hversion =>
        split at h
        · next hr =>
          cases h
          cases v with
          | object fields =>
            rw [version_of_requiredOf (decode_version hr)] at hversion
            exact Option.some.inj hversion
          | _ => cases hversion
        · cases h
      · cases h

end ClassRecord

/-! ## Versions of metadata -/

namespace Metadata

variable {m : Metadata}

def Versioned (m : Metadata) : Prop :=
  ∀ c r, m.record? c = some r → r.version = ClassRecord.formVersion

theorem Versioned.removal (hm : m.Versioned) {file : Path} {m' : Metadata}
    {result : Except StoreError (Option String)} (h : m.Removal file result m') : m'.Versioned := by
  intro c r hr
  rw [h.record?] at hr
  split at hr
  · cases hr
  · exact hm c r hr

theorem kept_versioned : Kept Versioned where
  stage := by
    rintro m file time x ⟨t, expected, hfile⟩ hm c r hr
    rw [record?_stage] at hr
    split at hr
    · cases hr
      exact ClassRecord.version_ofFile hfile
    · split at hr
      · cases hr
      · exact hm c r hr
  drop h hm := hm.removal h
  fail h hm := hm.removal h
  renew := by
    intro m m' h hm c r' hr'
    obtain ⟨r, hr, hversion, -⟩ := h.record? hr'
    exact hversion.trans (hm c r hr)
  restore := by
    intro m t c hm
    rcases restore_cases t m c with ⟨-, h⟩ | ⟨r, hstored, h⟩
    · rwa [h]
    · rw [h]
      intro d r' hr'
      rw [record?, Table.get?_insert] at hr'
      split at hr'
      · cases hr'
        unfold stored? at hstored
        split at hstored
        · cases hstored
          exact ClassRecord.version_load? ‹_›
        · cases hstored
      · exact hm d r' hr'

theorem versioned_operated (root : Path) (operations : List Operation) :
    (operated root operations).Versioned := by
  refine kept_versioned.operations operations ?_
  rintro c r ⟨⟩

/-! ## Snapshots -/

theorem decodeEntries_of_forall {l : List (String × ClassRecord)}
    (h : ∀ e ∈ l, decode (encode e.2) = Except.ok e.2) :
    decodeEntries (l.map fun e => (e.1, encode e.2)) = Except.ok l := by
  induction l with
  | nil => rfl
  | cons e rest ih =>
    obtain ⟨hfirst, hrest⟩ := List.forall_mem_cons.1 h
    rw [List.map_cons, decodeEntries, hfirst, ih hrest]
    rfl

theorem decode_encode_snapshot (h : ∀ c r, m.record? c = some r → r.version.isFinite = true) :
    decode (encode m.snapshot) = Except.ok m.snapshot := by
  have hclasses : decode (encode m.records) = Except.ok m.records := by
    have hentries := decodeEntries_of_forall (l := m.records.entries) fun e he =>
      ClassRecord.decode_encode_finite (h e.1 e.2 (Table.mem_entries.1 he))
    simp only [encode, decode] at hentries ⊢
    rw [hentries]
    exact congrArg Except.ok (Table.ofList_entries m.records)
  exact (decode_snapshot_form m.snapshot (encode m.records)).trans (by rw [hclasses]; rfl)

theorem rereadFields_of_versioned {l : List (String × ClassRecord)}
    (h : ∀ e ∈ l, e.2.version = ClassRecord.formVersion) {room : Nat} (hroom : 5 ≤ room) :
    rereadFields (room + 1) (l.map fun e => (e.1, encode e.2)) =
      some (l.map fun e => (e.1, encode e.2)) := by
  induction l with
  | nil => rw [List.map_nil, rereadFields]
  | cons e rest ih =>
    obtain ⟨hfirst, hrest⟩ := List.forall_mem_cons.1 h
    rw [List.map_cons, rereadFields, ClassRecord.reread_encode hfirst hroom, ih hrest]
    rfl

theorem readSnapshot_of_versioned (hm : m.Versioned) :
    Worker.readSnapshot (.string (encode m.snapshot).render) = .ok m.snapshot := by
  have hdecode := decode_encode_snapshot (m := m) fun c r hr => by
    rw [hm c r hr, ClassRecord.isFinite_formVersion]
  have hversion : ∀ e ∈ m.records.entries, e.2.version = ClassRecord.formVersion :=
    fun e he => hm e.1 e.2 (Table.mem_entries.1 he)
  have hclasses := rereadFields_of_versioned hversion (show 5 ≤ 124 by decide)
  have hother : rereadFields 126 [("packages", encode m.packages),
      ("environmentChecks", encode m.environmentChecks)] = some _ :=
    rereadFields_of_fits 126 _ (by simp [FitsFields])
  have hread : reread 127 (encode m.snapshot) = some (encode m.snapshot) := by
    have hencode : encode m.snapshot = .object
      (("classes", .object (m.records.entries.map fun e => (e.1, encode e.2))) ::
        [("packages", encode m.packages), ("environmentChecks", encode m.environmentChecks)]) := rfl
    rw [hencode, reread, rereadFields, hother, reread, hclasses]
    rfl
  simp only [Worker.readSnapshot, parse?_render, hread, hdecode]
  rfl

/-- A record is read back from its form, with the fields in any order, exactly if its version is
finite. So names resolve in a snapshot that was written and read again as they do in the metadata:
always after any operations, also by way of the text. -/
theorem decode_encode_iff_and_symbols_kept :
    (∀ r : ClassRecord,
      (decode (encode r) = Except.ok r ↔ r.version.isFinite = true) ∧
      (decode (encode r).canonical = Except.ok r ↔ r.version.isFinite = true)) ∧
    (∀ m : Metadata, (∀ c r, m.record? c = some r → r.version.isFinite = true) →
      ∃ s : Snapshot, decode (encode m.snapshot) = Except.ok s ∧
        ∀ name, s.resolver.symbol? name = m.resolver.symbol? name) ∧
    ∀ (root : Path) (operations : List Operation), ∃ s : Snapshot,
      Worker.readSnapshot (.string (encode (operated root operations).snapshot).render) = .ok s ∧
        ∀ name, s.resolver.symbol? name = (operated root operations).resolver.symbol? name := by
  refine ⟨fun r => ⟨r.decode_encode_iff, r.decode_canonical_iff⟩, fun m hm => ?_,
    fun root operations => ?_⟩
  · exact ⟨m.snapshot, decode_encode_snapshot hm, fun _ => rfl⟩
  · exact ⟨_, readSnapshot_of_versioned (versioned_operated root operations), fun _ => rfl⟩

/-- A record with a documented member and a property, in a version of its own. -/
def soleRecord : ClassRecord :=
  { ClassRecord.new "a.A" .ordinary with
    version := Binary64.ofRatio false 1 3
    superClass := some "b.B"
    members := .ofList [
      ("b", { access := .prot, params := [{ name := "x", optional := true }] }),
      ("c", { doc := some { description := "c", tags := .ofList [("see", ["b", "a.A"])] } })]
    properties := .ofList [("p", { check := some "Integer", group := ["q", "r"], appearsIn := ["a.A"] })]
    doc := some { description := "A", params := [{ name := "y", typeText := some "Map" }] } }

def soleClass : Metadata :=
  { rootDir := ⟨"/"⟩, records := Table.empty.insert "a.A" soleRecord }

theorem decode_encode_iff_and_symbols_kept_sole :
    soleRecord.version.isFinite = true ∧ decode (encode soleRecord) = Except.ok soleRecord ∧
    decode (encode soleRecord).canonical = Except.ok soleRecord ∧
    ∃ s : Snapshot, decode (encode soleClass.snapshot) = Except.ok s ∧
      s.resolver.symbol? "a.A.b" = some (.member "a.A" "b") := by
  have hversion : soleRecord.version.isFinite = true := by decide +kernel
  have hfinite : ∀ c r, soleClass.record? c = some r → r.version.isFinite = true := by
    intro c r hr
    rw [record?, soleClass, Table.get?_insert] at hr
    split at hr
    · cases hr
      exact hversion
    · cases hr
  obtain ⟨hrecord, hmetadata, -⟩ := decode_encode_iff_and_symbols_kept
  obtain ⟨s, hs, hsymbols⟩ := hmetadata soleClass hfinite
  refine ⟨hversion, (hrecord soleRecord).1.2 hversion, (hrecord soleRecord).2.2 hversion, s, hs, ?_⟩
  rw [hsymbols]
  decide +kernel

end Metadata

end ClassForge
