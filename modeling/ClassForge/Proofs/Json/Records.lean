import ClassForge.Compilation.Worker
import ClassForge.Proofs.Json.Codec
import ClassForge.Proofs.Table
import Mathlib.Data.List.Forall2

/-!
# Records that are read back

Requests and build information are read back as they were. The version of a class record is a
floating-point number, whose text may be read as a number next to it: all the rest of a record, and
so all that names resolve to, survives the way to a worker.
-/

namespace ClassForge

open Json

/-! ## Parts of a record -/

instance : ReadBack Place 1 := {}

instance : ReadBack Extent 2 := {}

instance : ReadBack DocParam 1 := {}

instance : ReadBack DocReturn 1 := {}

instance : ReadBack DocComment 3 := {}

instance : ReadBack Access 0 where
  decode_encode a := by cases a <;> rfl
  fits_encode a := by cases a <;> trivial
  encode_ne_null a := by cases a <;> intro h <;> cases h

instance : ReadBack ClassType 0 where
  decode_encode t := by cases t <;> rfl
  fits_encode t := by cases t <;> trivial
  encode_ne_null t := by cases t <;> intro h <;> cases h

instance : ReadBack MemberKind 0 where
  decode_encode k := by cases k <;> rfl
  fits_encode k := by cases k <;> trivial
  encode_ne_null k := by cases k <;> intro h <;> cases h

instance : ReadBack Param 1 := {}

instance : ReadBack Return 1 := {}

instance : ReadBack Member 4 := {}

instance : ReadBack Property 4 := {}

instance : ReadBack EventInfo 4 := {}

/-! ## Build information and requests -/

instance : ReadBack MarkerLevel 0 where
  decode_encode l := by cases l <;> rfl
  fits_encode l := by cases l <;> trivial
  encode_ne_null l := by cases l <;> intro h <;> cases h

instance : ReadBack Marker 2 := {}

instance : ReadBack Needs 1 := {}

instance : ReadBack BuildInfo 4 := {}

instance : ReadBack Path 0 where
  decode_encode _ := rfl
  fits_encode _ := trivial

theorem decode_canonical_request (r : CompileRequest) :
    decode (Datum.ofJson (encode r)).json = Except.ok r := by
  have hfields : (encode r).canonical = .object [("classname", encode r.classname),
      ("minify", encode r.minify), ("outputDir", encode r.outputDir),
      ("sourcePath", encode r.sourcePath)] := by
    change Json.object _ = _
    simp only [canonicalFields, Table.ofList, Table.insert, Table.put, Table.empty, List.foldl_cons,
      List.foldl_nil, String.reduceLT, String.reduceEq, ↓reduceIte]
    rfl
  change decode (encode r).canonical = _
  rw [hfields]
  change readFields _ (.object _) = _
  simp

/-! ## Class records -/

namespace ClassRecord

/-- The fields of a record's form after its version. -/
def unversioned (r : ClassRecord) : List (String × Json) := ((encode r).fields?.getD []).tail

theorem encode_eq (r : ClassRecord) :
    encode r = .object (("version", encode r.version) :: r.unversioned) := rfl

theorem fits_unversioned (r : ClassRecord) : FitsFields 5 r.unversioned := by
  change FitsFields 5 (_ ++ _)
  simp [FitsFields]

theorem rereadFields_unversioned (r : ClassRecord) {room : Nat} (hroom : 5 ≤ room) :
    rereadFields room r.unversioned = some r.unversioned := by
  have hfits := r.fits_unversioned
  generalize r.unversioned = fields at hfits ⊢
  exact rereadFields_of_fits room fields (hfits.mono hroom)

theorem decode_unversioned (r : ClassRecord) (v : Json) :
    (decode (.object (("version", v) :: r.unversioned)) : Except DecodeError ClassRecord) =
      (fun x => { r with version := x }) <$> decode v := by
  change readFields _ (.object (("version", v) :: (_ ++ _))) = _
  cases h : (decode v : Except DecodeError Binary64) <;> simp [h]

def Alike (r r' : ClassRecord) : Prop := { r with version := r'.version } = r'

theorem alike_of_read {room : Nat} (hroom : 5 ≤ room) {r r' : ClassRecord} {v : Json}
    (hv : reread (room + 1) (encode r) = some v) (hr : decode v = Except.ok r') : r.Alike r' := by
  rw [encode_eq, reread, rereadFields, r.rereadFields_unversioned hroom] at hv
  cases hversion : reread room (encode r.version) with
  | none =>
    rw [hversion] at hv
    cases hv
  | some w =>
    rw [hversion] at hv
    cases hv
    rw [decode_unversioned] at hr
    cases hw : (decode w : Except DecodeError Binary64) with
    | error e =>
      rw [hw] at hr
      cases hr
    | ok x =>
      rw [hw] at hr
      cases hr
      rfl

end ClassRecord

/-! ## Snapshots -/

theorem alike_of_read_entries {room : Nat} (hroom : 5 ≤ room) {l l' : List (String × ClassRecord)}
    {fields : List (String × Json)}
    (hf : rereadFields (room + 1) (l.map fun e => (e.1, encode e.2)) = some fields)
    (hl : decodeEntries fields = Except.ok l') :
    List.Forall₂ (fun e e' => e.1 = e'.1 ∧ e.2.Alike e'.2) l l' := by
  induction l generalizing fields l' with
  | nil =>
    rw [List.map_nil, rereadFields] at hf
    cases hf
    cases hl
    exact .nil
  | cons e rest ih =>
    rw [List.map_cons, rereadFields] at hf
    simp only [Option.bind_eq_bind, Option.bind_eq_some_iff, Option.pure_def, Option.some.injEq] at hf
    obtain ⟨w, hw, ws, hws, rfl⟩ := hf
    rw [decodeEntries] at hl
    cases hr : (decode w : Except DecodeError ClassRecord) with
    | error e =>
      rw [hr] at hl
      cases hl
    | ok r =>
      cases hrest : (decodeEntries ws : Except DecodeError (List (String × ClassRecord))) with
      | error e =>
        rw [hr, hrest] at hl
        cases hl
      | ok rest' =>
        rw [hr, hrest] at hl
        cases hl
        exact .cons ⟨rfl, ClassRecord.alike_of_read hroom hw hr⟩ (ih hws hrest)

structure Snapshot.Alike (s s' : Snapshot) : Prop where
  classes : ∀ name, Option.Rel ClassRecord.Alike (s.classes.get? name) (s'.classes.get? name)
  packages : s.packages = s'.packages
  environmentChecks : s.environmentChecks = s'.environmentChecks

theorem rel_find? {l l' : List (String × ClassRecord)}
    (h : List.Forall₂ (fun e e' => e.1 = e'.1 ∧ e.2.Alike e'.2) l l') (name : String) :
    Option.Rel ClassRecord.Alike (Table.find? name l) (Table.find? name l') := by
  induction h with
  | nil => exact .none
  | @cons e e' rest rest' he _ ih =>
    obtain ⟨k, r⟩ := e
    obtain ⟨k', r'⟩ := e'
    obtain ⟨rfl, hr⟩ := he
    by_cases hk : name = k
    · simpa [Table.find?, hk] using Option.Rel.some hr
    · simpa [Table.find?, hk] using ih

theorem sorted_of_alike {l l' : List (String × ClassRecord)}
    (h : List.Forall₂ (fun e e' => e.1 = e'.1 ∧ e.2.Alike e'.2) l l')
    (hl : l.Pairwise fun a b => a.1 < b.1) : l'.Pairwise fun a b => a.1 < b.1 := by
  have hkeys : l.map Prod.fst = l'.map Prod.fst := by
    induction h with
    | nil => rfl
    | cons he _ ih => rw [List.map_cons, List.map_cons, he.1, ih (List.pairwise_cons.1 hl).2]
  rw [← List.pairwise_map (f := Prod.fst) (R := (· < ·))] at hl ⊢
  rwa [← hkeys]

theorem decode_snapshot_form (s : Snapshot) (v : Json) :
    (decode (.object [("classes", v), ("packages", encode s.packages),
      ("environmentChecks", encode s.environmentChecks)]) : Except DecodeError Snapshot) =
      (fun classes => { s with classes }) <$> decode v := by
  change readFields _ (.object _) = _
  cases h : (decode v : Except DecodeError (Table ClassRecord)) <;> simp [h]

theorem alike_of_readSnapshot {s s' : Snapshot}
    (h : Worker.readSnapshot (.string (encode s).render) = .ok s') : s.Alike s' := by
  have hother : rereadFields 126 [("packages", encode s.packages),
      ("environmentChecks", encode s.environmentChecks)] = some _ :=
    rereadFields_of_fits 126 _ (by simp [FitsFields])
  have hencode : encode s = .object
      (("classes", .object (s.classes.entries.map fun e => (e.1, encode e.2))) ::
        [("packages", encode s.packages), ("environmentChecks", encode s.environmentChecks)]) := rfl
  simp only [Worker.readSnapshot, parse?_render] at h
  rw [hencode, reread, rereadFields, hother, reread] at h
  cases hf : rereadFields 125 (s.classes.entries.map fun e => (e.1, encode e.2)) with
  | none =>
    rw [hf] at h
    cases h
  | some fields =>
    rw [hf] at h
    simp only [Option.map_some, Option.bind_eq_bind, Option.bind_some, Option.pure_def,
      decode_snapshot_form] at h
    cases hl : (decodeEntries fields : Except DecodeError (List (String × ClassRecord))) with
    | error e =>
      simp only [decode, hl] at h
      cases h
    | ok l =>
      simp only [decode, hl] at h
      cases h
      have halike := alike_of_read_entries (by decide) hf hl
      refine ⟨fun name => ?_, rfl, rfl⟩
      have hentries := Table.foldl_insert_entries (l := l) (t := .empty)
        (sorted_of_alike halike s.classes.sorted)
      rw [Table.get?, Table.get?, Table.ofList, hentries]
      exact rel_find? halike name

/-! ## What names resolve to -/

theorem ClassRecord.Alike.doc {r r' : ClassRecord} (h : r.Alike r') : r.doc = r'.doc := by
  rw [← h]

/-- Two ways to resolve names that lead to the same symbols and to alike records. -/
structure Resolver.Alike (a b : Resolver) : Prop where
  record : ∀ name, Option.Rel ClassRecord.Alike (a.record? name) (b.record? name)
  isPackage : a.isPackage = b.isPackage
  checks : a.checks = b.checks

theorem Snapshot.Alike.resolver {s s' : Snapshot} (h : s.Alike s') :
    s.resolver.Alike s'.resolver :=
  ⟨h.classes, by simp only [Snapshot.resolver, h.packages], h.environmentChecks⟩

namespace Resolver.Alike

variable {a b : Resolver} (h : a.Alike b)

include h

theorem isSome_record (name : String) : (a.record? name).isSome = (b.record? name).isSome := by
  have hrel := h.record name
  generalize a.record? name = r, b.record? name = r' at hrel ⊢
  cases hrel <;> rfl

theorem symbol (name : String) : a.symbol? name = b.symbol? name := by
  simp only [Resolver.symbol?, Resolver.nearestClass?, h.isSome_record, h.isPackage, h.checks]

end Resolver.Alike

end ClassForge
