import ClassForge.Proofs.Json.Records

/-!
# Reading back sorted forms

A stored record is read from the canonical form of its value, which has the fields of every object
sorted by name. No form has two fields of one name, so every field is found there as before. With
`ReadSorted` for all parts of a record, a record is read back from its canonical form too.
-/

namespace ClassForge

namespace Json

/-! ## Fields in sorted order -/

theorem fieldsAt_entries (name : String) (t : Table Json) :
    fieldsAt name t.entries = ((t.get? name).map fun v => (name, v)).toList := by
  obtain ⟨entries, hsorted⟩ := t
  rw [Table.get?]
  induction entries with
  | nil => rfl
  | cons e rest ih =>
    obtain ⟨k, v⟩ := e
    obtain ⟨hfirst, hrest⟩ := List.pairwise_cons.1 hsorted
    rw [fieldsAt_cons, Table.find?]
    split
    · next hk =>
      have hnone : fieldsAt name rest = [] := by
        refine List.filter_eq_nil_iff.2 fun e he => ?_
        have hlt := hfirst e he
        simp only [beq_iff_eq]
        rintro rfl
        exact String.lt_irrefl _ (hk ▸ hlt)
      rw [hnone, if_pos hk.symm, hk]
      rfl
    · next hk =>
      rw [if_neg (Ne.symm hk)]
      exact ih hrest

theorem get?_foldl_insert (name : String) (l : List (String × Json)) (t : Table Json) :
    (l.foldl (fun t e => t.insert e.1 e.2) t).get? name =
      ((fieldsAt name l).getLast?.map (·.2)).or (t.get? name) := by
  induction l generalizing t with
  | nil => rfl
  | cons e rest ih =>
    obtain ⟨k, v⟩ := e
    rw [List.foldl_cons, ih, fieldsAt_cons, Table.get?_insert]
    by_cases hk : k = name
    · rw [if_pos hk, if_pos hk.symm, List.getLast?_cons]
      cases (fieldsAt name rest).getLast? <;> rfl
    · rw [if_neg hk, if_neg (Ne.symm hk)]

theorem fieldsAt_canonicalFields (name : String) (fields : List (String × Json)) :
    fieldsAt name (canonicalFields fields) = canonicalFields (fieldsAt name fields) := by
  induction fields with
  | nil => rfl
  | cons e rest ih =>
    obtain ⟨k, v⟩ := e
    rw [canonicalFields, fieldsAt_cons, fieldsAt_cons, ih]
    split
    · rw [canonicalFields]
    · rfl

def sortedFields (fields : List (String × Json)) : List (String × Json) :=
  (Table.ofList (canonicalFields fields)).entries

@[simp] theorem fieldsAt_sortedFields {name : String} {fields : List (String × Json)}
    (h : (fieldsAt name fields).length ≤ 1) :
    fieldsAt name (sortedFields fields) = canonicalFields (fieldsAt name fields) := by
  rw [sortedFields, fieldsAt_entries, Table.ofList, get?_foldl_insert, fieldsAt_canonicalFields]
  have hnames : ∀ e ∈ fieldsAt name fields, e.1 = name := fun e he => by
    simpa using (List.mem_filter.1 he).2
  rcases hfound : fieldsAt name fields with _ | ⟨⟨k, v⟩, _ | ⟨e, rest⟩⟩
  · rfl
  · rw [hfound] at hnames
    obtain rfl : k = name := hnames (k, v) List.mem_cons_self
    rfl
  · rw [hfound] at h
    simp at h

@[simp] theorem readFields_canonical {α : Type} (reader : FieldReader α)
    (fields : List (String × Json)) :
    readFields reader (Json.object fields).canonical = readNamed reader (sortedFields fields) := by
  rw [canonical]
  rfl

@[simp] theorem canonicalFields_single (k : String) (v : Json) :
    canonicalFields [(k, v)] = [(k, v.canonical)] := by
  rw [canonicalFields, canonicalFields]

theorem canonical_ne_null {v : Json} (h : v ≠ .null) : v.canonical ≠ .null := by
  cases v <;> simp_all [canonical]

theorem lookup_eq_head? (name : String) (fields : List (String × Json)) :
    fields.lookup name = (fieldsAt name fields).head?.map (·.2) := by
  induction fields with
  | nil => rfl
  | cons e rest ih =>
    obtain ⟨k, v⟩ := e
    rw [List.lookup_cons, fieldsAt_cons, ih]
    by_cases hk : k = name
    · simp [hk]
    · simp [hk, beq_false_of_ne (Ne.symm hk)]

theorem field?_canonical {name : String} {fields : List (String × Json)}
    (h : (fieldsAt name fields).length ≤ 1) :
    (Json.object fields).canonical.field? name =
      ((fieldsAt name fields).getLast?.map (·.2)).map canonical := by
  have hreverse (l : List (String × Json)) : fieldsAt name l.reverse = (fieldsAt name l).reverse :=
    List.filter_reverse
  rw [canonical, field?, ← sortedFields, lookup_eq_head?, hreverse, fieldsAt_sortedFields h,
    List.head?_reverse]
  generalize fieldsAt name fields = found at h
  rcases found with _ | ⟨⟨k, v⟩, _ | ⟨e, rest⟩⟩
  · rfl
  · rfl
  · simp at h

/-! ## Types that are read back sorted -/

class ReadSorted (α : Type) [Encode α] [Decode α] : Prop where
  decode_canonical : ∀ a : α, decode (encode a).canonical = Except.ok a := by
    intro a
    change readFields _ (Json.object _).canonical = _
    simp

export ReadSorted (decode_canonical)

attribute [simp] decode_canonical

section

variable {α : Type} [Encode α] [Decode α] [sorted : ReadSorted α]

include sorted

theorem decodeItems_canonicalItems (l : List α) :
    decodeItems (canonicalItems (l.map encode)) = Except.ok l := by
  induction l with
  | nil => rfl
  | cons a rest ih =>
    rw [List.map_cons, canonicalItems, decodeItems, decode_canonical a, ih]
    rfl

instance : ReadSorted (List α) where
  decode_canonical l := decodeItems_canonicalItems l

theorem decodeEntries_canonicalFields (l : List (String × α)) :
    decodeEntries (canonicalFields (l.map fun e => (e.1, encode e.2))) = Except.ok l := by
  induction l with
  | nil => rfl
  | cons e rest ih =>
    rw [List.map_cons, canonicalFields, decodeEntries, decode_canonical e.2, ih]
    rfl

omit [Decode α] sorted in
theorem map_fst_canonicalFields (l : List (String × α)) :
    (canonicalFields (l.map fun e => (e.1, encode e.2))).map Prod.fst = l.map Prod.fst := by
  induction l with
  | nil => rfl
  | cons e rest ih => rw [List.map_cons, canonicalFields, List.map_cons, List.map_cons, ih]

instance : ReadSorted (Table α) where
  decode_canonical t := by
    have hsorted : (canonicalFields (t.entries.map fun e => (e.1, encode e.2))).Pairwise
        fun a b => a.1 < b.1 := by
      have h := t.sorted
      rw [← List.pairwise_map (f := Prod.fst) (R := (· < ·))] at h ⊢
      rwa [map_fst_canonicalFields]
    have hentries := Table.foldl_insert_entries (t := .empty) hsorted
    change decode (Json.object _).canonical = _
    rw [canonical, Table.ofList, hentries]
    change Table.ofList <$> decodeEntries (canonicalFields _) = _
    rw [decodeEntries_canonicalFields]
    exact congrArg Except.ok (Table.ofList_entries t)

end

instance : ReadSorted Bool := ⟨fun _ => rfl⟩

instance : ReadSorted String := ⟨fun _ => rfl⟩

instance : ReadSorted UInt32 := ⟨decode_encode⟩

instance : ReadSorted UInt64 := ⟨decode_encode⟩

/-! ## Fields of a record -/

@[simp] theorem length_le_of_single {fields : List (String × Json)} {k : String}
    [single : Single fields k] : fields.length ≤ 1 := by
  rcases single.shape with rfl | ⟨v, rfl⟩ <;> simp

section

variable {α : Type} [Encode α] [Decode α] {depth : Nat} [law : ReadBack α depth]
  [sorted : ReadSorted α] (name k : String)

include law sorted

@[simp] theorem defaultedOf_canonical_fieldOf? (o : Option α) :
    defaultedOf name none (canonicalFields (fieldOf? k o)) = Except.ok o := by
  cases o with
  | none => rfl
  | some a =>
    rw [fieldOf?, canonicalFields_single]
    exact decode_eq_some (canonical_ne_null (encode_ne_null a)) (decode_canonical a)

omit law

@[simp] theorem defaultedOf_canonical_fieldList (l : List α) :
    defaultedOf name [] (canonicalFields (fieldList k l)) = Except.ok l := by
  cases l with
  | nil => rfl
  | cons a l => exact decode_canonical (a :: l)

@[simp] theorem defaultedOf_canonical_fieldTable (t : Table α) :
    defaultedOf name .empty (canonicalFields (fieldTable k t)) = Except.ok t := by
  unfold fieldTable
  split
  · next h =>
    have ht : t = .empty := Table.ext_entries (List.isEmpty_iff.1 h)
    rw [ht]
    rfl
  · exact decode_canonical t

end

@[simp] theorem defaultedOf_canonical_fieldIf (name k : String) (b : Bool) :
    defaultedOf name false (canonicalFields (fieldIf k b)) = Except.ok b := by
  cases b <;> rfl

@[simp] theorem defaultedOf_canonical_fieldText (name k s : String) :
    defaultedOf name "" (canonicalFields (fieldText k s)) = Except.ok s := by
  unfold fieldText
  split
  · next h => rw [String.isEmpty_iff.1 h]; rfl
  · rfl

end Json

open Json

/-! ## Parts of a record -/

instance : ReadSorted Place := {}

instance : ReadSorted Extent := {}

instance : ReadSorted DocParam := {}

instance : ReadSorted DocReturn := {}

instance : ReadSorted DocComment := {}

instance : ReadSorted Access := ⟨fun a => by cases a <;> rfl⟩

instance : ReadSorted ClassType := ⟨fun t => by cases t <;> rfl⟩

instance : ReadSorted MemberKind := ⟨fun k => by cases k <;> rfl⟩

instance : ReadSorted Param := {}

instance : ReadSorted Return := {}

instance : ReadSorted Member := {}

instance : ReadSorted Property := {}

instance : ReadSorted EventInfo := {}

/-! ## Build information -/

instance : ReadSorted MarkerLevel := ⟨fun l => by cases l <;> rfl⟩

instance : ReadSorted Marker := {}

instance : ReadSorted Needs := {}

instance : ReadSorted BuildInfo := {}

/-! ## Class records -/

namespace ClassRecord

theorem decode_canonical_unversioned (r : ClassRecord) (v : Json) :
    (decode (Json.object (("version", v) :: r.unversioned)).canonical :
      Except DecodeError ClassRecord) =
      (fun x => { r with version := x }) <$> decode v.canonical := by
  change readFields _ (Json.object (("version", v) :: (_ ++ _))).canonical = _
  cases h : (decode v.canonical : Except DecodeError Binary64) <;> simp [h]

theorem canonical_encode_version (r : ClassRecord) :
    (encode r.version).canonical = encode r.version := by
  simp only [encode]
  split <;> rw [canonical]

theorem field?_version (r : ClassRecord) :
    (encode r).canonical.field? "version" = some (encode r.version) := by
  have hfields : fieldsAt "version" (("version", encode r.version) :: r.unversioned) =
      [("version", encode r.version)] := by
    change fieldsAt "version" (("version", _) :: (_ ++ _)) = _
    simp
  rw [encode_eq, field?_canonical (by rw [hfields]; rfl), hfields]
  exact congrArg some r.canonical_encode_version

section

variable {r : ClassRecord} (h : r.version.isFinite = true)

include h

theorem decode_encode_version : decode (encode r.version) = Except.ok r.version := by
  simp only [encode, h, ↓reduceIte]
  rfl

theorem decode_encode_finite : decode (encode r) = Except.ok r := by
  rw [encode_eq, decode_unversioned, decode_encode_version h]
  rfl

theorem decode_canonical_finite : decode (encode r).canonical = Except.ok r := by
  rw [encode_eq, decode_canonical_unversioned, canonical_encode_version, decode_encode_version h]
  rfl

end

/-! ## The form version -/

theorem isFinite_formVersion : formVersion.isFinite = true := by decide +kernel

theorem reread_formVersion (room : Nat) :
    reread room (encode formVersion) = some (encode formVersion) := by
  have hencode : encode formVersion = .float formVersion := if_pos isFinite_formVersion
  have hread : rereadNumber (floatText formVersion) = some (.float formVersion) := by decide +kernel
  rw [hencode, reread, hread]

theorem reread_encode {r : ClassRecord} (h : r.version = formVersion) {room : Nat}
    (hroom : 5 ≤ room) : reread (room + 1) (encode r) = some (encode r) := by
  rw [encode_eq, reread, rereadFields, h, reread_formVersion, r.rereadFields_unversioned hroom]
  rfl

end ClassRecord

end ClassForge
