import ClassForge.ClassRecord.Codec
import ClassForge.Proofs.Json.Text

/-!
# Reading back encoded values

A value whose numbers are whole and in range is read back from its text unchanged. `ReadBack` collects
the types whose values are encoded so and decoded again; records are read field by field.
-/

namespace ClassForge.Json

open Reader

/-! ## Values that are read back unchanged -/

mutual

/-- A value without floating-point numbers, with whole numbers in range and with containers nested
at most `room` levels deep. -/
def Fits : (room : Nat) → Json → Prop
  | _, .null => True
  | _, .bool _ => True
  | _, .int n => InRange n
  | _, .float _ => False
  | _, .string _ => True
  | 0, .array _ => False
  | room + 1, .array items => FitsItems room items
  | 0, .object _ => False
  | room + 1, .object fields => FitsFields room fields

def FitsItems (room : Nat) : List Json → Prop
  | [] => True
  | v :: rest => Fits room v ∧ FitsItems room rest

def FitsFields (room : Nat) : List (String × Json) → Prop
  | [] => True
  | (_, v) :: rest => Fits room v ∧ FitsFields room rest

end

theorem rereadNumber_int {n : Int} (h : InRange n) : rereadNumber (toString n) = some (.int n) := by
  have hread := scalar_int h stops_nil
  rw [List.append_nil] at hread
  rw [rereadNumber, hread]
  rfl

mutual

theorem reread_of_fits : (room : Nat) → (v : Json) → Fits room v → reread room v = some v
  | _, .null, _ => by rw [reread]
  | _, .bool _, _ => by rw [reread]
  | _, .int _, h => by rw [reread, rereadNumber_int (by simpa only [Fits] using h)]
  | _, .float _, h => by simp only [Fits] at h
  | _, .string _, _ => by rw [reread]
  | 0, .array _, h => by simp only [Fits] at h
  | room + 1, .array items, h => by
    rw [Fits] at h
    rw [reread, rereadItems_of_fits room items h]
    rfl
  | 0, .object _, h => by simp only [Fits] at h
  | room + 1, .object fields, h => by
    rw [Fits] at h
    rw [reread, rereadFields_of_fits room fields h]
    rfl

theorem rereadItems_of_fits (room : Nat) :
    (l : List Json) → FitsItems room l → rereadItems room l = some l
  | [], _ => by rw [rereadItems]
  | v :: rest, h => by
    rw [FitsItems] at h
    rw [rereadItems, reread_of_fits room v h.1, rereadItems_of_fits room rest h.2]
    rfl

theorem rereadFields_of_fits (room : Nat) :
    (l : List (String × Json)) → FitsFields room l → rereadFields room l = some l
  | [], _ => by rw [rereadFields]
  | (k, v) :: rest, h => by
    rw [FitsFields] at h
    rw [rereadFields, reread_of_fits room v h.1, rereadFields_of_fits room rest h.2]
    rfl

end

theorem fitsItems_iff {room : Nat} {l : List Json} : FitsItems room l ↔ ∀ v ∈ l, Fits room v := by
  induction l with
  | nil => simp [FitsItems]
  | cons v rest ih => simp [FitsItems, ih]

theorem fitsFields_iff {room : Nat} {l : List (String × Json)} :
    FitsFields room l ↔ ∀ e ∈ l, Fits room e.2 := by
  induction l with
  | nil => simp [FitsFields]
  | cons e rest ih => simp [FitsFields, ih]

theorem Fits.mono {n m : Nat} (v : Json) (h : Fits n v) (hle : n ≤ m) : Fits m v := by
  induction v using induction_parts generalizing n m with
  | null | bool | string => simp only [Fits]
  | int => simpa only [Fits] using h
  | float => simp only [Fits] at h
  | array items ih =>
    cases n <;> cases m <;> simp only [Fits, Nat.add_le_add_iff_right] at h hle ⊢
    · omega
    · exact fitsItems_iff.2 fun v hv => ih v hv (fitsItems_iff.1 h v hv) hle
  | object fields ih =>
    cases n <;> cases m <;> simp only [Fits, Nat.add_le_add_iff_right] at h hle ⊢
    · omega
    · exact fitsFields_iff.2 fun e he => ih e he (fitsFields_iff.1 h e he) hle

theorem FitsFields.mono {n m : Nat} {l : List (String × Json)} (h : FitsFields n l) (hle : n ≤ m) :
    FitsFields m l :=
  fitsFields_iff.2 fun e he => (fitsFields_iff.1 h e he).mono e.2 hle

/-! ## Types that are read back -/

/-- Types whose values are decoded from their form, which is never null and fits `depth` levels. -/
class ReadBack (α : Type) [Encode α] [Decode α] (depth : outParam Nat) : Prop where
  decode_encode : ∀ a : α, decode (encode a) = Except.ok a := by
    intro a
    change readFields _ (.object _) = _
    simp
  fits_encode : ∀ a : α, Fits depth (encode a) := by
    intro a
    change FitsFields _ _
    simp [FitsFields]
  encode_ne_null : ∀ a : α, encode a ≠ .null := by intro _ h; cases h

export ReadBack (decode_encode fits_encode encode_ne_null)

attribute [simp] decode_encode

section

variable {α : Type} [Encode α] [Decode α] {depth : Nat} [ReadBack α depth]

@[simp] theorem fits_encode_of_le {room : Nat} (h : depth ≤ room) (a : α) : Fits room (encode a) :=
  (fits_encode a).mono (encode a) h

theorem parse?_pretty_encode (h : depth ≤ 127) (a : α) :
    parse? (encode a).pretty = some (encode a) := by
  rw [parse?_pretty, reread_of_fits 127 _ (fits_encode_of_le h a)]

end

/-! ## Lists and tables -/

section

variable {α : Type} [Encode α] [Decode α] {depth : Nat} [law : ReadBack α depth]

include law

theorem decodeItems_map_encode (l : List α) : decodeItems (l.map encode) = Except.ok l := by
  induction l with
  | nil => rfl
  | cons a rest ih =>
    rw [List.map_cons, decodeItems, decode_encode a, ih]
    rfl

instance : ReadBack (List α) (depth + 1) where
  decode_encode l := decodeItems_map_encode l
  fits_encode l := fitsItems_iff.2 (List.forall_mem_map.2 fun a _ => fits_encode a)

theorem decodeEntries_map_encode (l : List (String × α)) :
    decodeEntries (l.map fun e => (e.1, encode e.2)) = Except.ok l := by
  induction l with
  | nil => rfl
  | cons e rest ih =>
    rw [List.map_cons, decodeEntries, decode_encode e.2, ih]
    rfl

instance : ReadBack (Table α) (depth + 1) where
  decode_encode t := by
    have h := decodeEntries_map_encode t.entries
    simp only [encode, decode, h]
    exact congrArg Except.ok (Table.ofList_entries t)
  fits_encode t := fitsFields_iff.2 (List.forall_mem_map.2 fun e _ => fits_encode e.2)

end

/-! ## Values without parts -/

instance : ReadBack Bool 0 where
  decode_encode _ := rfl
  fits_encode _ := by rw [encode]; trivial

instance : ReadBack String 0 where
  decode_encode _ := rfl
  fits_encode _ := trivial

instance : ReadBack UInt32 0 where
  decode_encode n := by
    have hn : 0 ≤ (n.toNat : Int) ∧ (n.toNat : Int) < UInt32.size :=
      ⟨Int.natCast_nonneg _, Int.ofNat_lt.2 n.toNat_lt_size⟩
    simp only [encode, decode, if_pos hn]
    simp
  fits_encode n := by
    have hn : (n.toNat : Int) < UInt32.size := Int.ofNat_lt.2 n.toNat_lt_size
    have hsize : (UInt32.size : Int) ≤ UInt64.size := by decide
    exact ⟨by omega, by omega⟩

instance : ReadBack UInt64 0 where
  decode_encode n := by
    have hn : 0 ≤ (n.toNat : Int) ∧ (n.toNat : Int) < UInt64.size :=
      ⟨Int.natCast_nonneg _, Int.ofNat_lt.2 n.toNat_lt_size⟩
    simp only [encode, decode, if_pos hn]
    simp
  fits_encode n := by
    have hn : (n.toNat : Int) < UInt64.size := Int.ofNat_lt.2 n.toNat_lt_size
    exact ⟨by omega, hn⟩

/-! ## Records -/

def fieldsAt (name : String) (fields : List (String × Json)) : List (String × Json) :=
  fields.filter (·.1 == name)

def single? (name : String) : List (String × Json) → Except DecodeError (Option Json)
  | [] => .ok none
  | [(_, v)] => .ok (some v)
  | _ => .error (.duplicateField name)

variable {α β : Type}

def requiredOf [Decode α] (name : String) (found : List (String × Json)) :
    Except DecodeError α :=
  match single? name found with
  | .ok (some v) => decode v
  | .ok none => .error (.missingField name)
  | .error e => .error e

def defaultedOf [Decode α] (name : String) (default : α) (found : List (String × Json)) :
    Except DecodeError α :=
  match single? name found with
  | .ok (some v) => decode v
  | .ok none => .ok default
  | .error e => .error e

def readNamed (reader : FieldReader α) (fields : List (String × Json)) : Except DecodeError α :=
  Prod.fst <$> reader.run (.named fields)

section

variable (name : String) (fields : List (String × Json))

@[simp] theorem readFields_object (reader : FieldReader α) :
    readFields reader (.object fields) = readNamed reader fields := rfl

@[simp] theorem readNamed_pure (a : α) : readNamed (pure a) fields = .ok a := rfl

theorem next?_run :
    (next? name).run (.named fields) =
      (fun v => (v, Source.named fields)) <$> single? name (fieldsAt name fields) := by
  unfold fieldsAt
  rcases h : fields.filter (·.1 == name) with _ | ⟨e, _ | ⟨f, rest⟩⟩ <;>
    simp only [next?, StateT.run_bind, StateT.run_get, pure_bind, h] <;> rfl

theorem run_lift_bind (x : Except DecodeError α) (next : α → FieldReader β) :
    (Prod.fst <$> ((liftM x : FieldReader α).run (.named fields) >>= fun p => (next p.1).run p.2)) =
      x >>= fun a => readNamed (next a) fields := by
  cases x <;> rfl

@[simp] theorem readNamed_required [Decode α] (next : α → FieldReader β) :
    readNamed (required name >>= next) fields =
      requiredOf name (fieldsAt name fields) >>= fun a => readNamed (next a) fields := by
  simp only [readNamed, required, StateT.run_bind, next?_run, requiredOf]
  rcases single? name (fieldsAt name fields) with e | _ | v
  · rfl
  · rfl
  · exact run_lift_bind fields (decode v) next

@[simp] theorem readNamed_defaulted [Decode α] (default : α) (next : α → FieldReader β) :
    readNamed (defaulted name default >>= next) fields =
      defaultedOf name default (fieldsAt name fields) >>= fun a => readNamed (next a) fields := by
  simp only [readNamed, defaulted, StateT.run_bind, next?_run, defaultedOf]
  rcases single? name (fieldsAt name fields) with e | _ | v
  · rfl
  · rfl
  · exact run_lift_bind fields (decode v) next

@[simp] theorem readNamed_map_required [Decode α] (f : α → β) :
    readNamed (f <$> required name) fields = f <$> requiredOf name (fieldsAt name fields) := by
  rw [← bind_pure_comp, readNamed_required]
  rfl

@[simp] theorem readNamed_map_defaulted [Decode α] (default : α) (f : α → β) :
    readNamed (f <$> defaulted name default) fields =
      f <$> defaultedOf name default (fieldsAt name fields) := by
  rw [← bind_pure_comp, readNamed_defaulted]
  rfl

end

@[simp] theorem ok_bind (a : α) (f : α → Except DecodeError β) :
    Except.ok a >>= f = f a := rfl

@[simp] theorem error_bind (e : DecodeError) (f : α → Except DecodeError β) :
    (Except.error e : Except DecodeError α) >>= f = Except.error e := rfl

@[simp] theorem map_ok (f : α → β) (a : α) :
    f <$> (Except.ok a : Except DecodeError α) = Except.ok (f a) := rfl

/-! ## Fields of a record -/

@[simp] theorem fieldsAt_append (name : String) (a b : List (String × Json)) :
    fieldsAt name (a ++ b) = fieldsAt name a ++ fieldsAt name b := by
  simp [fieldsAt]

@[simp] theorem fieldsAt_nil (name : String) : fieldsAt name [] = [] := rfl

@[simp] theorem fieldsAt_cons (name k : String) (v : Json) (rest : List (String × Json)) :
    fieldsAt name ((k, v) :: rest) =
      if k = name then (k, v) :: fieldsAt name rest else fieldsAt name rest := by
  simp only [fieldsAt, List.filter_cons, beq_iff_eq]

/-- Fields with at most one entry, which has the name `k`. -/
class Single (fields : List (String × Json)) (k : outParam String) : Prop where
  shape : fields = [] ∨ ∃ v, fields = [(k, v)]

section

variable [Encode α] (k : String)

instance (o : Option α) : Single (fieldOf? k o) k :=
  ⟨by cases o <;> simp [fieldOf?]⟩

instance (b : Bool) : Single (fieldIf k b) k :=
  ⟨by cases b <;> simp [fieldIf]⟩

instance (l : List α) : Single (fieldList k l) k :=
  ⟨by cases l <;> simp [fieldList]⟩

instance (t : Table α) : Single (fieldTable k t) k :=
  ⟨by unfold fieldTable; split <;> simp⟩

instance (s : String) : Single (fieldText k s) k :=
  ⟨by unfold fieldText; split <;> simp⟩

end

@[simp] theorem fieldsAt_of_single (name : String) (fields : List (String × Json)) {k : String}
    [single : Single fields k] : fieldsAt name fields = if k = name then fields else [] := by
  rcases single.shape with rfl | ⟨v, rfl⟩ <;> simp

@[simp] theorem requiredOf_single [Decode α] (name k : String) (v : Json) :
    (requiredOf name [(k, v)] : Except DecodeError α) = decode v := by
  simp only [requiredOf, single?]

@[simp] theorem defaultedOf_single [Decode α] (name k : String) (d : α) (v : Json) :
    defaultedOf name d [(k, v)] = decode v := by
  simp only [defaultedOf, single?]

theorem decode_eq_some [Decode α] {v : Json} {a : α} (hv : v ≠ .null) (ha : decode v = Except.ok a) :
    (decode v : Except DecodeError (Option α)) = Except.ok (some a) := by
  cases v with
  | null => exact absurd rfl hv
  | _ => exact congrArg (Except.map some) ha

section

variable [Encode α] [Decode α] {depth : Nat} [law : ReadBack α depth] (name k : String)

include law

@[simp] theorem defaultedOf_fieldOf? (o : Option α) :
    defaultedOf name none (fieldOf? k o) = Except.ok o := by
  cases o with
  | none => rfl
  | some a => exact decode_eq_some (encode_ne_null a) (decode_encode a)

@[simp] theorem defaultedOf_fieldList (l : List α) :
    defaultedOf name [] (fieldList k l) = Except.ok l := by
  cases l with
  | nil => rfl
  | cons a l => exact decode_encode (a :: l)

@[simp] theorem defaultedOf_fieldTable (t : Table α) :
    defaultedOf name .empty (fieldTable k t) = Except.ok t := by
  unfold fieldTable
  split
  · next h =>
    have ht : t = .empty := Table.ext_entries (List.isEmpty_iff.1 h)
    rw [ht]
    rfl
  · exact decode_encode t

end

@[simp] theorem defaultedOf_fieldIf (name k : String) (b : Bool) :
    defaultedOf name false (fieldIf k b) = Except.ok b := by
  cases b <;> rfl

@[simp] theorem defaultedOf_fieldText (name k s : String) :
    defaultedOf name "" (fieldText k s) = Except.ok s := by
  unfold fieldText
  split
  · next h => rw [String.isEmpty_iff.1 h]; rfl
  · rfl

/-! ## Fields that fit -/

@[simp] theorem fitsFields_append {room : Nat} {a b : List (String × Json)} :
    FitsFields room (a ++ b) ↔ FitsFields room a ∧ FitsFields room b := by
  simp only [fitsFields_iff, List.forall_mem_append]

section

variable [Encode α] [Decode α] {depth room : Nat} [ReadBack α depth] (k : String)

@[simp] theorem fits_fieldOf? (h : depth ≤ room) (o : Option α) : FitsFields room (fieldOf? k o) := by
  cases o with
  | none => rw [fieldOf?, FitsFields]; trivial
  | some a => exact ⟨fits_encode_of_le h a, trivial⟩

@[simp] theorem fits_fieldList (h : depth + 1 ≤ room) (l : List α) :
    FitsFields room (fieldList k l) := by
  unfold fieldList
  split
  · rw [FitsFields]; trivial
  · exact ⟨fits_encode_of_le h l, trivial⟩

@[simp] theorem fits_fieldTable (h : depth + 1 ≤ room) (t : Table α) :
    FitsFields room (fieldTable k t) := by
  unfold fieldTable
  split
  · rw [FitsFields]; trivial
  · exact ⟨fits_encode_of_le h t, trivial⟩

end

@[simp] theorem fits_fieldIf (room : Nat) (k : String) (b : Bool) : FitsFields room (fieldIf k b) := by
  cases b
  · rw [fieldIf]; trivial
  · simp [fieldIf, FitsFields, Fits]

@[simp] theorem fits_fieldText (room : Nat) (k s : String) : FitsFields room (fieldText k s) := by
  unfold fieldText
  split
  · rw [FitsFields]; trivial
  · simp [FitsFields, Fits]

end ClassForge.Json
