import ClassForge.Bundle.Package
import ClassForge.Proofs.Symbol
import Mathlib.Data.List.Perm.Basic

/-!
# The division of classes into packages

Every class of a load order goes to one package: that of the first part that claims it, or else that of
the part that is loaded first. Statements about lists that may repeat an element speak of positions, so
that two occurrences of a class, or two equal configurations, are told apart.
-/

namespace ClassForge

/-! ## Elements picked by position -/

section Picked

variable {α : Type} {a : α} {l picked : List α} {P Q : Nat → Prop} {positions : List Nat}

/-- The elements of a list at the positions with a property, in the order of the list. -/
structure Picked (l : List α) (P : Nat → Prop) (positions : List Nat) (picked : List α) : Prop where
  ascending : positions.Pairwise (· < ·)
  mem_iff : ∀ k, k ∈ positions ↔ P k
  picked_eq : picked = positions.filterMap (l[·]?)

namespace Picked

theorem shift (h : Picked l (fun k => P (k + 1)) positions picked) :
    (positions.map (· + 1)).Pairwise (· < ·) ∧ (∀ k, k ∈ positions.map (· + 1) ↔ k ≠ 0 ∧ P k) ∧
      picked = (positions.map (· + 1)).filterMap ((a :: l)[·]?) := by
  refine ⟨?_, fun k => ?_, ?_⟩
  · rw [List.pairwise_map]
    exact h.ascending.imp fun hlt => Nat.add_lt_add_right hlt 1
  · cases k with
    | zero => simp
    | succ k => simpa using h.mem_iff k
  · simpa [List.filterMap_map, Function.comp_def] using h.picked_eq

theorem cons (h : Picked l (fun k => P (k + 1)) positions picked) (h0 : P 0) :
    Picked (a :: l) P (0 :: positions.map (· + 1)) (a :: picked) := by
  obtain ⟨hasc, hmem, heq⟩ := h.shift (a := a)
  refine ⟨List.pairwise_cons.2 ⟨by simp, hasc⟩, fun k => ?_, by simpa using heq⟩
  rw [List.mem_cons, hmem]
  by_cases hk : k = 0
  · simp [hk, h0]
  · simp [hk]

theorem skip (h : Picked l (fun k => P (k + 1)) positions picked) (h0 : ¬ P 0) :
    Picked (a :: l) P (positions.map (· + 1)) picked := by
  obtain ⟨hasc, hmem, heq⟩ := h.shift (a := a)
  refine ⟨hasc, fun k => ?_, heq⟩
  rw [hmem]
  by_cases hk : k = 0
  · simp [hk, h0]
  · simp [hk]

theorem congr (h : Picked l P positions picked) (hP : ∀ k, P k ↔ Q k) :
    Picked l Q positions picked :=
  ⟨h.ascending, fun k => (h.mem_iff k).trans (hP k), h.picked_eq⟩

end Picked

theorem exists_picked_filter (p : α → Bool) (l : List α) :
    ∃ positions, Picked l (fun k => ∃ a, l[k]? = some a ∧ p a = true) positions (l.filter p) := by
  induction l with
  | nil => exact ⟨[], .nil, by simp, rfl⟩
  | cons a l ih =>
    obtain ⟨positions, h⟩ := ih
    by_cases ha : p a = true
    · rw [List.filter_cons_of_pos ha]
      exact ⟨_, h.cons (P := fun k => ∃ b, (a :: l)[k]? = some b ∧ p b = true) (by simpa using ha)⟩
    · rw [List.filter_cons_of_neg ha]
      exact ⟨_, h.skip (P := fun k => ∃ b, (a :: l)[k]? = some b ∧ p b = true) (by simpa using ha)⟩

end Picked

/-! ## Patterns -/

theorem Text.startsWith_iff {start s : String} :
    startsWith start s = true ↔ ∃ rest, s = start ++ rest := by
  rw [startsWith, List.isPrefixOf_iff_prefix]
  constructor
  · rintro ⟨rest, h⟩
    exact ⟨String.ofList rest, by rw [← String.toList_inj]; simp [h]⟩
  · rintro ⟨rest, rfl⟩
    simp

inductive StandsFor : (pattern classname : String) → Prop where
  | star (start rest : String) : StandsFor (start ++ "*") (start ++ rest)
  | itself {pattern : String} (h : ∀ start, pattern ≠ start ++ "*") : StandsFor pattern pattern
  | below {pattern : String} (h : ∀ start, pattern ≠ start ++ "*") (rest : String) :
    StandsFor pattern (pattern ++ "." ++ rest)

theorem matchesPattern_star (start classname : String) :
    matchesPattern (start ++ "*") classname = Text.startsWith start classname := by
  have hstar : Text.dropTail? ['*'] (start ++ "*").toList = some start.toList :=
    Text.dropTail?_eq_some.2 (by simp)
  simp only [matchesPattern, hstar, Text.startsWith]

theorem matchesPattern_plain {pattern : String} (h : ∀ start, pattern ≠ start ++ "*")
    (classname : String) : matchesPattern pattern classname =
      (decide (classname = pattern) || Text.startsWith (pattern ++ ".") classname) := by
  cases hstar : Text.dropTail? ['*'] pattern.toList with
  | some start =>
    refine absurd ?_ (h (String.ofList start))
    rw [← String.toList_inj, Text.dropTail?_eq_some.1 hstar]
    simp
  | none => simp only [matchesPattern, hstar]

theorem matchesPattern_iff {pattern classname : String} :
    matchesPattern pattern classname = true ↔ StandsFor pattern classname := by
  constructor
  · intro h
    by_cases hstar : ∃ start, pattern = start ++ "*"
    · obtain ⟨start, rfl⟩ := hstar
      rw [matchesPattern_star, Text.startsWith_iff] at h
      obtain ⟨rest, rfl⟩ := h
      exact .star start rest
    · rw [not_exists] at hstar
      rw [matchesPattern_plain hstar, Bool.or_eq_true, decide_eq_true_eq, Text.startsWith_iff] at h
      obtain rfl | ⟨rest, rfl⟩ := h
      · exact .itself hstar
      · exact .below hstar rest
  · intro h
    cases h with
    | star start rest => exact matchesPattern_star start _ ▸ Text.startsWith_iff.2 ⟨rest, rfl⟩
    | itself h => simp [matchesPattern_plain h]
    | below h rest =>
      rw [matchesPattern_plain h, Bool.or_eq_true, Text.startsWith_iff]
      exact .inr ⟨rest, rfl⟩

namespace Part

variable {configs counted : List PartConfig} {p : PartConfig} {classname : String}

/-! ## Parts -/

def Claims (p : PartConfig) (classname : String) : Prop := ∃ pattern ∈ p.claims, StandsFor pattern classname

theorem claims_iff : claims p classname = true ↔ Claims p classname := by
  simp only [claims, Claims, List.any_eq_true, matchesPattern_iff]

/-- The configuration at a position counts: its name is none of those given, and no earlier one has it. -/
def CountsAt (taken : List String) (configs : List PartConfig) (k : Nat) : Prop :=
  ∃ p, configs[k]? = some p ∧ p.name ∉ taken ∧ ∀ q ∈ configs.take k, q.name ≠ p.name

theorem exists_picked_firstOfEach (taken : List String) (configs : List PartConfig) :
    ∃ positions, Picked configs (CountsAt taken configs) positions (firstOfEach taken configs) := by
  induction configs generalizing taken with
  | nil => exact ⟨[], .nil, by simp [CountsAt], rfl⟩
  | cons p rest ih =>
    -- The first configuration bars its name for the rest either way: as one that is taken, or as the name
    -- of an earlier configuration.
    rw [firstOfEach]
    split
    next hp =>
      obtain ⟨positions, h⟩ := ih taken
      have hp : p.name ∈ taken := by simpa using hp
      refine ⟨_, (h.congr fun k => ?_).skip (by simp [CountsAt, hp])⟩
      simp only [CountsAt, List.getElem?_cons_succ, List.take_succ_cons, List.forall_mem_cons]
      grind
    next hp =>
      obtain ⟨positions, h⟩ := ih (p.name :: taken)
      have hp : p.name ∉ taken := by simpa using hp
      refine ⟨_, (h.congr fun k => ?_).cons (by simp [CountsAt, hp])⟩
      simp only [CountsAt, List.getElem?_cons_succ, List.take_succ_cons, List.mem_cons]
      grind

inductive GoesTo (counted : List PartConfig) (classname : String) : Nat → Prop where
  | claimed {front back : List PartConfig} {p : PartConfig} (split : counted = front ++ p :: back)
      (claims : Claims p classname) (first : ∀ q ∈ front, ¬ Claims q classname) :
    GoesTo counted classname (front.length + 1)
  | unclaimed (none : ∀ p ∈ counted, ¬ Claims p classname) : GoesTo counted classname 0

theorem findIdx?_claims_eq_none :
    counted.findIdx? (claims · classname) = none ↔ ∀ p ∈ counted, ¬ Claims p classname := by
  simp only [List.findIdx?_eq_none_iff, ← claims_iff, Bool.not_eq_true]

theorem goesTo_packageOf (counted : List PartConfig) (classname : String) :
    GoesTo counted classname (packageOf counted classname) := by
  rw [packageOf]
  cases hidx : counted.findIdx? (claims · classname) with
  | none => exact .unclaimed (findIdx?_claims_eq_none.1 hidx)
  | some i =>
    obtain ⟨hi, hclaims, hfirst⟩ := List.findIdx?_eq_some_iff_getElem.1 hidx
    have hsplit : counted = counted.take i ++ counted[i] :: counted.drop (i + 1) := by simp
    have hlen : (counted.take i).length = i := List.length_take_of_le hi.le
    have hgoes : GoesTo counted classname ((counted.take i).length + 1) := by
      refine .claimed hsplit (claims_iff.1 hclaims) fun q hq hclaims => ?_
      obtain ⟨j, hj, rfl⟩ := List.mem_take_iff_getElem.1 hq
      exact hfirst j (by omega) (claims_iff.2 hclaims)
    rwa [hlen] at hgoes

theorem GoesTo.packageOf_eq {id : Nat} (h : GoesTo counted classname id) :
    packageOf counted classname = id := by
  cases h with
  | @claimed front back p hsplit hclaims hfirst =>
    have hfront := findIdx?_claims_eq_none.2 hfirst
    simp [packageOf, hsplit, List.findIdx?_append, hfront, List.findIdx?_cons, claims_iff.2 hclaims]
  | unclaimed hnone => simp [packageOf, findIdx?_claims_eq_none.2 hnone]

theorem packageOf_eq_iff {id : Nat} : packageOf counted classname = id ↔ GoesTo counted classname id :=
  ⟨fun h => h ▸ goesTo_packageOf counted classname, GoesTo.packageOf_eq⟩

/-! ## The division -/

/-- A load order is divided among the parts that count and the one that is loaded first. -/
structure Division (order : List String) (counted : List PartConfig) (parts : List Part)
    (packages : List Package) : Prop where
  parts_eq : parts = (bootName :: counted.map PartConfig.name).mapIdx fun i name =>
    { name, packages := [i] }
  ids_eq : packages.map Package.id = List.range (counted.length + 1)
  sublist : ∀ p ∈ packages, p.classes.Sublist order
  places : ∃ places : List (List Nat), places.flatten.Perm (List.range order.length) ∧
    List.Forall₂ (fun (p : Package) positions => Picked order
      (fun k => ∃ classname, order[k]? = some classname ∧ GoesTo counted classname p.id)
      positions p.classes) packages places

theorem packageOf_lt (counted : List PartConfig) (classname : String) :
    packageOf counted classname < counted.length + 1 := by
  have h := goesTo_packageOf counted classname
  generalize packageOf counted classname = id at h
  cases h with
  | claimed hsplit _ _ => simp [hsplit]
  | unclaimed _ => exact Nat.succ_pos _

variable {order : List String} {place : Nat → List Nat}

theorem partition_parts (order : List String) (configs : List PartConfig) :
    (partition order configs).1 =
      (bootName :: (effective configs).map PartConfig.name).mapIdx fun i name =>
        { name, packages := [i] } := by
  simp only [partition, List.mapIdx_cons]
  congr 1
  refine List.ext_getElem? fun i => ?_
  simp only [List.getElem?_mapIdx, List.getElem?_map, Option.map_map, Function.comp_def]

theorem flatten_places_perm (hasc : ∀ id, (place id).Pairwise (· < ·))
    (hmem : ∀ id k, k ∈ place id ↔ ∃ classname, order[k]? = some classname ∧
      packageOf counted classname = id) :
    (((List.range (counted.length + 1)).map place).flatten).Perm (List.range order.length) := by
  have hdisjoint : ∀ i j, i ≠ j → (place i).Disjoint (place j) := by
    intro i j hne k hi hj
    obtain ⟨c, hc, rfl⟩ := (hmem i k).1 hi
    obtain ⟨c', hc', rfl⟩ := (hmem j k).1 hj
    rw [Option.some.inj (hc.symm.trans hc')] at hne
    exact hne rfl
  have hnodup : (((List.range (counted.length + 1)).map place).flatten).Nodup := by
    rw [List.nodup_flatten, List.pairwise_map]
    refine ⟨?_, List.nodup_range.imp (hdisjoint _ _)⟩
    simp only [List.mem_map]
    rintro _ ⟨id, -, rfl⟩
    exact (hasc id).imp Nat.ne_of_lt
  refine (List.perm_ext_iff_of_nodup hnodup List.nodup_range).2 fun k => ?_
  simp only [List.mem_flatten, List.mem_map, List.mem_range, exists_exists_and_eq_and, hmem]
  constructor
  · rintro ⟨_, -, c, hc, -⟩
    exact (List.getElem?_eq_some_iff.1 hc).1
  · intro hk
    exact ⟨_, packageOf_lt counted order[k], order[k], List.getElem?_eq_getElem hk, rfl⟩

theorem partition_divides (order : List String) (configs : List PartConfig) :
    ∃ positions counted, Picked configs (CountsAt [bootName] configs) positions counted ∧
      Division order counted (partition order configs).1 (partition order configs).2 := by
  obtain ⟨positions, hcounted⟩ := exists_picked_firstOfEach [bootName] configs
  refine ⟨positions, effective configs, hcounted, partition_parts order configs, ?_, ?_, ?_⟩
  · simp [partition, Function.comp_def]
  · simp [partition]
  · choose place hplace using fun id =>
      exists_picked_filter (fun c => decide (packageOf (effective configs) c = id)) order
    refine ⟨(List.range ((effective configs).length + 1)).map place, ?_, ?_⟩
    · refine flatten_places_perm (fun id => (hplace id).ascending) fun id k => ?_
      simp [(hplace id).mem_iff]
    · simp only [partition, List.forall₂_map_left_iff, List.forall₂_map_right_iff, List.forall₂_same]
      intro id _
      refine (hplace id).congr fun k => ?_
      simp [packageOf_eq_iff]

end Part

end ClassForge
