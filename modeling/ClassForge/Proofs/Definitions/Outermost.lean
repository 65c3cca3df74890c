import Mathlib.Data.List.Sort
import ClassForge.ClassRecord.Extract

/-!
# The first definition wins

A program is a tree, and each node in it has an address: the numbers of the parts that lead to it.
Addresses in lexicographic order are nodes in the order of the text. The calls of defining functions
that are not inside one another decide what a program yields: the first one gives the record or the
error, and each further one a warning.
-/

namespace ClassForge

namespace Script.Node

def parts : Node → List Node
  | .name .. | .this .. | .string .. | .number .. | .boolean .. | .null .. | .hole .. => []
  | .member _ o _ | .paren _ o | .spread _ o | .unary _ _ o => [o]
  | .call _ o parts | .index _ o parts | .new _ o parts => o :: parts
  | .property _ _ computed value => computed ++ [value]
  | .array _ parts | .object _ parts | .param _ _ parts | .rest _ parts | .sequence _ parts
  | .arrowHead _ parts | .compound _ parts => parts
  | .func _ params body => params ++ body
  | .binary _ _ l r | .assign _ l r | .shorthandDefault _ l r => [l, r]

theorem sizeOf_lt_of_mem_parts {n p : Node} (h : p ∈ n.parts) : sizeOf p < sizeOf n := by
  cases n with
  | name | this | string | number | boolean | null | hole => cases h
  | member | paren | spread | unary =>
    cases List.mem_singleton.1 h
    simp only [member.sizeOf_spec, paren.sizeOf_spec, spread.sizeOf_spec, unary.sizeOf_spec]
    omega
  | binary | assign | shorthandDefault =>
    simp only [parts, List.mem_cons, List.not_mem_nil, or_false] at h
    obtain rfl | rfl := h <;>
      simp only [binary.sizeOf_spec, assign.sizeOf_spec, shorthandDefault.sizeOf_spec] <;> omega
  | call | index | new =>
    simp only [call.sizeOf_spec, index.sizeOf_spec, new.sizeOf_spec]
    obtain rfl | h := List.mem_cons.1 h
    · omega
    · have := List.sizeOf_lt_of_mem h
      omega
  | array | object | param | rest | sequence | arrowHead | compound =>
    have := List.sizeOf_lt_of_mem h
    simp only [array.sizeOf_spec, object.sizeOf_spec, param.sizeOf_spec, rest.sizeOf_spec,
      sequence.sizeOf_spec, arrowHead.sizeOf_spec, compound.sizeOf_spec, parts] at this ⊢
    omega
  | property _ _ computed value =>
    simp only [property.sizeOf_spec]
    obtain h | h := List.mem_append.1 h
    · have := List.sizeOf_lt_of_mem h
      omega
    · cases List.mem_singleton.1 h
      omega
  | func _ params body =>
    simp only [func.sizeOf_spec]
    obtain h | h := List.mem_append.1 h <;>
      have := List.sizeOf_lt_of_mem h <;> omega

theorem induction_parts {P : Node → Prop} (step : ∀ n, (∀ p ∈ n.parts, P p) → P n) (n : Node) : P n :=
  step n fun p _ => induction_parts step p
termination_by sizeOf n
decreasing_by exact sizeOf_lt_of_mem_parts ‹_›

def at? (n : Node) : List Nat → Option Node
  | [] => some n
  | i :: more => n.parts[i]?.bind (at? · more)

/-- The node at an address in nodes that are numbered from `k` on. -/
def atFrom? (k : Nat) (nodes : List Node) : List Nat → Option Node
  | [] => none
  | i :: more => if k ≤ i then nodes[i - k]?.bind (at? · more) else none

theorem at?_cons (n : Node) (i : Nat) (more : List Nat) :
    n.at? (i :: more) = atFrom? 0 n.parts (i :: more) := by
  rw [at?, atFrom?, if_pos (Nat.zero_le i), Nat.sub_zero]

theorem atFrom?_cons_self (k : Nat) (n : Node) (l : List Node) (more : List Nat) :
    atFrom? k (n :: l) (k :: more) = n.at? more := by
  simp [atFrom?]

theorem atFrom?_cons_of_ne {k i : Nat} (hne : i ≠ k) (n : Node) (l : List Node) (more : List Nat) :
    atFrom? k (n :: l) (i :: more) = atFrom? (k + 1) l (i :: more) := by
  by_cases hle : k ≤ i
  · obtain ⟨j, rfl⟩ : ∃ j, i = k + 1 + j := ⟨i - (k + 1), by omega⟩
    have hbefore : k + 1 + j - k = j + 1 := by omega
    rw [atFrom?, if_pos hle, hbefore, List.getElem?_cons_succ, atFrom?, if_pos (by omega),
      Nat.add_sub_cancel_left]
  · rw [atFrom?, if_neg hle, atFrom?, if_neg (by omega)]

theorem le_of_atFrom? {k i : Nat} {l : List Node} {more : List Nat} {n : Node}
    (h : atFrom? k l (i :: more) = some n) : k ≤ i := by
  rw [atFrom?] at h
  split at h
  · assumption
  · cases h

end Script.Node

namespace ClassRecord

open Script (Node Span Source)

def definingFunctions : List (String × ClassType) :=
  [("qx.Class.define", .ordinary), ("qx.Bootstrap.define", .ordinary), ("qx.Mixin.define", .mixin),
    ("qx.Interface.define", .interface), ("qx.Theme.define", .theme)]

theorem definition?_eq_some_iff {callee : Node} {classType : ClassType} :
    definition? callee = some classType ↔
      ∃ function, callee.dottedName? = some function ∧ (function, classType) ∈ definingFunctions := by
  simp only [definition?, Option.bind_eq_some_iff]
  refine exists_congr fun function => and_congr_right fun _ => ?_
  simp only [definedType?, definingFunctions]
  grind

structure DefiningCall where
  address : List Nat
  classType : ClassType
  span : Span
  args : List Node

namespace DefiningCall

/-- The call is where it says to be, the nodes being those that `look` finds. -/
def Stands (look : List Nat → Option Node) (c : DefiningCall) : Prop :=
  ∃ callee function, look c.address = some (.call c.span callee c.args) ∧
    callee.dottedName? = some function ∧ (function, c.classType) ∈ definingFunctions

def Outermost (look : List Nat → Option Node) (c : DefiningCall) : Prop :=
  c.Stands look ∧
    ∀ outer : DefiningCall, outer.Stands look → outer.address <+: c.address → outer.address = c.address

/-- The calls are those that are not inside another one, in the order of the text. -/
structure Listing (look : List Nat → Option Node) (calls : List DefiningCall) : Prop where
  sorted : calls.Pairwise (·.address < ·.address)
  mem_iff (c : DefiningCall) : c ∈ calls ↔ c.Outermost look

theorem Listing.unique {look : List Nat → Option Node} {a b : List DefiningCall} (ha : Listing look a)
    (hb : Listing look b) : a = b := by
  have : Std.Irrefl fun c d : DefiningCall => c.address < d.address := ⟨fun c => List.lt_irrefl c.address⟩
  have : Std.Antisymm fun c d : DefiningCall => c.address < d.address :=
    ⟨fun c d hcd hdc => absurd (List.lt_trans hcd hdc) (List.lt_irrefl _)⟩
  exact ha.sorted.eq_of_mem_iff hb.sorted fun c => (ha.mem_iff c).trans (hb.mem_iff c).symm

/-! ## Listing the calls -/

variable {look look' : List Nat → Option Node} {c : DefiningCall}

theorem outermost_congr (h : ∀ d : DefiningCall, d.address <+: c.address → (d.Stands look ↔ d.Stands look')) :
    c.Outermost look ↔ c.Outermost look' := by
  refine and_congr (h c (List.prefix_refl _)) (forall_congr' fun outer => ?_)
  constructor
  · intro hall hstands hin
    exact hall ((h outer hin).2 hstands) hin
  · intro hall hstands hin
    exact hall ((h outer hin).1 hstands) hin

theorem Stands.address_ne_nil (hnone : look [] = none) (h : c.Stands look) : c.address ≠ [] := by
  obtain ⟨callee, function, hlook, -⟩ := h
  intro hnil
  rw [hnil, hnone] at hlook
  cases hlook

/-- The call in one of several nodes, of which it is the `k`th. -/
def inside (k : Nat) (c : DefiningCall) : DefiningCall := { c with address := k :: c.address }

theorem outermost_inside {k : Nat} (hnone : look [] = none) (h : ∀ more, look (k :: more) = look' more) :
    (c.inside k).Outermost look ↔ c.Outermost look' := by
  have hstands (d : DefiningCall) : (d.inside k).Stands look ↔ d.Stands look' := by
    simp only [Stands, inside, h]
  refine and_congr (hstands c) ⟨?_, ?_⟩
  · intro hall outer houter hin
    have haddress := hall (outer.inside k) ((hstands outer).2 houter)
      (List.cons_prefix_cons.2 ⟨rfl, hin⟩)
    exact (List.cons.inj haddress).2
  · intro hall outer houter hin
    obtain ⟨address, classType, span, args⟩ := outer
    obtain hnil | ⟨more, rfl, hmore⟩ := List.prefix_cons_iff.1 hin
    · exact absurd hnil (houter.address_ne_nil hnone)
    · have haddress := hall ⟨more, classType, span, args⟩ ((hstands _).1 houter) hmore
      exact congrArg (k :: ·) haddress

theorem Listing.of_call {span : Span} {callee : Node} {args : List Node} {classType : ClassType}
    (h : definition? callee = some classType) :
    Listing (Node.call span callee args).at? [⟨[], classType, span, args⟩] := by
  have hstands : Stands (Node.call span callee args).at? ⟨[], classType, span, args⟩ := by
    obtain ⟨function, hname, hdefines⟩ := definition?_eq_some_iff.1 h
    exact ⟨callee, function, rfl, hname, hdefines⟩
  refine ⟨List.pairwise_singleton _ _, fun c => ?_⟩
  rw [List.mem_singleton]
  constructor
  · rintro rfl
    exact ⟨hstands, fun outer _ hin => List.prefix_nil.1 hin⟩
  · rintro ⟨⟨callee', function, hlook, hname, hdefines⟩, hall⟩
    obtain ⟨address, classType', span', args'⟩ := c
    cases hall _ hstands List.nil_prefix
    cases hlook
    have hsame := h.symm.trans (definition?_eq_some_iff.2 ⟨function, hname, hdefines⟩)
    cases hsame
    rfl

theorem Listing.of_parts {n : Node} {calls : List DefiningCall}
    (hn : ∀ span callee args, n = .call span callee args → definition? callee = none)
    (h : Listing (Node.atFrom? 0 n.parts) calls) : Listing n.at? calls := by
  refine ⟨h.sorted, fun c => (h.mem_iff c).trans (outermost_congr fun d _ => ?_)⟩
  obtain ⟨address, classType, span, args⟩ := d
  cases address with
  | nil =>
    constructor
    · rintro ⟨callee, function, hlook, -⟩
      cases hlook
    · rintro ⟨callee, function, hlook, hname, hdefines⟩
      have hnone := hn _ _ _ (Option.some.inj hlook)
      rw [definition?_eq_some_iff.2 ⟨function, hname, hdefines⟩] at hnone
      cases hnone
  | cons i more => simp only [Stands, Node.at?_cons]

theorem Listing.nil (k : Nat) : Listing (Node.atFrom? k []) [] := by
  refine ⟨.nil, fun c => ?_⟩
  simp only [List.not_mem_nil, false_iff]
  rintro ⟨⟨callee, function, hlook, -⟩, -⟩
  cases haddress : c.address with
  | nil =>
    rw [haddress] at hlook
    cases hlook
  | cons i more => simp [haddress, Node.atFrom?] at hlook

theorem Listing.cons {k : Nat} {n : Node} {l : List Node} {a b : List DefiningCall}
    (hn : Listing n.at? a) (hl : Listing (Node.atFrom? (k + 1) l) b) :
    Listing (Node.atFrom? k (n :: l)) (a.map (inside k) ++ b) := by
  have hlater {d : DefiningCall} (hd : d ∈ b) : ∃ i more, d.address = i :: more ∧ k < i := by
    obtain ⟨⟨callee, function, hlook, -⟩, -⟩ := (hl.mem_iff d).1 hd
    cases haddress : d.address with
    | nil =>
      rw [haddress] at hlook
      cases hlook
    | cons i more =>
      rw [haddress] at hlook
      exact ⟨i, more, rfl, Node.le_of_atFrom? hlook⟩
  refine ⟨List.pairwise_append.2 ⟨?_, hl.sorted, ?_⟩, fun c => ?_⟩
  · rw [List.pairwise_map]
    exact hn.sorted.imp fun hlt => List.cons_lt_cons_iff.2 (.inr ⟨rfl, hlt⟩)
  · intro c hc d hd
    obtain ⟨c, -, rfl⟩ := List.mem_map.1 hc
    obtain ⟨i, more, haddress, hlt⟩ := hlater hd
    rw [haddress]
    exact List.cons_lt_cons_iff.2 (.inl hlt)
  obtain ⟨address, classType, span, args⟩ := c
  rw [List.mem_append, List.mem_map]
  rcases address with _ | ⟨i, more⟩
  · refine iff_of_false ?_ fun h => h.1.address_ne_nil rfl rfl
    rintro (⟨d, -, hd⟩ | hd)
    · cases hd
    · obtain ⟨i, more, haddress, -⟩ := hlater hd
      cases haddress
  by_cases hi : i = k
  · subst hi
    refine Iff.trans ⟨?_, ?_⟩ (outermost_inside (c := ⟨more, classType, span, args⟩) rfl
      (Node.atFrom?_cons_self i n l)).symm
    · rintro (⟨d, hd, heq⟩ | hd)
      · cases heq
        exact (hn.mem_iff d).1 hd
      · obtain ⟨i', more', haddress, hlt⟩ := hlater hd
        cases haddress
        exact absurd hlt (Nat.lt_irrefl i)
    · intro hd
      exact .inl ⟨_, (hn.mem_iff _).2 hd, rfl⟩
  · refine Iff.trans ⟨?_, .inr⟩ ((hl.mem_iff _).trans (outermost_congr fun d hd => ?_))
    · rintro (⟨d, -, heq⟩ | hd)
      · cases heq
        exact absurd rfl hi
      · exact hd
    · obtain ⟨address, classType, span, args⟩ := d
      obtain rfl | ⟨before, rfl, -⟩ := List.prefix_cons_iff.1 hd
      · exact Iff.rfl
      · simp only [Stands, Node.atFrom?_cons_of_ne hi]

end DefiningCall

/-! ## What the calls of a program yield -/

def DefiningCall.misnamed (src : Source) (file : String) (r : ClassRecord) (c : DefiningCall)
    (name : String) : Marker :=
  (Marker.warning Marker.classnameMismatch r.classname
    (file ++ " declares " ++ r.classname ++ " but its path implies " ++ name)).at_ (src.placeOf c.span)

def DefiningCall.ignored (src : Source) (file : String) (r : ClassRecord) (c : DefiningCall) : Marker :=
  (Marker.warning Marker.duplicateDefinition r.classname
    ("Second definition of " ++ secondName c.args ++ " in " ++ file ++ " is ignored")).at_
      (src.placeOf c.span)

/-- What calls of defining functions yield. -/
def outcome (src : Source) (file : String) (expected : Option String) :
    List DefiningCall → Except ReadError Extraction
  | [] => .error (.noDefinition file)
  | first :: further =>
    match extract src file first.classType first.span first.args with
    | .error e => .error e
    | .ok record =>
      let misnamed := (expected.toList.filter (· ≠ record.classname)).map
        (first.misnamed src file record)
      .ok { record, warnings := misnamed ++ further.map (·.ignored src file record) }

namespace Finder

variable {src : Source} {file : String} {expected : Option String}

/-- Takes calls into account, one after another. -/
def take (src : Source) (file : String) (expected : Option String) (f : Finder)
    (calls : List DefiningCall) : Finder :=
  calls.foldl (fun f c => f.found src file expected c.classType c.span c.args) f

theorem take_inside (f : Finder) (k : Nat) (calls : List DefiningCall) :
    f.take src file expected (calls.map (·.inside k)) = f.take src file expected calls := by
  rw [take, take, List.foldl_map]
  rfl

theorem visitAll_append (f : Finder) (a b : List Node) : Finder.visitAll src file expected f (a ++ b) =
    Finder.visitAll src file expected (Finder.visitAll src file expected f a) b := by
  induction a generalizing f with
  | nil => rfl
  | cons n a ih => simp only [List.cons_append, Finder.visitAll, ih]

theorem visit_eq_visitAll_parts (f : Finder) {n : Node}
    (hn : ∀ span callee args, n = .call span callee args → definition? callee = none) :
    Finder.visit src file expected f n = Finder.visitAll src file expected f n.parts := by
  cases n with
  | call span callee args => simp only [Finder.visit, hn _ _ _ rfl, Node.parts, Finder.visitAll]
  | _ => simp only [Finder.visit, Node.parts, Finder.visitAll, visitAll_append]

theorem exists_listing_of_all {l : List Node}
    (h : ∀ n ∈ l, ∃ calls, DefiningCall.Listing n.at? calls ∧ ∀ src file expected f,
      Finder.visit src file expected f n = f.take src file expected calls) (k : Nat) :
    ∃ calls, DefiningCall.Listing (Node.atFrom? k l) calls ∧ ∀ src file expected f,
      Finder.visitAll src file expected f l = f.take src file expected calls := by
  induction l generalizing k with
  | nil => exact ⟨[], .nil k, fun src file expected f => by rw [Finder.visitAll]; rfl⟩
  | cons n l ih =>
    obtain ⟨a, ha, hvisit⟩ := h n List.mem_cons_self
    obtain ⟨b, hb, hvisitAll⟩ := ih (fun m hm => h m (List.mem_cons_of_mem _ hm)) (k + 1)
    refine ⟨a.map (·.inside k) ++ b, ha.cons hb, fun src file expected f => ?_⟩
    rw [Finder.visitAll, hvisit, hvisitAll, ← take_inside f k a, take, take, take, List.foldl_append]

theorem exists_listing (n : Node) : ∃ calls, DefiningCall.Listing n.at? calls ∧
    ∀ src file expected f, Finder.visit src file expected f n = f.take src file expected calls := by
  induction n using Node.induction_parts with
  | step n ih =>
    by_cases hn : ∀ span callee args, n = .call span callee args → definition? callee = none
    · obtain ⟨calls, hcalls, hvisit⟩ := exists_listing_of_all ih 0
      refine ⟨calls, .of_parts hn hcalls, fun src file expected f => ?_⟩
      rw [visit_eq_visitAll_parts f hn, hvisit]
    · push Not at hn
      obtain ⟨span, callee, args, rfl, hsome⟩ := hn
      obtain ⟨classType, hdefines⟩ := Option.ne_none_iff_exists'.1 hsome
      refine ⟨_, .of_call hdefines, fun src file expected f => ?_⟩
      rw [Finder.visit, hdefines]
      rfl

theorem take_cons (f : Finder) (c : DefiningCall) (calls : List DefiningCall) :
    f.take src file expected (c :: calls) =
      (f.found src file expected c.classType c.span c.args).take src file expected calls := rfl

theorem take_of_record (f : Finder) {r : ClassRecord} (h : f.record = some r)
    (calls : List DefiningCall) : f.take src file expected calls =
      { f with warnings := f.warnings ++ calls.map (·.ignored src file r) } := by
  induction calls generalizing f with
  | nil => rw [take, List.foldl_nil, List.map_nil, List.append_nil]
  | cons c calls ih =>
    have hfound : f.found src file expected c.classType c.span c.args =
        { f with warnings := f.warnings ++ [c.ignored src file r] } := by
      simp only [found, h, DefiningCall.ignored]
    have hrest := ih { f with warnings := f.warnings ++ [c.ignored src file r] } h
    rw [take_cons, hfound, hrest, List.append_assoc, List.map_cons, List.singleton_append]

theorem take_of_error (f : Finder) {e : ReadError} (hrecord : f.record = none) (herror : f.error = some e)
    (calls : List DefiningCall) : f.take src file expected calls = f := by
  induction calls with
  | nil => rfl
  | cons c calls ih =>
    have hfound : f.found src file expected c.classType c.span c.args = f := by
      simp only [found, hrecord, herror]
    rw [take_cons, hfound, ih]

end Finder

theorem mismatch_eq (src : Source) (file : String) (expected : Option String) (r : ClassRecord)
    (c : DefiningCall) : mismatch src file expected r.classname c.span =
      (expected.toList.filter (· ≠ r.classname)).map (c.misnamed src file r) := by
  cases expected with
  | none => rfl
  | some name =>
    rw [mismatch]
    by_cases h : name = r.classname <;> simp [h, DefiningCall.misnamed]

theorem ofProgram_eq_outcome_of_visitAll {src : Source} {statements : List Node} {file : String}
    {expected : Option String} {calls : List DefiningCall}
    (h : Finder.visitAll src file expected {} statements = Finder.take src file expected {} calls) :
    ofProgram src statements file expected = outcome src file expected calls := by
  rw [ofProgram, h]
  cases calls with
  | nil => rfl
  | cons first further =>
    rw [Finder.take_cons, outcome]
    cases hextract : extract src file first.classType first.span first.args with
    | error e =>
      have hfound : Finder.found src file expected {} first.classType first.span first.args =
          { error := some e } := by
        simp only [Finder.found, hextract]
      rw [hfound, Finder.take_of_error _ rfl rfl]
    | ok r =>
      have hfound : Finder.found src file expected {} first.classType first.span first.args =
          { record := some r, warnings := mismatch src file expected r.classname first.span } := by
        simp only [Finder.found, hextract, List.nil_append]
      rw [hfound, Finder.take_of_record _ rfl, mismatch_eq]

/-- A program yields what the first of its definitions does, with a warning for each further one;
a definition inside another one is none of them. -/
theorem firstDefinition_wins (statements : List Node) (file : String) (expected : Option String) :
    ∃ calls, (∀ other, DefiningCall.Listing (Node.atFrom? 0 statements) other ↔ other = calls) ∧
      (∀ src, ofProgram src statements file expected = outcome src file expected calls) ∧
      ∀ source program, Script.Program.parse? source = some program →
        program.statements = statements →
        ofSource source file expected =
          outcome (Source.ofProgram source program) file expected calls := by
  obtain ⟨calls, hcalls, hvisit⟩ :=
    Finder.exists_listing_of_all (fun n (_ : n ∈ statements) => Finder.exists_listing n) 0
  have hprogram (src : Source) : ofProgram src statements file expected = outcome src file expected calls :=
    ofProgram_eq_outcome_of_visitAll (hvisit src file expected {})
  refine ⟨calls, fun other => ⟨fun h => h.unique hcalls, fun h => h ▸ hcalls⟩, hprogram, ?_⟩
  intro source program hparse hstatements
  rw [ofSource, hparse]
  dsimp only
  rw [hstatements]
  exact hprogram _

/-- A class with another one inside it, and a mixin inside a call. -/
def nestedSource : String :=
  "qx.Class.define('a.A', \x7bmembers: \x7bb: qx.Class.define('a.B')\x7d\x7d); f(qx.Mixin.define('a.M'));"

theorem firstDefinition_wins_nested : ∃ program calls,
    Script.Program.parse? nestedSource = some program ∧
    DefiningCall.Listing (Node.atFrom? 0 program.statements) calls ∧
    ofSource nestedSource "a/C.js" (some "a.C") =
      outcome (Source.ofProgram nestedSource program) "a/C.js" (some "a.C") calls ∧
    (ofSource nestedSource "a/C.js" (some "a.C")).map (fun x =>
      (x.record.classname, x.warnings.map (·.code))) =
        .ok ("a.A", [Marker.classnameMismatch, Marker.duplicateDefinition]) := by
  have hyields : (ofSource nestedSource "a/C.js" (some "a.C")).map (fun x =>
      (x.record.classname, x.warnings.map (·.code))) =
        .ok ("a.A", [Marker.classnameMismatch, Marker.duplicateDefinition]) := by decide +kernel
  cases hprogram : Script.Program.parse? nestedSource with
  | none =>
    rw [ofSource, hprogram] at hyields
    cases hyields
  | some program =>
    obtain ⟨calls, hcalls, -, hsource⟩ :=
      firstDefinition_wins program.statements "a/C.js" (some "a.C")
    exact ⟨program, calls, rfl, (hcalls calls).2 rfl, hsource _ _ hprogram rfl, hyields⟩

end ClassRecord

end ClassForge
