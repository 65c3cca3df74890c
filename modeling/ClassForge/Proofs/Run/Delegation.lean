import ClassForge.Run.Server
import ClassForge.Proofs.Files.Paths
import ClassForge.Proofs.Json.Sorted

/-!
# Leaving a run to a server

A server reads the configuration it is sent from its JSON form, and counts the paths in it from the
directory of the project. They have been counted from there before. All settings arrive as they are,
but the paths are the same only if they are absolute, or if the directory adds nothing to a path.
-/

namespace ClassForge

open Json

/-! ## Settings that are read back -/

namespace Json

instance {α : Type} [Encode α] [Decode α] {depth : Nat} [ReadBack α depth] [ReadSorted α] :
    ReadSorted (Option α) where
  decode_canonical o := by
    cases o with
    | none => rfl
    | some a =>
      have hnull := canonical_ne_null (encode_ne_null a)
      have hread := decode_canonical a
      change decode (encode a).canonical = _
      cases h : (encode a).canonical with
      | null => exact absurd h hnull
      | _ =>
        rw [h] at hread
        simp only [decode, hread]
        rfl

instance : ReadSorted Datum where
  decode_canonical d := by
    obtain ⟨json, hcanonical⟩ := d
    change Except.ok (Datum.ofJson json.canonical) = _
    simp only [Datum.ofJson, hcanonical]

end Json

instance : ReadSorted Path := ⟨fun _ => rfl⟩

instance : ReadSorted PartConfig := {}

instance : ReadSorted Application := {}

instance : ReadSorted TargetConfig := {}

instance : ReadBack ServerConfig 2 := {}

instance : ReadSorted ServerConfig := {}

/-! ## Paths counted twice from one directory -/

namespace Path

variable {base p : Path}

/-- A directory that adds nothing to a path but a `.` at its beginning. -/
def IsIdle (p : Path) : Prop := ∀ part ∈ p.parts, part = .here

instance (p : Path) : Decidable p.IsIdle := inferInstanceAs (Decidable (∀ part ∈ p.parts, part = .here))

theorem here_not_mem_counted (l : List String) : .here ∉ counted l := by
  intro h
  obtain ⟨s, -, hs⟩ := List.mem_filterMap.1 h
  rw [PathPart.ofSegment?] at hs
  split_ifs at hs
  · cases hs
  · cases hs

theorem counted_segments (h : p.isAbsolute = false) :
    counted p.segments = p.parts.filter (· ≠ .here) := by
  obtain ⟨first, rest, hfirst⟩ := p.exists_segments
  have hroot : ¬(first = "" ∧ rest ≠ []) := by
    rw [← isAbsolute_iff hfirst, h]
    exact Bool.false_ne_true
  have hkept : (counted (first :: rest)).filter (· ≠ .here) = counted (first :: rest) :=
    List.filter_eq_self.2 fun part hpart => decide_eq_true fun heq =>
      here_not_mem_counted _ (heq ▸ hpart)
  rw [parts_eq hfirst, hfirst, startOf, if_neg hroot, ← hkept]
  by_cases hdot : first = "."
  · simp [hdot, counted, PathPart.ofSegment?]
  · rw [if_neg hdot]
    cases hpart : PathPart.ofSegment? first <;> simp [counted, hpart]

theorem isAbsolute_join (base p : Path) :
    (base.join p).isAbsolute = (base.isAbsolute || p.isAbsolute) := by
  rw [join]
  split_ifs with hsame hslash
  · obtain habs | hempty := hsame
    · rw [habs, Bool.or_true]
    · simp [isAbsolute, String.isEmpty_iff.1 hempty]
  all_goals
    simp only [not_or] at hsame
    have hne : base.text.toList ≠ [] := fun hnil =>
      hsame.2 (String.isEmpty_iff.2 (String.toList_eq_nil_iff.1 hnil))
    obtain ⟨c, cs, hc⟩ := List.exists_cons_of_ne_nil hne
    have hp : p.isAbsolute = false := by simpa using hsame.1
    rw [hp, Bool.or_false]
    simp [isAbsolute, hc]

theorem text_join_ne (hp : p.text ≠ "") : (base.join p).text ≠ "" := by
  rw [join]
  split_ifs <;> simp [hp]

theorem same_join_join_iff (base p : Path) : (base.join (base.join p)).same (base.join p) = true ↔
    base.IsIdle ∨ (base.join p).isAbsolute = true := by
  by_cases habs : (base.join p).isAbsolute = true
  · have heq : base.join (base.join p) = base.join p := if_pos (.inl habs)
    simp [heq, same, habs]
  by_cases hempty : base.text = ""
  · have heq : base.join (base.join p) = base.join p := if_pos (.inr (by simp [hempty]))
    have hidle : base.IsIdle := by
      obtain ⟨text⟩ := base
      cases hempty
      decide
    simp [heq, same, hidle]
  have hrel : (base.join p).isAbsolute = false := by simpa using habs
  obtain ⟨hbase, hp⟩ : base.isAbsolute = false ∧ p.isAbsolute = false := by
    simpa [isAbsolute_join] using hrel
  have honce : (base.join p).parts = base.parts ++ counted p.segments := parts_child hempty hp
  have htwice : (base.join (base.join p)).parts = base.parts ++ counted (base.join p).segments :=
    parts_child hempty hrel
  have hkept : (counted p.segments).filter (· ≠ .here) = counted p.segments :=
    List.filter_eq_self.2 fun part hpart => decide_eq_true fun heq =>
      here_not_mem_counted _ (heq ▸ hpart)
  rw [counted_segments hrel, honce, List.filter_append, hkept] at htwice
  simp only [same, decide_eq_true_eq, htwice, honce, List.append_cancel_left_eq, hrel,
    Bool.false_eq_true, or_false]
  rw [List.append_left_eq_self, List.filter_eq_nil_iff]
  simp [IsIdle]

end Path

/-! ## Configurations -/

namespace Config

variable {c d : Config} {j : Json} {dir : Path}

def paths (c : Config) : List Path := c.metaDir :: (c.libraries ++ c.targets.map (·.outputPath))

def unplaced (c : Config) : Config :=
  { c with
    projectDir := ⟨""⟩
    libraries := []
    targets := c.targets.map fun t => { t with outputPath := ⟨""⟩ }
    metaDir := ⟨""⟩ }

/-- Two configurations that differ at most in how their paths are written. -/
structure Same (c d : Config) : Prop where
  settings : c.unplaced = d.unplaced
  projectDir : c.projectDir.same d.projectDir = true
  paths : List.Forall₂ (fun p q => p.same q = true) c.paths d.paths

theorem validate_eq_ok_iff : c.validate = .ok () ↔
    c.targets ≠ [] ∧ (∀ t ∈ c.targets, t.outputPath.text ≠ "") ∧
      checkApplications [] none c.applications = .ok () := by
  rw [validate]
  cases htargets : c.targets with
  | nil => simp [throw, throwThe, MonadExceptOf.throw, bind, Except.bind]
  | cons t rest =>
    cases hfind : (t :: rest).find? fun t => t.outputPath.text.isEmpty with
    | some u =>
      have hempty := List.find?_some hfind
      simp only [String.isEmpty_iff] at hempty
      have hmem : u ∈ t :: rest := List.mem_of_find?_eq_some hfind
      refine iff_of_false (fun h => ?_) fun h => h.2.1 u hmem hempty
      cases h
    | none =>
      have hnone := List.find?_eq_none.1 hfind
      simp only [String.isEmpty_iff] at hnone
      exact ⟨fun h => ⟨List.cons_ne_nil t rest, hnone, h⟩, fun h => h.2.2⟩

theorem ofJson_eq_ok_iff : ofJson j dir = .ok c ↔
    ∃ c₀ : Config, decode j = Except.ok c₀ ∧ c₀.locatedAt dir = c ∧ c.validate = .ok () := by
  rw [ofJson, read]
  cases hdecode : (decode j : Except DecodeError Config) with
  | error e => simp
  | ok c₀ =>
    simp only [Except.ok.injEq, exists_eq_left']
    cases hvalidate : (c₀.locatedAt dir).validate with
    | error e =>
      refine iff_of_false (fun h => ?_) ?_
      · simp [bind, Except.bind] at h
      · rintro ⟨rfl, h⟩
        rw [hvalidate] at h
        cases h
    | ok u =>
      simp only [bind, Except.bind, pure, Except.pure, Except.ok.injEq]
      constructor
      · rintro rfl
        exact ⟨rfl, hvalidate⟩
      · exact fun h => h.1

theorem decode_canonical_encode (c : Config) :
    decode (encode c).canonical = Except.ok { c with projectDir := ⟨""⟩ } := by
  change readFields _ (Json.object _).canonical = _
  simp

theorem unplaced_locatedAt (c : Config) (dir : Path) : (c.locatedAt dir).unplaced = c.unplaced := by
  have htargets : (c.locatedAt dir).unplaced.targets = c.unplaced.targets := by
    simp only [unplaced, locatedAt, List.map_map, List.map_inj_left, Function.comp_apply]
    intro t _
    split_ifs <;> rfl
  exact congrArg (fun targets => { c.unplaced with targets }) htargets

theorem paths_locatedAt (h : ∀ t ∈ c.targets, t.outputPath.text ≠ "") :
    (c.locatedAt dir).paths = c.paths.map dir.join := by
  have htargets : (c.locatedAt dir).targets.map (·.outputPath) =
      (c.targets.map (·.outputPath)).map dir.join := by
    simp only [locatedAt, List.map_map, List.map_inj_left, Function.comp_apply]
    intro t ht
    rw [if_neg (by simpa using h t ht)]
  rw [paths, htargets, paths, List.map_cons, List.map_append]
  rfl

theorem validate_locatedAt (h : c.validate = .ok ()) : (c.locatedAt dir).validate = .ok () := by
  obtain ⟨htargets, houtputs, happlications⟩ := validate_eq_ok_iff.1 h
  refine validate_eq_ok_iff.2 ⟨by simpa [locatedAt] using htargets, ?_, happlications⟩
  simp only [locatedAt, List.forall_mem_map]
  intro t ht
  rw [if_neg (by simpa using houtputs t ht)]
  exact Path.text_join_ne (houtputs t ht)

theorem ofJson_encode (h : ofJson j dir = .ok c) :
    ofJson (Datum.ofJson (encode c)).json c.projectDir = .ok (c.locatedAt dir) := by
  obtain ⟨c₀, -, rfl, hvalid⟩ := ofJson_eq_ok_iff.1 h
  exact ofJson_eq_ok_iff.2 ⟨_, decode_canonical_encode _, rfl, validate_locatedAt hvalid⟩

theorem exists_join_of_mem_paths (h : ofJson j dir = .ok c) {p : Path} (hp : p ∈ c.paths) :
    ∃ p₀, dir.join p₀ = p := by
  obtain ⟨c₀, -, rfl, hvalid⟩ := ofJson_eq_ok_iff.1 h
  have houtputs : ∀ t ∈ c₀.targets, t.outputPath.text ≠ "" := by
    intro t ht hempty
    have hmem : t ∈ (c₀.locatedAt dir).targets :=
      List.mem_map.2 ⟨t, ht, if_pos (String.isEmpty_iff.2 hempty)⟩
    exact (validate_eq_ok_iff.1 hvalid).2.1 t hmem hempty
  rw [paths_locatedAt houtputs] at hp
  obtain ⟨p₀, -, heq⟩ := List.mem_map.1 hp
  exact ⟨p₀, heq⟩

/-- The configuration is the same after its paths have been counted again, exactly if the directory
adds nothing to them or all of them are absolute. -/
theorem same_locatedAt_iff (h : ofJson j dir = .ok c) :
    (c.locatedAt dir).Same c ↔ dir.IsIdle ∨ ∀ p ∈ c.paths, p.isAbsolute = true := by
  obtain ⟨c₀, -, hc, hvalid⟩ := ofJson_eq_ok_iff.1 h
  have hdir : c.projectDir = dir := by rw [← hc]; rfl
  have hpaths : (c.locatedAt dir).paths = c.paths.map dir.join :=
    paths_locatedAt (validate_eq_ok_iff.1 hvalid).2.1
  have hsame : (c.locatedAt dir).Same c ↔ ∀ p ∈ c.paths, (dir.join p).same p = true := by
    constructor
    · intro hsame
      have hall := hsame.paths
      rwa [hpaths, List.forall₂_map_left_iff, List.forall₂_same] at hall
    · intro hall
      refine ⟨c.unplaced_locatedAt dir, ?_, ?_⟩
      · rw [hdir]
        exact decide_eq_true rfl
      · rwa [hpaths, List.forall₂_map_left_iff, List.forall₂_same]
  have heach : ∀ p ∈ c.paths, ((dir.join p).same p = true ↔ dir.IsIdle ∨ p.isAbsolute = true) := by
    intro p hp
    obtain ⟨p₀, rfl⟩ := exists_join_of_mem_paths h hp
    exact Path.same_join_join_iff dir p₀
  rw [hsame, forall₂_congr heach]
  by_cases hidle : dir.IsIdle <;> simp [hidle]

theorem isAbsolute_of_mem_paths (h : ofJson j dir = .ok c) (hdir : dir.isAbsolute = true) :
    ∀ p ∈ c.paths, p.isAbsolute = true := by
  intro p hp
  obtain ⟨p₀, rfl⟩ := exists_join_of_mem_paths h hp
  rw [Path.isAbsolute_join, hdir, Bool.true_or]

end Config

namespace Server

variable {c : Config} {j : Json} {dir : Path}

theorem configOf_of_ofJson (h : Config.ofJson j dir = .ok c) (hserver : c.server = none) :
    configOf [.ofJson (encode c), .ofJson (.string c.projectDir.text)] = .ok (c.locatedAt dir) := by
  have hread : Config.ofJson (Datum.ofJson (encode c)).json
      (projectDirOf [.ofJson (.string c.projectDir.text)]) = .ok (c.locatedAt dir) :=
    Config.ofJson_encode h
  have hnone : (c.locatedAt dir).server = none := hserver
  simp only [configOf, hread, ← hnone]

/-- A server is sent all settings of a configuration. It counts the paths from the directory of the
project again, so it does the run of the same configuration exactly if that directory is absolute or
adds nothing to a path, or if every path was given as an absolute one. -/
theorem configOf_requestOf (h : Config.ofJson j dir = .ok c) (hserver : c.server = none)
    (id : UInt64) : ∃ args, requestOf c id = .call compileMethod args id ∧
      configOf args = .ok (c.locatedAt dir) ∧
      ((c.locatedAt dir).Same c ↔
        dir.isAbsolute = true ∨ dir.IsIdle ∨ ∀ p ∈ c.paths, p.isAbsolute = true) := by
  refine ⟨_, rfl, configOf_of_ofJson h hserver, ?_⟩
  rw [Config.same_locatedAt_iff h]
  constructor
  · exact Or.inr
  · rintro (hdir | hsame)
    · exact .inr (Config.isAbsolute_of_mem_paths h hdir)
    · exact hsame

/-- A configuration that leaves almost everything to the defaults. -/
def plainProject : Json := .object
  [("targets", .array [.object [("type", .string "source"), ("outputPath", .string "out")]])]

/-- In the present directory a server builds what it is asked to. -/
theorem configOf_requestOf_here : ∃ c args, Config.ofJson plainProject ⟨"."⟩ = .ok c ∧
    c.server = none ∧ requestOf c 1 = .call compileMethod args 1 ∧
    configOf args = .ok (c.locatedAt ⟨"."⟩) ∧ (c.locatedAt ⟨"."⟩).Same c := by
  have hread : Config.ofJson plainProject ⟨"."⟩ = .ok
      { targets := [{ kind := "source", outputPath := ⟨"./out"⟩ }], libraries := [⟨"./."⟩],
        metaDir := ⟨"./compiled/meta"⟩, projectDir := ⟨"."⟩ } := by decide +kernel
  obtain ⟨args, hargs, hconfig, hsame⟩ := configOf_requestOf hread rfl 1
  exact ⟨_, args, hread, rfl, hargs, hconfig, hsame.2 (.inr (.inl (by decide +kernel)))⟩

/-- In a directory below, the server looks for the libraries elsewhere, and writes elsewhere. -/
theorem configOf_requestOf_below : ∃ c args d, Config.ofJson plainProject ⟨"proj"⟩ = .ok c ∧
    c.server = none ∧ requestOf c 1 = .call compileMethod args 1 ∧ configOf args = .ok d ∧
    c.paths = [⟨"proj/compiled/meta"⟩, ⟨"proj/."⟩, ⟨"proj/out"⟩] ∧
    d.paths = [⟨"proj/proj/compiled/meta"⟩, ⟨"proj/proj/."⟩, ⟨"proj/proj/out"⟩] ∧ ¬d.Same c := by
  have hread : Config.ofJson plainProject ⟨"proj"⟩ = .ok
      { targets := [{ kind := "source", outputPath := ⟨"proj/out"⟩ }], libraries := [⟨"proj/."⟩],
        metaDir := ⟨"proj/compiled/meta"⟩, projectDir := ⟨"proj"⟩ } := by decide +kernel
  refine ⟨_, _, _, hread, rfl, rfl, configOf_of_ofJson hread rfl, rfl, ?_, ?_⟩
  · decide +kernel
  · rw [Config.same_locatedAt_iff hread]
    decide +kernel

end Server

end ClassForge
