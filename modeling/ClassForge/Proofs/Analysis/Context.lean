import ClassForge.Analysis.Analyser
import ClassForge.Proofs.Files.Places
import ClassForge.Proofs.Files.Steps
import ClassForge.Proofs.Json.Codec
import ClassForge.Proofs.Json.Injective

/-!
# When the output of the last build holds

After an analyser has saved its fingerprint, the context of another analyser over the same output is
unchanged exactly if their libraries and their environments are the same. Whether they minify makes
no difference, though the output depends on it.
-/

namespace ClassForge

open Json

instance : ReadBack Fingerprint 2 := {}

namespace Fingerprint

theorem sameContext_iff (f g : Fingerprint) : f.sameContext g = true ↔
    f.libraries = g.libraries ∧ f.environmentHash = g.environmentHash ∧
      f.compilerVersion = g.compilerVersion := by
  simp [sameContext, and_assoc]

theorem encode_environment_inj {e e' : Table Datum} (h : encode e = encode e') : e = e' := by
  have hfields : e.entries.map (fun f => (f.1, f.2.json)) = e'.entries.map fun f => (f.1, f.2.json) :=
    Json.object.inj h
  refine Table.ext_entries (List.map_injective_iff.2 ?_ hfields)
  rintro ⟨k, a, ha⟩ ⟨k', b, hb⟩ heq
  cases heq
  rfl

/-- Environments without infinities have different hashes, unless their texts collide. -/
theorem hashOf_eq_iff {e e' : Table Datum} (he : (encode e).finite = true)
    (he' : (encode e').finite = true)
    (hsha : Set.InjOn Sha256.hexDigest {(encode e).render, (encode e').render}) :
    hashOf e = hashOf e' ↔ e = e' := by
  constructor
  · intro h
    exact encode_environment_inj (render_inj he he' (hsha (by simp) (by simp) h))
  · rintro rfl
    rfl

end Fingerprint

namespace Analyser

variable {a b : Analyser} {t t' : FileTree}

theorem read_of_run_saveFingerprint (h : a.saveFingerprint.run t = (.ok (), t')) :
    t'.read a.fingerprintPath = .ok (encode a.fingerprint).pretty := by
  obtain ⟨_, _, -, hwrite⟩ := exists_of_run_bind_ok h
  exact FileTree.read_writeAt (FileM.change_of_run_changing hwrite)

theorem savedFingerprint?_of_run (hdir : a.outputDir = b.outputDir)
    (h : a.saveFingerprint.run t = (.ok (), t')) : b.savedFingerprint? t' = some a.fingerprint := by
  have hpath : b.fingerprintPath = a.fingerprintPath := by rw [fingerprintPath, ← hdir, fingerprintPath]
  simp only [savedFingerprint?, hpath, read_of_run_saveFingerprint h, Except.toOption,
    Option.bind_eq_bind, Option.bind_some, parse?_pretty_encode (show 2 ≤ 127 by decide),
    decode_encode]

theorem isContextChanged_of_run (hdir : a.outputDir = b.outputDir)
    (h : a.saveFingerprint.run t = (.ok (), t')) :
    b.isContextChanged t' = !a.fingerprint.sameContext b.fingerprint := by
  rw [isContextChanged, savedFingerprint?_of_run hdir h]

/-- After a build the output counts as unchanged exactly for the same libraries and the same
environment, if the hash tells the texts of the environments apart. -/
theorem isContextChanged_eq_false_iff (hdir : a.outputDir = b.outputDir)
    (hsave : a.saveFingerprint.run t = (.ok (), t'))
    (ha : (encode a.environment).finite = true) (hb : (encode b.environment).finite = true)
    (hsha : Set.InjOn Sha256.hexDigest
      {(encode a.environment).render, (encode b.environment).render}) :
    b.isContextChanged t' = false ↔ a.libraries = b.libraries ∧ a.environment = b.environment := by
  rw [isContextChanged_of_run hdir hsave, Bool.not_eq_false', Fingerprint.sameContext_iff]
  simp only [fingerprint, Fingerprint.hashOf_eq_iff ha hb hsha, and_true]

/-- An analyser whose environment has a number in a nested value. -/
def scaled (minify : Bool) (num den : Nat) : Analyser where
  target := "source"
  outputDir := ⟨"out"⟩
  minify
  environment := .ofList
    [("scale", .ofJson (.array [.float (.ofRatio false num den), .object [("unit", .null)]]))]

/-- The tree after an analyser has saved its fingerprint in an empty one. -/
def savedTree (a : Analyser) : FileTree := (a.saveFingerprint.run {}).2

theorem saveFingerprint_scaled : (scaled false 1 2).saveFingerprint.run {} =
    (.ok (), (scaled false 1 2).savedTree) := by
  have h : ∃ t, (scaled false 1 2).saveFingerprint.run {} = (.ok (), t) := ⟨_, rfl⟩
  obtain ⟨t, h⟩ := h
  rw [savedTree, h]

theorem isContextChanged_eq_false_iff_scaled :
    (scaled false 1 2).isContextChanged (scaled false 1 2).savedTree = false ∧
      (scaled false 1 3).isContextChanged (scaled false 1 2).savedTree = true := by
  have hsave := saveFingerprint_scaled
  constructor
  · exact (isContextChanged_eq_false_iff rfl hsave (by decide +kernel) (by decide +kernel)
      (Set.injOn_pair.2 fun _ => rfl)).2 ⟨rfl, rfl⟩
  · refine Bool.eq_true_of_not_eq_false fun h => ?_
    have hsha : Set.InjOn Sha256.hexDigest {(encode (scaled false 1 2).environment).render,
        (encode (scaled false 1 3).environment).render} :=
      Set.injOn_pair.2 fun heq => absurd heq (by decide +kernel)
    have hdir : (scaled false 1 2).outputDir = (scaled false 1 3).outputDir := rfl
    have hsame := (isContextChanged_eq_false_iff hdir hsave (by decide +kernel) (by decide +kernel)
      hsha).1 h
    exact absurd hsame.2 (by decide +kernel)

/-- Output that was not minified counts as unchanged where it should be. -/
theorem isContextChanged_minified :
    (scaled false 1 2).saveFingerprint.run {} = (.ok (), (scaled false 1 2).savedTree) ∧
      (scaled true 1 2).isContextChanged (scaled false 1 2).savedTree = false := by
  refine ⟨saveFingerprint_scaled, ?_⟩
  rw [isContextChanged_of_run (b := scaled true 1 2) rfl saveFingerprint_scaled, Bool.not_eq_false',
    Fingerprint.sameContext_iff]
  exact ⟨rfl, rfl, rfl⟩

end Analyser

end ClassForge
