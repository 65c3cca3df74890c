import ClassForge.Digest.Sha256
import ClassForge.Json.Codec

/-!
# Fingerprints of builds

What all output of a target depends on: the versions of the libraries, the environment and the
version of the compiler. The fingerprint of the last build is kept next to its output.
-/

namespace ClassForge

open Json (Encode Decode encode)

structure Fingerprint where
  libraries : Table String
  environmentHash : String
  compilerVersion : String
  classes : List String := []
deriving DecidableEq

instance : Encode Fingerprint := ⟨fun f => .object
  [("libraries", encode f.libraries), ("environmentHash", encode f.environmentHash),
    ("compilerVersion", encode f.compilerVersion), ("classes", encode f.classes)]⟩

instance : Decode Fingerprint := ⟨Json.readFields do
  let libraries ← Json.required "libraries"
  let environmentHash ← Json.required "environmentHash"
  let compilerVersion ← Json.required "compilerVersion"
  let classes ← Json.defaulted "classes" []
  return { libraries, environmentHash, compilerVersion, classes }⟩

namespace Fingerprint

def fileName : String := "db.json"

def thisVersion : String := "0.1.0"

def hashOf (environment : Table Datum) : String := Sha256.hexDigest (encode environment).render

def sameContext (f g : Fingerprint) : Bool :=
  f.libraries = g.libraries && f.environmentHash = g.environmentHash &&
    f.compilerVersion = g.compilerVersion

end Fingerprint

end ClassForge
