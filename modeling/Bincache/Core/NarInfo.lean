import Bincache.Core.NarUrl
import Bincache.Core.Sign
import Bincache.Core.StorePath
import Mathlib.Data.List.Sort
import Mathlib.Data.PNat.Notation

/-!
# The narinfo record

The object the read path exists to return: kept as fields, rendered on request. `fingerprint` is the
text ed25519 signs and `render` the body a client reads; both are functions of the record and of the
store directory.
-/

namespace Bincache

structure NarInfo where
  storePath : StorePath
  compression : Compression
  /-- Over the compressed artifact. Names the file and therefore the URL. -/
  fileHash : Sha256
  fileSize : ℕ
  /-- Over the uncompressed NAR bytes. -/
  narHash : Sha256
  /-- Nonzero by protocol. -/
  narSize : ℕ+
  references : List StorePath
  deriver : Option StorePath
  sigs : List Signature
  ca : Option Text
deriving DecidableEq

namespace NarInfo

def contentType : Text := "text/x-nix-narinfo".toList

/-- Suffix of the metadata request key. -/
def suffix : Text := ".narinfo".toList

/-- Where the artifact this record describes lives. -/
def nar (record : NarInfo) : NarUrl := ⟨record.fileHash, record.compression⟩

/-- The text that is signed, up to the references. -/
def fingerprintHead (record : NarInfo) (dir : Dir) : Text :=
  "1;".toList ++ dir.print record.storePath ++ ";".toList ++ record.narHash.render ++ ";".toList
    ++ Text.decimal record.narSize ++ ";".toList

/-- The canonical text that is signed. References are printed as full paths and sorted. -/
def fingerprint (record : NarInfo) (dir : Dir) : Text :=
  let sorted := (record.references.map dir.print).insertionSort (· ≤ ·)
  record.fingerprintHead dir ++ [','].intercalate sorted

/-- Replaces every signature with one from `key`. -/
def resign [Crates] (record : NarInfo) (dir : Dir) (key : SecretKey) : NarInfo :=
  { record with sigs := [key.sign (record.fingerprint dir)] }

def line (key value : Text) : Text := key ++ ": ".toList ++ value ++ ['\n']

/-- The body a `GET` answers with. The space after `References:` survives an empty list. -/
def render [Crates] (record : NarInfo) (dir : Dir) : Text :=
  line "StorePath".toList (dir.print record.storePath)
    ++ line "URL".toList record.nar.url
    ++ line "Compression".toList record.compression.render
    ++ line "FileHash".toList record.fileHash.render
    ++ line "FileSize".toList (Text.decimal record.fileSize)
    ++ line "NarHash".toList record.narHash.render
    ++ line "NarSize".toList (Text.decimal record.narSize)
    ++ line "References".toList ([' '].intercalate (record.references.map StorePath.render))
    ++ (record.deriver.toList.flatMap fun deriver ↦ line "Deriver".toList deriver.render)
    ++ (record.sigs.flatMap fun signature ↦ line "Sig".toList signature.render)
    ++ (record.ca.toList.flatMap fun ca ↦ line "CA".toList ca)

/-! ## What signing leaves alone -/

section Resign

variable [Crates] (record : NarInfo) (dir : Dir) (key : SecretKey)

omit [Crates] in
/-- The fingerprint does not cover signatures, so a record can be signed again and again. -/
@[simp] theorem fingerprint_sigs (sigs : List Signature) :
    { record with sigs := sigs }.fingerprint dir = record.fingerprint dir := rfl

@[simp] theorem fingerprint_resign : (record.resign dir key).fingerprint dir
    = record.fingerprint dir := rfl

@[simp] theorem storePath_resign : (record.resign dir key).storePath = record.storePath := rfl

@[simp] theorem nar_resign : (record.resign dir key).nar = record.nar := rfl

@[simp] theorem sigs_resign :
    (record.resign dir key).sigs = [key.sign (record.fingerprint dir)] := rfl

@[simp] theorem resign_resign (key' : SecretKey) :
    (record.resign dir key).resign dir key' = record.resign dir key' := rfl

end Resign

end NarInfo

end Bincache
