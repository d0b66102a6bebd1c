import Bincache.Core.Hash

/-!
# Compression algorithms and NAR URLs

`NarUrl` is the one owner of the `nar/<file hash>.nar<ext>` convention in both directions: the
record renders it, the store derives a file name from it, and the router reads it out of a request
target.
-/

namespace Bincache

inductive Compression
  | none | zstd | xz | bzip2 | br
deriving DecidableEq, Repr

namespace Compression

def variants : List Compression := [none, zstd, xz, bzip2, br]

/-- The protocol name. -/
def render : Compression → Text
  | none => "none".toList
  | zstd => "zstd".toList
  | xz => "xz".toList
  | bzip2 => "bzip2".toList
  | br => "br".toList

def parse (text : Text) : Option Compression :=
  variants.find? fun candidate ↦ candidate.render = text

/-- The suffix a NAR URL carries for this algorithm. -/
def extension : Compression → Text
  | none => []
  | zstd => ".zst".toList
  | xz => ".xz".toList
  | bzip2 => ".bz2".toList
  | br => ".br".toList

def fromExtension (extension : Text) : Option Compression :=
  variants.find? fun candidate ↦ candidate.extension = extension

theorem parse_render (compression : Compression) : parse compression.render = some compression := by
  cases compression <;> decide

theorem fromExtension_extension (compression : Compression) :
    fromExtension compression.extension = some compression := by
  cases compression <;> decide

theorem extension_injective : Function.Injective extension := by
  intro a b h
  have := fromExtension_extension a
  rw [h, fromExtension_extension] at this
  exact (Option.some.inj this).symm

end Compression

/-- Everything a NAR URL says: which artifact, and how it is compressed. -/
structure NarUrl where
  fileHash : Sha256
  compression : Compression
deriving DecidableEq

namespace NarUrl

/-- Directory component every NAR URL starts with. -/
def pathPrefix : Text := "nar/".toList

def contentType : Text := "application/x-nix-nar".toList

inductive Error
  | suffix (name : Text)
  | extension (extension : Text)
  | digest (source : Sha256.Error)
deriving DecidableEq

/-- `<file hash>.nar<ext>`: the file name, with no directory. -/
def name (url : NarUrl) : Text :=
  url.fileHash.base32 ++ ".nar".toList ++ url.compression.extension

/-- `nar/<file hash>.nar<ext>`: the request target and the `URL:` field. -/
def url (url : NarUrl) : Text := pathPrefix ++ url.name

/-- Reads a name back, with no directory component. -/
def parse [Crates] (name : Text) : Except Error NarUrl :=
  match Text.splitOnce ".nar".toList name with
  | .none => .error (.suffix name)
  | some (digest, extension) =>
    match Compression.fromExtension extension with
    | .none => .error (.extension extension)
    | some compression =>
      match Sha256.parse digest with
      | .ok fileHash => .ok ⟨fileHash, compression⟩
      | .error source => .error (.digest source)

theorem dot_notMem_base32 (hash : Sha256) : '.' ∉ hash.base32 := by
  intro h
  obtain ⟨d, hd, heq⟩ := Base32.encode_mem h
  revert d
  decide

theorem splitOnce_name (url : NarUrl) :
    Text.splitOnce ".nar".toList url.name = some (url.fileHash.base32, url.compression.extension) :=
  Text.splitOnce_append (dot_notMem_base32 url.fileHash)

theorem parse_name [Crates] (url : NarUrl) : parse url.name = .ok url := by
  rw [parse, splitOnce_name]
  dsimp only
  rw [Compression.fromExtension_extension, Sha256.parse_base32]

theorem name_injective : Function.Injective name := by
  intro a b h
  have hsplit := splitOnce_name a
  rw [h, splitOnce_name, Option.some.injEq, Prod.mk.injEq] at hsplit
  obtain ⟨hhash, hextension⟩ := hsplit
  exact congrArg₂ mk (Sha256.base32_injective hhash).symm
    (Compression.extension_injective hextension).symm

end NarUrl

end Bincache
