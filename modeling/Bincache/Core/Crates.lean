import Bincache.Core.Base32
import Bincache.Lib.Base64
import Bincache.Lib.Hex

/-!
# The third-party code the program computes with

SHA-256, the hex and base64 codecs, the zstd stream encoder and ed25519 come from crates whose
source is not part of the repository. They are parameters: `Crates` has one field per function the
program calls, at the types it calls it with. What their documentation promises is stated below as
propositions, and a result that needs one of them takes it as a hypothesis.
-/

namespace Bincache

/-- The third-party functions. -/
class Crates where
  /-- The SHA-256 digest of a whole input; the incremental hasher digests what it was fed. -/
  sha256 : Bytes → Octets 32
  /-- Hex of either case. -/
  hexDecode : Bytes → Option Bytes
  /-- Padded standard base64. -/
  base64Decode : Bytes → Option Bytes
  base64Encode : Bytes → Text
  /-- The state of a zstd stream encoder, apart from the buffer it writes to. -/
  Encoder : Type
  /-- Starts an encoder at a compression level. -/
  encoderNew : ℤ → Option Encoder
  /-- Absorbs a chunk, and the bytes this appends to the encoder's buffer. -/
  encoderWrite : Encoder → Bytes → Option (Encoder × Bytes)
  /-- The bytes that end the stream. -/
  encoderFinish : Encoder → Option Bytes
  /-- Decompresses a whole zstd stream. -/
  zstdDecode : Bytes → Option Bytes
  /-- The public key of a 32-byte ed25519 seed. -/
  verifyingKey : Octets 32 → Octets 32
  /-- Whether 32 bytes encode a curve point, as a public key has to. -/
  isPoint : Octets 32 → Bool
  ed25519Sign : Octets 32 → Bytes → Octets 64
  ed25519Verify : Octets 32 → Bytes → Octets 64 → Bool

namespace Crates

variable [Crates]

/-- Everything an encoder still emits for the chunks to come. -/
def emitted : Encoder → List Bytes → Option Bytes
  | encoder, [] => encoderFinish encoder
  | encoder, chunk :: chunks => do
    let (encoder, produced) ← encoderWrite encoder chunk
    let rest ← emitted encoder chunks
    pure (produced ++ rest)

/-- The whole output for an input that arrives in chunks. -/
def compress (level : ℤ) (chunks : List Bytes) : Option Bytes := do
  let encoder ← encoderNew level
  emitted encoder chunks

/-- An encoder that has absorbed chunks, and what it emitted meanwhile. -/
def feed : Encoder → List Bytes → Option (Encoder × Bytes)
  | encoder, [] => some (encoder, [])
  | encoder, chunk :: chunks => do
    let (encoder, produced) ← encoderWrite encoder chunk
    let (encoder, rest) ← feed encoder chunks
    pure (encoder, produced ++ rest)

theorem feed_concat {encoder encoder' encoder'' : Encoder} {chunks : List Bytes}
    {chunk output produced : Bytes} (h : feed encoder chunks = some (encoder', output))
    (hwrite : encoderWrite encoder' chunk = some (encoder'', produced)) :
    feed encoder (chunks ++ [chunk]) = some (encoder'', output ++ produced) := by
  induction chunks generalizing encoder output with
  | nil =>
    obtain ⟨rfl, rfl⟩ := Prod.mk.inj (Option.some.inj h)
    simp [feed, hwrite]
  | cons first chunks ih =>
    rw [feed, Option.bind_eq_bind, Option.bind_eq_some_iff] at h
    obtain ⟨⟨next, start⟩, hfirst, h⟩ := h
    obtain ⟨⟨last, rest⟩, hrest, h⟩ := Option.bind_eq_some_iff.mp h
    obtain ⟨rfl, rfl⟩ := Prod.mk.inj (Option.some.inj h)
    rw [List.cons_append, feed, hfirst]
    simp [ih hrest]

theorem compress_of_feed {level : ℤ} {encoder encoder' : Encoder} {chunks : List Bytes}
    {output rest : Bytes} (hnew : encoderNew level = some encoder)
    (h : feed encoder chunks = some (encoder', output))
    (hfinish : encoderFinish encoder' = some rest) :
    compress level chunks = some (output ++ rest) := by
  have hemitted : ∀ encoder output, feed encoder chunks = some (encoder', output) →
      emitted encoder chunks = some (output ++ rest) := by
    clear hnew h encoder output
    induction chunks with
    | nil =>
      intro encoder output h
      obtain ⟨rfl, rfl⟩ := Prod.mk.inj (Option.some.inj h)
      exact hfinish
    | cons first chunks ih =>
      intro encoder output h
      rw [feed, Option.bind_eq_bind, Option.bind_eq_some_iff] at h
      obtain ⟨⟨next, start⟩, hfirst, h⟩ := h
      obtain ⟨⟨last, tail⟩, hrest, h⟩ := Option.bind_eq_some_iff.mp h
      obtain ⟨rfl, rfl⟩ := Prod.mk.inj (Option.some.inj h)
      rw [emitted, hfirst]
      simp [ih next tail hrest]
  rw [compress, hnew]
  exact hemitted encoder output h

/-! ## What the crates promise -/

/-- A finished stream decompresses to what was written. -/
def EncoderRoundTrips : Prop :=
  ∀ level chunks artifact, compress level chunks = some artifact →
    zstdDecode artifact = some chunks.flatten

/-- The output depends on the level and on the input, not on how it was chunked. -/
def EncoderIgnoresChunking : Prop :=
  ∀ level chunks, compress level chunks = compress level [chunks.flatten]

/-- Compression does not fail. -/
structure EncoderSucceeds : Prop where
  new : ∀ level, (encoderNew level).isSome
  write : ∀ encoder chunk, (encoderWrite encoder chunk).isSome
  finish : ∀ encoder, (encoderFinish encoder).isSome

/-- A finished stream has at least a frame header in it. -/
def EncoderEmits : Prop :=
  ∀ level chunks artifact, compress level chunks = some artifact → artifact ≠ []

/-- Hex is decoded in either case. -/
def HexDecodes : Prop :=
  ∀ bytes text, Hex.Spells bytes text → hexDecode (Text.utf8 text) = some bytes

/-- Base64 text is ASCII in one line, and decodes to the bytes it was made from. -/
structure Base64RoundTrips : Prop where
  decode : ∀ bytes, base64Decode (Text.utf8 (base64Encode bytes)) = some bytes
  plain : ∀ bytes, Text.Plain (base64Encode bytes)

/-- Base64 text is written in the standard alphabet, four characters for three bytes. -/
structure Base64Standard : Prop extends Base64RoundTrips where
  alphabet : ∀ bytes, ∀ c ∈ base64Encode bytes, c ∈ '=' :: Base64.alphabet
  length : ∀ bytes, (base64Encode bytes).length = (bytes.length + 2) / 3 * 4

theorem Base64Standard.unspaced (h : Base64Standard) (bytes : Bytes) :
    ∀ c ∈ base64Encode bytes, Text.isWhiteSpace c = false := by
  intro c hc
  have hall : ('=' :: Base64.alphabet).all (fun c ↦ !Text.isWhiteSpace c) = true := by decide
  exact Bool.eq_false_of_not_eq_true' (List.all_eq_true.mp hall c (h.alphabet bytes c hc))

/-- The public key of a seed is a curve point. -/
def SeedsHavePoints : Prop := ∀ seed, isPoint (verifyingKey seed) = true

/-- A signature verifies under the public half of the key that made it. -/
def SignaturesVerify : Prop :=
  ∀ seed message, ed25519Verify (verifyingKey seed) message (ed25519Sign seed message) = true

/-- No two of these byte strings have one digest. -/
def CollisionFree (inputs : Set Bytes) : Prop := Set.InjOn sha256 inputs

end Crates

end Bincache
