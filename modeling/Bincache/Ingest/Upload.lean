import Bincache.Store

/-!
# The upload pipeline

A typestate machine: an upload receives, is compressed, is verified, and only a verified one can be
stored. Both digests run on the way: `nar` over what arrived, `file` over what is written out. What
the bytes must hash to comes from the request target, not from the body.
-/

namespace Bincache

/-- Whether a refusal blames the request or the server that received it. -/
inductive Fault
  | client
  | server
deriving DecidableEq

/-- The algorithm everything is stored as. -/
def storedAs : Compression := .zstd

structure Level where
  get : ℤ
  range : -7 ≤ get ∧ get ≤ 22

def Level.new (level : ℤ) : Option Level :=
  if h : -7 ≤ level ∧ level ≤ 22 then some ⟨level, h⟩ else none

namespace Upload

/-- Compressed output is drained into the staging file once this much has piled up. -/
def drainThreshold : ℕ := 256 * 1024

inductive Error
  | stage (source : Store.Error)
  | compress
  | hashMismatch (expected found : Sha256)
  | empty
  | record (source : IndexError)
deriving DecidableEq

namespace Error

/-- A hash mismatch and an empty NAR are statements about the bytes the client sent. -/
def fault : Error → Fault
  | hashMismatch _ _ => .client
  | empty => .client
  | stage _ => .server
  | compress => .server
  | record _ => .server

def message : Error → Text
  | stage _ => "the staging file could not be written".toList
  | compress => "zstd compression failed".toList
  | hashMismatch expected found => "uploaded bytes hash to ".toList ++ found.render
      ++ " but the request target declares ".toList ++ expected.render
  | empty => "an uploaded NAR must not be empty; nix rejects a zero NarSize".toList
  | record _ => "recording the stored artifact failed".toList

end Error

variable [Crates]

/-- Bytes arriving, being hashed and compressed on the way to staging. -/
structure Receiving where
  encoder : Crates.Encoder
  /-- What the encoder has produced and nobody has drained. -/
  produced : Bytes
  nar : Hasher
  file : Hasher
  /-- A 64-bit counter. In an exchange it is at most the declared length of the body, which is
  below `2 ^ 64`, so it never wraps; chunks that come from elsewhere have to stay below that too. -/
  narSize : ℕ

omit [Crates] in
/-- Both hashes and both sizes are final. -/
structure Compressed where
  narHash : Sha256
  narSize : ℕ
  fileHash : Sha256
  fileSize : ℕ

omit [Crates] in
/-- The received bytes hash to what the request target declared. -/
structure Verified where
  narHash : Sha256
  narSize : ℕ+
  fileHash : Sha256
  fileSize : ℕ

end Upload

structure Upload (S : Type) where
  staged : Store.Staged
  /-- What the request target says the uncompressed body hashes to. -/
  expected : Sha256
  state : S

namespace Upload

variable [Crates]

def new (staged : Store.Staged) (expected : Sha256) (level : Level) :
    Call Error (Upload Receiving) :=
  match Crates.encoderNew level.get with
  | some encoder => pure ⟨staged, expected, ⟨encoder, [], {}, {}, 0⟩⟩
  | none => do
    Attempt.lift staged.drop
    throw .compress

/-- The upload after what the encoder produced was moved to the staging file. -/
def drained (upload : Upload Receiving) (staged : Store.Staged) : Upload Receiving :=
  { upload with
    staged, state := { upload.state with
      produced := [], file := upload.state.file.update upload.state.produced } }

/-- Moves what the encoder has produced out of memory and into staging. -/
def drain (upload : Upload Receiving) : Call Error (Upload Receiving) :=
  let produced := upload.state.produced
  if produced = [] then pure upload
  else do
    let staged ← (upload.staged.write produced).context .stage
    pure (upload.drained staged)

/-- The upload after the encoder took a chunk. -/
def absorbed (upload : Upload Receiving) (chunk : Bytes) (encoder : Crates.Encoder)
    (output : Bytes) : Upload Receiving :=
  { upload with
    state := { upload.state with
      encoder, produced := upload.state.produced ++ output,
      nar := upload.state.nar.update chunk,
      narSize := upload.state.narSize + chunk.length } }

def write (upload : Upload Receiving) (chunk : Bytes) : Call Error (Upload Receiving) :=
  match Crates.encoderWrite upload.state.encoder chunk with
  | none => throw .compress
  | some (encoder, output) =>
    let upload := upload.absorbed chunk encoder output
    if drainThreshold ≤ upload.state.produced.length then upload.drain else pure upload

/-- Drains the encoder for the last time, and what ending the stream emits. -/
def flush (upload : Upload Receiving) : Call Error (Upload Compressed) := do
  let upload ← upload.drain
  match Crates.encoderFinish upload.state.encoder with
  | none => throw .compress
  | some rest =>
    let tail := upload.state.produced ++ rest
    let file := upload.state.file.update tail
    let staged ← (upload.staged.write tail).context .stage
    pure ⟨staged, upload.expected, upload.state.nar.finish, upload.state.narSize, file.finish,
      staged.offset⟩

/-- Flushes the encoder. After this the hash that names the artifact is known. An upload that does
not get there is dropped. -/
def finish (upload : Upload Receiving) : Call Error (Upload Compressed) :=
  Attempt.onError upload.flush upload.staged.drop

/-- The gate. An upload that does not pass is dropped. -/
def verify (upload : Upload Compressed) : Call Error (Upload Verified) :=
  let { narHash, narSize, fileHash, fileSize } := upload.state
  Attempt.onError
    (if narHash = upload.expected then
      if h : 0 < narSize then
        pure ⟨upload.staged, upload.expected, narHash, ⟨narSize, h⟩, fileHash, fileSize⟩
      else throw .empty
    else throw (.hashMismatch upload.expected narHash)) upload.staged.drop

/-- `fsync` and rename into the content-addressed name, then the record of where the NAR landed. -/
def store (upload : Upload Verified) : Call Error Entry := do
  let { narHash, narSize, fileHash, fileSize } := upload.state
  let _ ← (upload.staged.commit ⟨fileHash, storedAs⟩).context .stage
  let entry : Entry := ⟨fileHash, fileSize, narSize, storedAs⟩
  (indexCall (.putNar narHash entry)).context .record
  pure entry

def abort {S : Type} (upload : Upload S) : Call Error Unit := upload.staged.abort.context .stage

/-! ## What an upload has absorbed -/

/-- The upload has absorbed `chunks` and drained `data` of what the encoder emitted for them. -/
structure Fed (level : Level) (upload : Upload Receiving) (chunks : List Bytes) (data : Bytes) :
    Prop where
  encoder : ∃ start, Crates.encoderNew level.get = some start ∧
    Crates.feed start chunks = some (upload.state.encoder, data ++ upload.state.produced)
  nar : upload.state.nar.absorbed = chunks.flatten
  file : upload.state.file.absorbed = data
  narSize : upload.state.narSize = chunks.flatten.length

/-- The upload has absorbed `chunks`, and `artifact` is all the encoder emitted for them. -/
structure Packed (level : Level) (upload : Upload Compressed) (chunks : List Bytes)
    (artifact : Bytes) : Prop where
  compressed : Crates.compress level.get chunks = some artifact
  narHash : upload.state.narHash = .digest chunks.flatten
  narSize : upload.state.narSize = chunks.flatten.length
  fileHash : upload.state.fileHash = .digest artifact
  fileSize : upload.state.fileSize = artifact.length

/-- What a verified upload vouches for. -/
structure Vouches (level : Level) (expected : Sha256) (upload : Upload Verified)
    (chunks : List Bytes) (artifact : Bytes) : Prop where
  compressed : Crates.compress level.get chunks = some artifact
  narHash : upload.state.narHash = expected
  expected : expected = .digest chunks.flatten
  narSize : (upload.state.narSize : ℕ) = chunks.flatten.length
  fileHash : upload.state.fileHash = .digest artifact
  fileSize : upload.state.fileSize = artifact.length

variable {level : Level} {upload : Upload Receiving} {chunks : List Bytes} {data : Bytes}

theorem fed_nil {encoder : Crates.Encoder} (h : Crates.encoderNew level.get = some encoder)
    (staged : Store.Staged) (expected : Sha256) :
    Fed level ⟨staged, expected, ⟨encoder, [], {}, {}, 0⟩⟩ [] [] :=
  ⟨⟨encoder, h, rfl⟩, rfl, rfl, rfl⟩

theorem Fed.absorbed (h : Fed level upload chunks data) {chunk output : Bytes}
    {encoder : Crates.Encoder}
    (hwrite : Crates.encoderWrite upload.state.encoder chunk = some (encoder, output)) :
    Fed level (upload.absorbed chunk encoder output) (chunks ++ [chunk]) data := by
  obtain ⟨start, hnew, hfeed⟩ := h.encoder
  refine ⟨⟨start, hnew, ?_⟩, ?_, h.file, ?_⟩
  · rw [Crates.feed_concat hfeed hwrite, Upload.absorbed, List.append_assoc]
  · rw [List.flatten_concat, ← h.nar]
    rfl
  · rw [List.flatten_concat, List.length_append, ← h.narSize]
    rfl

theorem Fed.drained (h : Fed level upload chunks data) (staged : Store.Staged) :
    Fed level (upload.drained staged) chunks (data ++ upload.state.produced) := by
  obtain ⟨start, hnew, hfeed⟩ := h.encoder
  refine ⟨⟨start, hnew, ?_⟩, h.nar, ?_, h.narSize⟩
  · rw [Upload.drained, List.append_nil]
    exact hfeed
  · rw [← h.file]
    rfl

theorem Fed.packed (h : Fed level upload chunks data) {rest : Bytes}
    (hfinish : Crates.encoderFinish upload.state.encoder = some rest) (staged : Store.Staged)
    (hoffset : staged.offset = (data ++ (upload.state.produced ++ rest)).length) :
    Packed level ⟨staged, upload.expected, upload.state.nar.finish, upload.state.narSize,
      (upload.state.file.update (upload.state.produced ++ rest)).finish, staged.offset⟩ chunks
      (data ++ (upload.state.produced ++ rest)) := by
  obtain ⟨start, hnew, hfeed⟩ := h.encoder
  refine ⟨?_, ?_, h.narSize, ?_, hoffset⟩
  · rw [Crates.compress_of_feed hnew hfeed hfinish, List.append_assoc]
  · rw [← h.nar]
    rfl
  · rw [← h.file]
    rfl

/-- The gate passes the upload on, or blames the client for what is wrong with it. -/
theorem Packed.verify {upload : Upload Compressed} {artifact : Bytes}
    (h : Packed level upload chunks artifact) :
    (∃ verified, upload.verify = Attempt.onError (pure verified) upload.staged.drop
        ∧ verified.staged = upload.staged
        ∧ Vouches level upload.expected verified chunks artifact ∧ chunks.flatten ≠ [])
      ∨ ∃ error : Error, upload.verify = Attempt.onError (throw error) upload.staged.drop
        ∧ error.fault = .client
        ∧ (upload.expected ≠ .digest chunks.flatten ∨ chunks.flatten = []) := by
  rw [Upload.verify]
  dsimp only
  have hnarHash := h.narHash
  have hnarSize := h.narSize
  by_cases hhash : upload.state.narHash = upload.expected
  · rw [if_pos hhash]
    by_cases hpos : 0 < upload.state.narSize
    · rw [dif_pos hpos]
      refine .inl ⟨_, rfl, rfl, ⟨h.compressed, hhash, ?_, hnarSize, h.fileHash, h.fileSize⟩, ?_⟩
      · rw [← hhash, hnarHash]
      · rintro hnil
        rw [hnarSize, hnil] at hpos
        exact hpos.false
    · rw [dif_neg hpos]
      refine .inr ⟨.empty, rfl, rfl, .inr ?_⟩
      rw [hnarSize] at hpos
      exact List.length_eq_zero_iff.mp (Nat.eq_zero_of_not_pos hpos)
  · rw [if_neg hhash]
    refine .inr ⟨_, rfl, rfl, .inl fun heq ↦ hhash ?_⟩
    rw [hnarHash, heq]

end Upload

end Bincache
