import Bincache.Serve.Handler

/-!
# A small cache to evaluate on

One instance of the crates that keeps all their promises, with their real values on a single small
push: a NAR of one byte, the zstd stream a fresh encoder makes of it, the token `t` and an ed25519
key with a seed of zeros. Elsewhere the digest is the input itself cut or filled to 32 bytes, and a
signature is the length of the text and its end, so that texts which differ in one of the two are
told apart.
-/

namespace Bincache

namespace Specimen

def nar : Bytes := [120]

/-- A zstd frame with a single raw block, as the stream encoder writes short input. -/
def frame (bytes : Bytes) : Bytes :=
  let header := bytes.length * 8 + 1
  [40, 181, 47, 253, 0, 88, UInt8.ofNat header, UInt8.ofNat (header / 256),
    UInt8.ofNat (header / 65536)] ++ bytes

def narDigest : Octets 32 :=
  ⟨[45, 113, 22, 66, 183, 38, 176, 68, 1, 98, 124, 169, 251, 172, 50, 245, 200, 83, 15, 177, 144,
    60, 196, 219, 2, 37, 135, 23, 146, 26, 72, 129], rfl⟩

def frameDigest : Octets 32 :=
  ⟨[71, 165, 115, 112, 236, 144, 126, 61, 97, 232, 85, 31, 2, 41, 64, 254, 245, 190, 88, 17, 25,
    194, 177, 147, 143, 147, 249, 167, 115, 220, 229, 41], rfl⟩

def token : Text := ['t']

def tokenDigest : Octets 32 :=
  ⟨[227, 185, 138, 77, 163, 26, 18, 125, 75, 222, 110, 67, 3, 63, 102, 186, 39, 76, 171, 14, 183,
    235, 28, 112, 236, 65, 64, 43, 246, 39, 61, 216], rfl⟩

/-- The public key of the seed of zeros. -/
def point : Octets 32 :=
  ⟨[59, 106, 39, 188, 206, 182, 164, 45, 98, 163, 168, 208, 42, 111, 13, 115, 101, 50, 21, 119, 29,
    226, 67, 166, 58, 192, 72, 161, 139, 89, 218, 41], rfl⟩

def zeros (n : ℕ) : Octets n := List.Vector.replicate n 0

/-- Its signature over `signed`. -/
def signature : Octets 64 :=
  ⟨[136, 210, 121, 55, 12, 212, 227, 45, 52, 85, 151, 219, 186, 143, 239, 189, 113, 100, 219, 222,
    50, 23, 51, 122, 101, 226, 215, 206, 177, 239, 164, 186, 118, 227, 136, 238, 200, 96, 250, 248,
    249, 218, 120, 31, 241, 212, 221, 199, 84, 74, 166, 75, 23, 82, 94, 70, 40, 209, 14, 119, 10,
    254, 148, 5], rfl⟩

/-- The digest of the NAR, as it is written. -/
def digits : Text :=
  "10a83a91g1r50bdw".toList ++ "8g4hn47m7j7m6ang".toList ++ "pabwc80l9c16nx11cw9d".toList

/-- How the hashes of `path` and of `stranger` are written. -/
def stem : Text := List.replicate 32 '0'

def strangerStem : Text := List.replicate 31 '0' ++ ['1']

/-- The fingerprint of the record the push publishes. -/
def signed : Text :=
  "1;/nix/store/".toList ++ stem ++ "-a;sha256:".toList ++ digits ++ ";1;".toList

/-- What stands in for the digest of any other input. -/
def fill (bytes : Bytes) : Octets 32 :=
  ⟨bytes.takeD 32 0, List.takeD_length 32 bytes 0⟩

/-- What stands in for the signature over any other text. -/
def mark (message : Bytes) : Octets 64 :=
  ⟨UInt8.ofNat message.length :: message.reverse.takeD 63 0, by simp⟩

def sign (message : Bytes) : Octets 64 :=
  if message = Text.utf8 signed then signature else mark message

/-- The crates on the specimen. -/
scoped instance crates : Crates where
  sha256 bytes :=
    if bytes = nar then narDigest
    else if bytes = frame nar then frameDigest
    else if bytes = Text.utf8 token then tokenDigest
    else fill bytes
  hexDecode _ := none
  base64Decode _ := none
  base64Encode bytes :=
    if bytes = signature.1 then
      "iNJ5NwzU4y00VZfbuo/vvXFk".toList ++ "294yFzN6ZeLXzrHvpLp244ju".toList
        ++ "yGD6+PnaeB/x1N3HVEqmSxdS".toList ++ "XkYo0Q53Cv6UBQ==".toList
    else []
  Encoder := Bytes
  encoderNew _ := some []
  encoderWrite absorbed chunk := some (absorbed ++ chunk, [])
  encoderFinish absorbed := some (frame absorbed)
  zstdDecode bytes := if bytes.take 6 = [40, 181, 47, 253, 0, 88] then some (bytes.drop 9) else none
  verifyingKey _ := point
  isPoint key := key = point
  ed25519Sign _ message := sign message
  ed25519Verify key message signature := key = point ∧ signature = sign message

/-! ## Its promises -/

private theorem emitted_eq (absorbed : Bytes) (chunks : List Bytes) :
    @Crates.emitted crates absorbed chunks = some (frame (absorbed ++ chunks.flatten)) := by
  induction chunks generalizing absorbed with
  | nil => simp [Crates.emitted, Crates.encoderFinish]
  | cons chunk chunks ih =>
    have := ih (absorbed ++ chunk)
    rw [List.append_assoc] at this
    simp [Crates.emitted, Crates.encoderWrite, this]

theorem compress_eq (level : ℤ) (chunks : List Bytes) :
    Crates.compress level chunks = some (frame chunks.flatten) := by
  exact emitted_eq [] chunks

theorem encoderRoundTrips : Crates.EncoderRoundTrips := by
  intro level chunks artifact h
  obtain rfl := Option.some.inj ((compress_eq level chunks).symm.trans h)
  rfl

theorem encoderIgnoresChunking : Crates.EncoderIgnoresChunking := by
  intro level chunks
  simp [compress_eq]

theorem encoderEmits : Crates.EncoderEmits := by
  intro level chunks artifact h
  obtain rfl := Option.some.inj ((compress_eq level chunks).symm.trans h)
  exact List.append_ne_nil_of_left_ne_nil (List.cons_ne_nil _ _) _

theorem encoderSucceeds : Crates.EncoderSucceeds := ⟨fun _ ↦ rfl, fun _ _ ↦ rfl, fun _ ↦ rfl⟩

theorem signaturesVerify : Crates.SignaturesVerify := by
  intro seed message
  simp [Crates.ed25519Verify, Crates.verifyingKey, Crates.ed25519Sign]

def key : SecretKey := ⟨['k'], zeros 32⟩

def dir : Dir := ⟨"/nix/store".toList, by constructor <;> decide⟩

private theorem legal_letter : StorePath.LegalName ['a'] := by
  have hutf8 : Text.utf8 ['a'] = [97] := by decide
  refine ⟨by decide, by decide, by decide, ?_⟩
  rw [hutf8, List.forall_mem_singleton]
  decide

def path : StorePath := ⟨⟨zeros 20⟩, ⟨['a'], legal_letter⟩⟩

def stranger : StorePath.Hash := ⟨⟨1 :: List.replicate 19 0, rfl⟩⟩

def declared : NarInfo where
  storePath := path
  compression := .none
  fileHash := ⟨narDigest⟩
  fileSize := 1
  narHash := ⟨narDigest⟩
  narSize := 1
  references := []
  deriver := none
  sigs := []
  ca := none

/-- The body of the push, as a client renders it before it knows how the artifact is stored. -/
def body : Text :=
  "StorePath: /nix/store/".toList ++ stem ++ "-a\n".toList
    ++ "URL: nar/".toList ++ digits ++ ".nar\nCompression: none\n".toList
    ++ "FileHash: sha256:".toList ++ digits ++ "\nFileSize: 1\n".toList
    ++ "NarHash: sha256:".toList ++ digits ++ "\nNarSize: 1\n".toList
    ++ "References: \n".toList

theorem parse_body : NarInfo.parse body dir = .ok declared := by decide +kernel

def ingest : Ingest := ⟨key, dir, ⟨3, by decide⟩⟩

/-- The row of the uploaded NAR. -/
def entry : Entry := ⟨⟨frameDigest⟩, 10, 1, .zstd⟩

/-- The index after the upload and before the publish. -/
def uploaded : Index := Index.empty.putNar ⟨narDigest⟩ entry

theorem publishable : ingest.Publishable uploaded.nar body declared entry :=
  ⟨parse_body, (Index.nar_putNar _ _ _ _).trans (if_pos rfl), rfl⟩

/-- A process that has just started on an index and a file system. -/
def world (index : Index) (fs : FileSystem) : World := ⟨index, fs, 0, 0, fun _ ↦ {}⟩

/-! ## Requests for it -/

def cache : Cache := ⟨ingest, .new [token], [], 1⟩

/-- A request on a kept connection. -/
def request (method : Http.Method) (target : Text) (framing : Http.Framing) : Http.Request :=
  ⟨method, target, framing, .keep, .none, none, none⟩

def artifact : Text :=
  "/nar/0ag5virsgyckiy9v3hhr25cbxxgy80lh47smx1hkszlhxiq779a7.nar.zst".toList

theorem resolve_artifact : Route.resolve artifact = .ok (.nar entry.url) := by decide +kernel

/-- A payload tree with this file as the artifact. -/
def stored (file : File) : FileSystem :=
  let created := FileSystem.empty.create (Store.path entry.url)
  created.1.setFile created.2 file

theorem lookup_stored (file : File) : (stored file).lookup (Store.path entry.url) = some file :=
  (FileSystem.lookup_setFile (FileSystem.names_create _ _).link file _).trans (if_pos rfl)

end Specimen

end Bincache
