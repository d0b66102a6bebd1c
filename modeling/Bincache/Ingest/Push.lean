import Bincache.Core.NarInfoParse
import Bincache.Ingest.Upload

/-!
# The two halves of a push

`receive` opens an upload for a `PUT` of a NAR and `publish` is the `PUT` of its narinfo. Every
field that describes the payload is taken from what was received, and the client's own signatures
are dropped: the signing key is here and nowhere else.
-/

namespace Bincache

/-- The write side of a cache. The store and the index are the world's. -/
structure Ingest where
  key : SecretKey
  dir : Dir
  level : Level

namespace Ingest

inductive Error
  | preCompressed (declared : Compression)
  | stage (source : Store.Error)
  | upload (source : Upload.Error)
  | narinfo (source : NarInfo.ParseError)
  | unknownNar (narHash : Sha256)
  | narSizeMismatch (declared received : ℕ+)
  | index (source : IndexError)
deriving DecidableEq

namespace Error

def fault : Error → Fault
  | preCompressed _ => .client
  | narinfo _ => .client
  | unknownNar _ => .client
  | narSizeMismatch _ _ => .client
  | stage _ => .server
  | index _ => .server
  | upload source => source.fault

def message : Error → Text
  | preCompressed declared =>
    "bincache receives uncompressed NARs and compresses them itself; this upload declares ".toList
      ++ declared.render ++ ". Point the client at the cache with `?compression=none`.".toList
  | stage _ => "the staging file could not be opened".toList
  | upload _ => "the upload could not be started".toList
  | narinfo _ => "the narinfo body is malformed".toList
  | unknownNar narHash => "no NAR with hash ".toList ++ narHash.render
      ++ " has been uploaded, so there is nothing to publish".toList
  | narSizeMismatch declared received => "the narinfo declares NarSize ".toList
      ++ Text.decimal declared ++ " but the uploaded NAR is ".toList ++ Text.decimal received
      ++ " bytes".toList
  | index _ => "the index rejected the write".toList

end Error

variable [Crates] (ingest : Ingest)

/-- Opens an upload. The target must name an uncompressed NAR. -/
def receive (target : NarUrl) : Call Error (Upload Upload.Receiving) :=
  if target.compression = .none then do
    let staged ← Store.stage.context .stage
    (Upload.new staged target.fileHash ingest.level).context .upload
  else throw (.preCompressed target.compression)

/-- The record that is published for what a body declares and what was received. -/
def record (declared : NarInfo) (entry : Entry) : NarInfo :=
  NarInfo.resign
    { storePath := declared.storePath
      compression := entry.compression
      fileHash := entry.fileHash
      fileSize := entry.fileSize
      narHash := declared.narHash
      narSize := declared.narSize
      references := declared.references
      deriver := declared.deriver
      sigs := []
      ca := declared.ca } ingest.dir ingest.key

/-- What follows the lookup of the NAR a body declares. -/
def publishEntry (declared : NarInfo) (entry : Option Entry) : Call Error NarInfo :=
  match entry with
  | none => throw (.unknownNar declared.narHash)
  | some entry =>
    if entry.narSize = declared.narSize then do
      let record := ingest.record declared entry
      (indexCall (.publish record)).context .index
      pure record
    else throw (.narSizeMismatch declared.narSize entry.narSize)

def publish (body : Text) : Call Error NarInfo := do
  let declared ← (Attempt.ofExcept (NarInfo.parse body ingest.dir)).context .narinfo
  let entry ← (indexCall (.nar declared.narHash)).context .index
  ingest.publishEntry declared entry

/-- A body is published when it parses and a NAR of the size it declares was received. -/
structure Publishable (nar : Sha256 → Option Entry) (body : Text) (declared : NarInfo)
    (entry : Entry) : Prop where
  parsed : NarInfo.parse body ingest.dir = .ok declared
  stored : nar declared.narHash = some entry
  narSize : entry.narSize = declared.narSize

theorem publish_of_error {body : Text} {error : NarInfo.ParseError}
    (h : NarInfo.parse body ingest.dir = .error error) :
    (ingest.publish body).run = .done (.error (.narinfo error)) := by
  rw [publish, h]
  rfl

theorem publish_of_ok {body : Text} {declared : NarInfo}
    (h : NarInfo.parse body ingest.dir = .ok declared) :
    (ingest.publish body).run = ((indexCall (.nar declared.narHash)).context .index >>= fun entry ↦
      ingest.publishEntry declared entry).run := by
  rw [publish, h]
  rfl

end Ingest

end Bincache
