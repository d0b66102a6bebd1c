import Bincache.World

/-!
# The payload store

Content-addressed NAR files under `nar/`, uploads in flight under `staging/`. Committing is the only
way bytes become visible under `nar/`. Paths are relative to the store root. What the
program writes has texts for names; what it finds need not.

A `Staged` that is dropped before it was committed unlinks its file. Rust does that where the value
goes out of scope; here `drop` is called at those places, and its own failure is ignored.
-/

namespace Bincache

/-- A program over the operations of the cache that can fail. -/
abbrev Call (ε α : Type) := Attempt Ans ε α

def indexCall (op : IndexOp) : Call IndexError op.Value := ExceptT.mk (.call (.index op) .done)

def fileCall (op : FileOp) : Call IoError op.Value := ExceptT.mk (.call (.file op) .done)

namespace Store

/-- Holds every committed artifact. -/
def artifacts : Bytes := Text.utf8 "nar".toList

/-- Holds uploads that have not been committed. -/
def staging : Bytes := Text.utf8 "staging".toList

/-- Leading characters of the file hash used as a shard directory. -/
def shardLen : ℕ := 2

inductive Error
  | createDir (path : FilePath) (source : IoError)
  | open (path : FilePath) (source : IoError)
  | create (path : FilePath) (source : IoError)
  | metadata (path : FilePath) (source : IoError)
  | write (path : FilePath) (source : IoError)
  | read (path : FilePath) (source : IoError)
  | sync (path : FilePath) (source : IoError)
  | rename (path target : FilePath) (source : IoError)
  | remove (path : FilePath) (source : IoError)
  | list (path : FilePath) (source : IoError)
deriving DecidableEq

/-- Whether an unlink found anything. -/
inductive Removed
  | deleted
  | absent
deriving DecidableEq

/-- Creates the directory skeleton if it is not there. -/
def openAt : Call Error Unit :=
  [[], [artifacts], [staging]].forM fun path ↦
    (fileCall (.createDirAll path)).context (.createDir path)

/-- `nar/<shard>/<file hash>.nar<ext>`. -/
def path (url : NarUrl) : FilePath :=
  [artifacts, Text.utf8 (url.name.take shardLen), Text.utf8 url.name]

/-- An open artifact and the size a `Content-Length` needs. -/
structure Reader where
  inode : ℕ
  path : FilePath
  size : ℕ

/-- Opens an artifact; `none` when it is absent. -/
def read (url : NarUrl) : Call Error (Option Reader) := do
  match ← (fileCall (.open (path url))).result with
  | .error .notFound => pure none
  | .error source => throw (.open (path url) source)
  | .ok inode =>
    let size ← (fileCall (.metadata inode)).context (.metadata (path url))
    pure (some ⟨inode, path url, size⟩)

/-- Bytes of an open artifact from `offset` on: how many is up to the system, none at its end. -/
def Reader.readAt (reader : Reader) (offset : ℕ) : Call Error Bytes :=
  (fileCall (.readAt reader.inode offset)).context (.read reader.path)

structure Staged where
  inode : ℕ
  path : FilePath
  /-- How many bytes have been written: a 64-bit counter, of a file that is shorter than that. -/
  offset : ℕ

/-- The path a staging file gets from the process id and the ordinal it drew. -/
def stagedPath (pid ordinal : ℕ) : FilePath :=
  [staging, Text.utf8 (Text.decimal pid ++ '-' :: Text.decimal ordinal ++ ".nar".toList)]

def stage : Call Error Staged := do
  let ordinal ← Attempt.lift (.call .nextOrdinal .done)
  let pid ← Attempt.lift (.call .processId .done)
  let path := stagedPath pid ordinal
  let inode ← (fileCall (.create path)).context (.create path)
  pure ⟨inode, path, 0⟩

namespace Staged

variable (staged : Staged)

/-- Leaves an uncommitted upload: its file is unlinked if it can be. -/
def drop : Program Ans Unit := (fileCall (.remove staged.path)).run >>= fun _ ↦ .done ()

def write (bytes : Bytes) : Call Error Staged := do
  (fileCall (.writeAt staged.inode staged.offset bytes)).context (.write staged.path)
  pure { staged with offset := staged.offset + bytes.length }

/-- `fsync`, then rename into place. -/
def link (target : FilePath) : Call Error Unit := do
  (fileCall (.sync staged.inode)).context (.sync staged.path)
  (fileCall (.createDirAll target.dropLast)).context (.createDir target.dropLast)
  (fileCall (.rename staged.path target)).context (.rename staged.path target)

/-- Links the file into its content-addressed name. An upload that does not get there is dropped. -/
def commit (url : NarUrl) : Call Error ℕ := do
  Attempt.onError (staged.link (Store.path url)) staged.drop
  pure staged.offset

/-- Discards the upload. -/
def abort : Call Error Unit := do
  match ← (fileCall (.remove staged.path)).result with
  | .error .notFound => pure ()
  | .error source => throw (.remove staged.path source)
  | .ok () => pure ()

end Staged

def remove (url : NarUrl) : Call Error Removed := do
  match ← (fileCall (.remove (path url))).result with
  | .error .notFound => pure .absent
  | .error source => throw (.remove (path url) source)
  | .ok () => pure .deleted

/-- One directory level, as paths. -/
def entries (path : FilePath) : Call Error (List FilePath) := do
  let names ← (fileCall (.readDir path)).context (.list path)
  pure (names.map fun name ↦ path ++ [name])

/-- What a walk of `nar/` found. -/
structure Scan where
  artifacts : List NarUrl := []
  unrecognized : List FilePath := []

/-- Files a file under its URL, or as unrecognized when its name is none. -/
def Scan.add [Crates] (scan : Scan) (path : FilePath) : Scan :=
  match (path.getLast?.bind Text.fromUtf8).map NarUrl.parse with
  | some (.ok url) => { scan with artifacts := scan.artifacts ++ [url] }
  | _ => { scan with unrecognized := scan.unrecognized ++ [path] }

def scan [Crates] : Call Error Scan := do
  let shards ← entries [artifacts]
  shards.foldlM (fun scan shard ↦ do
    let files ← entries shard
    pure (files.foldl Scan.add scan)) {}

/-- Deletes staging files left by a crash. -/
def sweepStaging : Call Error ℕ := do
  let paths ← entries [staging]
  paths.foldlM (fun swept path ↦ do
    (fileCall (.remove path)).context (.remove path)
    pure (swept + 1)) 0

/-! ## Paths -/

theorem path_injective : Function.Injective path := by
  intro a b h
  rw [path, path, List.cons.injEq, List.cons.injEq, List.cons.injEq] at h
  exact NarUrl.name_injective (Text.utf8_injective h.2.2.1)

theorem stagedPath_ne_path (pid ordinal : ℕ) (url : NarUrl) :
    stagedPath pid ordinal ≠ path url := by
  intro h
  rw [stagedPath, path, List.cons.injEq] at h
  exact absurd h.1 (by decide)

theorem stagedPath_injective (pid : ℕ) : Function.Injective (stagedPath pid) := by
  intro a b h
  rw [stagedPath, stagedPath, List.cons.injEq, List.cons.injEq] at h
  have hname := Text.utf8_injective h.2.1
  rw [List.append_left_inj, List.append_right_inj, List.cons.injEq] at hname
  exact Text.decimal_injective hname.2

end Store

end Bincache
