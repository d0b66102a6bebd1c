import Bincache.Index
import Bincache.Lib.Attempt

/-!
# What the program acts on

Everything outside the program's own values: the committed index, the file system under the store
root, the process (its id, the counter that names staging files and the per-shard statistics), and
the peer at the other end of a socket. The program reaches it through `Op` only, one index
transaction, one file operation or one socket operation at a time.

`effect` says what an operation does under a `Choice`, the part the environment settles: whether the
operation fails, how many bytes a read delivers, in which order a directory lists. An environment is
a set of allowed choices: in a `fair` one nothing fails, in a `hostile` one anything may.
-/

namespace Bincache

/-! ## Statistics -/

/-- The counters of one shard, or their sums. -/
structure Totals where
  requests : ℕ := 0
  metadataHits : ℕ := 0
  metadataMisses : ℕ := 0
  payloadBytes : ℕ := 0
  uploads : ℕ := 0
  rejections : ℕ := 0
deriving DecidableEq

inductive Counter
  | requests | metadataHits | metadataMisses | payloadBytes | uploads | rejections
deriving DecidableEq

namespace Totals

/-- Counters are 64 bits wide and wrap. -/
private def wrap (n : ℕ) : ℕ := n % 2 ^ 64

def bump (totals : Totals) (counter : Counter) (amount : ℕ) : Totals :=
  match counter with
  | .requests => { totals with requests := wrap (totals.requests + amount) }
  | .metadataHits => { totals with metadataHits := wrap (totals.metadataHits + amount) }
  | .metadataMisses => { totals with metadataMisses := wrap (totals.metadataMisses + amount) }
  | .payloadBytes => { totals with payloadBytes := wrap (totals.payloadBytes + amount) }
  | .uploads => { totals with uploads := wrap (totals.uploads + amount) }
  | .rejections => { totals with rejections := wrap (totals.rejections + amount) }

def add (a b : Totals) : Totals where
  requests := wrap (a.requests + b.requests)
  metadataHits := wrap (a.metadataHits + b.metadataHits)
  metadataMisses := wrap (a.metadataMisses + b.metadataMisses)
  payloadBytes := wrap (a.payloadBytes + b.payloadBytes)
  uploads := wrap (a.uploads + b.uploads)
  rejections := wrap (a.rejections + b.rejections)

end Totals

/-! ## States -/

/-- What the requests of a cache share. -/
structure World where
  index : Index
  fs : FileSystem
  /-- The id of the running process. -/
  pid : ℕ
  /-- The next staging ordinal. It counts uploads of one process in 64 bits, so it never wraps. -/
  sequence : ℕ
  /-- The counters of each shard. -/
  stats : ℕ → Totals

/-- The other end of a socket: what it has sent that nobody read yet, before it closes its side, and
what was written to it. -/
structure Peer where
  unread : Bytes
  written : Bytes := []
deriving DecidableEq

/-- The state one request acts on. -/
abbrev Site := World × Peer

/-! ## Operations -/

/-- A failed transaction. Which of its steps failed is nothing any caller looks at. -/
inductive IndexError
  | failed
deriving DecidableEq

/-- A failed file or socket operation. The only kind the program tells apart is a missing file. -/
inductive IoError
  | notFound
  | other
deriving DecidableEq

inductive IndexOp
  | narinfo (key : StorePath.Hash)
  | nar (narHash : Sha256)
  | putNar (narHash : Sha256) (entry : Entry)
  | publish (record : NarInfo)
  | republish (records : List NarInfo)
  | unpublish (key : StorePath.Hash)
  | records
  | count

inductive FileOp
  | createDirAll (path : FilePath)
  | create (path : FilePath)
  | writeAt (inode offset : ℕ) (bytes : Bytes)
  | sync (inode : ℕ)
  | rename (path target : FilePath)
  | remove (path : FilePath)
  | open (path : FilePath)
  | metadata (inode : ℕ)
  | readAt (inode offset : ℕ)
  | readDir (path : FilePath)

inductive Op
  | index (op : IndexOp)
  | file (op : FileOp)
  /-- Reads from the socket; no byte means the peer closed its side. -/
  | recv
  /-- Writes all of a byte string to the socket. -/
  | send (bytes : Bytes)
  | processId
  /-- Takes the next staging ordinal. -/
  | nextOrdinal
  | bump (shard : ℕ) (counter : Counter) (amount : ℕ)
  /-- Sums the counters of the first shards. -/
  | totals (shards : ℕ)

@[reducible] def IndexOp.Value : IndexOp → Type
  | narinfo _ => Option NarInfo
  | nar _ => Option Entry
  | putNar _ _ => Unit
  | publish _ => Unit
  | republish _ => Unit
  | unpublish _ => Option NarInfo
  | records => List NarInfo
  | count => ℕ

@[reducible] def FileOp.Value : FileOp → Type
  | createDirAll _ => Unit
  | create _ => ℕ
  | writeAt _ _ _ => Unit
  | sync _ => Unit
  | rename _ _ => Unit
  | remove _ => Unit
  | «open» _ => ℕ
  | metadata _ => ℕ
  | readAt _ _ => Bytes
  | readDir _ => List Bytes

@[reducible] def Ans : Op → Type
  | .index op => Except IndexError op.Value
  | .file op => Except IoError op.Value
  | .recv => Except IoError Bytes
  | .send _ => Except IoError Unit
  | .processId => ℕ
  | .nextOrdinal => ℕ
  | .bump _ _ _ => Unit
  | .totals _ => Totals

/-! ## Effects -/

/-- What the environment settles about one operation. -/
structure Choice where
  fails : Bool := false
  /-- How many bytes a read delivers, one more than this, or a failing write gets through. -/
  count : ℕ := 0
  /-- How a directory lists. -/
  names : List Bytes := []

def IndexOp.run : (op : IndexOp) → Index → op.Value × Index
  | narinfo key, index => (index.narinfo key, index)
  | nar narHash, index => (index.nar narHash, index)
  | putNar narHash entry, index => ((), index.putNar narHash entry)
  | publish record, index => ((), index.publish record)
  | republish batch, index => ((), index.republish batch)
  | unpublish key, index => index.unpublish key
  | records, index => (index.records, index)
  | count, index => (index.count, index)

/-- What is left of a file operation that failed: of a write, some of its bytes. -/
def FileOp.runFailing (choice : Choice) : FileOp → FileSystem → FileSystem
  | writeAt inode offset bytes, fs => fs.writeAt inode offset (bytes.take choice.count)
  | _, fs => fs

/-- A file operation that finds nothing wrong but, perhaps, a missing file; `none` for a choice that
does not describe the directory it lists. -/
def FileOp.run (choice : Choice) :
    (op : FileOp) → FileSystem → Option (Except IoError op.Value × FileSystem)
  | createDirAll path, fs => some (.ok (), fs.createDirAll path)
  | create path, fs =>
    if path.dropLast ∈ fs.dirs then some (.ok (fs.create path).2, (fs.create path).1)
    else some (.error .notFound, fs)
  | writeAt inode offset bytes, fs => some (.ok (), fs.writeAt inode offset bytes)
  | sync _, fs => some (.ok (), fs)
  | rename path target, fs =>
    if target.dropLast ∈ fs.dirs then
      match fs.rename path target with
      | some fs' => some (.ok (), fs')
      | none => some (.error .notFound, fs)
    else some (.error .notFound, fs)
  | remove path, fs =>
    if path ∈ fs.links then some (.ok (), fs.unlink path) else some (.error .notFound, fs)
  | «open» path, fs =>
    match fs.links.lookup path with
    | some inode => some (.ok inode, fs)
    | none => some (.error .notFound, fs)
  | metadata inode, fs => some (.ok (fs.files inode).size, fs)
  | readAt inode offset, fs =>
    some (.ok (((fs.files inode).data.drop offset).take (choice.count + 1)), fs)
  | readDir path, fs =>
    if path ∈ fs.dirs then
      if choice.names.Nodup ∧ choice.names.toFinset = fs.children path then
        some (.ok choice.names, fs)
      else none
    else some (.error .notFound, fs)

/-- What an operation does: its answer and the state after it. -/
def effect (choice : Choice) : (op : Op) → Site → Option (Ans op × Site)
  | .index op, (world, peer) =>
    if choice.fails then some (.error .failed, world, peer)
    else
      let (value, index) := op.run world.index
      some (.ok value, { world with index }, peer)
  | .file op, (world, peer) =>
    if choice.fails then
      some (.error .other, { world with fs := op.runFailing choice world.fs }, peer)
    else (op.run choice world.fs).map fun (result, fs) ↦ (result, { world with fs }, peer)
  | .recv, (world, peer) =>
    if choice.fails then some (.error .other, world, peer)
    else some (.ok (peer.unread.take (choice.count + 1)), world,
      { peer with unread := peer.unread.drop (choice.count + 1) })
  | .send bytes, (world, peer) =>
    if choice.fails then
      some (.error .other, world, { peer with written := peer.written ++ bytes.take choice.count })
    else some (.ok (), world, { peer with written := peer.written ++ bytes })
  | .processId, (world, peer) => some (world.pid, world, peer)
  | .nextOrdinal, (world, peer) =>
    some (world.sequence, { world with sequence := world.sequence + 1 }, peer)
  | .bump shard counter amount, (world, peer) =>
    some ((), { world with
      stats := Function.update world.stats shard ((world.stats shard).bump counter amount) }, peer)
  | .totals shards, (world, peer) =>
    some (((List.range shards).map world.stats).foldl Totals.add {}, world, peer)

/-- Which choices an environment makes. -/
inductive Env
  /-- No operation fails. -/
  | fair
  /-- Any operation may fail. -/
  | hostile
deriving DecidableEq

def Env.Allows : Env → Choice → Prop
  | fair, choice => choice.fails = false
  | hostile, _ => True

/-- What an operation may do in an environment. -/
def step (env : Env) : Interpretation Ans Site := fun op site answer site' ↦
  ∃ choice, env.Allows choice ∧ effect choice op site = some (answer, site')

theorem step_hostile_of_fair {op : Op} {site site' : Site} {answer : Ans op}
    (h : step .fair op site answer site') : step .hostile op site answer site' := by
  obtain ⟨choice, -, heffect⟩ := h
  exact ⟨choice, trivial, heffect⟩

theorem exists_step_fair (op : Op) (site : Site) :
    ∃ answer site', step .fair op site answer site' := by
  suffices h : ∃ choice : Choice, choice.fails = false ∧ (effect choice op site).isSome by
    obtain ⟨choice, hfair, hsome⟩ := h
    obtain ⟨⟨answer, site'⟩, heffect⟩ := Option.isSome_iff_exists.mp hsome
    exact ⟨answer, site', choice, hfair, heffect⟩
  obtain ⟨world, peer⟩ := site
  cases op with
  | file op =>
    refine ⟨{ names := match op with
      | .readDir path => (world.fs.children path).toList
      | _ => [] }, rfl, ?_⟩
    rw [effect, if_neg (by simp), Option.isSome_map]
    cases op <;> simp only [FileOp.run] <;> (repeat' split) <;> first | rfl | skip
    next h => simp [Finset.nodup_toList] at h
  | _ => exact ⟨{}, rfl, rfl⟩

/-! ## What each operation can do

One lemma per operation: the answers it can give and the state each leaves. A failure needs a
hostile environment, or the reason the file system had to refuse. -/

section Steps

variable {env : Env} {world : World} {peer : Peer} {site : Site}

private theorem hostile_of_fails {choice : Choice} (hallows : env.Allows choice)
    (hfails : choice.fails = true) : env = .hostile := by
  cases env with
  | fair => exact absurd (hallows.symm.trans hfails) (by decide)
  | hostile => rfl

theorem of_step_index {op : IndexOp} {answer : Ans (.index op)}
    (h : step env (.index op) (world, peer) answer site) :
    (env = .hostile ∧ answer = .error .failed ∧ site = (world, peer))
      ∨ (answer = .ok (op.run world.index).1
        ∧ site = ({ world with index := (op.run world.index).2 }, peer)) := by
  obtain ⟨choice, hallows, heffect⟩ := h
  rw [effect] at heffect
  split at heffect
  · next hfails =>
    obtain ⟨rfl, rfl⟩ := Prod.mk.inj (Option.some.inj heffect)
    exact .inl ⟨hostile_of_fails hallows hfails, rfl, rfl⟩
  · obtain ⟨rfl, rfl⟩ := Prod.mk.inj (Option.some.inj heffect)
    exact .inr ⟨rfl, rfl⟩

theorem of_step_file {op : FileOp} {answer : Ans (.file op)}
    (h : step env (.file op) (world, peer) answer site) :
    ∃ choice fs, site = ({ world with fs }, peer)
      ∧ ((env = .hostile ∧ answer = .error .other ∧ fs = op.runFailing choice world.fs)
        ∨ op.run choice world.fs = some (answer, fs)) := by
  obtain ⟨choice, hallows, heffect⟩ := h
  rw [effect] at heffect
  split at heffect
  · next hfails =>
    obtain ⟨rfl, rfl⟩ := Prod.mk.inj (Option.some.inj heffect)
    exact ⟨choice, _, rfl, .inl ⟨hostile_of_fails hallows hfails, rfl, rfl⟩⟩
  · obtain ⟨⟨result, fs⟩, hrun, hsite⟩ := Option.map_eq_some_iff.mp heffect
    obtain ⟨rfl, rfl⟩ := Prod.mk.inj hsite
    exact ⟨choice, fs, rfl, .inr hrun⟩

theorem of_step_createDirAll {path : FilePath} {answer : Except IoError Unit}
    (h : step env (.file (.createDirAll path)) (world, peer) answer site) :
    (env = .hostile ∧ answer = .error .other ∧ site = (world, peer))
      ∨ (answer = .ok () ∧ site = ({ world with fs := world.fs.createDirAll path }, peer)) := by
  obtain ⟨choice, fs, rfl, ⟨henv, rfl, rfl⟩ | hrun⟩ := of_step_file h
  · exact .inl ⟨henv, rfl, rfl⟩
  · obtain ⟨rfl, rfl⟩ := Prod.mk.inj (Option.some.inj hrun)
    exact .inr ⟨rfl, rfl⟩

theorem of_step_create {path : FilePath} {answer : Except IoError ℕ}
    (h : step env (.file (.create path)) (world, peer) answer site) :
    ((∃ error, answer = .error error) ∧ site = (world, peer)
        ∧ (env = .hostile ∨ path.dropLast ∉ world.fs.dirs))
      ∨ (answer = .ok (world.fs.create path).2
        ∧ site = ({ world with fs := (world.fs.create path).1 }, peer)) := by
  obtain ⟨choice, fs, rfl, ⟨henv, rfl, rfl⟩ | hrun⟩ := of_step_file h
  · exact .inl ⟨⟨_, rfl⟩, rfl, .inl henv⟩
  · rw [FileOp.run] at hrun
    split at hrun
    · obtain ⟨rfl, rfl⟩ := Prod.mk.inj (Option.some.inj hrun)
      exact .inr ⟨rfl, rfl⟩
    · next hdir =>
      obtain ⟨rfl, rfl⟩ := Prod.mk.inj (Option.some.inj hrun)
      exact .inl ⟨⟨_, rfl⟩, rfl, .inr hdir⟩

theorem of_step_writeAt {inode offset : ℕ} {bytes : Bytes} {answer : Except IoError Unit}
    (h : step env (.file (.writeAt inode offset bytes)) (world, peer) answer site) :
    (env = .hostile ∧ answer = .error .other ∧ ∃ count,
        site = ({ world with fs := world.fs.writeAt inode offset (bytes.take count) }, peer))
      ∨ (answer = .ok ()
        ∧ site = ({ world with fs := world.fs.writeAt inode offset bytes }, peer)) := by
  obtain ⟨choice, fs, rfl, ⟨henv, rfl, rfl⟩ | hrun⟩ := of_step_file h
  · exact .inl ⟨henv, rfl, _, rfl⟩
  · obtain ⟨rfl, rfl⟩ := Prod.mk.inj (Option.some.inj hrun)
    exact .inr ⟨rfl, rfl⟩

theorem of_step_sync {inode : ℕ} {answer : Except IoError Unit}
    (h : step env (.file (.sync inode)) (world, peer) answer site) :
    site = (world, peer) ∧ ((env = .hostile ∧ answer = .error .other) ∨ answer = .ok ()) := by
  obtain ⟨choice, fs, rfl, ⟨henv, rfl, rfl⟩ | hrun⟩ := of_step_file h
  · exact ⟨rfl, .inl ⟨henv, rfl⟩⟩
  · obtain ⟨rfl, rfl⟩ := Prod.mk.inj (Option.some.inj hrun)
    exact ⟨rfl, .inr rfl⟩

theorem of_step_rename {path target : FilePath} {answer : Except IoError Unit}
    (h : step env (.file (.rename path target)) (world, peer) answer site) :
    ((∃ error, answer = .error error) ∧ site = (world, peer)
        ∧ (env = .hostile ∨ target.dropLast ∉ world.fs.dirs ∨ world.fs.lookup path = none))
      ∨ (answer = .ok () ∧ ∃ fs, world.fs.rename path target = some fs
        ∧ site = ({ world with fs }, peer)) := by
  obtain ⟨choice, fs, rfl, ⟨henv, rfl, rfl⟩ | hrun⟩ := of_step_file h
  · exact .inl ⟨⟨_, rfl⟩, rfl, .inl henv⟩
  · rw [FileOp.run] at hrun
    split at hrun
    · split at hrun
      · next fs' hrename =>
        obtain ⟨rfl, rfl⟩ := Prod.mk.inj (Option.some.inj hrun)
        exact .inr ⟨rfl, _, hrename, rfl⟩
      · next hrename =>
        obtain ⟨rfl, rfl⟩ := Prod.mk.inj (Option.some.inj hrun)
        exact .inl ⟨⟨_, rfl⟩, rfl, .inr (.inr (FileSystem.rename_eq_none.mp hrename))⟩
    · next hdir =>
      obtain ⟨rfl, rfl⟩ := Prod.mk.inj (Option.some.inj hrun)
      exact .inl ⟨⟨_, rfl⟩, rfl, .inr (.inl hdir)⟩

theorem of_step_remove {path : FilePath} {answer : Except IoError Unit}
    (h : step env (.file (.remove path)) (world, peer) answer site) :
    ((∃ error, answer = .error error) ∧ site = (world, peer)
        ∧ (env = .hostile ∨ world.fs.lookup path = none))
      ∨ (answer = .ok () ∧ site = ({ world with fs := world.fs.unlink path }, peer)) := by
  obtain ⟨choice, fs, rfl, ⟨henv, rfl, rfl⟩ | hrun⟩ := of_step_file h
  · exact .inl ⟨⟨_, rfl⟩, rfl, .inl henv⟩
  · rw [FileOp.run] at hrun
    split at hrun
    · obtain ⟨rfl, rfl⟩ := Prod.mk.inj (Option.some.inj hrun)
      exact .inr ⟨rfl, rfl⟩
    · next hlink =>
      obtain ⟨rfl, rfl⟩ := Prod.mk.inj (Option.some.inj hrun)
      refine .inl ⟨⟨_, rfl⟩, rfl, .inr ?_⟩
      rwa [FileSystem.lookup_eq_none, Finmap.lookup_eq_none]

/-- When nothing fails, what cannot be removed is not there. -/
theorem of_step_remove_fair {path : FilePath} {answer : Except IoError Unit}
    (h : step .fair (.file (.remove path)) (world, peer) answer site) :
    (answer = .error .notFound ∧ site = (world, peer) ∧ world.fs.lookup path = none)
      ∨ (answer = .ok () ∧ site = ({ world with fs := world.fs.unlink path }, peer)) := by
  obtain ⟨choice, fs, rfl, ⟨henv, -, -⟩ | hrun⟩ := of_step_file h
  · exact absurd henv (by decide)
  · rw [FileOp.run] at hrun
    split at hrun
    · obtain ⟨rfl, rfl⟩ := Prod.mk.inj (Option.some.inj hrun)
      exact .inr ⟨rfl, rfl⟩
    · next hlink =>
      obtain ⟨rfl, rfl⟩ := Prod.mk.inj (Option.some.inj hrun)
      refine .inl ⟨rfl, rfl, ?_⟩
      rwa [FileSystem.lookup_eq_none, Finmap.lookup_eq_none]

theorem of_step_open {path : FilePath} {answer : Except IoError ℕ}
    (h : step env (.file (.open path)) (world, peer) answer site) :
    site = (world, peer) ∧ ((env = .hostile ∧ answer = .error .other)
      ∨ (answer = .error .notFound ∧ world.fs.lookup path = none)
      ∨ ∃ inode, answer = .ok inode ∧ world.fs.links.lookup path = some inode) := by
  obtain ⟨choice, fs, rfl, ⟨henv, rfl, rfl⟩ | hrun⟩ := of_step_file h
  · exact ⟨rfl, .inl ⟨henv, rfl⟩⟩
  · rw [FileOp.run] at hrun
    split at hrun
    · next inode hlink =>
      obtain ⟨rfl, rfl⟩ := Prod.mk.inj (Option.some.inj hrun)
      exact ⟨rfl, .inr (.inr ⟨inode, rfl, hlink⟩)⟩
    · next hlink =>
      obtain ⟨rfl, rfl⟩ := Prod.mk.inj (Option.some.inj hrun)
      exact ⟨rfl, .inr (.inl ⟨rfl, by rwa [FileSystem.lookup_eq_none]⟩)⟩

theorem of_step_metadata {inode : ℕ} {answer : Except IoError ℕ}
    (h : step env (.file (.metadata inode)) (world, peer) answer site) :
    site = (world, peer) ∧ ((env = .hostile ∧ answer = .error .other)
      ∨ answer = .ok (world.fs.files inode).size) := by
  obtain ⟨choice, fs, rfl, ⟨henv, rfl, rfl⟩ | hrun⟩ := of_step_file h
  · exact ⟨rfl, .inl ⟨henv, rfl⟩⟩
  · obtain ⟨rfl, rfl⟩ := Prod.mk.inj (Option.some.inj hrun)
    exact ⟨rfl, .inr rfl⟩

theorem of_step_readAt {inode offset : ℕ} {answer : Except IoError Bytes}
    (h : step env (.file (.readAt inode offset)) (world, peer) answer site) :
    site = (world, peer) ∧ ((env = .hostile ∧ answer = .error .other)
      ∨ ∃ count, answer = .ok (((world.fs.files inode).data.drop offset).take (count + 1))) := by
  obtain ⟨choice, fs, rfl, ⟨henv, rfl, rfl⟩ | hrun⟩ := of_step_file h
  · exact ⟨rfl, .inl ⟨henv, rfl⟩⟩
  · obtain ⟨rfl, rfl⟩ := Prod.mk.inj (Option.some.inj hrun)
    exact ⟨rfl, .inr ⟨_, rfl⟩⟩

theorem of_step_readDir {path : FilePath} {answer : Except IoError (List Bytes)}
    (h : step env (.file (.readDir path)) (world, peer) answer site) :
    site = (world, peer)
      ∧ (((∃ error, answer = .error error) ∧ (env = .hostile ∨ path ∉ world.fs.dirs))
        ∨ ∃ names, answer = .ok names ∧ names.Nodup ∧ names.toFinset = world.fs.children path) := by
  obtain ⟨choice, fs, rfl, ⟨henv, rfl, rfl⟩ | hrun⟩ := of_step_file h
  · exact ⟨rfl, .inl ⟨⟨_, rfl⟩, .inl henv⟩⟩
  · rw [FileOp.run] at hrun
    split at hrun
    · split at hrun
      · next hnames =>
        obtain ⟨rfl, rfl⟩ := Prod.mk.inj (Option.some.inj hrun)
        exact ⟨rfl, .inr ⟨_, rfl, hnames⟩⟩
      · exact absurd hrun (by simp)
    · next hdir =>
      obtain ⟨rfl, rfl⟩ := Prod.mk.inj (Option.some.inj hrun)
      exact ⟨rfl, .inl ⟨⟨_, rfl⟩, .inr hdir⟩⟩

theorem of_step_recv {answer : Except IoError Bytes}
    (h : step env .recv (world, peer) answer site) :
    (env = .hostile ∧ answer = .error .other ∧ site = (world, peer))
      ∨ ∃ count, answer = .ok (peer.unread.take (count + 1))
        ∧ site = (world, { peer with unread := peer.unread.drop (count + 1) }) := by
  obtain ⟨choice, hallows, heffect⟩ := h
  rw [effect] at heffect
  split at heffect
  · next hfails =>
    obtain ⟨rfl, rfl⟩ := Prod.mk.inj (Option.some.inj heffect)
    exact .inl ⟨hostile_of_fails hallows hfails, rfl, rfl⟩
  · obtain ⟨rfl, rfl⟩ := Prod.mk.inj (Option.some.inj heffect)
    exact .inr ⟨_, rfl, rfl⟩

theorem of_step_send {bytes : Bytes} {answer : Except IoError Unit}
    (h : step env (.send bytes) (world, peer) answer site) :
    (env = .hostile ∧ answer = .error .other ∧ ∃ count,
        site = (world, { peer with written := peer.written ++ bytes.take count }))
      ∨ (answer = .ok ()
        ∧ site = (world, { peer with written := peer.written ++ bytes })) := by
  obtain ⟨choice, hallows, heffect⟩ := h
  rw [effect] at heffect
  split at heffect
  · next hfails =>
    obtain ⟨rfl, rfl⟩ := Prod.mk.inj (Option.some.inj heffect)
    exact .inl ⟨hostile_of_fails hallows hfails, rfl, _, rfl⟩
  · obtain ⟨rfl, rfl⟩ := Prod.mk.inj (Option.some.inj heffect)
    exact .inr ⟨rfl, rfl⟩

theorem of_step_processId {answer : ℕ} (h : step env .processId (world, peer) answer site) :
    answer = world.pid ∧ site = (world, peer) := by
  obtain ⟨choice, -, heffect⟩ := h
  obtain ⟨rfl, rfl⟩ := Prod.mk.inj (Option.some.inj heffect)
  exact ⟨rfl, rfl⟩

theorem of_step_nextOrdinal {answer : ℕ} (h : step env .nextOrdinal (world, peer) answer site) :
    answer = world.sequence
      ∧ site = ({ world with sequence := world.sequence + 1 }, peer) := by
  obtain ⟨choice, -, heffect⟩ := h
  obtain ⟨rfl, rfl⟩ := Prod.mk.inj (Option.some.inj heffect)
  exact ⟨rfl, rfl⟩

def World.bump (world : World) (shard : ℕ) (counter : Counter) (amount : ℕ) : World :=
  { world with
    stats := Function.update world.stats shard ((world.stats shard).bump counter amount) }

theorem of_step_bump {shard : ℕ} {counter : Counter} {amount : ℕ} {answer : Unit}
    (h : step env (.bump shard counter amount) (world, peer) answer site) :
    site = (world.bump shard counter amount, peer) := by
  obtain ⟨choice, -, heffect⟩ := h
  exact (Prod.mk.inj (Option.some.inj heffect)).2.symm

def World.totals (world : World) (shards : ℕ) : Totals :=
  ((List.range shards).map world.stats).foldl Totals.add {}

theorem of_step_totals {shards : ℕ} {answer : Totals}
    (h : step env (.totals shards) (world, peer) answer site) :
    answer = ((List.range shards).map world.stats).foldl Totals.add {}
      ∧ site = (world, peer) := by
  obtain ⟨choice, -, heffect⟩ := h
  obtain ⟨rfl, rfl⟩ := Prod.mk.inj (Option.some.inj heffect)
  exact ⟨rfl, rfl⟩

end Steps

/-! ## Operations that only read -/

/-- Transactions that change nothing. -/
def IndexOp.Lookup : IndexOp → Prop
  | narinfo _ | nar _ | records | count => True
  | putNar _ _ | publish _ | republish _ | unpublish _ => False

/-- Operations that change nothing but statistics and the peer, with these transactions. -/
def Op.Reads (lookups : IndexOp → Prop) : Op → Prop
  | .index op => lookups op
  | .file (.sync _) | .file (.open _) | .file (.metadata _) | .file (.readAt _ _)
  | .file (.readDir _) => True
  | .recv | .send _ | .processId | .bump _ _ _ | .totals _ => True
  | _ => False

/-- Operations that change nothing but statistics and the peer. -/
abbrev Op.Quiet : Op → Prop := Op.Reads IndexOp.Lookup

/-- Nothing but statistics changed. -/
def Steady (world world' : World) : Prop := ∃ stats, world' = { world with stats }

theorem steady_refl (world : World) : Steady world world := ⟨world.stats, rfl⟩

theorem Steady.trans {a b c : World} (hab : Steady a b) (hbc : Steady b c) : Steady a c := by
  obtain ⟨stats, rfl⟩ := hab
  obtain ⟨stats', rfl⟩ := hbc
  exact ⟨stats', rfl⟩

theorem steady_of_quiet {env : Env} {op : Op} {world : World} {peer : Peer} {site : Site}
    {answer : Ans op} (hquiet : op.Quiet) (h : step env op (world, peer) answer site) :
    Steady world site.1 := by
  cases op with
  | index op =>
    cases op <;> first | exact hquiet.elim | skip
    all_goals
      obtain ⟨-, -, rfl⟩ | ⟨-, rfl⟩ := of_step_index h <;> exact steady_refl _
  | file op =>
    cases op <;> first | exact hquiet.elim | skip
    · rw [(of_step_sync h).1]
      exact steady_refl _
    · rw [(of_step_open h).1]
      exact steady_refl _
    · rw [(of_step_metadata h).1]
      exact steady_refl _
    · rw [(of_step_readAt h).1]
      exact steady_refl _
    · rw [(of_step_readDir h).1]
      exact steady_refl _
  | recv => obtain ⟨-, -, rfl⟩ | ⟨_, -, rfl⟩ := of_step_recv h <;> exact steady_refl _
  | send bytes => obtain ⟨-, -, _, rfl⟩ | ⟨-, rfl⟩ := of_step_send h <;> exact steady_refl _
  | processId =>
    rw [(of_step_processId h).2]
    exact steady_refl _
  | nextOrdinal => exact hquiet.elim
  | bump shard counter amount =>
    rw [of_step_bump h]
    exact ⟨_, rfl⟩
  | totals shards =>
    rw [(of_step_totals h).2]
    exact steady_refl _

/-! ## One program alone -/

/-- Run alone from a site, the program ends in a value, peer and world with `post`. -/
abbrev Ends {α : Type} (env : Env) (program : Program Ans α) (post : α → Peer → World → Prop)
    (site : Site) : Prop :=
  program.Safe (.alone World) (fun _ ↦ step env) () post site.2 site.1

section Ends

variable {α : Type} {env : Env} {program : Program Ans α} {post : α → Peer → World → Prop}
  {site site' : Site} {world : World} {peer : Peer} {value : α}

theorem Ends.runs (h : Ends env program post site)
    (hrun : program.Runs (step env) site value site') :
    post value site'.2 site'.1 := (Program.Safe.runs h trivial hrun).2

theorem ends_of_runs (h : ∀ value site', program.Runs (step env) site value site' →
    post value site'.2 site'.1) : Ends env program post site :=
  Program.safe_alone_iff.mpr fun value _ _ hrun ↦ h value _ hrun

theorem ends_call {op : Op} {next : Ans op → Program Ans α}
    (h : ∀ answer site', step env op (world, peer) answer site' →
      Ends env (next answer) post site') :
    (Program.call op next).Safe (.alone World) (fun _ ↦ step env) () post peer world :=
  Program.safe_alone_call.mpr fun answer world' peer' hop ↦ h answer (world', peer') hop

theorem ends_done (h : post value peer world) :
    (Program.done value : Program Ans α).Safe (.alone World) (fun _ ↦ step env)
    () post peer world :=
  Program.safe_alone_done.mpr h

theorem exists_runs_fair (program : Program Ans α) (site : Site) :
    ∃ value site', program.Runs (step .fair) site value site' :=
  Program.exists_runs exists_step_fair program site

/-- What can happen when nothing fails can happen. -/
theorem runs_of_fair (h : program.Runs (step .fair) site value site') :
    program.Runs (step env) site value site' := by
  cases env with
  | fair => exact h
  | hostile => exact h.mono fun _ _ _ _ ↦ step_hostile_of_fair

end Ends

end Bincache
