import Bincache.Ingest.Upload

/-!
# An upload that nobody interferes with

Run alone, an upload keeps everything it does in one file: until it is stored, the tables and every
other file are what they were when it began, and its own file holds what it wrote, or, once the
upload has failed, is gone. `Aside` is the first half of this and `Holds` both halves.

Nothing here depends on which operations fail, so the results are stated of any way operations may
behave that is `Possible`. Only what is said about a file that is gone asks that removing a file
does not fail.
-/

namespace Bincache

open Store (Staged)

/-- Operations do what they may do when anything can fail. -/
def Possible (perform : Interpretation Ans Site) : Prop :=
  ∀ op site answer site', perform op site answer site' → step .hostile op site answer site'

theorem possible_step (env : Env) : Possible (step env) := by
  intro op site answer site' hop
  cases env with
  | fair => exact step_hostile_of_fair hop
  | hostile => exact hop

/-- No file that was to be removed is left. -/
def Unlinks (perform : Interpretation Ans Site) : Prop :=
  ∀ path site answer site', perform (.file (.remove path)) site answer site' →
    site'.1.fs.lookup path = none

/-- Run alone on these operations, the program ends with `post`. -/
abbrev Reaches {α : Type} (perform : Interpretation Ans Site) (program : Program Ans α)
    (post : α → Peer → World → Prop) (peer : Peer) (world : World) : Prop :=
  program.Safe (.alone World) (fun _ ↦ perform) () post peer world

/-- The tables are as they were, and so is every file but one. -/
structure Aside (own : FilePath) (start world : World) : Prop where
  index : world.index = start.index
  file : ∀ path, path ≠ own → world.fs.lookup path = start.fs.lookup path

/-- Beside what was there at the start there is a staged file, which holds `data`. -/
structure Holds (start : World) (staged : Staged) (data : Bytes) (world : World) : Prop
    extends Aside staged.path start world where
  names : world.fs.Names staged.path staged.inode (.of data)
  offset : staged.offset = data.length

/-- The tables and the files are as they were. -/
structure Untouched (start world : World) : Prop where
  index : world.index = start.index
  file : ∀ path, world.fs.lookup path = start.fs.lookup path

/-- An upload came to nothing: of its file, which it may not even have opened, nothing is left if
removing it did not fail. -/
def Abandoned (perform : Interpretation Ans Site) (own : FilePath) (start world : World) : Prop :=
  Aside own start world ∧ (Unlinks perform → world.fs.lookup own = none)

variable {perform : Interpretation Ans Site} {start world : World} {peer : Peer}
  {staged : Staged} {own : FilePath} {data : Bytes}

/-! ## Staging files -/

section Files

variable (hpossible : Possible perform)

include hpossible

theorem reaches_drop (h : Aside staged.path start world) :
    Reaches perform staged.drop (fun _ peer' world' ↦
      peer' = peer ∧ Abandoned perform staged.path start world') peer world := by
  refine Program.safe_alone_call.mpr fun answer world' peer' hop ↦ Program.safe_alone_done.mpr ?_
  have hgone : Unlinks perform → world'.fs.lookup staged.path = none :=
    fun hunlinks ↦ hunlinks _ _ _ _ hop
  obtain ⟨-, hsite, -⟩ | ⟨-, hsite⟩ := of_step_remove (hpossible _ _ _ _ hop)
  · obtain ⟨rfl, rfl⟩ := Prod.mk.inj hsite
    exact ⟨rfl, h, hgone⟩
  · obtain ⟨rfl, rfl⟩ := Prod.mk.inj hsite
    refine ⟨rfl, ⟨h.index, fun path hpath ↦ ?_⟩, hgone⟩
    rw [← h.file path hpath]
    exact (FileSystem.lookup_unlink _ _).trans (if_neg hpath)

/-- The file an upload would open next. -/
def ownPath (start : World) : FilePath := Store.stagedPath start.pid start.sequence

/-- A file that was staged is empty, and is called after the ordinal that was drawn. -/
theorem reaches_stage : Reaches perform Store.stage.run (fun result peer' world' ↦ peer' = peer ∧
    match result with
    | .ok staged => staged.path = ownPath start ∧ Holds start staged [] world'
    | .error _ => Untouched start world') peer start := by
  refine Program.safe_alone_call.mpr fun ordinal world₁ peer₁ hop₁ ↦ ?_
  obtain ⟨rfl, hsite₁⟩ := of_step_nextOrdinal (hpossible _ _ _ _ hop₁)
  obtain ⟨rfl, rfl⟩ := Prod.mk.inj hsite₁
  refine Program.safe_alone_call.mpr fun pid world₂ peer₂ hop₂ ↦ ?_
  obtain ⟨rfl, hsite₂⟩ := of_step_processId (hpossible _ _ _ _ hop₂)
  obtain ⟨rfl, rfl⟩ := Prod.mk.inj hsite₂
  refine Program.safe_alone_call.mpr fun answer world₃ peer₃ hop₃ ↦ ?_
  obtain ⟨⟨error, rfl⟩, hsite₃, -⟩ | ⟨rfl, hsite₃⟩ := of_step_create (hpossible _ _ _ _ hop₃)
  · obtain ⟨rfl, rfl⟩ := Prod.mk.inj hsite₃
    exact Program.safe_alone_done.mpr ⟨rfl, rfl, fun _ ↦ rfl⟩
  · obtain ⟨rfl, rfl⟩ := Prod.mk.inj hsite₃
    refine Program.safe_alone_done.mpr
      ⟨rfl, rfl, ⟨rfl, fun path hpath ↦ ?_⟩, FileSystem.names_create _ _, rfl⟩
    exact (FileSystem.lookup_create _ _ _).trans (if_neg hpath)

theorem reaches_write {bytes : Bytes} (h : Holds start staged data world) :
    Reaches perform (staged.write bytes).run (fun result peer' world' ↦ peer' = peer ∧
      match result with
      | .ok staged' => staged'.path = staged.path ∧ Holds start staged' (data ++ bytes) world'
      | .error _ => Aside staged.path start world') peer world := by
  have haside : ∀ bytes, Aside staged.path start
      { world with fs := world.fs.writeAt staged.inode staged.offset bytes } := by
    refine fun bytes ↦ ⟨h.index, fun path hpath ↦ ?_⟩
    rw [← h.file path hpath]
    exact (h.names.lookup_writeAt _ _ _).trans (if_neg hpath)
  refine Program.safe_alone_call.mpr fun answer world' peer' hop ↦ ?_
  obtain ⟨-, rfl, count, hsite⟩ | ⟨rfl, hsite⟩ := of_step_writeAt (hpossible _ _ _ _ hop)
  · obtain ⟨rfl, rfl⟩ := Prod.mk.inj hsite
    exact Program.safe_alone_done.mpr ⟨rfl, haside _⟩
  · obtain ⟨rfl, rfl⟩ := Prod.mk.inj hsite
    have hnames := h.names.writeAt staged.offset bytes
    rw [h.offset, File.write_end] at hnames
    refine Program.safe_alone_done.mpr
      ⟨rfl, rfl, ⟨(haside bytes).index, (haside bytes).file⟩, ?_, ?_⟩
    · dsimp only
      rw [h.offset]
      exact hnames
    · dsimp only
      rw [h.offset, List.length_append]

/-- What a commit leaves: the artifact under its URL, over whatever was there, and no staged
file. -/
structure Committed (start : World) (own : FilePath) (url : NarUrl) (artifact : Bytes)
    (world : World) : Prop where
  index : world.index = start.index
  file : ∀ path, world.fs.lookup path
    = if path = Store.path url then some (.of artifact)
      else if path = own then none else start.fs.lookup path

private theorem reaches_link {url : NarUrl} (h : Holds start staged data world) :
    Reaches perform (staged.link (Store.path url)).run (fun result peer' world' ↦ peer' = peer ∧
      match result with
      | .ok _ => Committed start staged.path url data world'
      | .error _ => Aside staged.path start world') peer world := by
  refine Attempt.safe_bind (Attempt.safe_context
    (Program.safe_alone_call.mpr fun answer world₁ peer₁ hop₁ ↦ ?_))
  obtain ⟨hsite₁, ⟨-, rfl⟩ | rfl⟩ := of_step_sync (hpossible _ _ _ _ hop₁)
  · obtain ⟨rfl, rfl⟩ := Prod.mk.inj hsite₁
    exact Program.safe_alone_done.mpr ⟨rfl, h.index, h.file⟩
  obtain ⟨rfl, rfl⟩ := Prod.mk.inj hsite₁
  refine Program.safe_alone_done.mpr (Attempt.safe_bind (Attempt.safe_context
    (Program.safe_alone_call.mpr fun answer world₂ peer₂ hop₂ ↦ ?_)))
  obtain ⟨-, rfl, hsite₂⟩ | ⟨rfl, hsite₂⟩ := of_step_createDirAll (hpossible _ _ _ _ hop₂)
  · obtain ⟨rfl, rfl⟩ := Prod.mk.inj hsite₂
    exact Program.safe_alone_done.mpr ⟨rfl, h.index, h.file⟩
  obtain ⟨rfl, rfl⟩ := Prod.mk.inj hsite₂
  refine Program.safe_alone_done.mpr (Attempt.safe_context
    (Program.safe_alone_call.mpr fun answer world₃ peer₃ hop₃ ↦ ?_))
  obtain ⟨⟨error, rfl⟩, hsite₃, -⟩ | ⟨rfl, fs, hrename, hsite₃⟩ :=
    of_step_rename (hpossible _ _ _ _ hop₃)
  · obtain ⟨rfl, rfl⟩ := Prod.mk.inj hsite₃
    exact Program.safe_alone_done.mpr ⟨rfl, h.index, h.file⟩
  obtain ⟨rfl, rfl⟩ := Prod.mk.inj hsite₃
  refine Program.safe_alone_done.mpr ⟨rfl, h.index, fun path ↦ ?_⟩
  have hlookup := FileSystem.lookup_rename hrename path
  rw [FileSystem.lookup_createDirAll, FileSystem.lookup_createDirAll, h.names.lookup] at hlookup
  rw [hlookup]
  by_cases hpath : path = staged.path
  · rw [if_pos hpath, if_pos hpath]
  · rw [if_neg hpath, if_neg hpath, h.file path hpath]

/-- A commit moves the staged file, or drops it. -/
theorem reaches_commit {url : NarUrl} (h : Holds start staged data world) :
    Reaches perform (staged.commit url).run (fun result peer' world' ↦ peer' = peer ∧
      match result with
      | .ok _ => Committed start staged.path url data world'
      | .error _ => Abandoned perform staged.path start world') peer world := by
  refine Attempt.safe_bind (Attempt.safe_onError ((reaches_link hpossible h).imp ?_))
  rintro (error | ⟨⟩) peer' world' - ⟨rfl, hresult⟩
  · exact reaches_drop hpossible hresult
  · exact Program.safe_alone_done.mpr ⟨rfl, hresult⟩

end Files

/-! ## The typestate machine -/

namespace Upload

variable [Crates] {level : Level} {expected : Sha256} {chunks : List Bytes} {artifact : Bytes}

/-- The upload has absorbed `chunks`, and what it drained of the encoder's output is in its file. -/
structure Feeds (start : World) (own : FilePath) (level : Level) (expected : Sha256)
    (upload : Upload Receiving) (chunks : List Bytes) (world : World) : Prop where
  path : upload.staged.path = own
  expected : upload.expected = expected
  fed : ∃ data, Fed level upload chunks data ∧ Holds start upload.staged data world

/-- The upload absorbed `chunks`, and its file holds all that the encoder made of them. -/
structure Packs (start : World) (own : FilePath) (level : Level) (expected : Sha256)
    (upload : Upload Compressed) (chunks : List Bytes) (artifact : Bytes) (world : World) :
    Prop where
  path : upload.staged.path = own
  expected : upload.expected = expected
  packed : Packed level upload chunks artifact
  holds : Holds start upload.staged artifact world

variable (hpossible : Possible perform)

include hpossible

theorem reaches_new (h : Holds start staged [] world) :
    Reaches perform (new staged expected level).run (fun result peer' world' ↦ peer' = peer ∧
      match result with
      | .ok upload => Feeds start staged.path level expected upload [] world'
      | .error _ => Abandoned perform staged.path start world') peer world := by
  rw [new]
  split
  · next encoder hnew =>
    exact Program.safe_alone_done.mpr ⟨rfl, rfl, rfl, [], fed_nil hnew staged expected, h⟩
  · refine Attempt.safe_bind (Attempt.safe_lift ((reaches_drop hpossible h.toAside).imp ?_))
    exact fun _ _ _ _ hdropped ↦ Program.safe_alone_done.mpr hdropped

theorem reaches_drain {upload : Upload Receiving} (hfed : Fed level upload chunks data)
    (h : Holds start upload.staged data world) :
    Reaches perform upload.drain.run (fun result peer' world' ↦ peer' = peer ∧ match result with
      | .ok upload' => upload'.staged.path = upload.staged.path
        ∧ upload'.expected = upload.expected
        ∧ ∃ data, Fed level upload' chunks data ∧ Holds start upload'.staged data world'
      | .error _ => Aside upload.staged.path start world') peer world := by
  rw [drain]
  split
  · exact Program.safe_alone_done.mpr ⟨rfl, rfl, rfl, data, hfed, h⟩
  · refine Attempt.safe_bind (Attempt.safe_context ((reaches_write hpossible h).imp ?_))
    rintro (error | staged) peer' world' - ⟨rfl, hresult⟩
    · exact ⟨rfl, hresult⟩
    · exact Program.safe_alone_done.mpr
        ⟨rfl, hresult.1, rfl, _, hfed.drained staged, hresult.2⟩

/-- A chunk that was written has been absorbed, whether or not anything was drained for it. -/
theorem reaches_uploadWrite {upload : Upload Receiving} {chunk : Bytes}
    (h : Feeds start own level expected upload chunks world) :
    Reaches perform (upload.write chunk).run (fun result peer' world' ↦ peer' = peer ∧
      match result with
      | .ok upload' => Feeds start own level expected upload' (chunks ++ [chunk]) world'
      | .error _ => Aside own start world') peer world := by
  obtain ⟨rfl, hexpected, data, hfed, hholds⟩ := h
  rw [write]
  split
  · exact Program.safe_alone_done.mpr ⟨rfl, hholds.toAside⟩
  · next encoder output hwrite =>
    have hfed' := hfed.absorbed hwrite
    dsimp only
    split
    · refine (reaches_drain hpossible hfed' hholds).imp ?_
      rintro (error | upload') peer' world' - ⟨rfl, hresult⟩
      · exact ⟨rfl, hresult⟩
      · obtain ⟨hpath, hexpected', hdata⟩ := hresult
        exact ⟨rfl, hpath, hexpected'.trans hexpected, hdata⟩
    · exact Program.safe_alone_done.mpr ⟨rfl, rfl, hexpected, data, hfed', hholds⟩

theorem reaches_finish {upload : Upload Receiving}
    (h : Feeds start own level expected upload chunks world) :
    Reaches perform upload.finish.run (fun result peer' world' ↦ peer' = peer ∧
      match result with
      | .ok upload' => ∃ artifact, Packs start own level expected upload' chunks artifact world'
      | .error _ => Abandoned perform own start world') peer world := by
  obtain ⟨rfl, hexpected, data, hfed, hholds⟩ := h
  have hflush : Reaches perform upload.flush.run (fun result peer' world' ↦ peer' = peer ∧
      match result with
      | .ok upload' => ∃ artifact,
        Packs start upload.staged.path level expected upload' chunks artifact world'
      | .error _ => Aside upload.staged.path start world') peer world := by
    rw [flush]
    refine Attempt.safe_bind ((reaches_drain hpossible hfed hholds).imp ?_)
    rintro (error | upload') peer' world' - ⟨rfl, hresult⟩
    · exact ⟨rfl, hresult⟩
    obtain ⟨hpath, hexpected', data', hfed', hholds'⟩ := hresult
    dsimp only
    split
    · exact Program.safe_alone_done.mpr ⟨rfl, hpath ▸ hholds'.toAside⟩
    · next rest hfinish =>
      refine Attempt.safe_bind (Attempt.safe_context ((reaches_write hpossible hholds').imp ?_))
      rintro (error | staged) peer'' world'' - ⟨rfl, hresult⟩
      · exact ⟨rfl, hpath ▸ hresult⟩
      · exact Program.safe_alone_done.mpr ⟨rfl, _, hresult.1.trans hpath,
          hexpected'.trans hexpected, hfed'.packed hfinish staged hresult.2.offset, hresult.2⟩
  refine Attempt.safe_onError (hflush.imp ?_)
  rintro (error | upload') peer' world' - ⟨rfl, hresult⟩
  · exact reaches_drop hpossible hresult
  · exact ⟨rfl, hresult⟩

theorem reaches_writes {upload : Upload Receiving} {fed : List Bytes}
    (h : Feeds start own level expected upload fed world) :
    Reaches perform (chunks.foldlM write upload).run (fun result peer' world' ↦ peer' = peer ∧
      match result with
      | .ok upload' => Feeds start own level expected upload' (fed ++ chunks) world'
      | .error _ => Aside own start world') peer world := by
  induction chunks generalizing upload fed peer world with
  | nil =>
    rw [List.append_nil]
    exact Program.safe_alone_done.mpr ⟨rfl, h⟩
  | cons chunk chunks ih =>
    rw [List.foldlM_cons]
    refine Attempt.safe_bind ((reaches_uploadWrite hpossible h).imp ?_)
    rintro (error | upload') peer' world' - ⟨rfl, hresult⟩
    · exact ⟨rfl, hresult⟩
    · refine (ih hresult).imp fun result _ _ _ hwritten ↦ ?_
      rwa [List.append_assoc] at hwritten

/-- The gate passes an upload exactly when what was received is what was announced, and not
nothing. -/
theorem reaches_verify {upload : Upload Compressed}
    (h : Packs start own level expected upload chunks artifact world) :
    Reaches perform upload.verify.run (fun result peer' world' ↦ peer' = peer ∧ match result with
      | .ok verified => verified.staged.path = own ∧ Vouches level expected verified chunks artifact
        ∧ Holds start verified.staged artifact world' ∧ chunks.flatten ≠ []
      | .error error => Abandoned perform own start world' ∧ error.fault = .client
        ∧ (expected ≠ .digest chunks.flatten ∨ chunks.flatten = [])) peer world := by
  obtain ⟨rfl, rfl, hpacked, hholds⟩ := h
  obtain ⟨verified, heq, hstaged, hvouches, hne⟩ | ⟨error, heq, hfault, hreason⟩ := hpacked.verify
  · rw [heq]
    refine Attempt.safe_onError (Program.safe_alone_done.mpr ⟨rfl, ?_, hvouches, ?_, hne⟩)
    · rw [hstaged]
    · rw [hstaged]
      exact hholds
  · rw [heq]
    refine Attempt.safe_onError (Program.safe_alone_done.mpr ?_)
    refine (reaches_drop hpossible hholds.toAside).imp ?_
    rintro _ peer' world' - ⟨hpeer, habandoned⟩
    exact ⟨hpeer, habandoned, hfault, hreason⟩

/-- An entry for an artifact of this many bytes of NAR. -/
def entryOf (artifact : Bytes) (narSize : ℕ+) : Entry :=
  ⟨.digest artifact, artifact.length, narSize, storedAs⟩

/-- Storing commits the artifact and then records it; a failure is of one or of the other. -/
theorem reaches_store {upload : Upload Verified} (hpath : upload.staged.path = own)
    (h : Vouches level expected upload chunks artifact)
    (hholds : Holds start upload.staged artifact world) :
    Reaches perform upload.store.run (fun result peer' world' ↦ peer' = peer ∧ match result with
      | .ok entry => entry = entryOf artifact upload.state.narSize
        ∧ ∃ committed, Committed start own entry.url artifact committed
          ∧ world' = { committed with index := start.index.putNar expected entry }
      | .error error => (Abandoned perform own start world' ∧ ∃ source, error = .stage source)
        ∨ (Committed start own (entryOf artifact upload.state.narSize).url artifact world'
          ∧ ∃ source, error = .record source)) peer world := by
  subst hpath
  rw [store]
  dsimp only
  rw [h.narHash, h.fileHash, h.fileSize]
  refine Attempt.safe_bind (Attempt.safe_context ((reaches_commit hpossible hholds).imp ?_))
  rintro (error | offset) peer' world₁ - ⟨rfl, hcommit⟩
  · exact ⟨rfl, .inl ⟨hcommit, error, rfl⟩⟩
  refine Attempt.safe_bind (Attempt.safe_context
    (Program.safe_alone_call.mpr fun answer world₂ peer₂ hop ↦ ?_))
  obtain ⟨-, rfl, hsite⟩ | ⟨rfl, hsite⟩ := of_step_index (hpossible _ _ _ _ hop)
  · obtain ⟨rfl, rfl⟩ := Prod.mk.inj hsite
    exact Program.safe_alone_done.mpr ⟨rfl, .inr ⟨hcommit, _, rfl⟩⟩
  · obtain ⟨rfl, rfl⟩ := Prod.mk.inj hsite
    refine Program.safe_alone_done.mpr (Program.safe_alone_done.mpr
      ⟨rfl, rfl, world₁, hcommit, ?_⟩)
    rw [hcommit.index]
    rfl

end Upload

end Bincache
