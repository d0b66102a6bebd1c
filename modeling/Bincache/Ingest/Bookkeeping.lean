import Bincache.Ingest.Alone
import Bincache.Specimen

/-!
# What an upload counts, hashes and stores

However a NAR is cut into chunks, the two digests and the two sizes an upload keeps are those of the
NAR and of the artifact, the artifact is all that the encoder made of the chunks, and it is what
ends up under its own name. Of the encoder this takes that its output decompresses to the input and
does not depend on the chunks.

The sizes are counted without bound here. The counters of the source have 64 bits, which a body of
declared length cannot fill; chunks given to an upload in another way have to be fewer than
`2 ^ 64` bytes in all, and so does the artifact, for what is said of the sizes to be true of them.
-/

namespace Bincache

namespace Upload

section

variable [Crates]

/-- An upload, from opening its file to ending its stream. -/
def receiveAll (expected : Sha256) (level : Level) (chunks : List Bytes) :
    Call Error (Upload Compressed) := do
  let staged ← Store.stage.context .stage
  let upload ← new staged expected level
  let upload ← chunks.foldlM write upload
  upload.finish

def deposit (expected : Sha256) (level : Level) (chunks : List Bytes) : Call Error Entry := do
  let compressed ← receiveAll expected level chunks
  let verified ← compressed.verify
  verified.store

variable {perform : Interpretation Ans Site} {env : Env} {expected : Sha256} {level : Level}
  {chunks : List Bytes} {start : World} {peer : Peer}

theorem reaches_receiveAll (hpossible : Possible perform) :
    Reaches perform (receiveAll expected level chunks).run (fun result peer' world' ↦
      peer' = peer ∧ ∀ upload, result = .ok upload → ∃ artifact,
        Packs start (ownPath start) level expected upload chunks artifact world') peer start := by
  refine Attempt.safe_bind (Attempt.safe_context ((reaches_stage hpossible).imp ?_))
  rintro (error | staged) peer' world₁ - ⟨rfl, hstaged⟩
  · exact ⟨rfl, fun _ h ↦ absurd h (by simp)⟩
  obtain ⟨hpath, hholds⟩ := hstaged
  refine Attempt.safe_bind ((reaches_new hpossible hholds).imp ?_)
  rintro (error | upload) peer' world₂ - ⟨rfl, hfeeds⟩
  · exact ⟨rfl, fun _ h ↦ absurd h (by simp)⟩
  rw [hpath] at hfeeds
  refine Attempt.safe_bind ((reaches_writes hpossible hfeeds).imp ?_)
  rintro (error | upload) peer' world₃ - ⟨rfl, hfeeds⟩
  · exact ⟨rfl, fun _ h ↦ absurd h (by simp)⟩
  refine (reaches_finish hpossible hfeeds).imp ?_
  rintro (error | upload) peer' world₄ - ⟨rfl, hpacks⟩
  · exact ⟨rfl, fun _ h ↦ absurd h (by simp)⟩
  · exact ⟨rfl, fun _ h ↦ Except.ok.inj h ▸ hpacks⟩

/-- What an upload has counted, hashed and staged of a NAR that came in chunks. -/
structure Books (level : Level) (chunks : List Bytes) (artifact : Bytes)
    (upload : Upload Compressed) (world : World) : Prop where
  /-- The artifact is everything the encoder emitted, in order. -/
  output : Crates.compress level.get chunks = some artifact
  narHash : upload.state.narHash = .digest chunks.flatten
  narSize : upload.state.narSize = chunks.flatten.length
  staged : world.fs.lookup upload.staged.path = some (.of artifact)
  fileHash : upload.state.fileHash = .digest artifact
  fileSize : upload.state.fileSize = artifact.length

/-- What a whole upload has stored. -/
structure Stores (level : Level) (chunks : List Bytes) (artifact : Bytes) (entry : Entry)
    (start world : World) : Prop where
  output : Crates.compress level.get chunks = some artifact
  decodes : Crates.zstdDecode artifact = some chunks.flatten
  fileHash : entry.fileHash = .digest artifact
  fileSize : entry.fileSize = artifact.length
  narSize : (entry.narSize : ℕ) = chunks.flatten.length
  compression : entry.compression = .zstd
  file : world.fs.lookup (Store.path ⟨.digest artifact, .zstd⟩) = some (.of artifact)
  row : world.index = start.index.putNar (.digest chunks.flatten) entry

/-- The bookkeeping of uploads that are announced as `expected`. -/
structure Exact (env : Env) (expected : Sha256) (level : Level) : Prop where
  books : ∀ chunks site upload site',
    (receiveAll expected level chunks).run.Runs (step env) site (.ok upload) site' →
      ∃ artifact, Books level chunks artifact upload site'.1
  gate : ∀ chunks site upload site' result site'',
    (receiveAll expected level chunks).run.Runs (step env) site (.ok upload) site' →
    upload.verify.run.Runs (step env) site' result site'' →
      (result.isOk ↔ expected = .digest chunks.flatten ∧ chunks.flatten ≠ [])
  stores : ∀ chunks site entry site',
    (deposit expected level chunks).run.Runs (step env) site (.ok entry) site' →
      ∃ artifact, Stores level chunks artifact entry site.1 site'.1
  /-- However the same NAR is cut, the artifact and its entry are the same. -/
  chunking : ∀ chunks chunks' site site₁ entry site' site₁' entry',
    chunks'.flatten = chunks.flatten →
    (deposit expected level chunks).run.Runs (step env) site (.ok entry) site₁ →
    (deposit expected level chunks').run.Runs (step env) site' (.ok entry') site₁' →
      entry' = entry
        ∧ site₁'.1.fs.lookup (Store.path entry.url) = site₁.1.fs.lookup (Store.path entry.url)

variable {artifact : Bytes} {entry : Entry}

theorem Stores.url {world : World} (h : Stores level chunks artifact entry start world) :
    entry.url = ⟨.digest artifact, .zstd⟩ := by
  rw [Entry.url, h.fileHash, h.compression]

theorem Stores.unique {chunks' : List Bytes} {entry' : Entry} {start' world world' : World}
    (hflatten : chunks'.flatten = chunks.flatten)
    (h : Stores level chunks artifact entry start world)
    (h' : Stores level chunks' artifact entry' start' world') :
    entry' = entry
      ∧ world'.fs.lookup (Store.path entry.url) = world.fs.lookup (Store.path entry.url) := by
  have hnarSize : entry'.narSize = entry.narSize :=
    PNat.eq (by rw [h'.narSize, hflatten, h.narSize])
  have hentry : entry' = entry := by
    obtain ⟨hash, size, narSize, compression⟩ := entry
    obtain ⟨hash', size', narSize', compression'⟩ := entry'
    rw [Entry.mk.injEq]
    exact ⟨h'.fileHash.trans h.fileHash.symm, h'.fileSize.trans h.fileSize.symm, hnarSize,
      h'.compression.trans h.compression.symm⟩
  refine ⟨hentry, ?_⟩
  rw [h.url, h.file, h'.file]

theorem packs_of_runs {site site' : Site} {upload : Upload Compressed}
    (hrun : (receiveAll expected level chunks).run.Runs (step env) site (.ok upload) site') :
    ∃ artifact, Packs site.1 (ownPath site.1) level expected upload chunks artifact site'.1 :=
  ((reaches_receiveAll (possible_step env)).runs trivial hrun).2.2 upload rfl

theorem stores_of_runs (hround : Crates.EncoderRoundTrips) {site site' : Site} {entry : Entry}
    (hrun : (deposit expected level chunks).run.Runs (step env) site (.ok entry) site') :
    expected = .digest chunks.flatten
      ∧ ∃ artifact, Stores level chunks artifact entry site.1 site'.1 := by
  have hpossible := possible_step env
  suffices hreaches : Reaches (step env) (deposit expected level chunks).run (fun result _ world' ↦
      ∀ entry, result = .ok entry → expected = .digest chunks.flatten
        ∧ ∃ artifact, Stores level chunks artifact entry site.1 world') site.2 site.1 from
    (hreaches.runs trivial hrun).2 entry rfl
  refine Attempt.safe_bind ((reaches_receiveAll hpossible).imp ?_)
  rintro (error | compressed) peer world₁ - ⟨-, hpacks⟩
  · exact fun _ h ↦ absurd h (by simp)
  obtain ⟨artifact, hpacks⟩ := hpacks compressed rfl
  refine Attempt.safe_bind ((reaches_verify hpossible hpacks).imp ?_)
  rintro (error | verified) peer world₂ - ⟨-, hverified⟩
  · exact fun _ h ↦ absurd h (by simp)
  obtain ⟨hpath, hvouches, hholds, -⟩ := hverified
  refine (reaches_store hpossible hpath hvouches hholds).imp ?_
  rintro (error | entry) peer world₃ - ⟨-, hstored⟩
  · exact fun _ h ↦ absurd h (by simp)
  obtain ⟨rfl, committed, hcommitted, rfl⟩ := hstored
  rintro _ ⟨⟩
  refine ⟨hvouches.expected, artifact, hvouches.compressed, hround _ _ _ hvouches.compressed, rfl,
    rfl, hvouches.narSize, rfl, ?_, ?_⟩
  · exact (hcommitted.file _).trans (if_pos rfl)
  · rw [← hvouches.expected]

/-- The bookkeeping of an upload is exact for every chunking. -/
theorem exact_of_encoder (hround : Crates.EncoderRoundTrips)
    (hignores : Crates.EncoderIgnoresChunking) (env : Env) (expected : Sha256) (level : Level) :
    Exact env expected level where
  books chunks site upload site' hrun := by
    obtain ⟨artifact, hpacks⟩ := packs_of_runs hrun
    obtain ⟨-, -, hpacked, hholds⟩ := hpacks
    exact ⟨artifact, hpacked.compressed, hpacked.narHash, hpacked.narSize, hholds.names.lookup,
      hpacked.fileHash, hpacked.fileSize⟩
  gate chunks site upload site' result site'' hrun hverify := by
    obtain ⟨artifact, hpacks⟩ := packs_of_runs hrun
    have hreaches : Reaches (step env) upload.verify.run _ site'.2 site'.1 :=
      reaches_verify (possible_step env) hpacks
    obtain ⟨-, -, hverified⟩ := hreaches.runs trivial hverify
    cases result with
    | ok verified =>
      obtain ⟨-, hvouches, -, hne⟩ := hverified
      exact iff_of_true rfl ⟨hvouches.expected, hne⟩
    | error error =>
      obtain ⟨-, -, hreason⟩ := hverified
      refine iff_of_false Bool.false_ne_true fun h ↦ ?_
      exact hreason.elim (fun hne ↦ hne h.1) h.2
  stores chunks site entry site' hrun := (stores_of_runs hround hrun).2
  chunking chunks chunks' site site₁ entry site' site₁' entry' hflatten hrun hrun' := by
    obtain ⟨-, artifact, hstores⟩ := stores_of_runs hround hrun
    obtain ⟨-, artifact', hstores'⟩ := stores_of_runs hround hrun'
    have houtput := hstores'.output
    -- chunks with one content have one artifact
    rw [hignores, hflatten, ← hignores] at houtput
    obtain rfl := Option.some.inj (houtput.symm.trans hstores.output)
    exact hstores.unique hflatten hstores'

end

end Upload

section

open Specimen

theorem exact_specimen : Upload.Exact .hostile (.digest nar) ingest.level :=
  Upload.exact_of_encoder encoderRoundTrips encoderIgnoresChunking .hostile (.digest nar)
    ingest.level

end

end Bincache
