import Bincache.Serve.Sharing

/-!
# What the index says is true

The one invariant that ties the two tables to the payload tree: every row, of either table, names an
artifact that is there and is what the row says, and every record lies under its own key and bears
the signature of whoever signed it last. `discipline` is the protocol under which the participants
of a cache keep it, and what each of them has to leave alone for the others is only this: an
artifact that is there stays there, with the same bytes. Content addressing makes that so, as long
as no two of the artifacts have one digest.
-/

namespace Bincache

/-- The row of the NAR a record describes. -/
def NarInfo.entry (record : NarInfo) : Entry :=
  ⟨record.fileHash, record.fileSize, record.narSize, record.compression⟩

@[simp] theorem NarInfo.url_entry (record : NarInfo) : record.entry.url = record.nar := rfl

variable [Crates]

/-! ## Rows and artifacts -/

/-- The artifact `data` is present under the URL of an entry, is what the entry says, and
decompresses to `nar`, which has the hash and the size of the row. -/
structure Entry.Names (entry : Entry) (narHash : Sha256) (tree : FilePath → Option File)
    (data nar : Bytes) : Prop where
  present : tree (Store.path entry.url) = some (.of data)
  compression : entry.compression = storedAs
  fileSize : data.length = entry.fileSize
  fileHash : .digest data = entry.fileHash
  decodes : Crates.zstdDecode data = some nar
  narSize : nar.length = entry.narSize
  narHash : .digest nar = narHash

/-- What an entry says of the NAR with this hash is true. -/
def Entry.Honest (entry : Entry) (narHash : Sha256) (tree : FilePath → Option File) : Prop :=
  ∃ data nar, entry.Names narHash tree data nar

/-- A record bears one signature, and it verifies under the public half of `key`. -/
def NarInfo.SignedBy (record : NarInfo) (dir : Dir) (key : SecretKey) : Prop :=
  ∃ signature, record.sigs = [signature]
    ∧ key.publicHalf.verify (record.fingerprint dir) signature = .ok ()

/-- What the index says is true. -/
structure Consistent (dir : Dir) (view : View) : Prop where
  keyed : ∀ key record, view.narinfo key = some record → record.storePath.hash = key
  records : ∀ key record, view.narinfo key = some record →
    record.entry.Honest record.narHash view.tree
  entries : ∀ narHash entry, view.nar narHash = some entry → entry.Honest narHash view.tree
  signed : ∀ key record, view.narinfo key = some record →
    ∃ signer, view.signer key = some signer ∧ record.SignedBy dir signer

/-- Artifacts hold bytes of `contents` and are named by their digests. -/
def Addressed (contents : Set Bytes) (tree : FilePath → Option File) : Prop :=
  ∀ url file, tree (Store.path url) = some file →
    ∃ data ∈ contents, file = .of data ∧ url.fileHash = .digest data

omit [Crates] in
/-- Files under `nar/` that are there stay there. -/
def View.Grows (view view' : View) : Prop :=
  ∀ path file, view.tree path = some file → view'.tree path = some file

/-- How the participants of a cache share it. -/
def discipline {ι : Type} (contents : Set Bytes) (dir : Dir) : Protocol ι View where
  valid view := Consistent dir view ∧ Addressed contents view.tree
  rely _ view view' := view.Grows view'
  rely_refl _ _ _ _ h := h
  rely_trans hab hbc path file h := hbc path file (hab path file h)

variable {dir : Dir} {contents : Set Bytes} {view view' : View}

theorem Entry.Honest.grows {entry : Entry} {narHash : Sha256} (h : entry.Honest narHash view.tree)
    (hgrows : view.Grows view') : entry.Honest narHash view'.tree := by
  obtain ⟨data, nar, h⟩ := h
  exact ⟨data, nar, hgrows _ _ h.present, h.compression, h.fileSize, h.fileHash, h.decodes,
    h.narSize, h.narHash⟩

theorem Consistent.grows (h : Consistent dir view) (hnarinfo : view'.narinfo = view.narinfo)
    (hnar : view'.nar = view.nar) (hsigner : view'.signer = view.signer)
    (hgrows : view.Grows view') : Consistent dir view' where
  keyed key record hrow := h.keyed key record (hnarinfo ▸ hrow)
  records key record hrow := (h.records key record (hnarinfo ▸ hrow)).grows hgrows
  entries narHash entry hrow := (h.entries narHash entry (hnar ▸ hrow)).grows hgrows
  signed key record hrow := by
    rw [hsigner]
    exact h.signed key record (hnarinfo ▸ hrow)

/-! ## What each change keeps -/

theorem Addressed.grows_commit (h : Addressed contents view.tree)
    (hfree : Crates.CollisionFree contents) {artifact : Bytes} (hmem : artifact ∈ contents) :
    view.Grows (view.commit ⟨.digest artifact, storedAs⟩ (.of artifact)) := by
  intro path file hfile
  rw [View.commit]
  dsimp only
  rw [Function.update_apply]
  split
  · next hpath =>
    subst hpath
    obtain ⟨data, hdata, rfl, hdigest⟩ := h _ file hfile
    rw [Sha256.eq_of_digest_eq hfree hmem hdata hdigest]
  · exact hfile

theorem Addressed.commit (h : Addressed contents view.tree) {artifact : Bytes}
    (hmem : artifact ∈ contents) :
    Addressed contents (view.commit ⟨.digest artifact, storedAs⟩ (.of artifact)).tree := by
  intro url file hfile
  change (view.commit _ _).artifact url = some file at hfile
  rw [View.artifact_commit] at hfile
  split at hfile
  · next hurl =>
    obtain rfl := Option.some.inj hfile
    exact ⟨artifact, hmem, rfl, by rw [hurl]⟩
  · exact h url file hfile

theorem Consistent.putNar (h : Consistent dir view) {narHash : Sha256} {entry : Entry}
    (hentry : entry.Honest narHash view.tree) : Consistent dir (view.putNar narHash entry) where
  keyed := h.keyed
  records := h.records
  entries narHash' entry' hrow := by
    rw [View.putNar] at hrow
    dsimp only at hrow
    rw [Function.update_apply] at hrow
    split at hrow
    · next hnarHash =>
      obtain rfl := Option.some.inj hrow
      exact hnarHash ▸ hentry
    · exact h.entries narHash' entry' hrow
  signed := h.signed

theorem Consistent.publish (h : Consistent dir view) {record : NarInfo} {key : SecretKey}
    (hrecord : record.entry.Honest record.narHash view.tree) (hsigned : record.SignedBy dir key) :
    Consistent dir (view.publish record key) := by
  have hrow : ∀ key' record', (view.publish record key).narinfo key' = some record' →
      key' = record.storePath.hash ∧ record' = record
        ∨ key' ≠ record.storePath.hash ∧ view.narinfo key' = some record' := by
    intro key' record' hrow
    rw [View.publish] at hrow
    dsimp only at hrow
    rw [Function.update_apply] at hrow
    split at hrow
    · next hkey => exact .inl ⟨hkey, (Option.some.inj hrow).symm⟩
    · next hkey => exact .inr ⟨hkey, hrow⟩
  refine ⟨fun key' record' h' ↦ ?_, fun key' record' h' ↦ ?_, h.entries, fun key' record' h' ↦ ?_⟩
  · obtain ⟨rfl, rfl⟩ | ⟨-, h'⟩ := hrow key' record' h'
    · rfl
    · exact h.keyed key' record' h'
  · obtain ⟨rfl, rfl⟩ | ⟨-, h'⟩ := hrow key' record' h'
    · exact hrecord
    · exact h.records key' record' h'
  · obtain ⟨rfl, rfl⟩ | ⟨hne, h'⟩ := hrow key' record' h'
    · exact ⟨key, Function.update_self .., hsigned⟩
    · obtain ⟨signer, hsigner, hsigned⟩ := h.signed key' record' h'
      exact ⟨signer, (Function.update_of_ne hne ..).trans hsigner, hsigned⟩

omit [Crates] in
/-- The view without a record, and without the row of the record's NAR. -/
def View.unpublish (view : View) (key : StorePath.Hash) : View :=
  match view.narinfo key with
  | none => view
  | some record => { view with
      narinfo := Function.update view.narinfo key none
      nar := Function.update view.nar record.narHash none }

omit [Crates] in
/-- A row that is left after one was taken out was there before. -/
theorem of_update_none {α β : Type} [DecidableEq α] {f : α → Option β} {a a' : α} {b : β}
    (h : Function.update f a none a' = some b) : f a' = some b := by
  rw [Function.update_apply] at h
  split at h
  · exact absurd h (by simp)
  · exact h

theorem Consistent.unpublish (h : Consistent dir view) (key : StorePath.Hash) :
    Consistent dir (view.unpublish key) := by
  rw [View.unpublish]
  split
  · exact h
  · exact ⟨fun key' record' hrow ↦ h.keyed key' record' (of_update_none hrow),
      fun key' record' hrow ↦ h.records key' record' (of_update_none hrow),
      fun narHash' entry' hrow ↦ h.entries narHash' entry' (of_update_none hrow),
      fun key' record' hrow ↦ h.signed key' record' (of_update_none hrow)⟩

theorem signedBy_resign (hverify : Crates.SignaturesVerify) (record : NarInfo) (dir : Dir)
    (key : SecretKey) : (record.resign dir key).SignedBy dir key :=
  ⟨_, NarInfo.sigs_resign record dir key, PublicKey.verify_sign hverify key _⟩

/-! ## The writes of a cache -/

section Writes

variable {ι : Type} {i : ι} {ingest : Ingest}

/-- What a cache writes keeps the discipline. -/
theorem permits_discipline (hround : Crates.EncoderRoundTrips) (hverify : Crates.SignaturesVerify)
    (hfree : Crates.CollisionFree contents) (hdir : ingest.dir = dir) :
    Shared.Permits (discipline contents dir) contents i ingest where
  store := by
    rintro chunks artifact narSize hmem hcompress hnarSize v v₁ - ⟨hconsistent, haddressed⟩
    have hgrows := haddressed.grows_commit hfree hmem
    refine ⟨⟨hconsistent.grows rfl rfl rfl hgrows, haddressed.commit hmem⟩, fun j _ ↦ hgrows, ?_⟩
    rintro v₂ hv₂ - v₃ hv₃ ⟨hconsistent₃, haddressed₃⟩
    have hpresent : v₃.tree (Store.path ⟨.digest artifact, storedAs⟩) = some (.of artifact) := by
      refine hv₃ _ _ (hv₂ _ _ ?_)
      exact (View.artifact_commit v₁ _ _ _).trans (if_pos rfl)
    have hentry : Entry.Honest ⟨.digest artifact, artifact.length, narSize, storedAs⟩
        (.digest chunks.flatten) v₃.tree :=
      ⟨artifact, chunks.flatten, hpresent, rfl, rfl, rfl, hround _ _ _ hcompress, hnarSize.symm,
        rfl⟩
    exact ⟨⟨hconsistent₃.putNar hentry, haddressed₃⟩, fun _ _ _ _ h ↦ h, fun _ _ _ ↦ trivial⟩
  publish := by
    rintro body declared entry v hvalid hpublishable v₁ hv₁ ⟨hconsistent, haddressed⟩
    have hentry : (ingest.record declared entry).entry = entry := by
      rw [Ingest.record, NarInfo.entry]
      dsimp only [NarInfo.resign]
      rw [← hpublishable.narSize]
    have hhonest : (ingest.record declared entry).entry.Honest declared.narHash v₁.tree := by
      rw [hentry]
      exact (hvalid.1.entries _ _ hpublishable.stored).grows hv₁
    have hsigned : (ingest.record declared entry).SignedBy dir ingest.key := by
      rw [← hdir]
      exact signedBy_resign hverify _ _ _
    exact ⟨⟨hconsistent.publish hhonest hsigned, haddressed⟩, fun _ _ _ _ h ↦ h,
      fun _ _ _ ↦ trivial⟩

end Writes

end Bincache
