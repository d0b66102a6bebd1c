import Bincache.Lib.Settling
import Bincache.SharedUpload

/-!
# Pushes among others

A push writes one artifact, one row and one record, all of which are known from what it brings:
`Ingest.Yields` says what comes of it. Pushes whose writes do not contradict each other can then
share a cache under a protocol that says only that, `settling`, and `upholds_push` is the one proof
about a whole push that the results on interleavings and on crashes need.
-/

namespace Bincache

/-- A push: a NAR in the chunks it comes in, and the body that describes it. -/
structure Push where
  chunks : List Bytes
  body : Text

namespace Push

def nar (push : Push) : Bytes := push.chunks.flatten

def target [Crates] (push : Push) : NarUrl := ⟨.digest push.nar, .none⟩

end Push

/-- What comes of a push: what its body declares, and the artifact its NAR is stored as. -/
structure Outcome where
  declared : NarInfo
  artifact : Bytes

namespace Outcome

variable [Crates] (outcome : Outcome)

def url : NarUrl := ⟨.digest outcome.artifact, storedAs⟩

/-- The row of the NAR. -/
def entry : Entry :=
  ⟨.digest outcome.artifact, outcome.artifact.length, outcome.declared.narSize, storedAs⟩

def record (ingest : Ingest) : NarInfo := ingest.record outcome.declared outcome.entry

end Outcome

namespace Ingest

variable [Crates] (ingest : Ingest)

/-- The upload of the NAR and then the publish of the body. -/
def push (push : Push) : Call Error NarInfo := do
  let upload ← ingest.receive push.target
  let upload ← (Attempt.onError (push.chunks.foldlM Upload.write upload)
    upload.staged.drop).context .upload
  let compressed ← upload.finish.context .upload
  let verified ← compressed.verify.context .upload
  let _ ← verified.store.context .upload
  ingest.publish push.body

structure Describes (push : Push) (declared : NarInfo) : Prop where
  parsed : NarInfo.parse push.body ingest.dir = .ok declared
  narHash : declared.narHash = .digest push.nar
  narSize : (declared.narSize : ℕ) = push.nar.length

/-- What comes of a push whose body describes its NAR. -/
structure Yields (push : Push) (outcome : Outcome) : Prop
    extends ingest.Describes push outcome.declared where
  compressed : Crates.compress ingest.level.get push.chunks = some outcome.artifact

end Ingest

/-! ## The writes of pushes -/

/-- Entries that are to be written. -/
structure Writes where
  narinfo : StorePath.Hash → NarInfo → Prop
  nar : Sha256 → Entry → Prop
  tree : FilePath → File → Prop

namespace Writes

variable (writes : Writes)

/-- No two of them contradict each other. -/
structure Agree : Prop where
  narinfo : Relator.RightUnique writes.narinfo
  nar : Relator.RightUnique writes.nar
  tree : Relator.RightUnique writes.tree

/-- The writes of a push are among them. -/
structure Cover [Crates] (ingest : Ingest) (outcome : Outcome) : Prop where
  narinfo : writes.narinfo outcome.declared.storePath.hash (outcome.record ingest)
  nar : writes.nar outcome.declared.narHash outcome.entry
  tree : writes.tree (Store.path outcome.url) (.of outcome.artifact)

end Writes

/-- Every entry of a view is as it was or one of the writes. -/
structure View.Approaches (writes : Writes) (view view' : View) : Prop where
  narinfo : Settles writes.narinfo view.narinfo view'.narinfo
  nar : Settles writes.nar view.nar view'.nar
  tree : Settles writes.tree view.tree view'.tree

theorem View.approaches_refl (writes : Writes) (view : View) : view.Approaches writes view :=
  ⟨settles_refl _ _, settles_refl _ _, settles_refl _ _⟩

theorem View.Approaches.trans {writes : Writes} {a b c : View} (hab : a.Approaches writes b)
    (hbc : b.Approaches writes c) : a.Approaches writes c :=
  ⟨hab.narinfo.trans hbc.narinfo, hab.nar.trans hbc.nar, hab.tree.trans hbc.tree⟩

/-- How pushes share a cache that was as in a view: they only write what is to be written. -/
def settling {ι : Type} (writes : Writes) (start : View) : Protocol ι View where
  valid view := start.Approaches writes view
  rely _ view view' := view.Approaches writes view'
  rely_refl _ view := view.approaches_refl writes
  rely_trans := View.Approaches.trans

variable [Crates]

/-- The upload of a push is there. -/
structure Outcome.Stored (outcome : Outcome) (view : View) : Prop where
  nar : view.nar outcome.declared.narHash = some outcome.entry
  tree : view.tree (Store.path outcome.url) = some (.of outcome.artifact)

/-- Everything a push writes is there. -/
structure Outcome.Landed (outcome : Outcome) (ingest : Ingest) (view : View) : Prop
    extends outcome.Stored view where
  narinfo : view.narinfo outcome.declared.storePath.hash = some (outcome.record ingest)

section

variable {writes : Writes} {view view' : View} {ingest : Ingest} {outcome : Outcome}

theorem Outcome.Stored.later (h : outcome.Stored view) (hagree : writes.Agree)
    (hcover : writes.Cover ingest outcome) (happroaches : view.Approaches writes view') :
    outcome.Stored view' :=
  ⟨happroaches.nar.keeps hagree.nar hcover.nar h.nar,
    happroaches.tree.keeps hagree.tree hcover.tree h.tree⟩

theorem Outcome.Landed.later (h : outcome.Landed ingest view) (hagree : writes.Agree)
    (hcover : writes.Cover ingest outcome) (happroaches : view.Approaches writes view') :
    outcome.Landed ingest view' :=
  ⟨h.toStored.later hagree hcover happroaches,
    happroaches.narinfo.keeps hagree.narinfo hcover.narinfo h.narinfo⟩

theorem approaches_commit (hcover : writes.Cover ingest outcome) (view : View) :
    view.Approaches writes (view.commit outcome.url (.of outcome.artifact)) :=
  ⟨settles_refl _ _, settles_refl _ _, settles_update _ hcover.tree⟩

theorem approaches_putNar (hcover : writes.Cover ingest outcome) (view : View) :
    view.Approaches writes (view.putNar outcome.declared.narHash outcome.entry) :=
  ⟨settles_refl _ _, settles_update _ hcover.nar, settles_refl _ _⟩

theorem approaches_publish (hcover : writes.Cover ingest outcome) (view : View) (key : SecretKey) :
    view.Approaches writes (view.publish (outcome.record ingest) key) :=
  ⟨settles_update _ hcover.narinfo, settles_refl _ _, settles_refl _ _⟩

end

/-! ## One push -/

namespace Shared

variable {ι : Type} {env : Env} {contents : Set Bytes} {writes : Writes} {start view : View}
  {ingest : Ingest} {push : Push} {outcome : Outcome} {i : ι} {s : Shared ι} {p : Peer}

omit [Crates] in
theorem Allows.imp {D : Protocol ι View} {f : View → View} {Q Q' : View → Prop}
    (h : Allows D i f Q view) (hQ : ∀ v, Q v → Q' v) : Allows D i f Q' view := by
  intro v hrely hvalid
  obtain ⟨hvalid', hothers, hafter⟩ := h v hrely hvalid
  exact ⟨hvalid', hothers, fun v' hrely' hvalid'' ↦ hQ v' (hafter v' hrely' hvalid'')⟩

omit [Crates] in
/-- A participant may make a change that is one of the writes. -/
theorem allows_of_approaches {f : View → View} {Q : View → Prop}
    (happroaches : ∀ v : View, v.Approaches writes (f v))
    (hQ : ∀ v v', view.Approaches writes v → (f v).Approaches writes v' → Q v') :
    Allows (settling writes start) i f Q view := fun v hrely hvalid ↦
  ⟨hvalid.trans (happroaches v), fun _ _ ↦ happroaches v, fun v' hrely' _ ↦ hQ v v' hrely hrely'⟩

theorem allows_store (hagree : writes.Agree) (hcover : writes.Cover ingest outcome) (view : View) :
    Allows (settling writes start) i (·.commit outcome.url (.of outcome.artifact))
      (Allows (settling writes start) i (·.putNar outcome.declared.narHash outcome.entry)
        outcome.Stored) view := by
  refine allows_of_approaches (approaches_commit hcover) fun v v' _ hv' ↦ ?_
  have htree : v'.tree (Store.path outcome.url) = some (.of outcome.artifact) :=
    hv'.tree.keeps hagree.tree hcover.tree (Function.update_self ..)
  refine allows_of_approaches (approaches_putNar hcover) fun w w' hw hw' ↦ ?_
  refine Outcome.Stored.later ⟨Function.update_self .., ?_⟩ hagree hcover hw'
  exact hw.tree.keeps hagree.tree hcover.tree htree

theorem allows_publish (hagree : writes.Agree) (hcover : writes.Cover ingest outcome)
    (hstored : outcome.Stored view) (key : SecretKey) :
    Allows (settling writes start) i (·.publish (outcome.record ingest) key) (outcome.Landed ingest)
      view := by
  refine allows_of_approaches (approaches_publish hcover · key) fun v v' hv hv' ↦ ?_
  have hlater := hstored.later hagree hcover hv
  have hlanded : outcome.Landed ingest (v.publish (outcome.record ingest) key) :=
    ⟨⟨hlater.nar, hlater.tree⟩, Function.update_self ..⟩
  exact hlanded.later hagree hcover hv'

theorem upholds_writes {D : Protocol ι View} {key : SecretKey} {n : ℕ} {level : Level}
    {expected : Sha256} {upload : Upload Upload.Receiving} {before : List Bytes} {path : FilePath}
    (hpath : upload.staged.path = path)
    (h : Receives env i n level expected upload before s) (chunks : List Bytes) :
    Upholds D env contents key i (chunks.foldlM Upload.write upload).run (fun result _ s' ↦
      match result with
      | .ok upload' => Receives env i n level expected upload' (before ++ chunks) s'
      | .error _ => Fault env ∧ Owning env i n path s') p s := by
  induction chunks generalizing upload before p s with
  | nil =>
    intro s' hrely _
    rw [List.append_nil]
    exact h.later hrely.1
  | cons chunk chunks ih =>
    rw [List.foldlM_cons]
    refine Attempt.safe_bind ((upholds_uploadWrite h).imp ?_)
    rintro (error | upload') p' s' _ hresult
    · exact hpath ▸ hresult
    · have hrest := ih (p := p') (hresult.1.trans hpath) hresult.2
      rwa [List.append_assoc, List.singleton_append] at hrest

/-- All chunks of a NAR go into the upload, or its file is dropped. -/
theorem upholds_chunks {D : Protocol ι View} {key : SecretKey} {n : ℕ} {level : Level}
    {expected : Sha256} {upload : Upload Upload.Receiving}
    (h : Receives env i n level expected upload [] s) (chunks : List Bytes) :
    Upholds D env contents key i
      (Attempt.onError (chunks.foldlM Upload.write upload) upload.staged.drop).run
      (fun result _ s' ↦ match result with
        | .ok upload' => Receives env i n level expected upload' chunks s'
        | .error _ => Tidy env i ∅ s' ∧ Fault env) p s := by
  refine Attempt.safe_onError ((upholds_writes rfl h chunks).imp ?_)
  rintro (error | upload') p' s' _ hresult
  · exact (upholds_drop hresult.2).imp fun _ _ _ _ htidy ↦ ⟨htidy, hresult.1⟩
  · exact hresult

/-- Once the upload of a push is there to stay, its record can be published. -/
theorem upholds_record (hagree : writes.Agree) (hcover : writes.Cover ingest outcome)
    (hyields : ingest.Yields push outcome) (h : Tidy env i ∅ s)
    (hstored : Lasting (settling writes start) i outcome.Stored s) :
    Upholds (settling writes start) env contents ingest.key i (ingest.publish push.body).run
      (fun result _ s' ↦ Tidy env i ∅ s' ∧ match result with
        | .ok record => record = outcome.record ingest ∧ outcome.Landed ingest s'.view
        | .error _ => Fault env) p s := by
  have hpublish : ∀ s', (protocol (settling writes start)).rely i s s' →
      (protocol (settling writes start)).valid s' → ∀ declared entry,
        ingest.Publishable s'.view.nar push.body declared entry →
          Allows (settling writes start) i (·.publish (ingest.record declared entry) ingest.key)
            (fun v ↦ ingest.record declared entry = outcome.record ingest
              ∧ outcome.Landed ingest v) s'.view := by
    intro s' hrely hvalid declared entry' hpublishable
    have hstored' := hstored s' hrely hvalid
    obtain rfl := Except.ok.inj (hyields.parsed.symm.trans hpublishable.parsed)
    obtain rfl := Option.some.inj (hstored'.nar.symm.trans hpublishable.stored)
    exact (allows_publish hagree hcover hstored' ingest.key).imp fun v hlanded ↦ ⟨rfl, hlanded⟩
  refine (upholds_publish (Q := fun record v ↦ record = outcome.record ingest
    ∧ outcome.Landed ingest v) h hpublish).imp ?_
  rintro (error | record) p' s' hvalid' h'
  · -- nothing but a failure can refuse it: the row it looks up is the one that was written
    obtain ⟨htidy, hhostile | ⟨s₁, hrely, hvalid, hnot⟩⟩ := h'
    · exact ⟨htidy, .inl hhostile⟩
    · have hstored' := hstored s₁ hrely hvalid
      exact absurd ⟨hyields.parsed, hstored'.nar, rfl⟩ (hnot outcome.declared outcome.entry)
  · exact ⟨h'.1, h'.2 s' ((protocol (settling writes start)).rely_refl i s') hvalid'⟩

/-- A push fails only when the system or the encoder does, and otherwise everything it writes is
there, whatever the others do meanwhile. -/
theorem upholds_push (hagree : writes.Agree) (hcover : writes.Cover ingest outcome)
    (hyields : ingest.Yields push outcome) (h : Tidy env i ∅ s)
    (hdirs : [Store.staging] ∈ s.1.fs.dirs) :
    Upholds (settling writes start) env contents ingest.key i (ingest.push push).run
      (fun result _ s' ↦ Tidy env i ∅ s' ∧ match result with
        | .ok record => record = outcome.record ingest ∧ outcome.Landed ingest s'.view
        | .error _ => Fault env) p s := by
  refine Attempt.safe_bind ((upholds_receive h).imp ?_)
  rintro (error | upload) p₁ s₁ _ h₁
  · exact ⟨h₁.1, (h₁.2.resolve_left (not_not.mpr rfl)).resolve_right (not_not.mpr hdirs)⟩
  obtain ⟨n, hreceives⟩ := h₁
  refine Attempt.safe_bind (Attempt.safe_context ((upholds_chunks hreceives push.chunks).imp ?_))
  rintro (error | upload') p₂ s₂ _ h₂
  · exact h₂
  refine Attempt.safe_bind (Attempt.safe_context ((upholds_finish h₂).imp ?_))
  rintro (error | compressed) p₃ s₃ _ h₃
  · exact h₃
  obtain ⟨artifact, hpacks⟩ := h₃
  refine Attempt.safe_bind (Attempt.safe_context ((upholds_verify hpacks).imp ?_))
  rintro (error | verified) p₄ s₄ _ h₄
  · -- the NAR is the one that was announced, and not empty
    refine ⟨h₄.1, absurd h₄.2 ?_⟩
    rintro (hne | hnil)
    · exact hne rfl
    · have hlength := hyields.narSize
      rw [Push.nar, hnil] at hlength
      exact outcome.declared.narSize.ne_zero hlength
  obtain ⟨hvouches, hholding⟩ := h₄
  obtain rfl := Option.some.inj (hvouches.compressed.symm.trans hyields.compressed)
  have hentry : outcome.entry = ⟨.digest outcome.artifact, outcome.artifact.length,
      verified.state.narSize, storedAs⟩ := by
    rw [Outcome.entry, PNat.eq (hyields.narSize.trans hvouches.narSize.symm)]
  have hallows : outcome.artifact ∈ contents → ∀ v,
      Allows (settling writes start) i
        (·.commit ⟨.digest outcome.artifact, storedAs⟩ (.of outcome.artifact))
        (Allows (settling writes start) i (·.putNar push.target.fileHash
          ⟨.digest outcome.artifact, outcome.artifact.length, verified.state.narSize, storedAs⟩)
          outcome.Stored) v := by
    intro _ v
    rw [← hentry, show push.target.fileHash = outcome.declared.narHash from hyields.narHash.symm]
    exact allows_store hagree hcover v
  refine Attempt.safe_bind (Attempt.safe_context ((upholds_store hvouches hholding hallows).imp ?_))
  rintro (error | entry) p₅ s₅ _ h₅
  · exact ⟨h₅.1, .inl h₅.2⟩
  exact upholds_record hagree hcover hyields h₅.1 h₅.2

end Shared

end Bincache
