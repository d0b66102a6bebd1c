import Bincache.Serve.Quiet
import Bincache.SharedUpload

/-!
# Connections among others

A whole session — any number of requests of any kind, from any bytes a peer may send — keeps a
protocol on views as soon as three changes do: committing an artifact, writing the row that names
it, and publishing a record. `Permits` states that for one cache, and `upholds_session` is what the
rest of the development uses; which protocol it is makes no difference here.
-/

namespace Bincache

namespace Shared

open Cache

variable {ι : Type} {D : Protocol ι View} {env : Env} {contents : Set Bytes} {i : ι}
  {s s' : Shared ι} {p p' : Peer} {α : Type}

/-- What the others leave alone, quiet operations leave alone. -/
theorem upholds_keeping {key : SecretKey} {R : Shared ι → Prop}
    (hR : ∀ s s', Unstaged i s s' → R s → R s') {program : Program Ans α}
    (hquiet : program.Uses Op.Quiet) (h : R s) :
    Upholds D env contents key i program (fun _ _ s' ↦ R s') p s := by
  induction program generalizing p s with
  | done value => exact fun s' hrely _ ↦ hR s s' hrely.1 h
  | call op next ih =>
    refine upholds_quiet hquiet.1 fun s₁ hrely _ answer s₂ p₂ _ hsame ↦ ?_
    exact ih answer (hquiet.2 answer) (hR s₁ s₂ (hsame.unstaged i) (hR s s₁ hrely.1 h))

theorem upholds_tidy {key : SecretKey} {program : Program Ans α} (hquiet : program.Uses Op.Quiet)
    (h : Tidy env i ∅ s) :
    Upholds D env contents key i program (fun _ _ s' ↦ Tidy env i ∅ s') p s :=
  upholds_keeping (fun _ _ hrely htidy ↦ Tidy.later htidy hrely) hquiet h

variable [Crates]

/-- The changes of a view that the writes of a cache come to. -/
structure Permits (D : Protocol ι View) (contents : Set Bytes) (i : ι) (ingest : Ingest) :
    Prop where
  /-- An artifact is committed, and then the row that names it is written. -/
  store : ∀ chunks artifact (narSize : ℕ+), artifact ∈ contents →
    Crates.compress ingest.level.get chunks = some artifact →
    (narSize : ℕ) = chunks.flatten.length → ∀ v,
      Allows D i (·.commit ⟨.digest artifact, storedAs⟩ (.of artifact))
        (Allows D i (·.putNar (.digest chunks.flatten)
          ⟨.digest artifact, artifact.length, narSize, storedAs⟩) fun _ ↦ True) v
  /-- A body is published. -/
  publish : ∀ body declared entry v, D.valid v →
    ingest.Publishable v.nar body declared entry →
      Allows D i (·.publish (ingest.record declared entry) ingest.key) (fun _ ↦ True) v

variable {cache : Cache} {exchange : Exchange}

/-- The state of an upload whose body is being read. -/
private theorem Receives.steady {n : ℕ} {level : Level} {expected : Sha256}
    {upload : Upload Upload.Receiving} {chunks : List Bytes} (s s' : Shared ι)
    (hrely : Unstaged i s s') (h : Receives env i n level expected upload chunks s) :
    Receives env i n level expected upload chunks s' := h.later hrely

theorem upholds_absorbBody {key : SecretKey} {n : ℕ} {level : Level} {expected : Sha256}
    {upload : Upload Upload.Receiving} {chunks : List Bytes} {path : FilePath}
    (hpath : upload.staged.path = path) (h : Receives env i n level expected upload chunks s)
    (connection : Connection) (remaining : ℕ) :
    Upholds D env contents key i (absorbBody upload connection remaining).run (fun result _ s' ↦
      match result with
      | .ok (upload', _) => upload'.staged.path = path
        ∧ ∃ chunks, Receives env i n level expected upload' chunks s'
      | .error _ => Owning env i n path s') p s := by
  induction remaining using Nat.strong_induction_on generalizing upload connection chunks p s with
  | _ remaining ih =>
    rw [absorbBody]
    split
    · refine Attempt.safe_bind (Attempt.safe_context ((upholds_keeping Receives.steady
        (Connection.reads_chunk connection remaining) h).imp ?_))
      rintro (error | ⟨chunk, connection'⟩) p₁ s₁ _ h₁
      · exact hpath ▸ h₁.owning
      dsimp only [Except.mapError]
      split
      · exact fun s₂ hrely _ ↦ ⟨hpath, chunks, h₁.later hrely.1⟩
      · next hne =>
        refine Attempt.safe_bind (Attempt.safe_context ((upholds_uploadWrite h₁).imp ?_))
        rintro (error | upload') p₂ s₂ _ h₂
        · exact hpath ▸ h₂.2
        have hlt : remaining - chunk.length < remaining := by
          have := List.length_pos_of_ne_nil hne
          omega
        exact ih _ hlt (h₂.1.trans hpath) h₂.2 connection'
    · exact fun s₂ hrely _ ↦ ⟨hpath, chunks, h.later hrely.1⟩

private theorem upholds_upload {n : ℕ} {url : NarUrl} {length : ℕ} {key : SecretKey}
    (hpermits : Permits D contents i cache.ingest) {upload : Upload Upload.Receiving}
    (h : Receives env i n cache.ingest.level url.fileHash upload [] s) :
    Upholds D env contents key i (do
        let (upload, connection) ← Attempt.onError (do
          proceed exchange
          absorbBody upload exchange.connection length) upload.staged.drop
        let compressed ← upload.finish.context .upload
        match ← compressed.verify.result with
        | .error error => do
          let keepAlive ← refuse exchange (.new error.fault error.message) .consumed
          pure (keepAlive, connection)
        | .ok verified => do
          let _ ← verified.store.context .upload
          bump exchange.shard .uploads 1
          let keepAlive ← answer exchange .created .consumed
          pure (keepAlive, connection) : Call Handler.Error (Http.KeepAlive × Connection)).run
      (fun _ _ s' ↦ Tidy env i ∅ s') p s := by
  refine Attempt.safe_bind (Attempt.safe_onError (Attempt.safe_bind
    ((upholds_keeping Receives.steady (reads_proceed exchange) h).imp ?_)))
  rintro (error | ⟨⟩) p₁ s₁ _ h₁
  · exact upholds_drop h₁.owning
  refine (upholds_absorbBody rfl h₁ exchange.connection length).imp ?_
  rintro (error | ⟨upload', connection⟩) p₂ s₂ _ h₂
  · exact upholds_drop h₂
  obtain ⟨-, chunks, h₂⟩ := h₂
  dsimp only
  refine Attempt.safe_bind (Attempt.safe_context ((upholds_finish h₂).imp ?_))
  rintro (error | compressed) p₃ s₃ _ h₃
  · exact h₃.1
  obtain ⟨artifact, hpacks⟩ := h₃
  refine Attempt.safe_bind (Attempt.safe_result ((upholds_verify hpacks).imp ?_))
  rintro (error | verified) p₄ s₄ _ h₄
  · exact upholds_tidy (Attempt.uses_bind (reads_refuse exchange _ _) fun _ ↦ trivial) h₄.1
  obtain ⟨hvouches, hholding⟩ := h₄
  -- what may be committed is what the permit of the cache says, by the digest that was checked
  have hallows : artifact ∈ contents → ∀ v,
      Allows D i (·.commit ⟨.digest artifact, storedAs⟩ (.of artifact))
        (Allows D i (·.putNar url.fileHash
          ⟨.digest artifact, artifact.length, verified.state.narSize, storedAs⟩)
          fun _ ↦ True) v := by
    rw [hvouches.expected]
    exact fun hmem ↦ hpermits.store _ _ _ hmem hvouches.compressed hvouches.narSize
  refine Attempt.safe_bind (Attempt.safe_context ((upholds_store hvouches hholding hallows).imp ?_))
  rintro (error | entry) p₅ s₅ _ h₅
  · exact h₅.1
  exact upholds_tidy (Attempt.uses_bind (reads_bump _ _ _) fun _ ↦
    Attempt.uses_bind (reads_answer exchange _ _) fun _ ↦ trivial) h₅.1

theorem upholds_put_nar {key : SecretKey} (hpermits : Permits D contents i cache.ingest)
    (url : NarUrl) (h : Tidy env i ∅ s) :
    Upholds D env contents key i (cache.receive exchange url).run (fun _ _ s' ↦ Tidy env i ∅ s')
      p s := by
  refine Attempt.safe_bind ((upholds_tidy (reads_admitRequest cache) h).imp ?_)
  rintro (error | admission) p₁ s₁ _ h₁
  · exact h₁
  dsimp only
  split
  · exact upholds_tidy (Attempt.uses_map (reads_answer exchange _ _)) h₁
  split
  · refine Attempt.safe_bind (Attempt.safe_result ((upholds_receive h₁).imp ?_))
    rintro (error | upload) p₂ s₂ _ h₂
    · exact upholds_tidy (Attempt.uses_map (reads_refuse exchange _ _)) h₂.1
    obtain ⟨n, hreceives⟩ := h₂
    exact upholds_upload hpermits hreceives
  · exact upholds_tidy (Attempt.uses_map (reads_answer exchange _ _)) h₁

theorem upholds_put_narinfo (hpermits : Permits D contents i cache.ingest) (h : Tidy env i ∅ s) :
    Upholds D env contents cache.ingest.key i (cache.publish exchange).run
      (fun _ _ s' ↦ Tidy env i ∅ s') p s := by
  refine Attempt.safe_bind ((upholds_tidy (reads_admitRequest cache) h).imp ?_)
  rintro (error | admission) p₁ s₁ _ h₁
  · exact h₁
  dsimp only
  split
  · exact upholds_tidy (Attempt.uses_map (reads_answer exchange _ _)) h₁
  split
  · next length _ =>
    split
    · exact upholds_tidy (Attempt.uses_map (reads_answer exchange _ _)) h₁
    refine Attempt.safe_bind ((upholds_tidy (reads_proceed exchange) h₁).imp ?_)
    rintro (error | ⟨⟩) p₂ s₂ _ h₂
    · exact h₂
    refine Attempt.safe_bind (Attempt.safe_context ((upholds_tidy
      (Connection.reads_body exchange.connection length) h₂).imp ?_))
    rintro (error | ⟨body, connection⟩) p₃ s₃ _ h₃
    · exact h₃
    dsimp only [Except.mapError]
    cases Text.fromUtf8 body with
    | none =>
      exact upholds_tidy (Attempt.uses_bind (reads_answer exchange _ _) fun _ ↦ trivial) h₃
    | some text =>
      refine Attempt.safe_bind (Attempt.safe_result ((upholds_publish (Q := fun _ _ ↦ True) h₃
        fun s' _ hvalid declared entry hpublishable ↦
          hpermits.publish text declared entry s'.view hvalid.2 hpublishable).imp ?_))
      rintro (error | record) p₄ s₄ _ h₄
      · exact upholds_tidy (Attempt.uses_bind (reads_refuse exchange _ _) fun _ ↦ trivial) h₄.1
      · exact upholds_tidy (Attempt.uses_bind (reads_answer exchange _ _) fun _ ↦ trivial) h₄.1
  · exact upholds_tidy (Attempt.uses_map (reads_answer exchange _ _)) h₁

theorem upholds_handle (hpermits : Permits D contents i cache.ingest) (h : Tidy env i ∅ s) :
    Upholds D env contents cache.ingest.key i (cache.handle exchange).run
      (fun _ _ s' ↦ Tidy env i ∅ s') p s := by
  by_cases hput : exchange.request.method = .put
  · refine Attempt.safe_bind ((upholds_tidy (reads_bump _ _ _) h).imp ?_)
    rintro (error | ⟨⟩) p₁ s₁ _ h₁
    · exact h₁
    dsimp only
    split
    · exact upholds_tidy (Attempt.uses_map (reads_answer exchange _ _)) h₁
    split
    · next route _ =>
      cases route with
      | cacheInfo => exact upholds_tidy (Attempt.uses_map (reads_send exchange _ _)) h₁
      | metrics => exact upholds_tidy (Attempt.uses_map (reads_metrics exchange cache trivial)) h₁
      | narinfo key =>
        rw [dispatch, if_pos hput]
        exact upholds_put_narinfo hpermits h₁
      | nar url =>
        rw [dispatch, hput]
        exact upholds_put_nar hpermits url h₁
    · exact upholds_tidy (Attempt.uses_map (reads_answer exchange _ _)) h₁
    · exact upholds_tidy (Attempt.uses_map (reads_answer exchange _ _)) h₁
  · exact upholds_tidy (quiet_handle cache fun h ↦ absurd h hput) h

theorem upholds_turn (hpermits : Permits D contents i cache.ingest) (shard : ℕ)
    (connection : Connection) (h : Tidy env i ∅ s) :
    Upholds D env contents cache.ingest.key i (cache.turn shard connection).run
      (fun _ _ s' ↦ Tidy env i ∅ s') p s := by
  refine Attempt.safe_bind (Attempt.safe_context
    ((upholds_tidy (Connection.reads_head connection) h).imp ?_))
  rintro (error | ⟨head, connection'⟩) p₁ s₁ _ h₁
  · exact h₁
  dsimp only [Except.mapError]
  cases head with
  | none => exact fun s' hrely _ ↦ h₁.later hrely.1
  | some head =>
    dsimp only [attend]
    split
    · exact upholds_tidy (Attempt.uses_bind (reads_write _) fun _ ↦ trivial) h₁
    · refine Attempt.safe_bind ((upholds_handle hpermits h₁).imp ?_)
      rintro (error | ⟨keepAlive, connection''⟩) p₂ s₂ _ h₂
      · exact h₂
      · exact fun s' hrely _ ↦ h₂.later hrely.1

theorem upholds_session (hpermits : Permits D contents i cache.ingest) (shard turns : ℕ)
    (connection : Connection) (h : Tidy env i ∅ s) :
    Upholds D env contents cache.ingest.key i (cache.session shard turns connection).run
      (fun _ _ s' ↦ Tidy env i ∅ s') p s := by
  induction turns generalizing connection p s with
  | zero => exact fun s' hrely _ ↦ h.later hrely.1
  | succ turns ih =>
    refine Attempt.safe_bind ((upholds_turn hpermits shard connection h).imp ?_)
    rintro (error | ⟨turn, connection'⟩) p₁ s₁ _ h₁
    · exact h₁
    dsimp only
    split
    · exact ih _ h₁
    · exact fun s' hrely _ ↦ h₁.later hrely.1

end Shared

end Bincache
