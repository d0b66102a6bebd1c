import Bincache.Ingest.Push
import Bincache.Shared

/-!
# Uploads among others

What one upload may count on while others run: the staging file it opened holds exactly what it
wrote, until it renames it. `Holding` is that fact, and each function of the pipeline takes it to
the next. None of this depends on the protocol on views; `Shared.Allows` is what a caller has to
supply for the two operations a reader can see, the rename and the row.

A `fair` participant also leaves no staging file behind; `Tidy` says so, and says nothing about a
participant whose unlinks may fail.
-/

namespace Bincache

namespace Shared

open Store (Staged)

variable {ι : Type}

/-- Among the others, participant `i` keeps the protocol and ends in `post`. -/
abbrev Upholds {α : Type} (D : Protocol ι View) (env : Env) (contents : Set Bytes) (key : SecretKey)
    (i : ι) (program : Program Ans α) (post : α → Peer → Shared ι → Prop) (p : Peer)
    (s : Shared ι) : Prop :=
  program.Safe (protocol D) (step env contents key) i post p s

variable {D : Protocol ι View} {env : Env} {contents : Set Bytes} {key : SecretKey} {i : ι}
  {s s' : Shared ι} {p p' : Peer} {α : Type} {post : α → Peer → Shared ι → Prop}

theorem Kept.invisible (h : Kept i s s') (hview : s'.view = s.view) (hs : (protocol D).valid s) :
    (protocol D).valid s' ∧ ∀ j, j ≠ i → (protocol D).rely j s s' := by
  refine ⟨⟨h.staging, hview ▸ hs.2⟩, fun j hj ↦ ⟨h.unstaged j hj, ?_⟩⟩
  rw [hview]
  exact D.rely_refl j _

/-- A quiet operation is one more moment at which the others may have moved. -/
theorem upholds_quiet {op : Op} {next : Ans op → Program Ans α} (hquiet : op.Quiet)
    (h : ∀ s₁, (protocol D).rely i s s₁ → (protocol D).valid s₁ → ∀ answer s₂ p₂,
      step env contents key i op (s₁, p) answer (s₂, p₂) → Same s₁ s₂ →
        Upholds D env contents key i (next answer) post p₂ s₂) :
    Upholds D env contents key i (.call op next) post p s := by
  intro s₁ hrely hvalid answer s₂ p₂ hop
  have hsame := same_of_quiet hquiet hop
  obtain ⟨hvalid₂, hothers⟩ := (hsame.kept (i := i) hvalid.1).invisible hsame.view hvalid
  exact ⟨hvalid₂, hothers, h s₁ hrely hvalid answer s₂ p₂ hop hsame⟩

/-- In the view at hand, or whatever the others make of it, participant `i` may apply `f`, and from
then on `Q` holds. -/
def Allows (D : Protocol ι View) (i : ι) (f : View → View) (Q : View → Prop) (v : View) : Prop :=
  ∀ v₁, D.rely i v v₁ → D.valid v₁ → D.valid (f v₁) ∧ (∀ j, j ≠ i → D.rely j v₁ (f v₁))
    ∧ ∀ v₂, D.rely i (f v₁) v₂ → D.valid v₂ → Q v₂

theorem Allows.later {f : View → View} {Q : View → Prop} {v v' : View} (h : Allows D i f Q v)
    (hrely : D.rely i v v') : Allows D i f Q v' :=
  fun v₁ hv₁ hvalid ↦ h v₁ (D.rely_trans hrely hv₁) hvalid

theorem Kept.visible {f : View → View} {Q : View → Prop} (h : Kept i s s')
    (hview : s'.view = f s.view) (hallows : Allows D i f Q s.view) (hs : (protocol D).valid s) :
    (protocol D).valid s' ∧ (∀ j, j ≠ i → (protocol D).rely j s s')
      ∧ ∀ s₂, (protocol D).rely i s' s₂ → (protocol D).valid s₂ → Q s₂.view := by
  obtain ⟨hvalid, hothers, hQ⟩ := hallows s.view (D.rely_refl i _) hs.2
  rw [← hview] at hvalid hothers hQ
  exact ⟨⟨h.staging, hvalid⟩, fun j hj ↦ ⟨h.unstaged j hj, hothers j hj⟩,
    fun s₂ hrely hv ↦ hQ s₂.view hrely.2 hv.2⟩

/-! ## Staging files -/

/-- A fair participant has no staging file but, perhaps, those of the given ordinals. -/
def Tidy (env : Env) (i : ι) (except : Set ℕ) (s : Shared ι) : Prop :=
  env = .fair → ∀ n, s.2.owner n = some i → n ∉ except →
    s.1.fs.links.lookup (Store.stagedPath s.1.pid n) = none

/-- Participant `i` drew the ordinal of a staged upload, and its other files are gone. -/
structure Owning (env : Env) (i : ι) (n : ℕ) (path : FilePath) (s : Shared ι) : Prop where
  owner : s.2.owner n = some i
  path : path = Store.stagedPath s.1.pid n
  tidy : Tidy env i {n} s

/-- `Owning`, and the file holds exactly `data`, at the end of which the upload writes next. -/
structure Holding (env : Env) (i : ι) (n : ℕ) (staged : Staged) (data : Bytes) (s : Shared ι) :
    Prop where
  owning : Owning env i n staged.path s
  names : s.1.fs.Names staged.path staged.inode (.of data)
  offset : staged.offset = data.length

theorem Tidy.later {except : Set ℕ} (h : Tidy env i except s) (hrely : Unstaged i s s') :
    Tidy env i except s' := by
  intro henv n hn hexcept
  have hn' := (hrely.owner n).mp hn
  rw [hrely.pid, hrely.entry n hn']
  exact h henv n hn' hexcept

theorem Owning.later {n : ℕ} {path : FilePath} (h : Owning env i n path s)
    (hrely : Unstaged i s s') :
    Owning env i n path s' :=
  ⟨(hrely.owner n).mpr h.owner, by rw [hrely.pid]; exact h.path, h.tidy.later hrely⟩

theorem Holding.later {n : ℕ} {staged : Staged} {data : Bytes} (h : Holding env i n staged data s)
    (hrely : Unstaged i s s') : Holding env i n staged data s' :=
  ⟨h.owning.later hrely, by
    have := hrely.names n staged.inode (.of data) h.owning.owner (h.owning.path ▸ h.names)
    rwa [← h.owning.path] at this, h.offset⟩

theorem Owning.touched {n : ℕ} {path : FilePath} (h : Owning env i n path s)
    (ht : Touched i n s s') :
    Owning env i n path s' := by
  refine ⟨by rw [ht.owner]; exact h.owner, by rw [ht.pid]; exact h.path, fun henv m hm hne ↦ ?_⟩
  rw [ht.pid, ht.entry m hne]
  exact h.tidy henv m (by rwa [ht.owner] at hm) hne

/-- Once the file of the last ordinal is gone too, the participant is tidy. -/
theorem Owning.tidy_of_gone {n : ℕ} {path : FilePath} (h : Owning env i n path s)
    (hgone : env = .hostile ∨ s.1.fs.links.lookup (Store.stagedPath s.1.pid n) = none) :
    Tidy env i ∅ s := by
  intro henv m hm _
  by_cases hmn : m = n
  · subst hmn
    obtain hhostile | hgone := hgone
    · exact absurd (hhostile.symm.trans henv) (by decide)
    · exact hgone
  · exact h.tidy henv m hm hmn

/-! ## The pipeline -/

theorem upholds_drop {staged : Staged} {n : ℕ} (h : Owning env i n staged.path s) :
    Upholds D env contents key i staged.drop (fun _ _ s' ↦ Tidy env i ∅ s') p s := by
  intro s₁ hrely hvalid answer s₂ p₂ hop
  have h₁ := h.later hrely.1
  rw [h₁.path] at hop
  obtain ⟨ht, hview, hgone⟩ := step_remove hvalid.1 h₁.owner hop
  obtain ⟨hvalid₂, hothers⟩ := ht.toKept.invisible hview hvalid
  refine ⟨hvalid₂, hothers, fun s₃ hrely₃ _ ↦ Tidy.later ?_ hrely₃.1⟩
  exact (h₁.touched ht).tidy_of_gone (by rw [ht.pid]; exact hgone)

/-- Staging fails only when the system does or when there is no staging directory. -/
theorem upholds_stage (h : Tidy env i ∅ s) :
    Upholds D env contents key i Store.stage.run (fun result _ s' ↦ match result with
      | .ok staged => ∃ n, Holding env i n staged [] s'
      | .error _ => Tidy env i ∅ s' ∧ (env = .hostile ∨ [Store.staging] ∉ s.1.fs.dirs)) p s := by
  intro s₁ hrely hvalid n s₂ p₂ hop
  obtain ⟨hkept, hview, hfs, hpid, hnone, howner⟩ := step_nextOrdinal hvalid.1 hop
  obtain ⟨hvalid₂, hothers⟩ := hkept.invisible hview hvalid
  refine ⟨hvalid₂, hothers, ?_⟩
  have howning : Owning env i n (Store.stagedPath s₂.1.pid n) s₂ := by
    refine ⟨by rw [howner, Function.update_self], rfl, fun henv m hm hmn ↦ ?_⟩
    rw [howner, Function.update_of_ne hmn] at hm
    rw [hpid, hfs]
    exact h.later hrely.1 henv m hm (Set.notMem_empty m)
  have hgone : s₂.1.fs.links.lookup (Store.stagedPath s₂.1.pid n) = none := by
    rw [hpid, hfs]
    exact hvalid.1.entry_eq_none hnone
  -- The process id is read next; nothing of this changes meanwhile.
  refine upholds_quiet trivial fun s₃ hrely₃ _ pid s₄ p₄ hop₄ hsame ↦ ?_
  obtain rfl : pid = s₃.1.pid := (of_step_processId hop₄.1).1
  intro s₅ hrely₅ hvalid₅ answer s₆ p₆ hop₆
  have hrely' : Unstaged i s₂ s₅ := (hrely₃.1.trans (hsame.unstaged i)).trans hrely₅.1
  have howning₅ := howning.later hrely'
  have hpid₅ : s₃.1.pid = s₅.1.pid := (hrely₅.1.pid.trans hsame.pid).symm
  rw [hpid₅] at hop₆
  obtain ⟨ht, hview₆, hresult⟩ := step_create hvalid₅.1 howning₅.owner hop₆
  obtain ⟨hvalid₆, hothers₆⟩ := ht.toKept.invisible hview₆ hvalid₅
  refine ⟨hvalid₆, hothers₆, ?_⟩
  obtain ⟨⟨error, rfl⟩, rfl, hreason⟩ | ⟨inode, rfl, hnames⟩ := hresult
  · intro s₇ hrely₇ _
    refine ⟨Tidy.later (howning₅.tidy_of_gone (.inr ?_)) hrely₇.1, hreason.imp_right ?_⟩
    · rw [hrely'.pid, hrely'.entry n howning.owner, hgone]
    · intro hdir hmem
      refine hdir (hrely'.dirs ?_)
      rw [hfs]
      exact hrely.1.dirs hmem
  · intro s₇ hrely₇ _
    have howning₆ : Owning env i n (Store.stagedPath s₃.1.pid n) s₆ := by
      have := howning₅.touched ht
      rwa [← hrely'.pid, ← hpid₅] at this
    refine ⟨n, Holding.later ⟨howning₆, ?_, rfl⟩ hrely₇.1⟩
    rw [hpid₅]
    exact hnames

theorem upholds_write {staged : Staged} {n : ℕ} {data bytes : Bytes}
    (h : Holding env i n staged data s) :
    Upholds D env contents key i (staged.write bytes).run (fun result _ s' ↦ match result with
      | .ok staged' => staged'.path = staged.path ∧ Holding env i n staged' (data ++ bytes) s'
      | .error _ => env = .hostile ∧ Owning env i n staged.path s') p s := by
  intro s₁ hrely hvalid answer s₂ p₂ hop
  have h₁ := h.later hrely.1
  obtain ⟨ht, hview, hresult⟩ := step_writeAt hvalid.1 h₁.owning.owner
    (h₁.owning.path ▸ h₁.names) hop
  obtain ⟨hvalid₂, hothers⟩ := ht.toKept.invisible hview hvalid
  refine ⟨hvalid₂, hothers, ?_⟩
  have howning₂ := h₁.owning.touched ht
  obtain ⟨henv, error, rfl⟩ | ⟨rfl, hnames⟩ := hresult
  · exact fun s₃ hrely₃ _ ↦ ⟨henv, howning₂.later hrely₃.1⟩
  · intro s₃ hrely₃ _
    refine ⟨rfl, Holding.later ⟨howning₂, ?_, ?_⟩ hrely₃.1⟩
    · rw [← h₁.owning.path, h.offset, File.write_end] at hnames
      exact hnames
    · rw [List.length_append]
      exact congrArg (· + bytes.length) h.offset

/-! ## The typestate machine -/

section Upload

variable [Crates]

/-- Why a step of an upload failed, other than by what the client sent. -/
def Fault (env : Env) : Prop := env = .hostile ∨ ¬Crates.EncoderSucceeds

/-- Participant `i` is receiving an upload that has absorbed `chunks`. -/
structure Receives (env : Env) (i : ι) (n : ℕ) (level : Level) (expected : Sha256)
    (upload : Upload Upload.Receiving) (chunks : List Bytes) (s : Shared ι) : Prop where
  expected : upload.expected = expected
  fed : ∃ data, upload.Fed level chunks data ∧ Holding env i n upload.staged data s

/-- Participant `i` has an upload whose staging file holds all of `artifact`. -/
structure Packs (env : Env) (i : ι) (n : ℕ) (level : Level) (expected : Sha256)
    (upload : Upload Upload.Compressed) (chunks : List Bytes) (artifact : Bytes) (s : Shared ι) :
    Prop where
  expected : upload.expected = expected
  packed : upload.Packed level chunks artifact
  holding : Holding env i n upload.staged artifact s

variable {n : ℕ} {level : Level} {expected : Sha256} {chunks : List Bytes} {artifact : Bytes}

theorem Receives.owning {upload : Upload Upload.Receiving}
    (h : Receives env i n level expected upload chunks s) :
    Owning env i n upload.staged.path s := by
  obtain ⟨data, -, hholding⟩ := h.fed
  exact hholding.owning

theorem Receives.later {upload : Upload Upload.Receiving}
    (h : Receives env i n level expected upload chunks s) (hrely : Unstaged i s s') :
    Receives env i n level expected upload chunks s' := by
  obtain ⟨data, hfed, hholding⟩ := h.fed
  exact ⟨h.expected, data, hfed, hholding.later hrely⟩

theorem upholds_new {staged : Staged} (h : Holding env i n staged [] s) :
    Upholds D env contents key i (Upload.new staged expected level).run (fun result _ s' ↦
      match result with
      | .ok upload => Receives env i n level expected upload [] s'
      | .error _ => Tidy env i ∅ s' ∧ Fault env) p s := by
  rw [Upload.new]
  split
  · next encoder hnew =>
    intro s' hrely _
    exact ⟨rfl, [], Upload.fed_nil hnew staged expected, h.later hrely.1⟩
  · next hnew =>
    refine Attempt.safe_bind (Attempt.safe_lift ((upholds_drop h.owning).imp ?_))
    intro _ p' s' _ htidy s'' hrely _
    refine ⟨htidy.later hrely.1, .inr fun hsucceeds ↦ ?_⟩
    exact absurd (hsucceeds.new level.get) (by simp [hnew])

theorem upholds_drain {upload : Upload Upload.Receiving} {data : Bytes}
    (hfed : upload.Fed level chunks data) (h : Holding env i n upload.staged data s) :
    Upholds D env contents key i upload.drain.run (fun result _ s' ↦ match result with
      | .ok upload' => upload'.staged.path = upload.staged.path
        ∧ upload'.expected = upload.expected ∧ upload'.state.encoder = upload.state.encoder
        ∧ ∃ data, upload'.Fed level chunks data ∧ Holding env i n upload'.staged data s'
      | .error _ => Fault env ∧ Owning env i n upload.staged.path s') p s := by
  rw [Upload.drain]
  split
  · intro s' hrely _
    exact ⟨rfl, rfl, rfl, data, hfed, h.later hrely.1⟩
  · refine Attempt.safe_bind (Attempt.safe_context ((upholds_write h).imp ?_))
    rintro (error | staged) p' s' _ hresult
    · exact ⟨.inl hresult.1, hresult.2⟩
    · intro s'' hrely _
      exact ⟨hresult.1, rfl, rfl, _, hfed.drained staged, hresult.2.later hrely.1⟩

theorem upholds_uploadWrite {upload : Upload Upload.Receiving} {chunk : Bytes}
    (h : Receives env i n level expected upload chunks s) :
    Upholds D env contents key i (upload.write chunk).run (fun result _ s' ↦ match result with
      | .ok upload' => upload'.staged.path = upload.staged.path
        ∧ Receives env i n level expected upload' (chunks ++ [chunk]) s'
      | .error _ => Fault env ∧ Owning env i n upload.staged.path s') p s := by
  obtain ⟨hexpected, data, hfed, hholding⟩ := h
  rw [Upload.write]
  split
  · next hwrite =>
    intro s' hrely _
    refine ⟨.inr fun hsucceeds ↦ ?_, hholding.owning.later hrely.1⟩
    exact absurd (hsucceeds.write upload.state.encoder chunk) (by simp [hwrite])
  · next encoder output hwrite =>
    have hfed' := hfed.absorbed hwrite
    dsimp only
    split
    · refine (upholds_drain hfed' hholding).imp ?_
      rintro (error | upload') p' s' _ hresult
      · exact hresult
      · obtain ⟨hpath, hexpected', -, hdata⟩ := hresult
        exact ⟨hpath, hexpected'.trans hexpected, hdata⟩
    · intro s' hrely _
      exact ⟨rfl, hexpected, data, hfed', hholding.later hrely.1⟩

theorem upholds_flush {upload : Upload Upload.Receiving}
    (h : Receives env i n level expected upload chunks s) :
    Upholds D env contents key i upload.flush.run (fun result _ s' ↦ match result with
      | .ok upload' => ∃ artifact, Packs env i n level expected upload' chunks artifact s'
      | .error _ => Fault env ∧ Owning env i n upload.staged.path s') p s := by
  obtain ⟨hexpected, data, hfed, hholding⟩ := h
  rw [Upload.flush]
  refine Attempt.safe_bind ((upholds_drain hfed hholding).imp ?_)
  rintro (error | upload') p' s' _ hresult
  · exact hresult
  obtain ⟨hpath, hexpected', hencoder, data', hfed', hholding'⟩ := hresult
  dsimp only
  split
  · next hfinish =>
    intro s'' hrely _
    refine ⟨.inr fun hsucceeds ↦ ?_, hpath ▸ hholding'.owning.later hrely.1⟩
    exact absurd (hsucceeds.finish upload'.state.encoder) (by simp [hfinish])
  · next rest hfinish =>
    refine Attempt.safe_bind (Attempt.safe_context ((upholds_write hholding').imp ?_))
    rintro (error | staged) p'' s'' _ hresult
    · exact ⟨.inl hresult.1, hpath ▸ hresult.2⟩
    · intro s₃ hrely _
      exact ⟨_, hexpected'.trans hexpected,
        hfed'.packed hfinish staged hresult.2.offset, hresult.2.later hrely.1⟩

theorem upholds_finish {upload : Upload Upload.Receiving}
    (h : Receives env i n level expected upload chunks s) :
    Upholds D env contents key i upload.finish.run (fun result _ s' ↦ match result with
      | .ok upload' => ∃ artifact, Packs env i n level expected upload' chunks artifact s'
      | .error _ => Tidy env i ∅ s' ∧ Fault env) p s := by
  refine Attempt.safe_onError ((upholds_flush h).imp ?_)
  rintro (error | upload') p' s' _ hresult
  · exact (upholds_drop hresult.2).imp fun _ _ _ _ htidy ↦ ⟨htidy, hresult.1⟩
  · exact hresult

theorem upholds_verify {upload : Upload Upload.Compressed}
    (h : Packs env i n level expected upload chunks artifact s) :
    Upholds D env contents key i upload.verify.run (fun result _ s' ↦ match result with
      | .ok upload' => upload'.Vouches level expected chunks artifact
        ∧ Holding env i n upload'.staged artifact s'
      | .error _ => Tidy env i ∅ s'
        ∧ (expected ≠ .digest chunks.flatten ∨ chunks.flatten = [])) p s := by
  obtain ⟨verified, heq, hstaged, hvouches, -⟩ | ⟨error, heq, -, hreason⟩ := h.packed.verify
  · rw [heq]
    refine Attempt.safe_onError fun s' hrely _ ↦ ⟨h.expected ▸ hvouches, ?_⟩
    rw [hstaged]
    exact h.holding.later hrely.1
  · rw [heq]
    refine Attempt.safe_onError fun s' hrely _ ↦ ?_
    refine (upholds_drop (h.holding.owning.later hrely.1)).imp fun _ _ _ _ htidy ↦ ⟨htidy, ?_⟩
    rwa [← h.expected]

/-- `Q` holds now and whatever the others do. -/
def Lasting (D : Protocol ι View) (i : ι) (Q : View → Prop) (s : Shared ι) : Prop :=
  ∀ s', (protocol D).rely i s s' → (protocol D).valid s' → Q s'.view

section Link

omit [Crates]

variable {staged : Staged}

theorem upholds_sync (h : Holding env i n staged artifact s) :
    Upholds D env contents key i (fileCall (.sync staged.inode)).run (fun result _ s' ↦
      match result with
      | .ok _ => Holding env i n staged artifact s'
      | .error _ => env = .hostile ∧ Owning env i n staged.path s') p s := by
  refine upholds_quiet trivial fun s₁ hrely₁ _ answer s₂ p₂ hop hsame ↦ ?_
  have h₂ := (h.later hrely₁.1).later (hsame.unstaged i)
  obtain ⟨-, ⟨henv, rfl⟩ | rfl⟩ := of_step_sync hop.1
  · exact fun s₃ hrely₃ _ ↦ ⟨henv, h₂.owning.later hrely₃.1⟩
  · exact fun s₃ hrely₃ _ ↦ h₂.later hrely₃.1

theorem upholds_createDirAll {dir : FilePath} (h : Holding env i n staged artifact s) :
    Upholds D env contents key i (fileCall (.createDirAll dir)).run (fun result _ s' ↦
      match result with
      | .ok _ => Holding env i n staged artifact s' ∧ dir ∈ s'.1.fs.dirs
      | .error _ => env = .hostile ∧ Owning env i n staged.path s') p s := by
  intro s₁ hrely hvalid answer s₂ p₂ hop
  obtain ⟨ht, hunstaged, hview, hresult⟩ := step_createDirAll (n := n) hvalid.1 hop
  obtain ⟨hvalid₂, hothers⟩ := ht.toKept.invisible hview hvalid
  have h₂ := (h.later hrely.1).later hunstaged
  refine ⟨hvalid₂, hothers, ?_⟩
  obtain ⟨henv, error, rfl⟩ | ⟨rfl, hdir⟩ := hresult
  · exact fun s₃ hrely₃ _ ↦ ⟨henv, h₂.owning.later hrely₃.1⟩
  · exact fun s₃ hrely₃ _ ↦ ⟨h₂.later hrely₃.1, hrely₃.1.dirs hdir⟩

/-- The rename is the first operation of an upload that a reader can see. -/
theorem upholds_rename {url : NarUrl} {Q : View → Prop}
    (h : Holding env i n staged artifact s) (hdir : (Store.path url).dropLast ∈ s.1.fs.dirs)
    (hallows : artifact ∈ contents → ∀ v, Allows D i (·.commit url (.of artifact)) Q v) :
    Upholds D env contents key i (fileCall (.rename staged.path (Store.path url))).run
      (fun result _ s' ↦ match result with
      | .ok _ => Tidy env i ∅ s' ∧ Lasting D i Q s'
      | .error _ => env = .hostile ∧ Owning env i n staged.path s') p s := by
  intro s₁ hrely hvalid answer s₂ p₂ hop
  have h₁ := h.later hrely.1
  rw [h₁.owning.path] at hop
  obtain ⟨ht, hdata, hresult⟩ := step_rename hvalid.1 h₁.owning.owner
    (h₁.owning.path ▸ h₁.names) hop
  have howning₂ := h₁.owning.touched ht
  obtain ⟨⟨error, rfl⟩, rfl, hreason⟩ | ⟨rfl, hview, hgone⟩ := hresult
  · obtain ⟨hvalid₂, hothers⟩ := ht.toKept.invisible rfl hvalid
    refine ⟨hvalid₂, hothers, fun s₃ hrely₃ _ ↦ ⟨?_, howning₂.later hrely₃.1⟩⟩
    exact hreason.resolve_right fun hnot ↦ hnot (hrely.1.dirs hdir)
  · obtain ⟨hvalid₂, hothers, hQ⟩ := ht.toKept.visible hview (hallows hdata _) hvalid
    refine ⟨hvalid₂, hothers, fun s₃ hrely₃ _ ↦
      ⟨Tidy.later ?_ hrely₃.1, fun s₄ hrely₄ hvalid₄ ↦ ?_⟩⟩
    · exact howning₂.tidy_of_gone (.inr (by rw [ht.pid]; exact hgone))
    · exact hQ s₄ ((protocol D).rely_trans hrely₃ hrely₄) hvalid₄

theorem upholds_link {url : NarUrl} {Q : View → Prop} (h : Holding env i n staged artifact s)
    (hallows : artifact ∈ contents → ∀ v, Allows D i (·.commit url (.of artifact)) Q v) :
    Upholds D env contents key i (staged.link (Store.path url)).run (fun result _ s' ↦
      match result with
      | .ok _ => Tidy env i ∅ s' ∧ Lasting D i Q s'
      | .error _ => env = .hostile ∧ Owning env i n staged.path s') p s := by
  refine Attempt.safe_bind (Attempt.safe_context ((upholds_sync h).imp ?_))
  rintro (error | ⟨⟩) p₁ s₁ _ h₁
  · exact h₁
  refine Attempt.safe_bind (Attempt.safe_context ((upholds_createDirAll h₁).imp ?_))
  rintro (error | ⟨⟩) p₂ s₂ _ h₂
  · exact h₂
  refine Attempt.safe_context ((upholds_rename h₂.1 h₂.2 hallows).imp ?_)
  rintro (error | ⟨⟩) p₃ s₃ _ h₃
  · exact h₃
  · exact h₃

theorem upholds_commit {url : NarUrl} {Q : View → Prop} (h : Holding env i n staged artifact s)
    (hallows : artifact ∈ contents → ∀ v, Allows D i (·.commit url (.of artifact)) Q v) :
    Upholds D env contents key i (staged.commit url).run (fun result _ s' ↦ match result with
      | .ok _ => Tidy env i ∅ s' ∧ Lasting D i Q s'
      | .error _ => Tidy env i ∅ s' ∧ env = .hostile) p s := by
  refine Attempt.safe_bind (Attempt.safe_onError ((upholds_link h hallows).imp ?_))
  rintro (error | value) p' s' _ hresult
  · exact (upholds_drop hresult.2).imp fun _ _ _ _ htidy ↦ ⟨htidy, hresult.1⟩
  · exact fun s'' hrely hvalid ↦ ⟨hresult.1.later hrely.1, fun s₃ hrely₃ hvalid₃ ↦
      hresult.2 s₃ ((protocol D).rely_trans hrely hrely₃) hvalid₃⟩

theorem upholds_transaction {op : IndexOp} {f : View → View} {Q : View → Prop}
    (htidy : Tidy env i ∅ s)
    (hview : ∀ s : Shared ι, ∀ s' : Shared ι, s'.1.fs = s.1.fs →
      s'.1.index = (op.run s.1.index).2 → s'.2 = s.2.sign key (Ledger.signed op) →
      s'.view = f s.view)
    (hallows : Lasting D i (Allows D i f Q) s) :
    Upholds D env contents key i (indexCall op).run (fun result _ s' ↦ match result with
      | .ok _ => Tidy env i ∅ s' ∧ Lasting D i Q s'
      | .error _ => Tidy env i ∅ s' ∧ env = .hostile) p s := by
  intro s₁ hrely hvalid answer s₂ p₂ hop
  obtain ⟨ht, hunstaged, hfs, hresult⟩ := step_index (n := 0) hvalid.1 hop
  have htidy₂ := (htidy.later hrely.1).later hunstaged
  obtain ⟨henv, rfl, rfl⟩ | ⟨rfl, hindex, hledger⟩ := hresult
  · obtain ⟨hvalid₂, hothers⟩ := ht.toKept.invisible rfl hvalid
    exact ⟨hvalid₂, hothers, fun s₃ hrely₃ _ ↦ ⟨htidy₂.later hrely₃.1, henv⟩⟩
  · obtain ⟨hvalid₂, hothers, hQ⟩ := ht.toKept.visible (hview s₁ s₂ hfs hindex hledger)
      (hallows s₁ hrely hvalid) hvalid
    refine ⟨hvalid₂, hothers, fun s₃ hrely₃ _ ↦ ⟨htidy₂.later hrely₃.1, fun s₄ hrely₄ hvalid₄ ↦ ?_⟩⟩
    exact hQ s₄ ((protocol D).rely_trans hrely₃ hrely₄) hvalid₄

theorem view_putNar {narHash : Sha256} {entry : Entry} (s s' : Shared ι) (hfs : s'.1.fs = s.1.fs)
    (hindex : s'.1.index = ((IndexOp.putNar narHash entry).run s.1.index).2)
    (hledger : s'.2 = s.2.sign key (Ledger.signed (.putNar narHash entry))) :
    s'.view = s.view.putNar narHash entry := by
  rw [view, view, View.putNar, hfs, hindex, hledger]
  refine View.ext rfl (funext fun narHash' ↦ ?_) rfl rfl
  exact (Index.nar_putNar _ _ _ _).trans (Function.update_apply _ _ _ _).symm

theorem view_publish {record : NarInfo} (s s' : Shared ι) (hfs : s'.1.fs = s.1.fs)
    (hindex : s'.1.index = ((IndexOp.publish record).run s.1.index).2)
    (hledger : s'.2 = s.2.sign key (Ledger.signed (.publish record))) :
    s'.view = s.view.publish record key := by
  rw [view, view, View.publish, hfs, hindex, hledger]
  refine View.ext (funext fun key' ↦ ?_) rfl rfl rfl
  exact (Index.narinfo_publish _ _ _).trans (Function.update_apply _ _ _ _).symm

end Link

/-- Storing a verified upload: the artifact first, then the row that names it. -/
theorem upholds_store {upload : Upload Upload.Verified} {Q : View → Prop}
    (h : upload.Vouches level expected chunks artifact)
    (hholding : Holding env i n upload.staged artifact s)
    (hallows : artifact ∈ contents → ∀ v,
      Allows D i (·.commit ⟨.digest artifact, storedAs⟩ (.of artifact))
        (Allows D i (·.putNar expected
          ⟨.digest artifact, artifact.length, upload.state.narSize, storedAs⟩) Q) v) :
    Upholds D env contents key i upload.store.run (fun result _ s' ↦ match result with
      | .ok _ => Tidy env i ∅ s' ∧ Lasting D i Q s'
      | .error _ => Tidy env i ∅ s' ∧ env = .hostile) p s := by
  rw [Upload.store]
  dsimp only
  rw [h.narHash, h.fileHash, h.fileSize]
  refine Attempt.safe_bind (Attempt.safe_context ((upholds_commit hholding hallows).imp ?_))
  rintro (error | value) p₁ s₁ _ h₁
  · exact h₁
  refine Attempt.safe_bind (Attempt.safe_context
    ((upholds_transaction h₁.1 view_putNar h₁.2).imp ?_))
  rintro (error | ⟨⟩) p₂ s₂ _ h₂
  · exact h₂
  · exact fun s₃ hrely₃ hvalid₃ ↦ ⟨h₂.1.later hrely₃.1, fun s₄ hrely₄ hvalid₄ ↦
      h₂.2 s₄ ((protocol D).rely_trans hrely₃ hrely₄) hvalid₄⟩

/-! ## The two halves of a push -/

theorem upholds_receive {ingest : Ingest} {target : NarUrl} (h : Tidy env i ∅ s) :
    Upholds D env contents key i (ingest.receive target).run (fun result _ s' ↦ match result with
      | .ok upload => ∃ n, Receives env i n ingest.level target.fileHash upload [] s'
      | .error _ => Tidy env i ∅ s' ∧ (target.compression ≠ .none ∨ Fault env
        ∨ [Store.staging] ∉ s.1.fs.dirs)) p s := by
  rw [Ingest.receive]
  split
  · refine Attempt.safe_bind (Attempt.safe_context ((upholds_stage h).imp ?_))
    rintro (error | staged) p₁ s₁ _ h₁
    · exact ⟨h₁.1, .inr (h₁.2.imp .inl id)⟩
    obtain ⟨n, hholding⟩ := h₁
    refine Attempt.safe_context ((upholds_new hholding).imp ?_)
    rintro (error | upload) p₂ s₂ _ h₂
    · exact ⟨h₂.1, .inr (.inl h₂.2)⟩
    · exact ⟨n, h₂⟩
  · next hcompression =>
    intro s' hrely _
    exact ⟨h.later hrely.1, .inl hcompression⟩

/-- The publish of a body: the row it reads is the one in the table at that moment. -/
theorem upholds_publish {ingest : Ingest} {body : Text} {Q : NarInfo → View → Prop}
    (h : Tidy env i ∅ s)
    (hallows : ∀ s', (protocol D).rely i s s' → (protocol D).valid s' → ∀ declared entry,
      ingest.Publishable s'.view.nar body declared entry →
        Allows D i (·.publish (ingest.record declared entry) ingest.key)
          (Q (ingest.record declared entry)) s'.view) :
    Upholds D env contents ingest.key i (ingest.publish body).run (fun result _ s' ↦
      match result with
      | .ok record => Tidy env i ∅ s' ∧ Lasting D i (Q record) s'
      | .error _ => Tidy env i ∅ s' ∧ (env = .hostile
        ∨ ∃ s₁, (protocol D).rely i s s₁ ∧ (protocol D).valid s₁
          ∧ ∀ declared entry, ¬ingest.Publishable s₁.view.nar body declared entry)) p s := by
  cases hparse : NarInfo.parse body ingest.dir with
  | error error =>
    rw [ingest.publish_of_error hparse]
    intro s' hrely hvalid
    refine ⟨h.later hrely.1, .inr ⟨s', hrely, hvalid, fun declared entry hpublishable ↦ ?_⟩⟩
    exact absurd (hparse.symm.trans hpublishable.parsed) (by simp)
  | ok declared =>
    rw [ingest.publish_of_ok hparse]
    refine Attempt.safe_bind (Attempt.safe_context (upholds_quiet trivial
      fun s₁ hrely₁ hvalid₁ answer s₂ p₂ hop hsame ↦ ?_))
    have htidy₂ := (h.later hrely₁.1).later (hsame.unstaged i)
    have hsame_rely : (protocol D).rely i s₁ s₂ :=
      ⟨hsame.unstaged i, by rw [hsame.view]; exact D.rely_refl i _⟩
    obtain ⟨henv, rfl, -⟩ | ⟨rfl, -⟩ := of_step_index hop.1
    · exact fun s₃ hrely₃ _ ↦ ⟨htidy₂.later hrely₃.1, .inl henv⟩
    intro s₃ hrely₃ _
    have htidy₃ := htidy₂.later hrely₃.1
    -- a refusal is about the table at the lookup, which later ones need not agree with
    have hrefused : (∀ declared entry, ¬ingest.Publishable s₁.view.nar body declared entry) →
        ∀ s', (protocol D).rely i s₃ s' → Tidy env i ∅ s' ∧ (env = .hostile
          ∨ ∃ s₁, (protocol D).rely i s s₁ ∧ (protocol D).valid s₁
            ∧ ∀ declared entry, ¬ingest.Publishable s₁.view.nar body declared entry) :=
      fun hnot s' hrely' ↦ ⟨htidy₃.later hrely'.1, .inr ⟨s₁, hrely₁, hvalid₁, hnot⟩⟩
    change Upholds D env contents ingest.key i
      (ingest.publishEntry declared (s₁.view.nar declared.narHash)).run _ p₂ s₃
    cases hentry : s₁.view.nar declared.narHash with
    | none =>
      refine fun s' hrely' _ ↦ hrefused (fun declared' entry hpublishable ↦ ?_) s' hrely'
      cases hparse.symm.trans hpublishable.parsed
      exact absurd (hentry.symm.trans hpublishable.stored) (by simp)
    | some entry =>
      rw [Ingest.publishEntry]
      split
      · next hsize =>
        -- the row may be gone by now; what was allowed at the lookup is allowed still
        have hallowed : Lasting D i (Allows D i
            (·.publish (ingest.record declared entry) ingest.key)
            (Q (ingest.record declared entry))) s₃ := fun s₄ hrely₄ _ ↦
          (hallows s₁ hrely₁ hvalid₁ declared entry ⟨hparse, hentry, hsize⟩).later
            ((protocol D).rely_trans hsame_rely ((protocol D).rely_trans hrely₃ hrely₄)).2
        refine Attempt.safe_bind (Attempt.safe_context
          ((upholds_transaction htidy₃ view_publish hallowed).imp ?_))
        rintro (error | ⟨⟩) p₄ s₄ _ h₄
        · exact ⟨h₄.1, .inl h₄.2⟩
        · exact fun s₅ hrely₅ _ ↦ ⟨h₄.1.later hrely₅.1, fun s₆ hrely₆ hvalid₆ ↦
            h₄.2 s₆ ((protocol D).rely_trans hrely₅ hrely₆) hvalid₆⟩
      · next hsize =>
        refine fun s' hrely' _ ↦ hrefused (fun declared' entry' hpublishable ↦ ?_) s' hrely'
        cases hparse.symm.trans hpublishable.parsed
        cases hentry.symm.trans hpublishable.stored
        exact hsize hpublishable.narSize

end Upload

end Shared

end Bincache
